import Gatework.Proofs.Builder.Gates
import Gatework.Proofs.Npn.Filling
import Gatework.Proofs.Synthesis.Gatewise

/-!
# Catalogues of networks of gates

`Catalogue.Built` holds of the catalogues that come about by storing networks of gates, one by one or
class by class.  Storing transforms a network, and the result is a network of gates again, so all
networks that are listed are (`Built.ofGates`).

The methods of synthesis make networks of gates, and a catalogue of such networks leads to such
networks, so filling in classes by them is one of the ways (`Method.makes_gates`).
-/

namespace Gatework

open Builder

/-! ## What the methods make -/

lemma gatewise_gates (width : Nat) :
    Gatewise width fun b b' => b.Shaped CellKind.IsGate → b'.Shaped CellKind.IsGate where
  toComposes := composes_gates
  addCell symbol links _ := gates_addCell symbol links
  addConst := gates_addConst

lemma SumOfProducts.ofGates_synthesize {n arity : Nat} {r : Requirement n} {net : Subnet}
    (run : synthesize r arity = .ok net) : net.OfGates := by
  have h := gatewise_gates (max 2 arity)
  refine shaped_toSubnet (h.bind (gates_addInputs n) fun inputs => ?_) run
  exact h.bind (h.addFunction _ r) fun l => (gates_addOutput l).discard

lemma BiDecomposition.ofGates_synthesize {n arity : Nat} {r : Requirement n} {net : Subnet}
    (run : synthesize r arity = .ok net) : net.OfGates := by
  have h := gatewise_gates (max 2 arity)
  refine shaped_toSubnet (h.bind (gates_addInputs n) fun inputs => ?_) run
  exact h.bind (h.decompose _ _ r) fun realized => (gates_addOutput realized.link).discard

namespace Catalogue

variable {store store' : Store} {c c' : Catalogue} {net : Subnet} {added : Option Nat} {pushed : List Subnet}

/-- The listed networks are networks of gates. -/
def OfGates (store : Store) (c : Catalogue) : Prop :=
  ∀ p ∈ c.positions, ∃ net, store.subnets[p]? = some net ∧ net.OfGates

lemma OfGates.extends (h : OfGates store c) (grows : store.Extends store') : OfGates store' c := by
  intro p hp
  obtain ⟨net, hnet, gates⟩ := h p hp
  exact ⟨net, grows.subnets p net hnet, gates⟩

/-- A network of gates that is stored was evaluated before. -/
lemma evaluable_of_insert (gates : net.OfGates) (step : c.insert store net = .ok (added, store', c')) :
    store.Evaluable net := by
  unfold Catalogue.insert at step
  split at step
  · cases step
  obtain ⟨tables, htables, -⟩ := bind_eq_ok_iff.1 step
  exact gates.evaluable htables store

/-- Storing a network of gates keeps the listed networks networks of gates. -/
theorem insert_ofGates (h : OfGates store c) (gates : net.OfGates)
    (step : c.insert store net = .ok (added, store', c')) : OfGates store' c' := by
  have evaluable := evaluable_of_insert gates step
  have grows := extends_insert evaluable step
  obtain ⟨f, -, -, ⟨-, -, rfl, rfl⟩ | ⟨form, t, stored, hstored, rfl, found⟩⟩ :=
    insert_cases evaluable step
  · exact h
  rcases found with ⟨p, -, -, rfl⟩ | ⟨-, -, rfl⟩
  · exact h.extends grows
  · intro p hp
    rcases List.mem_cons.1 (positions_listed.subset hp) with rfl | hp
    · exact ⟨stored, by simp [Store.addSubnet], gates.onSubnet hstored.run⟩
    · exact h.extends grows p hp

/-- A network that is found is transformed into a network of gates. -/
lemma OfGates.realize (h : OfGates store c) {n : Nat} {f : TruthTable n} {finding : Finding}
    (hfind : c.find? f = some finding) {i : Nat} (run : finding.realize store i = .ok net) :
    net.OfGates := by
  obtain ⟨form, t, networks, -, hnetworks, rfl⟩ := find?_eq_some_iff.1 hfind
  unfold Finding.realize at run
  split at run
  · rename_i stored hstored
    obtain ⟨p, hp, hstored⟩ := Option.bind_eq_some_iff.1 hstored
    have hlisted : p ∈ c.positions :=
      List.mem_flatMap.2 ⟨_, mem_of_lookup hnetworks, List.mem_of_getElem? hp⟩
    obtain ⟨net', hnet', gates⟩ := h p hlisted
    cases hstored.symm.trans hnet'
    exact gates.onSubnet run
  · cases run

end Catalogue

namespace Method

variable {store : Store} {m : Method}

/-- A method whose catalogue, if it has one, lists networks of gates. -/
def OfGates (store : Store) : Method → Prop
  | sumOfProducts | biDecomposition => True
  | catalogue c => c.OfGates store

lemma OfGates.extends {store' : Store} (h : m.OfGates store) (grows : store.Extends store') :
    m.OfGates store' := by
  cases m with
  | sumOfProducts => trivial
  | biDecomposition => trivial
  | catalogue c => exact Catalogue.OfGates.extends h grows

/-- What a method makes is a network of gates. -/
lemma ofGates_synthesize (h : m.OfGates store) {n arity : Nat} {f : TruthTable n}
    {care : Option (TruthTable n)} {net : Subnet}
    (run : m.synthesize store f care arity = .ok (some net)) : net.OfGates := by
  cases m with
  | sumOfProducts =>
      obtain ⟨_, hrun, ⟨⟩⟩ := map_eq_ok_iff.1 run
      exact SumOfProducts.ofGates_synthesize hrun
  | biDecomposition =>
      obtain ⟨_, hrun, ⟨⟩⟩ := map_eq_ok_iff.1 run
      exact BiDecomposition.ofGates_synthesize hrun
  | catalogue c =>
      rw [synthesize] at run
      split at run
      · cases run
      · rename_i finding hfind
        split at run
        · cases run
        · obtain ⟨_, hrun, ⟨⟩⟩ := map_eq_ok_iff.1 run
          exact Catalogue.OfGates.realize h hfind hrun

/-- The methods make networks of gates that can be evaluated. -/
theorem makes_gates (sound : m.Sound store) (h : m.OfGates store) :
    m.resynthesizer.Makes store fun store net => store.Evaluable net ∧ net.OfGates := by
  intro store₁ grows n f hn store₂ result run
  obtain ⟨grows', evaluable⟩ := makes sound store₁ grows f hn store₂ result run
  refine ⟨grows', fun net hnet => ⟨evaluable net hnet, ?_⟩⟩
  obtain ⟨made, hmade, run⟩ := bind_eq_ok_iff.1 run
  cases made with
  | none =>
      cases run
      cases hnet
  | some made =>
      cases run
      cases hnet
      exact ofGates_synthesize (h.extends grows) hmade

end Method

namespace Catalogue

variable {store store' : Store} {c c' : Catalogue}

/-- The catalogues that come about by storing networks of gates and by filling in classes with them,
while the store may grow at any time. -/
inductive Built : Store → Catalogue → Prop
  | empty (store : Store) : Built store .empty
  | grow {store store' : Store} {c : Catalogue} (h : Built store c) (grows : store.Extends store') :
      Built store' c
  | push {store store' : Store} {c c' : Catalogue} {net : Subnet} {added : Option Nat}
      (h : Built store c) (gates : net.OfGates)
      (step : c.insert store net = .ok (added, store', c')) : Built store' c'
  | populate {store store' : Store} {c c' : Catalogue} {methods : List Resynthesizer}
      {maxVariables count : Nat} (h : Built store c)
      (makes : ∀ m ∈ methods, m.Makes store fun store net => store.Evaluable net ∧ net.OfGates)
      (run : c.populate store maxVariables methods = .ok (count, store', c')) : Built store' c'

/-- All that such a catalogue is filled with are networks of gates. -/
theorem Built.exists_filling (h : Built store c) :
    ∃ pushed, Filling store c pushed ∧ ∀ net ∈ pushed, net.OfGates := by
  induction h with
  | empty store => exact ⟨[], .empty store, by simp⟩
  | grow _ grows ih =>
      obtain ⟨pushed, filling, gates⟩ := ih
      exact ⟨pushed, filling.grow grows, gates⟩
  | push _ gates step ih =>
      obtain ⟨pushed, filling, hpushed⟩ := ih
      exact ⟨_, filling.push (evaluable_of_insert gates step) step,
        List.forall_mem_cons.2 ⟨gates, hpushed⟩⟩
  | populate _ makes run ih =>
      obtain ⟨pushed, filling, hpushed⟩ := ih
      obtain ⟨-, made, hmade, hP⟩ := filling.populate (fun _ _ h => h.1)
        (fun _ _ _ grows h => ⟨grows.evaluable h.1, h.2⟩) makes run
      refine ⟨_, hmade, fun net hnet => ?_⟩
      rcases List.mem_append.1 hnet with hnet | hnet
      · exact (hP net hnet).2
      · exact hpushed net hnet

/-- A catalogue that is filled with networks of gates lists networks of gates. -/
lemma Filling.ofGates {pushed : List Subnet} (h : Filling store c pushed)
    (gates : ∀ net ∈ pushed, net.OfGates) : OfGates store c := by
  induction h with
  | empty => exact fun p hp => nomatch hp
  | grow _ grows ih => exact (ih gates).extends grows
  | push _ _ step ih =>
      obtain ⟨hnet, hpushed⟩ := List.forall_mem_cons.1 gates
      exact insert_ofGates (ih hpushed) hnet step

lemma Built.ofGates (h : Built store c) : OfGates store c := by
  obtain ⟨pushed, filling, gates⟩ := h.exists_filling
  exact filling.ofGates gates

end Catalogue

end Gatework
