import Mathlib.Data.Prod.Lex
import Mathlib.Order.Bounds.Basic
import Gatework.Proofs.Npn.Built
import Gatework.Proofs.Npn.Contract
import Gatework.Proofs.Npn.Rewiring

/-!
# The cheapest implementation

A query is answered by the cheapest network that is listed for its class, and the cost is that of the
listed network: fewer cells first, then less depth.  The answer is another network, made by a transform.
It costs the same because whatever is listed was made by a transform before and so is trim.

**Choosing.**  `Method.cheapest?_least` and `Method.cheapest?_eq_none_iff` say which network of a list is
taken.

**Listing.**  `Catalogue.Filling.files` says what a filled catalogue lists, so the networks found are all
those whose functions are equivalent to the query (`Catalogue.Filed.offers_iff`).

**Main statement.** `Catalogue.Stocked.exists_resynthesize_least`.
-/

namespace Gatework

namespace Subnet

/-- What a network costs: its number of cells, then its depth. -/
def cost (net : Subnet) : Nat ×ₗ Nat := toLex (net.cellCount, net.pathLength.2)

lemma Rewired.cost_eq {spot : Nat → Nat} {net net' : Subnet} (h : Rewired spot net net') :
    net'.cost = net.cost := by
  rw [cost, cost, h.cellCount_eq, h.pathLength_eq]

end Subnet

/-! ## Choosing -/

namespace Method

variable {store : Store} {arity : Nat} {networks : List Nat} {net : Subnet} {x : Nat × Nat × Nat}
  {best : Option (Nat × Nat × Nat)} {costs : List (Nat × Nat × Nat)}

lemma maxFanin_le_iff : maxFanin net ≤ arity ↔ ∀ cell ∈ net.cells, cell.links.length ≤ arity := by
  rw [maxFanin, foldl_max_le_iff, List.forall_mem_map]
  simp only [Nat.zero_le, true_and, Array.mem_toList_iff]

/-- How good a candidate is: the cost of its network. -/
def rank (x : Nat × Nat × Nat) : Nat ×ₗ Nat := toLex (x.1, x.2.1)

/-- The candidates of a list of networks, with their costs. -/
def candidates (store : Store) (arity : Nat) (networks : List Nat) : List (Nat × Nat × Nat) :=
  networks.zipIdx.filterMap fun (position, i) => do
    let net ← store.subnets[position]?
    if maxFanin net ≤ arity then some (net.cellCount, net.pathLength.2, i) else none

/-- The better one of the best candidate so far and another one; of equally good ones the first. -/
def better (best : Option (Nat × Nat × Nat)) (x : Nat × Nat × Nat) : Option (Nat × Nat × Nat) :=
  match best with
  | none => some x
  | some b => if x.1 < b.1 || (x.1 == b.1 && x.2.1 < b.2.1) then some x else some b

lemma cheapest?_eq :
    cheapest? store arity networks = ((candidates store arity networks).foldl better none).map (·.2.2) :=
  rfl

/-- A network of a list whose cells are narrow enough. -/
def Fits (store : Store) (arity : Nat) (networks : List Nat) (net : Subnet) : Prop :=
  (∃ p ∈ networks, store.subnets[p]? = some net) ∧ maxFanin net ≤ arity

lemma mem_candidates : x ∈ candidates store arity networks ↔ ∃ p net, networks[x.2.2]? = some p ∧
    store.subnets[p]? = some net ∧ maxFanin net ≤ arity ∧ rank x = net.cost := by
  obtain ⟨cells, depth, i⟩ := x
  constructor
  · intro h
    obtain ⟨⟨p, j⟩, hlisted, hx⟩ := List.mem_filterMap.1 h
    obtain ⟨net, hnet, hx⟩ := Option.bind_eq_some_iff.1 hx
    split at hx
    · rename_i hfits
      cases hx
      exact ⟨p, net, List.mem_zipIdx_iff_getElem?.1 hlisted, hnet, hfits, rfl⟩
    · cases hx
  · rintro ⟨p, net, hp, hnet, hfits, hcost⟩
    obtain ⟨rfl, rfl⟩ := Prod.mk.injEq .. ▸ toLex_inj.1 hcost
    refine List.mem_filterMap.2 ⟨(p, i), List.mem_zipIdx_iff_getElem?.2 hp, ?_⟩
    exact Option.bind_eq_some_iff.2 ⟨net, hnet, if_pos hfits⟩

/-- One of two candidates is taken that is no worse than either. -/
lemma exists_better (best : Option (Nat × Nat × Nat)) (x : Nat × Nat × Nat) :
    ∃ b, better best x = some b ∧ rank b ≤ rank x ∧ ∀ a, best = some a → rank b ≤ rank a := by
  cases best with
  | none => exact ⟨x, rfl, le_refl _, nofun⟩
  | some a =>
      have hless : (x.1 < a.1 || (x.1 == a.1 && x.2.1 < a.2.1)) = true ↔ rank x < rank a := by
        simp [rank, Prod.Lex.toLex_lt_toLex]
      by_cases h : rank x < rank a
      · refine ⟨x, if_pos (hless.2 h), le_refl _, ?_⟩
        rintro _ ⟨⟩
        exact h.le
      · refine ⟨a, if_neg (hless.not.2 h), not_lt.1 h, ?_⟩
        rintro _ ⟨⟩
        exact le_refl _

lemma foldl_better_eq_none_iff : costs.foldl better best = none ↔ best = none ∧ costs = [] := by
  induction costs generalizing best with
  | nil => simp
  | cons x costs ih =>
      obtain ⟨b, hb, -⟩ := exists_better best x
      rw [List.foldl_cons, ih, hb]
      simp

/-- What is taken in the end is no worse than anything met. -/
lemma foldl_better_le {b : Nat × Nat × Nat} (h : costs.foldl better best = some b) :
    (∀ a, best = some a → rank b ≤ rank a) ∧ ∀ x ∈ costs, rank b ≤ rank x := by
  induction costs generalizing best with
  | nil =>
      cases h
      exact ⟨fun a ha => by rw [Option.some.inj ha], nofun⟩
  | cons x costs ih =>
      obtain ⟨b', hb', hx, hbest⟩ := exists_better best x
      obtain ⟨hfirst, hrest⟩ := ih h
      have hle := hfirst b' hb'
      exact ⟨fun a ha => hle.trans (hbest a ha), List.forall_mem_cons.2 ⟨hle.trans hx, hrest⟩⟩

lemma cheapest?_eq_none_iff :
    cheapest? store arity networks = none ↔ ∀ net, ¬ Fits store arity networks net := by
  rw [cheapest?_eq, Option.map_eq_none_iff, foldl_better_eq_none_iff, List.eq_nil_iff_forall_not_mem]
  constructor
  · rintro ⟨-, h⟩ net ⟨⟨p, hp, hnet⟩, hfits⟩
    obtain ⟨i, hi⟩ := List.mem_iff_getElem?.1 hp
    exact h (net.cellCount, net.pathLength.2, i) (mem_candidates.2 ⟨p, net, hi, hnet, hfits, rfl⟩)
  · refine fun h => ⟨rfl, fun x hx => ?_⟩
    obtain ⟨p, net, hp, hnet, hfits, -⟩ := mem_candidates.1 hx
    exact h net ⟨⟨p, List.mem_of_getElem? hp, hnet⟩, hfits⟩

/-- The network that is taken costs least. -/
theorem cheapest?_least {i : Nat} (h : cheapest? store arity networks = some i) :
    ∃ p net, networks[i]? = some p ∧ store.subnets[p]? = some net ∧ maxFanin net ≤ arity ∧
      ∀ other, Fits store arity networks other → net.cost ≤ other.cost := by
  rw [cheapest?_eq] at h
  obtain ⟨x, hx, rfl⟩ := Option.map_eq_some_iff.1 h
  obtain ⟨p, net, hp, hnet, hfits, hcost⟩ :=
    mem_candidates.1 ((mem_of_foldl_cheapest hx).resolve_left nofun)
  refine ⟨p, net, hp, hnet, hfits, ?_⟩
  rintro other ⟨⟨q, hq, hother⟩, hfits'⟩
  obtain ⟨j, hj⟩ := List.mem_iff_getElem?.1 hq
  rw [← hcost]
  exact (foldl_better_le hx).2 (other.cellCount, other.pathLength.2, j)
    (mem_candidates.2 ⟨q, other, hj, hother, hfits', rfl⟩)

end Method

/-! ## Listing -/

namespace Catalogue

open Subnet

variable {store store' : Store} {c c' : Catalogue} {pushed : List Subnet} {key : WordTable}
  {position n : Nat} {f : TruthTable n} {finding : Finding}

/-- What stands under a canonical form is trim and computes it. -/
def Files (store : Store) (key : WordTable) (position : Nat) : Prop :=
  ∃ (n : Nat) (form : TruthTable n) (t : Transform) (net : Subnet),
    form.canonical? = some (form, t) ∧ key = .ofTable form ∧ store.subnets[position]? = some net ∧
      net.Computes store form ∧ net.Trim

lemma Files.extends (h : Files store key position) (grows : store.Extends store') :
    Files store' key position := by
  obtain ⟨n, form, t, net, canonical, hkey, hnet, computes, trim⟩ := h
  exact ⟨n, form, t, net, canonical, hkey, grows.subnets _ _ hnet, computes.extends grows, trim⟩

/-- The classes stand in order, and all that is listed is filed. -/
structure Filed (store : Store) (c : Catalogue) : Prop where
  ordered : Ordered c.classes
  files : ∀ entry ∈ c.classes, ∀ position ∈ entry.2, Files store entry.1 position

lemma Filed.extends (h : Filed store c) (grows : store.Extends store') : Filed store' c :=
  ⟨h.ordered, fun entry hentry position hposition =>
    (h.files entry hentry position hposition).extends grows⟩

/-- Storing one more network files what a transform made of it. -/
lemma Filed.insert {net : Subnet} {added : Option Nat} (h : Filed store c)
    (evaluable : store.Evaluable net) (step : c.insert store net = .ok (added, store', c')) :
    Filed store' c' := by
  have grows := extends_insert evaluable step
  obtain ⟨f, -, -, ⟨-, -, rfl, rfl⟩ | ⟨form, t, stored, hstored, rfl, found⟩⟩ :=
    insert_cases evaluable step
  · exact h
  rcases found with ⟨p, -, -, rfl⟩ | ⟨-, -, rfl⟩
  · exact h.extends grows
  · obtain ⟨t', canonical⟩ := TruthTable.canonical?_canonical hstored.canonical
    exact ⟨h.ordered.alterClass, forall_listed (h.extends grows).files
      ⟨_, form, t', stored, canonical, rfl, by simp [Store.addSubnet], hstored.computes.extends grows,
        Transform.trim_onSubnet hstored.run⟩⟩

/-- What a filled catalogue lists. -/
theorem Filling.files (h : Filling store c pushed) : Filed store c := by
  induction h with
  | empty store => exact ⟨.nil, fun entry hentry => nomatch hentry⟩
  | grow _ grows ih => exact ih.extends grows
  | push _ evaluable step ih => exact ih.insert evaluable step

/-- The catalogues that come about by storing networks one by one and by filling in classes, while the
store may grow at any time. -/
inductive Stocked : Store → Catalogue → Prop
  | empty (store : Store) : Stocked store .empty
  | grow {store store' : Store} {c : Catalogue} (h : Stocked store c) (grows : store.Extends store') :
      Stocked store' c
  | push {store store' : Store} {c c' : Catalogue} {net : Subnet} {added : Option Nat}
      (h : Stocked store c) (evaluable : store.Evaluable net)
      (step : c.insert store net = .ok (added, store', c')) : Stocked store' c'
  | populate {store store' : Store} {c c' : Catalogue} {methods : List Resynthesizer}
      {maxVariables count : Nat} (h : Stocked store c)
      (makes : ∀ m ∈ methods, m.Makes store Store.Evaluable)
      (run : c.populate store maxVariables methods = .ok (count, store', c')) : Stocked store' c'

/-- Filling in classes stores networks one by one. -/
theorem Stocked.exists_filling (h : Stocked store c) : ∃ pushed, Filling store c pushed := by
  induction h with
  | empty store => exact ⟨[], .empty store⟩
  | grow _ grows ih =>
      obtain ⟨pushed, filling⟩ := ih
      exact ⟨pushed, filling.grow grows⟩
  | push _ evaluable step ih =>
      obtain ⟨pushed, filling⟩ := ih
      exact ⟨_, filling.push evaluable step⟩
  | populate _ makes run ih =>
      obtain ⟨pushed, filling⟩ := ih
      obtain ⟨-, made, hmade, -⟩ := filling.populate (fun _ _ h => h)
        (fun _ _ _ grows h => grows.evaluable h) makes run
      exact ⟨_, hmade⟩

/-- A network that is listed and whose function is equivalent to another one. -/
def Offers (store : Store) (c : Catalogue) (f : TruthTable n) (net : Subnet) : Prop :=
  (∃ p ∈ c.positions, store.subnets[p]? = some net) ∧
    ∃ g : TruthTable n, store.Evaluates net g ∧ g.Equivalent f

/-- The networks listed under the canonical form of a function are those of its class. -/
lemma Filed.offers_iff (h : Filed store c) (hn : n ≤ maxClassVariables) {form : TruthTable n}
    {t : Transform} (canonical : f.canonical? = some (form, t)) {net : Subnet} :
    Offers store c f net ↔ ∃ networks, c.networksOf? (.ofTable form) = some networks ∧
      ∃ p ∈ networks, store.subnets[p]? = some net := by
  constructor
  · rintro ⟨⟨p, hp, hnet⟩, g, evaluates, equivalent⟩
    obtain ⟨entry, hentry, hp⟩ := List.mem_flatMap.1 hp
    obtain ⟨k, own, u, net', hown, hkey, hnet', computes, -⟩ := h.files entry hentry p hp
    cases hnet.symm.trans hnet'
    have computes' := Computes.of_evaluates evaluates computes.evaluable
    obtain rfl : n = k := computes'.numInputs.symm.trans computes.numInputs
    obtain rfl := computes.unique computes'
    -- the form under which the network stands is that of the function
    obtain ⟨t', ht'⟩ := (TruthTable.equivalent_iff_canonical hown).1 equivalent
    cases canonical.symm.trans ht'
    exact ⟨entry.2, hkey ▸ h.ordered.lookup_eq hentry, p, hp, hnet⟩
  · rintro ⟨networks, hnetworks, p, hp, hnet⟩
    have hentry := mem_of_lookup hnetworks
    obtain ⟨k, own, u, net', hown, hkey, hnet', computes, -⟩ := h.files _ hentry p hp
    cases hnet.symm.trans hnet'
    obtain rfl : n = k := congrArg WordTable.numVars hkey
    obtain rfl := WordTable.ofTable_injective hn hkey
    exact ⟨⟨p, List.mem_flatMap.2 ⟨_, hentry, hp⟩, hnet⟩, form, computes.evaluates (hn.trans (by decide)),
      ((TruthTable.equivalent_iff_canonical canonical).2 ⟨u, hown⟩).symm⟩

/-- The networks found are those of the class. -/
lemma Filed.offers_iff_of_find? (h : Filed store c) (hn : n ≤ maxClassVariables)
    (hfind : c.find? f = some finding) (net : Subnet) :
    Offers store c f net ↔ ∃ p ∈ finding.networks, store.subnets[p]? = some net := by
  obtain ⟨form, t, networks, canonical, hnetworks, rfl⟩ := find?_eq_some_iff.1 hfind
  rw [h.offers_iff hn canonical, hnetworks]
  simp

lemma Filed.not_offers (h : Filed store c) (hn : n ≤ maxClassVariables) (hfind : c.find? f = none)
    (net : Subnet) : ¬ Offers store c f net := by
  obtain ⟨_, canonical, -⟩ := TruthTable.exists_canonical? hn f
  rw [h.offers_iff hn canonical]
  rintro ⟨networks, hnetworks, -⟩
  have hsome := find?_eq_some_iff.2 ⟨_, _, networks, canonical, hnetworks, rfl⟩
  rw [hfind] at hsome
  cases hsome

lemma Filed.trim (h : Filed store c) (hfind : c.find? f = some finding)
    (hposition : position ∈ finding.networks) {net : Subnet}
    (hnet : store.subnets[position]? = some net) : net.Trim := by
  obtain ⟨form, t, networks, -, hnetworks, rfl⟩ := find?_eq_some_iff.1 hfind
  obtain ⟨_, _, _, listed, -, -, hlisted, -, trim⟩ :=
    h.files _ (mem_of_lookup hnetworks) position hposition
  cases hnet.symm.trans hlisted
  exact trim

/-- What is made from a listed network for a query differs from it in what the cells read. -/
lemma Filed.exists_realize (h : Filed store c) (sound : Sound store c)
    (hfind : c.find? f = some finding) {i : Nat} (hposition : finding.networks[i]? = some position)
    {net : Subnet} (hnet : store.subnets[position]? = some net) :
    ∃ spot net', finding.realize store i = .ok net' ∧ Rewired spot net net' ∧ net'.Computes store f := by
  obtain ⟨t, permutes, htransform, hnetworks⟩ := find?_sound sound hfind
  have hmem := List.mem_of_getElem? hposition
  obtain ⟨listed, hlisted, computes, -⟩ := hnetworks position hmem
  cases hnet.symm.trans hlisted
  obtain ⟨net', hrun, computes', -⟩ := permutes.permutes_inverse.exists_onSubnet computes
  obtain ⟨spot, net'', hrun', rewired⟩ := (h.trim hfind hmem hnet).exists_onSubnet
    permutes.permutes_inverse computes.numInputs computes.numOutputs
  cases hrun.symm.trans hrun'
  rw [permutes.onTable_inverse] at computes'
  refine ⟨spot, net', ?_, rewired, computes'⟩
  simp only [Finding.realize, hposition, Option.bind_some, hnet, htransform, hrun]

/-- A catalogue that was filled network by network and class by class answers every query of up to six
variables, whatever the bound on the operands of a cell and whatever the care set.  There is no network in
the answer exactly if each listed network of the class has a cell of more operands.  Otherwise it has as
many inputs as the query, evaluates to it and keeps the bound; and it has the fewest cells, and with so
many the least depth, of all listed networks of the class that keep the bound. -/
theorem Stocked.exists_resynthesize_least (stocked : Stocked store c) (hn : n ≤ 6) (f : TruthTable n)
    (care : Option (TruthTable n)) (arity : Nat) :
    ∃ store' result, (Method.catalogue c).resynthesizer.resynthesize store f care arity =
        .ok (store', result) ∧ store.Extends store' ∧
      (result = none ↔
        ¬ ∃ net, Offers store c f net ∧ ∀ cell ∈ net.cells, cell.links.length ≤ arity) ∧
      ∀ net, result = some net → net ∈ store'.subnets ∧ net.numInputs = n ∧ store'.Evaluates net f ∧
        (∀ cell ∈ net.cells, cell.links.length ≤ arity) ∧
          IsLeast {cost | ∃ stored, Offers store c f stored ∧
            (∀ cell ∈ stored.cells, cell.links.length ≤ arity) ∧
              cost = toLex (stored.cellCount, stored.pathLength.2)}
            (toLex (net.cellCount, net.pathLength.2)) := by
  obtain ⟨pushed, filling⟩ := stocked.exists_filling
  have filed := filling.files
  simp only [Method.resynthesizer, Method.synthesize]
  cases hfind : c.find? f with
  | none =>
      refine ⟨store, none, rfl, .refl store, iff_of_true rfl ?_, by simp⟩
      rintro ⟨net, hnet, -⟩
      exact filed.not_offers hn hfind net hnet
  | some finding =>
      simp only [filed.offers_iff_of_find? hn hfind, ← Method.maxFanin_le_iff]
      cases hcheapest : Method.cheapest? store arity finding.networks with
      | none =>
          refine ⟨store, none, rfl, .refl store, iff_of_true rfl ?_, by simp⟩
          exact not_exists.2 (Method.cheapest?_eq_none_iff.1 hcheapest)
      | some i =>
          obtain ⟨p, stored, hp, hstored, hfits, least⟩ := Method.cheapest?_least hcheapest
          obtain ⟨spot, net, hrun, rewired, computes⟩ :=
            filed.exists_realize filling.sound hfind hp hstored
          have listed : ∃ q ∈ finding.networks, store.subnets[q]? = some stored :=
            ⟨p, List.mem_of_getElem? hp, hstored⟩
          have grows := Store.Extends.addSubnet store net
          refine ⟨_, some net, by simp only [hrun]; rfl, grows,
            iff_of_false (Option.some_ne_none net) (not_not.2 ⟨stored, listed, hfits⟩), ?_⟩
          rintro _ ⟨⟩
          refine ⟨?_, computes.numInputs, (computes.extends grows).evaluates (hn.trans (by decide)),
            rewired.maxFanin_eq.trans_le hfits, ⟨stored, listed, hfits, rewired.cost_eq⟩, ?_⟩
          · exact Arena.mem_of_getElem? (i := store.subnets.size) (by simp [Store.addSubnet])
          · rintro _ ⟨other, hother, hnarrow, rfl⟩
            exact rewired.cost_eq.trans_le (least other ⟨hother, hnarrow⟩)

/-- The difference with a cell that is not needed. -/
def lavish : Subnet where
  cells := #[.input, .input, ⟨.ofGate .and, [.of 0, (Link.of 1).invert]⟩, ⟨.ofGate .and, [.of 0, .of 2]⟩,
    .output (.of 3)]
  numInputs := 2
  numOutputs := 1
  valid := by decide

/-- One bit implies another. -/
def implication : TruthTable 2 := .ofNat 2 0b1101

lemma ofGates_lavish : lavish.OfGates := by
  refine ofGates_of_toList ?_
  simp only [lavish, List.forall_mem_cons]
  exact ⟨⟨_, rfl, rfl⟩, ⟨_, rfl, rfl⟩, ⟨_, rfl, rfl⟩, ⟨_, rfl, rfl⟩, ⟨_, rfl, rfl⟩,
    List.forall_mem_nil _⟩

lemma ofGates_difference : difference.OfGates := by
  refine ofGates_of_toList ?_
  simp only [difference, List.forall_mem_cons]
  exact ⟨⟨_, rfl, rfl⟩, ⟨_, rfl, rfl⟩, ⟨_, rfl, rfl⟩, ⟨_, rfl, rfl⟩, List.forall_mem_nil _⟩

/-- Of two implementations of the class of the implication, the one without a needless cell is taken. -/
theorem exists_resynthesize_least_implication : ∃ store c, Stocked store c ∧ 2 ≤ 6 ∧ c.networkCount = 2 ∧
    ∃ store' net, (Method.catalogue c).resynthesizer.resynthesize store implication none 2 =
        .ok (store', some net) ∧ store'.Evaluates net implication ∧
      IsLeast {cost | ∃ stored, Offers store c implication stored ∧
        (∀ cell ∈ stored.cells, cell.links.length ≤ 2) ∧
          cost = toLex (stored.cellCount, stored.pathLength.2)} (toLex (1, 1)) := by
  have hrun : (do
      let first ← Catalogue.empty.insert .empty lavish
      let second ← first.2.2.insert first.2.1 difference
      let answer ← (Method.catalogue second.2.2).resynthesizer.resynthesize second.2.1 implication none 2
      return (second.2.2.networkCount, answer.2.map fun net => (net.cellCount, net.pathLength.2))) =
        (.ok (2, some (1, 1)) : Except Fault _) := by cbv
  obtain ⟨⟨_, store₁, c₁⟩, step₁, hrun⟩ := bind_eq_ok_iff.1 hrun
  obtain ⟨⟨_, store₂, c₂⟩, step₂, hrun⟩ := bind_eq_ok_iff.1 hrun
  obtain ⟨⟨store₃, answer⟩, hanswer, hanswered⟩ := bind_eq_ok_iff.1 hrun
  have stocked : Stocked store₂ c₂ :=
    ((Stocked.empty .empty).push (evaluable_of_insert ofGates_lavish step₁) step₁).push
      (evaluable_of_insert ofGates_difference step₂) step₂
  obtain ⟨store', result, hresult, -, -, offered⟩ :=
    stocked.exists_resynthesize_least (by decide) implication none 2
  cases hanswer.symm.trans hresult
  obtain ⟨hcount, hanswered⟩ := Prod.mk.injEq .. ▸ Except.ok.inj hanswered
  obtain ⟨net, rfl, hcost⟩ := Option.map_eq_some_iff.1 hanswered
  obtain ⟨-, -, evaluates, -, least⟩ := offered net rfl
  rw [hcost] at least
  exact ⟨store₂, c₂, stocked, by decide, hcount, store₃, net, hanswer, evaluates, least⟩

end Catalogue

end Gatework
