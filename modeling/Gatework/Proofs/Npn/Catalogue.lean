import Gatework.Proofs.Evaluation
import Gatework.Proofs.Npn.Canonical
import Gatework.Proofs.Npn.Listing

/-!
# Catalogues list what they say

Every network of a catalogue computes the canonical form it is listed under, so the network that a
query leads to computes the query.

* `Catalogue.insert_cases`: all that storing a network can do.
* `Catalogue.insert_sound`: what is listed stays right.
* `Catalogue.exists_realize`: every network of a finding is turned into one for the query.
-/

namespace Gatework

/-- An evaluable network with one output and few enough inputs has a table, which it computes. -/
lemma Store.exists_tabulate_single {store : Store} {net : Subnet} (evaluable : store.Evaluable net)
    (single : net.numOutputs = 1) (hn : net.numInputs ≤ maxEvaluatedVariables) :
    ∃ f, store.tabulate net = .ok [f] ∧ net.Computes store f := by
  obtain ⟨tables, htables, hlength⟩ := store.exists_tabulate evaluable hn
  obtain ⟨f, rfl⟩ := List.length_eq_one_iff.1 (hlength.trans single)
  refine ⟨f, htables, rfl, single, fun σ => ?_, evaluable⟩
  have hvalues := store.tabulate_sound htables (encode_lt net.numInputs σ)
  have hcongr : net.outputValues store.ports (encode net.numInputs σ).testBit =
      net.outputValues store.ports σ :=
    Subnet.outputValues_congr fun v hv => testBit_encode hv
  rw [← hcongr, ← hvalues, List.map_singleton]

/-- A network that is tabulated has few enough inputs. -/
lemma Store.numInputs_le_of_tabulate {store : Store} {net : Subnet}
    {tables : List (TruthTable net.numInputs)} (h : store.tabulate net = .ok tables) :
    net.numInputs ≤ maxEvaluatedVariables := by
  simp only [tabulate] at h
  split at h
  · cases h
  · omega

namespace Catalogue

variable {store store' : Store} {strict : Prop} {c c' : Catalogue} {key : WordTable} {position : Nat}
  {net : Subnet} {added : Option Nat}

/-- A stored network computes the canonical form under which it is listed. -/
def Lists (store : Store) (key : WordTable) (position : Nat) : Prop :=
  ∃ (n : Nat) (form : TruthTable n) (net : Subnet), n ≤ maxClassVariables ∧ key = .ofTable form ∧
    store.subnets[position]? = some net ∧ net.Computes store form

/-- The cells of the network at a position are regular. -/
def RegularAt (store : Store) (strict : Prop) (position : Nat) : Prop :=
  ∃ net, store.subnets[position]? = some net ∧ ∀ cell ∈ net.cells, store.Regular strict cell

/-- All networks of a catalogue compute the forms under which they are listed. -/
def Sound (store : Store) (c : Catalogue) : Prop :=
  ∀ entry ∈ c.classes, ∀ position ∈ entry.2, Lists store entry.1 position

/-- The cells of all networks of a catalogue are regular. -/
def Regular (store : Store) (strict : Prop) (c : Catalogue) : Prop :=
  ∀ entry ∈ c.classes, ∀ position ∈ entry.2, RegularAt store strict position

lemma sound_empty (store : Store) : Sound store empty := by
  intro entry hentry
  cases hentry

lemma Lists.extends (h : Lists store key position) (grows : store.Extends store') :
    Lists store' key position := by
  obtain ⟨n, form, net, hn, hkey, hnet, computes⟩ := h
  exact ⟨n, form, net, hn, hkey, grows.subnets _ _ hnet, computes.extends grows⟩

lemma Sound.extends (h : Sound store c) (grows : store.Extends store') : Sound store' c :=
  fun entry hentry position hposition => (h entry hentry position hposition).extends grows

lemma RegularAt.extends (h : RegularAt store strict position) (grows : store.Extends store') :
    RegularAt store' strict position := by
  obtain ⟨net, hnet, regular⟩ := h
  exact ⟨net, grows.subnets _ _ hnet, fun cell hcell => grows.regular (regular cell hcell)⟩

lemma Regular.extends (h : Regular store strict c) (grows : store.Extends store') :
    Regular store' strict c :=
  fun entry hentry position hposition => (h entry hentry position hposition).extends grows

/-! ## Storing a network -/

/-- What storing a network does.  A function of too many variables changes nothing.  Any other network
is transformed into the canonical form of its class and added to the store; the catalogue lists it
unless it knows its imprint. -/
structure Stored (store : Store) (c : Catalogue) (net : Subnet) (f : TruthTable net.numInputs)
    (form : TruthTable net.numInputs) (t : Transform) (stored : Subnet) : Prop where
  canonical : f.canonical? = some (form, t)
  run : t.onSubnet net = .ok stored
  computes : stored.Computes store form
  regular : ∀ strict : Prop, (∀ cell ∈ net.cells, store.Regular strict cell) →
    ∀ cell ∈ stored.cells, store.Regular strict cell

lemma Stored.le {f form : TruthTable net.numInputs} {t : Transform} {stored : Subnet}
    (h : Stored store c net f form t stored) : net.numInputs ≤ maxClassVariables :=
  (TruthTable.canonical?_reached h.canonical).1

lemma exists_stored {f form : TruthTable net.numInputs} {t : Transform} (c : Catalogue)
    (computes : net.Computes store f) (canonical : f.canonical? = some (form, t)) :
    ∃ stored, Stored store c net f form t stored := by
  obtain ⟨hn, permutes, rfl⟩ := TruthTable.canonical?_reached canonical
  obtain ⟨stored, hrun, hstored, regular⟩ := permutes.exists_onSubnet computes
  exact ⟨stored, canonical, hrun, hstored, regular⟩

theorem insert_cases (evaluable : store.Evaluable net)
    (step : c.insert store net = .ok (added, store', c')) :
    ∃ f, store.tabulate net = .ok [f] ∧ net.Computes store f ∧
      ((f.canonical? = none ∧ added = none ∧ store' = store ∧ c' = c) ∨
        ∃ form t stored, Stored store c net f form t stored ∧
          store' = (store.addSubnet stored).1 ∧
          ((∃ p, c.known? stored.imprint = some p ∧ added = some p ∧ c' = c) ∨
            (c.known? stored.imprint = none ∧ added = some store.subnets.size ∧
              c' = c.listed (.ofTable form) stored.imprint store.subnets.size))) := by
  unfold Catalogue.insert at step
  split at step
  · cases step
  rename_i single
  obtain ⟨tables, htables, step⟩ := bind_eq_ok_iff.1 step
  obtain ⟨f, hf, computes⟩ := store.exists_tabulate_single evaluable (not_not.1 single)
    (Store.numInputs_le_of_tabulate htables)
  cases htables.symm.trans hf
  refine ⟨f, hf, computes, ?_⟩
  dsimp only at step
  cases hform : f.canonical? with
  | none =>
      rw [hform] at step
      cases step
      exact .inl ⟨rfl, rfl, rfl, rfl⟩
  | some pair =>
      obtain ⟨form, t⟩ := pair
      obtain ⟨stored, hstored⟩ := exists_stored c computes hform
      rw [hform] at step
      simp only [hstored.run, ok_bind] at step
      refine .inr ⟨form, t, stored, hstored, ?_⟩
      split at step
      · rename_i p hp
        cases step
        exact ⟨rfl, .inl ⟨p, hp, rfl, rfl⟩⟩
      · rename_i hnew
        cases step
        exact ⟨rfl, .inr ⟨hnew, rfl, rfl⟩⟩

/-- A network that can be evaluated, with one output and few enough inputs, can be stored. -/
theorem exists_insert (c : Catalogue) (evaluable : store.Evaluable net) (single : net.numOutputs = 1)
    (hn : net.numInputs ≤ maxEvaluatedVariables) :
    ∃ added store' c', c.insert store net = .ok (added, store', c') := by
  obtain ⟨f, hf, computes⟩ := store.exists_tabulate_single evaluable single hn
  unfold Catalogue.insert
  rw [if_neg (not_not.2 single), hf]
  simp only [ok_bind]
  cases hform : f.canonical? with
  | none => exact ⟨_, _, _, rfl⟩
  | some pair =>
      obtain ⟨form, t⟩ := pair
      obtain ⟨stored, hstored⟩ := exists_stored c computes hform
      simp only [hstored.run, ok_bind]
      split <;> exact ⟨_, _, _, rfl⟩

/-- The store only grows. -/
lemma extends_insert (evaluable : store.Evaluable net)
    (step : c.insert store net = .ok (added, store', c')) : store.Extends store' := by
  obtain ⟨f, -, -, ⟨-, -, rfl, -⟩ | ⟨form, t, stored, -, rfl, -⟩⟩ := insert_cases evaluable step
  · exact .refl _
  · exact .addSubnet _ _

/-- Networks of too many inputs are not stored, and nothing changes then. -/
lemma insert_eq_none (evaluable : store.Evaluable net)
    (step : c.insert store net = .ok (added, store', c')) :
    (added = none ↔ maxClassVariables < net.numInputs) ∧ (added = none → store' = store ∧ c' = c) := by
  obtain ⟨f, -, -, ⟨hnone, rfl, rfl, rfl⟩ | ⟨form, t, stored, hstored, -, found⟩⟩ :=
    insert_cases evaluable step
  · exact ⟨iff_of_true rfl (TruthTable.canonical?_eq_none_iff.1 hnone), fun _ => ⟨rfl, rfl⟩⟩
  · have hsome : added ≠ none := by
      rcases found with ⟨p, -, rfl, -⟩ | ⟨-, rfl, -⟩ <;> exact Option.some_ne_none _
    exact ⟨iff_of_false hsome (Nat.not_lt.2 hstored.le), fun h => absurd h hsome⟩

/-- Storing a network keeps what the catalogue lists. -/
theorem insert_sound (h : Sound store c) (evaluable : store.Evaluable net)
    (step : c.insert store net = .ok (added, store', c')) : Sound store' c' := by
  have grows := extends_insert evaluable step
  obtain ⟨f, -, -, ⟨-, -, rfl, rfl⟩ | ⟨form, t, stored, hstored, rfl, found⟩⟩ :=
    insert_cases evaluable step
  · exact h
  rcases found with ⟨p, -, -, rfl⟩ | ⟨-, -, rfl⟩
  · exact h.extends grows
  · refine forall_listed (h.extends grows) ?_
    exact ⟨_, form, stored, hstored.le, rfl, by simp [Store.addSubnet], hstored.computes.extends grows⟩

/-- Storing a network of regular cells keeps this of all that the catalogue lists. -/
theorem insert_regular (h : Regular store strict c)
    (regular : ∀ cell ∈ net.cells, store.Regular strict cell)
    (step : c.insert store net = .ok (added, store', c')) : Regular store' strict c' := by
  have evaluable := Store.evaluable_of_regular regular
  have grows := extends_insert evaluable step
  obtain ⟨f, -, -, ⟨-, -, rfl, rfl⟩ | ⟨form, t, stored, hstored, rfl, found⟩⟩ :=
    insert_cases evaluable step
  · exact h
  rcases found with ⟨p, -, -, rfl⟩ | ⟨-, -, rfl⟩
  · exact h.extends grows
  · refine forall_listed (P := fun _ p => RegularAt _ strict p) (h.extends grows) ?_
    exact ⟨stored, by simp [Store.addSubnet], fun cell hcell =>
      grows.regular (hstored.regular strict regular cell hcell)⟩

/-- A query finds what is listed under its canonical form. -/
lemma find?_eq_some_iff {n : Nat} {f : TruthTable n} {finding : Finding} :
    c.find? f = some finding ↔ ∃ form t networks, f.canonical? = some (form, t) ∧
      c.networksOf? (.ofTable form) = some networks ∧ finding = ⟨networks, t.inverse⟩ := by
  constructor
  · intro h
    obtain ⟨⟨form, t⟩, hform, h⟩ := Option.bind_eq_some_iff.1 h
    obtain ⟨networks, hnetworks, h⟩ := Option.bind_eq_some_iff.1 h
    cases h
    exact ⟨form, t, networks, hform, hnetworks, rfl⟩
  · rintro ⟨form, t, networks, hform, hnetworks, rfl⟩
    exact Option.bind_eq_some_iff.2 ⟨(form, t), hform,
      Option.bind_eq_some_iff.2 ⟨networks, hnetworks, rfl⟩⟩

/-- A query finds networks that compute its canonical form. -/
lemma find?_sound (h : Sound store c) {n : Nat} {f : TruthTable n} {finding : Finding}
    (hfind : c.find? f = some finding) :
    ∃ t : Transform, t.Permutes n ∧ finding.transform = t.inverse ∧
      ∀ position ∈ finding.networks, ∃ net, store.subnets[position]? = some net ∧
        net.Computes store (t.onTable f) ∧
        ∀ strict, Regular store strict c → ∀ cell ∈ net.cells, store.Regular strict cell := by
  obtain ⟨form, t, networks, hform, hnetworks, rfl⟩ := find?_eq_some_iff.1 hfind
  obtain ⟨hn, permutes, rfl⟩ := TruthTable.canonical?_reached hform
  refine ⟨t, permutes, rfl, fun position hposition => ?_⟩
  have hmem := mem_of_lookup hnetworks
  obtain ⟨k, form, net, -, hkey, hnet, computes⟩ := h _ hmem position hposition
  obtain rfl : n = k := congrArg WordTable.numVars hkey
  rw [← WordTable.ofTable_injective hn hkey] at computes
  refine ⟨net, hnet, computes, fun strict regular => ?_⟩
  obtain ⟨net', hnet', regular⟩ := regular _ hmem position hposition
  cases hnet.symm.trans hnet'
  exact regular

/-- Whatever network of the finding is taken, the one made from it computes the query. -/
lemma exists_realize (h : Sound store c) {n : Nat} {f : TruthTable n} {finding : Finding}
    (hfind : c.find? f = some finding) {i : Nat} (hi : i < finding.networks.length) :
    ∃ net, finding.realize store i = .ok net ∧ net.Computes store f ∧
      ∀ strict, Regular store strict c → ∀ cell ∈ net.cells, store.Regular strict cell := by
  obtain ⟨t, permutes, htransform, hnetworks⟩ := find?_sound h hfind
  obtain ⟨net, hnet, computes, regular⟩ := hnetworks _ (List.getElem_mem hi)
  obtain ⟨net', hrun, computes', regular'⟩ := permutes.permutes_inverse.exists_onSubnet computes
  rw [permutes.onTable_inverse] at computes'
  refine ⟨net', ?_, computes', fun strict hr => regular' strict (regular strict hr)⟩
  simp only [Finding.realize, List.getElem?_eq_getElem hi, Option.bind_some, hnet, htransform, hrun]

end Catalogue

end Gatework
