import Gatework.Npn.Transform
import Gatework.Proofs.Builder.Instance
import Gatework.Proofs.TruthTable

/-!
# Transforms and their inverses

A transform whose input numbers are a permutation acts on tables and on networks in the same way, and
its inverse undoes it.

* `Subnet.Computes`: a network with one output computes a function.
* `Permutes.onTable_inverse`: the inverse of a transform takes the transformed function back.
* `Permutes.exists_onSubnet`: a transformed network computes the transformed function.
-/

namespace Gatework

/-- A network with one output can be evaluated and computes a function of its inputs. -/
structure Subnet.Computes (net : Subnet) (store : Store) {n : Nat} (f : TruthTable n) : Prop where
  numInputs : net.numInputs = n
  numOutputs : net.numOutputs = 1
  values : ∀ σ, net.outputValues store.ports σ = [f.value (encode n σ)]
  evaluable : store.Evaluable net

/-- A network that computes a function by regular cells. -/
structure Subnet.Implements (net : Subnet) (store : Store) (strict : Prop) {n : Nat} (f : TruthTable n) :
    Prop extends Subnet.Computes net store f where
  regular : ∀ c ∈ net.cells, store.Regular strict c

namespace Subnet

variable {net : Subnet} {store store' : Store} {strict : Prop} {n : Nat} {f : TruthTable n}

/-- What a network computes does not change when the store grows. -/
lemma Computes.extends (h : net.Computes store f) (grows : store.Extends store') :
    net.Computes store' f where
  numInputs := h.numInputs
  numOutputs := h.numOutputs
  values σ := (grows.outputValues_eq h.evaluable σ).trans (h.values σ)
  evaluable := grows.evaluable h.evaluable

lemma Implements.extends (h : net.Implements store strict f) (grows : store.Extends store') :
    net.Implements store' strict f :=
  ⟨h.toComputes.extends grows, fun c hc => grows.regular (h.regular c hc)⟩

lemma Implements.of_regular (numInputs : net.numInputs = n) (numOutputs : net.numOutputs = 1)
    (values : ∀ σ, net.outputValues store.ports σ = [f.value (encode n σ)])
    (regular : ∀ c ∈ net.cells, store.Regular strict c) : net.Implements store strict f :=
  ⟨⟨numInputs, numOutputs, values, Store.evaluable_of_regular regular⟩, regular⟩

end Subnet

open Builder

/-- A copy of a network shows its function at the number that the operands encode. -/
lemma Subnet.Computes.exists_addInstance {net : Subnet} {store : Store} {n : Nat}
    {f : TruthTable n} (h : net.Computes store f) {b : Builder} (wf : WellFormed b)
    (plain : b.options = {}) (evaluable : b.Evaluable store)
    {links : List Link} {x : (Nat → Bool) → Nat} (hx : ∀ σ, x σ < 2 ^ n)
    (hlinks : b.ShowsAll store.ports links ((List.range n).map fun v σ => (x σ).testBit v)) :
    ∃ l b', addInstance net links b = .ok ([l], b') ∧ Grown b b' ∧ b'.Evaluable store ∧
      (∀ strict : Prop, (∀ c ∈ net.cells, store.Regular strict c) →
        (b.Regular store strict → b'.Regular store strict) ∧ l.port = 0) ∧
      Delivers store b' store.ports l fun σ => f.value (x σ) := by
  obtain ⟨shown, b', hrun, grown, evaluable', regular, delivers⟩ := Builder.exists_addInstance wf
    plain evaluable h.evaluable hlinks (by rw [hlinks.length_eq, h.numInputs]; simp)
  obtain ⟨o, ho⟩ : ∃ o, net.outputs = [o] :=
    List.length_eq_one_iff.1 (by simp [Subnet.outputs, h.numOutputs])
  rw [ho] at delivers
  obtain ⟨l, rest, hl, hrest, rfl⟩ := List.forall₂_cons_right_iff.1 delivers
  obtain rfl := List.forall₂_nil_right_iff.1 hrest
  refine ⟨l, b', hrun, grown, evaluable', fun strict hr =>
    ⟨(regular strict hr).1, (regular strict hr).2 l (by simp)⟩, hl.congr fun σ => ?_⟩
  generalize hτ : (fun j => (((List.range n).map fun v σ => (x σ).testBit v).map (· σ)).getD j false)
    = τ
  have hencode : encode n τ = x σ := by
    refine eq_of_testBit (encode_lt n _) (hx σ) fun v hv => ?_
    rw [testBit_encode hv, ← hτ]
    simp [List.getD_eq_getElem?_getD, hv]
  have hvalue := h.values τ
  rwa [hencode, Subnet.outputValues, ho, List.map_singleton, List.singleton_inj] at hvalue

namespace Transform

/-- The input numbers of a transform are those below `n`, each once. -/
def Permutes (t : Transform) (n : Nat) : Prop := t.perm.Perm (List.range n)

lemma foldl_lastPosition {ps : List Nat} (nodup : ps.Nodup) (p k found : Nat) :
    (p ∉ ps → (ps.zipIdx k).foldl (fun found (q, i) => if q = p then i else found) found = found) ∧
      ∀ i, ps[i]? = some p →
        (ps.zipIdx k).foldl (fun found (q, i) => if q = p then i else found) found = k + i := by
  induction ps generalizing k found with
  | nil => simp
  | cons q ps ih =>
      obtain ⟨apart, nodup⟩ := List.nodup_cons.1 nodup
      rw [List.zipIdx_cons, List.foldl_cons]
      dsimp only
      refine ⟨fun hp => ?_, fun i hi => ?_⟩
      · rw [List.mem_cons, not_or] at hp
        obtain ⟨hq, hp⟩ := hp
        rw [if_neg (Ne.symm hq)]
        exact (ih nodup (k + 1) found).1 hp
      · cases i with
        | zero =>
            obtain rfl : q = p := by simpa using hi
            rw [if_pos rfl]
            exact (ih nodup (k + 1) k).1 apart
        | succ i =>
            rw [(ih nodup (k + 1) _).2 i (by simpa using hi)]
            omega

lemma lastPosition_eq {ps : List Nat} (nodup : ps.Nodup) {p i : Nat} (hi : ps[i]? = some p) :
    lastPosition p ps = i := by
  rw [lastPosition, (foldl_lastPosition nodup p 0 0).2 i hi, Nat.zero_add]

namespace Permutes

variable {t : Transform} {n : Nat} (h : t.Permutes n)

include h

lemma length : t.perm.length = n := by simpa using List.Perm.length_eq h

lemma nodup : t.perm.Nodup := (List.Perm.nodup_iff h).2 List.nodup_range

lemma lt_of_mem {p : Nat} (hp : p ∈ t.perm) : p < n := List.mem_range.1 (List.Perm.subset h hp)

lemma lt_of_getElem? {i p : Nat} (hi : t.perm[i]? = some p) : i < n :=
  h.length ▸ (List.getElem?_eq_some_iff.1 hi).1

lemma exists_position {p : Nat} (hp : p < n) : ∃ i : Nat, t.perm[i]? = some p :=
  List.mem_iff_getElem?.1 (List.Perm.subset (List.Perm.symm h) (List.mem_range.2 hp))

lemma isInRange : t.isInRange = true := by
  rw [Transform.isInRange, List.all_eq_true]
  intro p hp
  rw [decide_eq_true_eq, numVars, h.length]
  exact h.lt_of_mem hp

lemma testBit_source (y : Nat) {i p : Nat} (hi : t.perm[i]? = some p) :
    (t.source y).testBit p = (y.testBit i ^^ t.mask.testBit i) := by
  rw [source, TruthTable.testBit_spread_of h.nodup _ hi, Nat.testBit_xor]

lemma source_lt (y : Nat) : t.source y < 2 ^ n :=
  TruthTable.spread_lt (fun _ hp => h.lt_of_mem hp) _

/-! ## The inverse -/

lemma getElem?_inverse {i p : Nat} (hi : t.perm[i]? = some p) : t.inverse.perm[p]? = some i := by
  have hp : p < t.numVars := by
    rw [numVars, h.length]
    exact h.lt_of_mem (List.mem_of_getElem? hi)
  simp [inverse, hp, lastPosition_eq h.nodup hi]

lemma testBit_mask_inverse {i p : Nat} (hi : t.perm[i]? = some p) :
    t.inverse.mask.testBit p = t.mask.testBit i := by
  rw [inverse, TruthTable.testBit_maskOf]
  refine Bool.eq_iff_iff.2 (decide_eq_true_iff.trans ⟨fun hmem => ?_, fun hmask => ?_⟩)
  · obtain ⟨⟨q, j⟩, hj, rfl⟩ := List.mem_map.1 hmem
    obtain ⟨hj, hmask⟩ := List.mem_filter.1 hj
    have hj := List.mem_zipIdx_iff_getElem?.1 hj
    have hlt := (List.getElem?_eq_some_iff.1 hi).1
    rwa [(List.getElem?_inj hlt h.nodup).1 (hi.trans hj.symm)]
  · refine List.mem_map.2 ⟨(p, i), List.mem_filter.2 ⟨?_, hmask⟩, rfl⟩
    exact List.mem_zipIdx_iff_getElem?.2 hi

/-- The inverse of a permutation is one. -/
lemma permutes_inverse : t.inverse.Permutes n := by
  have hlength : t.inverse.perm.length = n := by simp [inverse, numVars, h.length]
  have hmem : ∀ i < n, i ∈ t.inverse.perm := fun i hi =>
    List.mem_of_getElem? (h.getElem?_inverse (List.getElem?_eq_getElem (h.length ▸ hi)))
  have hsub : List.range n ⊆ t.inverse.perm := fun i hi => hmem i (List.mem_range.1 hi)
  refine ((List.nodup_range.subperm hsub).perm_of_length_le ?_).symm
  rw [hlength, List.length_range]

lemma source_inverse {y : Nat} (hy : y < 2 ^ n) : t.source (t.inverse.source y) = y := by
  refine eq_of_testBit (h.source_lt _) hy fun p hp => ?_
  obtain ⟨i, hi⟩ := h.exists_position hp
  rw [h.testBit_source _ hi, h.permutes_inverse.testBit_source _ (h.getElem?_inverse hi),
    h.testBit_mask_inverse hi, Bool.xor_assoc, Bool.xor_self, Bool.xor_false]

/-- The inverse takes the transformed function back. -/
theorem onTable_inverse (f : TruthTable n) : t.inverse.onTable (t.onTable f) = f := by
  refine TruthTable.ext_value fun y hy => ?_
  rw [onTable, TruthTable.value_ofFn _ hy, onTable,
    TruthTable.value_ofFn _ (h.permutes_inverse.source_lt y), h.source_inverse hy, inverse,
    Bool.xor_assoc, Bool.xor_self, Bool.xor_false]

end Permutes

/-! ## Networks -/

section Wiring

variable {mask : Nat}

/-- The array of links after some of them are put in place. -/
def wire (mask : Nat) (bound : Array Link) (x : (Nat × Link) × Nat) : Array Link :=
  bound.setIfInBounds x.1.1 (x.1.2.invertIf (mask.testBit x.2))

lemma size_foldl_wire (xs : List ((Nat × Link) × Nat)) (bound : Array Link) :
    (xs.foldl (wire mask) bound).size = bound.size := by
  induction xs generalizing bound with
  | nil => rfl
  | cons x xs ih => rw [List.foldl_cons, ih, wire, Array.size_setIfInBounds]

lemma getElem?_foldl_wire_of_notMem {xs : List (Nat × Link)} {p : Nat} (hp : p ∉ xs.map (·.1))
    (k : Nat) (bound : Array Link) : ((xs.zipIdx k).foldl (wire mask) bound)[p]? = bound[p]? := by
  induction xs generalizing k bound with
  | nil => rfl
  | cons x xs ih =>
      rw [List.map_cons, List.mem_cons, not_or] at hp
      rw [List.zipIdx_cons, List.foldl_cons, ih hp.2, wire,
        Array.getElem?_setIfInBounds_ne (Ne.symm hp.1)]

/-- A link that is put in place once is found there. -/
lemma getElem?_foldl_wire {xs : List (Nat × Link)} (nodup : (xs.map (·.1)).Nodup) {p i : Nat}
    {l : Link} (hi : xs[i]? = some (p, l)) (k : Nat) {bound : Array Link} (hp : p < bound.size) :
    ((xs.zipIdx k).foldl (wire mask) bound)[p]? = some (l.invertIf (mask.testBit (k + i))) := by
  induction xs generalizing i k bound with
  | nil => simp at hi
  | cons x xs ih =>
      obtain ⟨apart, nodup⟩ := List.nodup_cons.1 nodup
      rw [List.zipIdx_cons, List.foldl_cons]
      cases i with
      | zero =>
          obtain rfl : x = (p, l) := by simpa using hi
          rw [getElem?_foldl_wire_of_notMem apart, wire, Array.getElem?_setIfInBounds_self_of_lt hp]
          rfl
      | succ i =>
          rw [ih nodup (by simpa using hi) (k + 1) (by simpa [wire] using hp), Nat.add_assoc,
            Nat.add_comm 1 i]

end Wiring

namespace Permutes

variable {t : Transform} {n : Nat} {m : Meaning} {b : Builder}

lemma getElem?_wiring (h : t.Permutes n) {inputs : List Link} (hlength : inputs.length = n)
    {i p : Nat} (hi : t.perm[i]? = some p) {l : Link} (hl : inputs[i]? = some l) :
    (t.wiring inputs)[p]? = some (l.invertIf (t.mask.testBit i)) := by
  have hwire : t.wiring inputs =
      ((t.perm.zip inputs).zipIdx.foldl (wire t.mask) inputs.toArray).toList := rfl
  have nodup : ((t.perm.zip inputs).map (·.1)).Nodup := by
    rw [List.map_fst_zip (by rw [h.length, hlength])]
    exact h.nodup
  have hzip : (t.perm.zip inputs)[i]? = some (p, l) := by
    rw [List.getElem?_zip_eq_some]
    exact ⟨hi, hl⟩
  have hp : p < inputs.toArray.size := by
    rw [List.size_toArray, hlength]
    exact h.lt_of_mem (List.mem_of_getElem? hi)
  rw [hwire, Array.getElem?_toList, getElem?_foldl_wire nodup hzip 0 hp, Nat.zero_add]

/-- The wired inputs show the assignment of the old function. -/
lemma wiring_shows (h : t.Permutes n) {inputs : List Link}
    (hinputs : b.ShowsAll m inputs ((List.range n).map fun v σ => σ v)) :
    b.ShowsAll m (t.wiring inputs)
      ((List.range n).map fun v σ => (t.source (encode n σ)).testBit v) := by
  have hlength : inputs.length = n := by simpa using hinputs.length_eq
  have hsize : (t.wiring inputs).length = n := by
    rw [wiring, Array.length_toList]
    exact (size_foldl_wire _ _).trans (by simp [hlength])
  refine List.forall₂_iff_get.2 ⟨by simp [hsize], fun p hp _ => ?_⟩
  obtain ⟨i, hi⟩ := h.exists_position (hsize ▸ hp)
  have hlt := h.lt_of_getElem? hi
  obtain ⟨l, hl⟩ : ∃ l, inputs[i]? = some l := ⟨_, List.getElem?_eq_getElem (hlength ▸ hlt)⟩
  have shows : b.Shows m l fun σ => σ i := by
    obtain ⟨hlt', rfl⟩ := List.getElem?_eq_some_iff.1 hl
    simpa using (List.forall₂_iff_get.1 hinputs).2 i hlt' (by simpa using hlt)
  have hget : (t.wiring inputs).get ⟨p, hp⟩ = l.invertIf (t.mask.testBit i) :=
    Option.some.inj ((List.getElem?_eq_getElem hp).symm.trans (h.getElem?_wiring hlength hi hl))
  rw [hget]
  refine (shows.invertIf (t.mask.testBit i)).congr fun σ => ?_
  simp [h.testBit_source _ hi, testBit_encode hlt]

/-- A transformed network computes the transformed function.  Where all its cells read first ports,
those of the transformed network do. -/
theorem exists_onSubnet {store : Store} (h : t.Permutes n) {net : Subnet} {f : TruthTable n}
    (hnet : net.Computes store f) :
    ∃ net', t.onSubnet net = .ok net' ∧ net'.Computes store (t.onTable f) ∧
      ∀ strict : Prop, (∀ c ∈ net.cells, store.Regular strict c) →
        ∀ c ∈ net'.cells, store.Regular strict c := by
  have hempty := layout_empty {}
  have wf := wellFormed_empty {}
  obtain ⟨inputs, b₁, hrun₁, h₁, hin₁, -, hout₁, -, shows, regular₁⟩ :=
    wf.addInputs_shows store (m := store.ports) n
  rw [hempty.inputs_eq, List.length_nil] at hin₁ shows
  rw [← List.range_eq_range'] at shows
  have regular₁ := regular₁ (regular_empty store True {})
  have plain : b₁.options = {} := wf.options_addInputs hrun₁
  have hwiring := h.wiring_shows shows
  obtain ⟨l, b₂, hrun₂, grown, evaluable₂, regular₂, delivers⟩ := hnet.exists_addInstance h₁ plain
    (regular₁.evaluable h₁) (fun σ => h.source_lt _) hwiring
  have delivers := delivers.invertIf t.negated
  obtain ⟨b₃, hrun₃, h₃, hin₃, hout₃, hcells, order, values, -⟩ :=
    grown.wellFormed.addOutput_reads delivers.readable
  have houtputs : b₂.outputs = [] := by rw [grown.outputs, hout₁, hempty.outputs_eq]
  obtain ⟨net', hnet', finished⟩ := h₃.exists_finished
  have hbuild : t.build net (.empty {}) = .ok ((), b₃) := by
    rw [build, hnet.numInputs]
    exact build_bind_eq_ok_iff.2 ⟨inputs, b₁, hrun₁, build_bind_eq_ok_iff.2
      ⟨[l], b₂, hrun₂, build_discard_eq_ok_iff.2 ⟨_, hrun₃⟩⟩⟩
  refine ⟨net', ?_, ⟨?_, ?_, fun σ => ?_, ?_⟩, fun strict hr => ?_⟩
  · rw [onSubnet, if_neg (not_not.2 hnet.numOutputs), if_neg, if_pos h.isInRange]
    · exact bind_eq_ok_iff.2 ⟨((), b₃), hbuild, hnet'⟩
    · rw [hnet.numInputs, numVars, h.length]
      exact not_not.2 rfl
  · rw [finished.numInputs, hin₃, grown.inputs, hin₁, Nat.zero_add]
  · rw [finished.numOutputs, hout₃, houtputs]
    rfl
  · rw [finished.outputValues, values, outputValues, houtputs, delivers.read, onTable,
      TruthTable.value_ofFn _ (encode_lt n σ)]
    rfl
  · refine finished.evaluable (evaluable₂.push grown.wellFormed order hcells ?_ ⟨?_, ?_⟩)
    · intro k hk
      rw [List.mem_singleton.1 hk]
      exact grown.wellFormed.mem_order delivers.readable
    · exact (Store.evaluableBelow_gate rfl).2 fun _ => by simp [Cell.output]
    · intro k hk d hd
      rw [List.mem_singleton.1 hk] at hd ⊢
      exact delivers.port d hd
  · obtain ⟨regular₂, hport⟩ := regular₂ strict hr
    exact finished.regular (WellFormed.regular_of_pushed order hcells (Store.regular_output hport)
      (regular₂ (regular₁.mono fun _ => trivial)))

end Permutes

end Transform

end Gatework
