import Mathlib.Logic.Relation
import Gatework.Proofs.Builder.Invariant
import Gatework.Proofs.Builder.Meaning

/-!
# The meaning of a replacement

A replacement puts the value of a subnet over the leaves in the place of the value of the root.

The argument goes through the builder in which all copies are in place and nothing is taken out yet.
There the copies of the inner cells have the values that the originals have in the subnet, when its
inputs have the values of the leaves (`Replaced.values_place`), so the root has the value of the output
(`Replaced.read_root`).  An entry that does not depend on the root keeps its value
(`Replaced.values_outside`), and taking out what nothing reads changes no value.

**Main statement.** `replace_meaning`.
-/

namespace Gatework

/-- The output of a subnet with one output has the value of the link that it shows. -/
lemma Replacement.outputValues_eq {r : Replacement} {shown : Link} {m : Meaning} {σ : Nat → Bool}
    (single : r.net.numOutputs = 1) (hshown : r.shown = .ok shown) :
    r.net.outputValues m σ = [shown.read (r.net.values m σ)] := by
  unfold Replacement.shown at hshown
  split at hshown
  · rename_i l hl
    cases hshown
    obtain ⟨c, hc, hhead⟩ := Option.bind_eq_some_iff.1 hl
    rw [Nat.add_zero] at hc
    obtain ⟨rest, hlinks⟩ := List.head?_eq_some_iff.1 hhead
    rw [Subnet.outputValues, Subnet.outputs, single]
    simp only [List.range'_one, List.map_cons, List.map_nil]
    rw [Subnet.values_of_output hc ((r.net.obeys hc).isOutput_iff.2 (le_refl _)) hlinks,
      List.headD_cons]
  · cases hshown

/-- The output of an evaluable subnet shows a link. -/
lemma Replacement.exists_shown {store : Store} {r : Replacement} (single : r.net.numOutputs = 1)
    (evaluable : store.Evaluable r.net) : ∃ shown, r.shown = .ok shown := by
  obtain ⟨c, hc⟩ := Subnet.exists_cell_of_le (le_refl r.net.outputStart) (.inr (single ▸ Nat.one_pos))
  have hkind : c.kind.symbol = .gate .output :=
    beq_iff_eq.1 ((r.net.obeys hc).isOutput_iff.2 (le_refl _))
  have hinput : c.isInput = false := by simp [Cell.isInput, hkind]
  have hlinks := (Store.evaluableBelow_gate hkind).1 (evaluable _ c hc hinput).1 rfl
  obtain ⟨l, rest, hl⟩ := List.exists_cons_of_ne_nil hlinks
  refine ⟨l, ?_⟩
  simp [Replacement.shown, Subnet.outputLink?, hc, hl]

namespace Builder

/-- An entry reads another one, directly or through others, or is it. -/
def DependsOn (b : Builder) : Nat → Nat → Prop :=
  Relation.ReflTransGen fun x y => y ∈ b.driversOf x

/-- The entry `root`, or one that reads it, directly or through others. -/
def InFanout (b : Builder) (root id : Nat) : Prop :=
  Relation.ReflTransGen (fun x y => x ∈ b.driversOf y) root id

lemma Layout.not_inFanout {b : Builder} {ins inn inn' outs : List Nat} {root id : Nat}
    (h : Layout b ins (inn ++ root :: inn') outs) (hid : id ∈ ins ++ inn) :
    ¬ b.InFanout root id := by
  have harr := h.arranged_middle
  suffices ∀ id, b.InFanout root id → id ∉ ins ++ inn from fun hfan => this id hfan hid
  intro id hfan
  induction hfan with
  | refl => exact fun hroot => harr.linked.apart hroot (by simp)
  -- what an entry in front of the root reads is in front of the root as well
  | tail _ hreads ih => exact fun hy => ih (harr.mem_left hy hreads)

/-- No living entry reads an entry through a port other than the first. -/
def ReadAtFirstPort (b : Builder) (root : Nat) : Prop :=
  ∀ id ∈ b.order, ∀ c, b.cells[id]? = some c → ∀ l ∈ c.links, l.entry = root → l.port = 0

namespace Replaced

variable {store : Store} {r : Replacement} {shown : Link} {b full b' : Builder}
  {ins inn inn' outs kept : List Nat} {count : Nat} {c : Cell} {m : Meaning} {σ : Nat → Bool}

/-- The entries that were there keep their cells, except for the root. -/
lemma getElem?_old (h : Replaced r shown b full b' ins inn inn' outs kept count c) {id : Nat}
    (hid : id < b.size) (hroot : id ≠ r.root) : full.cells[id]? = b.cells[id]? := by
  rw [h.cells, Array.getElem?_setIfInBounds_ne hroot.symm, Array.getElem?_append_left hid]

lemma length_take (h : Replaced r shown b full b' ins inn inn' outs kept count c) :
    (r.innerCells.take count).length = count := by
  rw [List.length_take, Replacement.length_innerCells]
  cases h.rootCell <;> omega

lemma le_outputStart (h : Replaced r shown b full b' ins inn inn' outs kept count c) :
    r.net.numInputs + count ≤ r.net.outputStart := by
  cases h.rootCell <;> omega

/-- The root has its new cell. -/
lemma getElem?_root (h : Replaced r shown b full b' ins inn inn' outs kept count c)
    (hroot : r.root < b.size) : full.cells[r.root]? = some c := by
  have : r.root < (b.cells ++ ((r.innerCells.take count).map fun x =>
      x.1.rename (r.place b.size)).toArray).size := by
    rw [Array.size_append]
    exact hroot.trans_le (Nat.le_add_right _ _)
  rw [h.cells, Array.getElem?_setIfInBounds_self_of_lt this]

/-- The copies of the inner cells are found at their places. -/
lemma getElem?_place (h : Replaced r shown b full b' ins inn inn' outs kept count c)
    (fits : r.net.numInputs = r.leaves.length) (hroot : r.root < b.size) {k : Nat}
    (hk : k < count) {e : Cell} (he : r.net.cells[r.net.numInputs + k]? = some e) :
    r.place b.size (r.net.numInputs + k) = b.size + k ∧
      full.cells[b.size + k]? = some (e.rename (r.place b.size)) := by
  have hstart := h.le_outputStart
  refine ⟨by simp [Replacement.place, fits], ?_⟩
  have hcell : r.innerCells[k]? = some (e, r.net.numInputs + k) := by
    rw [Replacement.innerCells, List.getElem?_drop, List.getElem?_take_of_lt (by omega)]
    simp [List.getElem?_zipIdx, he]
  rw [h.cells, Array.getElem?_setIfInBounds_ne (by omega), Array.getElem?_append_right (by
    exact Nat.le_add_right _ _)]
  simp [Builder.size, List.getElem?_take_of_lt hk, hcell]

lemma mem_full (h : Replaced r shown b full b' ins inn inn' outs kept count c)
    (layout : Layout b ins (inn ++ r.root :: inn') outs) {id : Nat} (hid : id ∈ b.order) :
    id ∈ full.order := by
  rw [layout.mem_order] at hid
  rw [h.complete.mem_order]
  simp only [List.mem_append, List.mem_cons] at hid ⊢
  tauto

/-- An entry that does not depend on the root keeps its value. -/
lemma values_outside (h : Replaced r shown b full b' ins inn inn' outs kept count c)
    (layout : Layout b ins (inn ++ r.root :: inn') outs) {id : Nat} (hid : id ∈ b.order)
    (hfan : ¬ b.InFanout r.root id) : full.values m σ id = b.values m σ id := by
  have harr := layout.arranged_order
  refine layout.eq_values (S := fun id => id ∈ b.order ∧ ¬ b.InFanout r.root id)
    (fun _ hS => hS.1) ?_ ?_ id ⟨hid, hfan⟩
  · exact fun id hS d hd => ⟨harr.mem_of_reads id hS.1 d hd, fun hfan => hS.2 (hfan.tail hd)⟩
  · refine (h.complete.solves.mono fun id hS => h.mem_full layout hS.1).congr ?_ ?_
    · intro id hS
      refine (h.getElem?_old (harr.lt_size hS.1) ?_).symm
      rintro rfl
      exact hS.2 .refl
    · intro id hS
      rw [given_congr (h.complete.inputs_eq.trans layout.inputs_eq.symm)]

/-- Taking out what nothing reads changes no value. -/
lemma values_kept (h : Replaced r shown b full b' ins inn inn' outs kept count c) {id : Nat}
    (hid : id ∈ b'.order) : b'.values m σ id = full.values m σ id := by
  have harr := h.layout.arranged_order
  refine (h.layout.eq_values (S := (· ∈ b'.order)) (fun _ hS => hS)
    (fun id hid => harr.mem_of_reads id hid) ?_ id hid).symm
  refine (h.complete.solves.mono fun id hS => ?_).congr (fun id _ => by rw [h.same]) fun id _ => by
    rw [given_congr (h.layout.inputs_eq.trans h.complete.inputs_eq.symm)]
  rw [h.layout.mem_order] at hS
  rw [h.complete.mem_order]
  have := fun id hid => h.sublist.subset (a := id) hid
  simp only [List.mem_append, List.mem_cons] at hS this ⊢
  rcases hS with hS | (hS | hS) | hS
  · exact .inl hS
  · exact .inr (.inl (.inl (this id hS)))
  · exact .inr (.inl (.inr hS))
  · exact .inr (.inr hS)

section Mirror

variable (h : Replaced r shown b full b' ins inn inn' outs kept count c)
  (layout : Layout b ins (inn ++ r.root :: inn') outs)
  (fits : r.net.numInputs = r.leaves.length) (hleaves : ∀ leaf ∈ r.leaves, leaf ∈ ins ++ inn)
  (evaluable : store.Evaluable r.net)

include h layout fits hleaves evaluable

/-- A link of the replacing subnet and its copy read the same value. -/
lemma read_place {w : Valuation} {l : Link} {i : Nat} {e : Cell}
    (he : r.net.cells[i]? = some e) (hi : r.net.numInputs ≤ i) (hl : l ∈ e.links)
    (inputs : ∀ j < r.net.numInputs,
      w j = [(b.values m σ (r.leaves.getD j 0)).getD 0 false])
    (inner : ∀ j < i, r.net.numInputs ≤ j → full.values m σ (r.place b.size j) = w j) :
    (l.rename (r.place b.size)).read (full.values m σ) = l.read w := by
  have obeys := r.net.obeys he
  have hlt := obeys.lt_of_reads l.entry (List.mem_map_of_mem hl)
  by_cases hin : l.entry < r.net.numInputs
  · obtain ⟨d, hd⟩ : ∃ d, r.net.cells[l.entry]? = some d :=
      ⟨_, Array.getElem?_eq_getElem (hlt.trans (Array.getElem?_eq_some_iff.1 he).1)⟩
    have hkind := Subnet.kind_of_lt hd hin
    have hinput : e.isInput = false := Bool.eq_false_iff.2 fun hinput =>
      absurd (obeys.isInput_iff.1 hinput) (Nat.not_lt.2 hi)
    have hport := (evaluable i e he hinput).2 l hl d hd
    rw [Store.numPorts_gate hkind, Nat.lt_one_iff] at hport
    have hleaf : l.entry < r.leaves.length := fits ▸ hin
    have hplace : r.place b.size l.entry = r.leaves.getD l.entry 0 := by
      simp [Replacement.place, hleaf]
    have hmem : r.leaves.getD l.entry 0 ∈ ins ++ inn := by
      simpa [hleaf] using hleaves _ (List.getElem_mem hleaf)
    have horder : r.leaves.getD l.entry 0 ∈ b.order := by
      rw [layout.mem_order]
      rcases List.mem_append.1 hmem with hmem | hmem
      · exact .inl hmem
      · exact .inr (.inl (List.mem_append_left _ hmem))
    rw [Link.read, Link.read, inputs l.entry hin, Link.rename, hport, hplace,
      h.values_outside layout horder (layout.not_inFanout hmem)]
    rfl
  · rw [Link.read, Link.read, ← inner l.entry hlt (Nat.not_lt.1 hin)]
    rfl

/-- The copies have the values of their originals. -/
lemma values_place {τ : Nat → Bool}
    (hτ : ∀ j < r.net.numInputs, τ j = (b.values m σ (r.leaves.getD j 0)).getD 0 false) {i : Nat}
    (hi : i < r.net.numInputs + count) (hge : r.net.numInputs ≤ i) :
    full.values m σ (r.place b.size i) = r.net.values m τ i := by
  induction i using Nat.strong_induction_on with
  | _ i ih =>
      have hstart := h.le_outputStart
      have hroot : r.root < b.size := layout.lt_size (by simp)
      obtain ⟨k, rfl⟩ := Nat.exists_eq_add_of_le hge
      have hlt : r.net.numInputs + k < r.net.outputStart := by omega
      obtain ⟨e, he⟩ := Subnet.exists_cell_of_le hlt.le (.inl hlt)
      obtain ⟨hplace, hcell⟩ := h.getElem?_place fits hroot (by omega) he
      have hmem : b.size + k ∈ inn ++ List.range' b.size count ++ r.root :: inn' ++ outs := by
        have : b.size + k ∈ List.range' b.size count := List.mem_range'_1.2 (by omega)
        simp [this]
      rw [hplace, h.complete.values_of_cell hmem hcell, Subnet.values_of_le hge he]
      refine Cell.portsIn_rename fun l hl => ?_
      refine h.read_place layout fits hleaves evaluable he hge hl (fun j hj => ?_) fun j hj hge => ?_
      · rw [Subnet.values_of_lt hj, hτ j hj]
      · exact ih j hj (by omega) hge

/-- The root has the value of the output. -/
lemma read_root (hshown : r.shown = .ok shown) {τ : Nat → Bool}
    (hτ : ∀ j < r.net.numInputs, τ j = (b.values m σ (r.leaves.getD j 0)).getD 0 false) :
    (full.values m σ r.root).getD 0 false = shown.read (r.net.values m τ) := by
  have hroot : r.root < b.size := layout.lt_size (by simp)
  have inputs : ∀ j < r.net.numInputs, r.net.values m τ j =
      [(b.values m σ (r.leaves.getD j 0)).getD 0 false] := fun j hj => by
    rw [Subnet.values_of_lt hj, hτ j hj]
  have hmem : r.root ∈ inn ++ List.range' b.size count ++ r.root :: inn' ++ outs := by simp
  rw [h.complete.values_of_cell hmem (h.getElem?_root hroot)]
  have rootCell := h.rootCell
  cases rootCell with
  | @inPlace e direct last cell =>
      obtain ⟨hinv, hport, -, hentry⟩ := Replacement.isInPlace_iff.1 direct
      have hshown : shown.entry = r.net.numInputs + count := by omega
      have hvalue : (e.rename (r.place b.size)).portsIn m (full.values m σ) =
          r.net.values m τ (r.net.numInputs + count) := by
        rw [Subnet.values_of_le (Nat.le_add_right _ _) cell]
        refine Cell.portsIn_rename fun l hl => ?_
        exact h.read_place layout fits hleaves evaluable cell (Nat.le_add_right _ _) hl inputs
          fun j hj hge => h.values_place layout fits hleaves evaluable hτ hj hge
      rw [hvalue, Link.read, hshown, hinv, hport, Bool.xor_false]
      rfl
  | buffer indirect all =>
      unfold Replacement.shown at hshown
      split at hshown
      · rename_i l hl
        cases hshown
        obtain ⟨e, he, hhead⟩ := Option.bind_eq_some_iff.1 hl
        rw [Nat.add_zero] at he
        refine h.read_place layout fits hleaves evaluable he (by omega) (List.mem_of_head? hhead)
          inputs fun j hj hge => ?_
        exact h.values_place layout fits hleaves evaluable hτ (by omega) hge
      · cases hshown

end Mirror

/-- If the root keeps the value on its first port, and among entries that read only each other none reads
another port of it, then all of them but the root keep their values. -/
lemma values_same_of_closed (h : Replaced r shown b full b' ins inn inn' outs kept count c)
    (layout : Layout b ins (inn ++ r.root :: inn') outs) {S : Nat → Prop}
    (alive : ∀ id, S id → id ∈ b.order) (closed : ∀ id, S id → ∀ d ∈ b.driversOf id, S d)
    (firstPort : ∀ id, S id → ∀ e, b.cells[id]? = some e → ∀ l ∈ e.links, l.entry = r.root → l.port = 0)
    (agree : (full.values m σ r.root).getD 0 false = (b.values m σ r.root).getD 0 false) {id : Nat}
    (hid : S id) (hroot : id ≠ r.root) : full.values m σ id = b.values m σ id := by
  have harr := layout.arranged_order
  induction hrank : b.order.idxOf id using Nat.strong_induction_on generalizing id with
  | _ rank ih =>
      have horder := alive id hid
      by_cases hinput : id ∈ ins
      · rw [h.complete.values_of_input hinput, layout.values_of_input hinput]
      obtain ⟨e, he⟩ : ∃ e, b.cells[id]? = some e :=
        ⟨_, Array.getElem?_eq_getElem (harr.lt_size horder)⟩
      have hold : id ∈ inn ++ r.root :: inn' ++ outs :=
        List.mem_append.2 ((layout.mem_order.1 horder).resolve_left hinput)
      have hnew : id ∈ inn ++ List.range' b.size count ++ r.root :: inn' ++ outs := by
        simp only [List.mem_append, List.mem_cons] at hold ⊢
        tauto
      rw [h.complete.values_of_cell hnew ((h.getElem?_old (harr.lt_size horder) hroot).trans he),
        layout.values_of_cell hold he]
      refine Cell.portsIn_congr_read fun l hl => ?_
      have hreads : l.entry ∈ b.driversOf id := by
        rw [driversOf, he]
        exact List.mem_map_of_mem hl
      have hmem := harr.mem_of_reads id horder l.entry hreads
      by_cases hentry : l.entry = r.root
      · rw [Link.read, Link.read, firstPort id hid e he l hl hentry, hentry]
        exact congrArg (· ^^ l.inverted) agree
      · have hlt := harr.topological.idxOf_lt horder hreads hmem harr.linked.nodup
        rw [Link.read, Link.read, ih _ (hrank ▸ hlt) (closed id hid _ hreads) hentry rfl]

/-- If nothing living reads another port of the root, all entries but the root keep their values. -/
lemma values_same (h : Replaced r shown b full b' ins inn inn' outs kept count c)
    (layout : Layout b ins (inn ++ r.root :: inn') outs) (firstPort : b.ReadAtFirstPort r.root)
    (agree : (full.values m σ r.root).getD 0 false = (b.values m σ r.root).getD 0 false) {id : Nat}
    (hid : id ∈ b.order) (hroot : id ≠ r.root) : full.values m σ id = b.values m σ id := by
  have harr := layout.arranged_order
  exact h.values_same_of_closed layout (fun _ h => h) harr.mem_of_reads firstPort agree hid hroot

end Replaced

/-- What a replacement does to the values of a builder. -/
structure Substituted (store : Store) (b b' : Builder) (r : Replacement) (σ : Nat → Bool) :
    Prop where
  /-- The root has the value of the subnet over the values that the leaves had. -/
  root : (b'.values store.ports σ r.root).getD 0 false =
    (r.net.outputValues store.ports fun i =>
      (b.values store.ports σ (r.leaves.getD i 0)).getD 0 false).getD 0 false
  /-- Every entry that is still there and does not depend on the root has the value it had. -/
  outside : ∀ id ∈ b.order, id ∈ b'.order → ¬ b.InFanout r.root id →
    b'.values store.ports σ id = b.values store.ports σ id
  /-- If the subnet agrees with the old root, which is read through its first port only, then every
  output keeps its value. -/
  outputs : b.ReadAtFirstPort r.root →
    (r.net.outputValues store.ports fun i =>
        (b.values store.ports σ (r.leaves.getD i 0)).getD 0 false).getD 0 false =
      (b.values store.ports σ r.root).getD 0 false →
    b'.outputValues store.ports σ = b.outputValues store.ports σ

/-- The values after a replacement. -/
lemma Replaced.substituted {store : Store} {r : Replacement} {shown : Link} {b full b' : Builder}
    {ins inn inn' outs kept : List Nat} {count : Nat} {c : Cell}
    (h : Replaced r shown b full b' ins inn inn' outs kept count c)
    (layout : Layout b ins (inn ++ r.root :: inn') outs) (single : r.net.numOutputs = 1)
    (fits : r.net.numInputs = r.leaves.length) (hleaves : ∀ leaf ∈ r.leaves, leaf ∈ ins ++ inn)
    (evaluable : store.Evaluable r.net) (hshown : r.shown = .ok shown) (σ : Nat → Bool) :
    Substituted store b b' r σ := by
  have hroot : r.root ∈ b'.order := h.layout.mem_order.2 (by simp)
  have value := h.read_root (m := store.ports) (σ := σ) layout fits hleaves evaluable hshown
    fun j _ => rfl
  refine ⟨?_, fun id hid hid' hfan => ?_, fun firstPort agree => ?_⟩
  · rw [h.values_kept hroot, value, Replacement.outputValues_eq single hshown]
    rfl
  · rw [h.values_kept hid', h.values_outside layout hid hfan]
  · rw [outputValues, outputValues, h.layout.outputs_eq, layout.outputs_eq]
    refine List.map_congr_left fun o ho => ?_
    have hne : o ≠ r.root := by
      rintro rfl
      exact layout.arranged.linked.apart (by simp) ho
    rw [h.values_kept (h.layout.mem_order.2 (.inr (.inr ho))), h.values_same layout firstPort ?_
      (layout.mem_order.2 (.inr (.inr ho))) hne]
    rw [value, ← agree, Replacement.outputValues_eq single hshown]
    rfl

/-- A replacement of a living inner cell by an evaluable subnet over leaves in front of it succeeds.
For every assignment the root then has the value of the subnet over the leaves, all that does not
depend on the root keeps its value, and nothing that an output depends on is taken out. -/
theorem replace_meaning {store : Store} {b : Builder} {r : Replacement} (h : WellFormed b)
    (single : r.net.numOutputs = 1) (fits : r.net.numInputs = r.leaves.length)
    (evaluable : store.Evaluable r.net) (root : r.root ∈ b.inner)
    (leaves : ∀ leaf ∈ r.leaves, b.IsDriver leaf ∧ b.Precedes leaf r.root) :
    ∃ b', b.replace r = .ok b' ∧ WellFormed b' ∧ b'.inputs = b.inputs ∧ b'.outputs = b.outputs ∧
      (∀ σ, Substituted store b b' r σ) ∧
      ∀ o ∈ b'.outputs, ∀ id, b'.DependsOn o id → b'.isAlive id = true := by
  obtain ⟨inn, inn', -, layout, hleaves⟩ :=
    h.exists_layout root fun leaf hleaf => (leaves leaf hleaf).2
  obtain ⟨shown, hshown⟩ := Replacement.exists_shown single evaluable
  obtain ⟨b', full, kept, count, c, hrun, replaced⟩ := layout.replace h.settled single fits hleaves hshown
  refine ⟨b', hrun, replaced.layout.wellFormed replaced.settled, replaced.layout.inputs_eq,
    replaced.layout.outputs_eq, replaced.substituted layout single fits hleaves evaluable hshown, ?_⟩
  intro o ho id hdep
  have harr := replaced.layout.arranged_order
  refine (harr.isAlive_iff id).2 ?_
  induction hdep with
  | refl => exact (List.mem_filter.1 ho).1
  | tail _ hreads ih => exact harr.mem_of_reads _ ih _ hreads

/-! ## A conjunction and its dual -/

lemma evaluable_dual (store : Store) : store.Evaluable dual := by
  refine Store.evaluable_of_port_zero (fun c hc hinput => ?_) (by decide)
  have gates : ∀ c ∈ dual.cells, c.kind.symbol = .gate .input ∨ c.kind.symbol = .gate .or ∨
      c.kind.symbol = .gate .output ∧ c.links ≠ [] := by decide
  rcases gates c hc with hkind | hkind | ⟨hkind, hlinks⟩
  · exact (Store.evaluableBelow_gate hkind).2 (by simp [Gate.isUnary])
  · exact (Store.evaluableBelow_gate hkind).2 (by simp [Gate.isUnary])
  · exact (Store.evaluableBelow_gate hkind).2 fun _ => hlinks

lemma readAtFirstPort_absorber : absorber.ReadAtFirstPort dualReplacement.root := by
  have ports : ∀ c ∈ absorption.cells, ∀ l ∈ c.links, l.port = 0 := by decide
  intro id _ c hc l hl _
  rw [cells_absorber] at hc
  exact ports c (Array.mem_of_getElem? hc) l hl

lemma outputValues_dual (m : Meaning) (τ : Nat → Bool) : dual.outputValues m τ = [τ 0 && τ 1] := by
  cbv
  cases τ 0 <;> cases τ 1 <;> rfl

/-- The dual agrees with the conjunction for every assignment. -/
lemma agrees_dual (store : Store) (σ : Nat → Bool) :
    (dual.outputValues store.ports fun i =>
        (absorber.values store.ports σ (dualReplacement.leaves.getD i 0)).getD 0 false).getD 0 false =
      (absorber.values store.ports σ dualReplacement.root).getD 0 false := by
  have layout := (wellFormed_ofSubnet ofSubnet_absorption).layout
  have hinner : dualReplacement.root ∈ absorber.inner := by
    rw [inner_absorber]
    exact .head _
  have hcell : absorber.cells[dualReplacement.root]? = some ⟨.ofGate .and, [.of 0, .of 1]⟩ := by
    rw [cells_absorber]
    rfl
  rw [layout.values_of_cell (List.mem_append_left _ hinner) hcell, outputValues_dual]
  generalize absorber.values store.ports σ = v
  show ((v 0).getD 0 false && (v 1).getD 0 false) = _
  simp [Cell.portsIn, Cell.ports, CellKind.ofGate, Gate.value, Link.read, Link.of]

/-- The dual in the place of a conjunction that a disjunction reads through its first port: the output,
which shows the disjunction, keeps its value. -/
theorem replace_meaning_dual : ∃ b', absorber.replace dualReplacement = .ok b' ∧
    WellFormed absorber ∧ dualReplacement.root ∈ absorber.inner ∧
    absorber.ReadAtFirstPort dualReplacement.root ∧
    ∀ σ, Substituted .empty absorber b' dualReplacement σ ∧
      b'.outputValues Store.empty.ports σ = absorber.outputValues Store.empty.ports σ := by
  have wf := wellFormed_ofSubnet ofSubnet_absorption
  have root : dualReplacement.root ∈ absorber.inner := by
    rw [inner_absorber]
    exact .head _
  obtain ⟨b', hrun, -, -, -, hσ, -⟩ := replace_meaning wf rfl rfl (evaluable_dual .empty) root
    leaves_dualReplacement
  exact ⟨b', hrun, wf, root, readAtFirstPort_absorber, fun σ =>
    ⟨hσ σ, (hσ σ).outputs readAtFirstPort_absorber (agrees_dual .empty σ)⟩⟩

lemma evaluable_exclusiveOr : halfStore.Evaluable exclusiveOr := by
  refine Store.evaluable_of_port_zero (fun c hc hinput => ?_) (by decide)
  have gates : ∀ c ∈ exclusiveOr.cells, c.kind.symbol = .gate .input ∨ c.kind.symbol = .gate .xor ∨
      c.kind.symbol = .gate .output ∧ c.links ≠ [] := by decide
  rcases gates c hc with hkind | hkind | ⟨hkind, hlinks⟩
  · exact (Store.evaluableBelow_gate hkind).2 (by simp [Gate.isUnary])
  · exact (Store.evaluableBelow_gate hkind).2 (by simp [Gate.isUnary])
  · exact (Store.evaluableBelow_gate hkind).2 fun _ => hlinks

/-- The output that shows the second port of the half adder does not keep its value, although the
subnet that is put in its place computes the first port. -/
theorem outputs_change_at_second_port :
    ∃ b', halfBuilder.replace sumReplacement = .ok b' ∧ WellFormed halfBuilder ∧
      sumReplacement.root ∈ halfBuilder.inner ∧
      (∀ leaf ∈ sumReplacement.leaves,
        halfBuilder.IsDriver leaf ∧ halfBuilder.Precedes leaf sumReplacement.root) ∧
      halfStore.Evaluable sumReplacement.net ∧
      (sumReplacement.net.outputValues halfStore.ports fun i =>
          (halfBuilder.values halfStore.ports (fun _ => true)
            (sumReplacement.leaves.getD i 0)).getD 0 false).getD 0 false =
        (halfBuilder.values halfStore.ports (fun _ => true) sumReplacement.root).getD 0 false ∧
      b'.outputValues halfStore.ports (fun _ => true) ≠
        halfBuilder.outputValues halfStore.ports fun _ => true := by
  obtain ⟨b', hrun⟩ := exists_replace_halfBuilder
  have after : (halfBuilder.replace sumReplacement).map
      (fun b => b.outputValues halfStore.ports fun _ => true) = .ok [false, false] := by cbv
  have before : halfBuilder.outputValues halfStore.ports (fun _ => true) = [false, true] := by cbv
  rw [hrun] at after
  refine ⟨b', hrun, reachable_halfBuilder.wellFormed, by rw [inner_halfBuilder]; simp,
    leaves_sumReplacement, evaluable_exclusiveOr, by cbv, ?_⟩
  rw [before, show b'.outputValues halfStore.ports _ = [false, false] from Except.ok.inj after]
  decide

end Builder

end Gatework
