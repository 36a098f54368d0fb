import Gatework.Proofs.Builder.Substitution
import Gatework.Proofs.Cut.Leaves
import Gatework.Proofs.Cut.Separation
import Gatework.Proofs.Npn.Transform

/-!
# The function of a cone, before and after its replacement

Before a replacement the table of a cut gives the value of the root from those of the leaves.  After it
the table of the same cut, of which leaves may be gone by then, is that of the network that was put in
place.

* `WellFormed.exists_table`: the table of a cut in a builder with regular inner cells.
* `Replaced.tabulateCone_eq`: the table of the cut after the replacement.
-/

namespace Gatework

/-- A copy of a regular cell that reads the same ports in other places is regular. -/
lemma Store.Regular.rename {store : Store} {strict : Prop} {c : Cell}
    (h : store.Regular strict c) (place : Nat → Nat) : store.Regular strict (c.rename place) where
  port l hl := by
    obtain ⟨k, hk, rfl⟩ := List.mem_map.1 hl
    exact h.port k hk
  evaluable hinput := (h.evaluable hinput).congr rfl (by simp [Cell.rename])
  constant hs hconst := by simp [Cell.rename, h.constant hs hconst]

namespace Builder

section Before

variable {store : Store} {strict : Prop} {b : Builder} {root : Nat} {leaves : List Nat}

/-- The number that encodes the values of some entries. -/
def leafCode (b : Builder) (m : Meaning) (σ : Nat → Bool) (leaves : List Nat) : Nat :=
  encode leaves.length fun k => (b.values m σ (leaves.getD k 0)).headD false

/-- The cone of leaves that separate an inner cell from the inputs has a table.  For every assignment it
gives the value of the cell from those of the leaves. -/
theorem WellFormed.exists_table (wf : b.WellFormed) (regular : b.InnerRegular store strict)
    (hroot : root ∈ b.inner) (hn : leaves.length ≤ maxEvaluatedVariables)
    (separated : Separated b.cells leaves root) :
    ∃ t, store.tabulateCone b.cells root leaves = .ok t ∧
      ∀ σ, t.value (b.leafCode store.ports σ leaves) =
        (b.values store.ports σ root).headD false := by
  have ranked : Store.ConeRanked store b.cells leaves (fun e => e ∈ b.order ∧ b.IsDriver e)
      fun e => b.order.idxOf e := by
    rintro e ⟨he, c, hc, hout⟩ -
    refine ⟨c, hc, fun hinput => ?_⟩
    have cell := regular e (mem_inner he hc (Bool.or_eq_false_iff.2 ⟨hinput, hout⟩)) c hc
    refine ⟨cell.evaluable hinput, fun l hl => ⟨cell.port l hl, ?_⟩⟩
    have hreads : l.entry ∈ b.driversOf e := by
      rw [driversOf, hc]
      exact List.mem_map_of_mem hl
    obtain ⟨hmem, hlt⟩ := Network.reads_front (N := .builder b wf) he hc (List.mem_map_of_mem hl)
    exact ⟨⟨hmem, wf.arranged.isDriver_of_reads e he _ hreads⟩, hlt⟩
  have horder : root ∈ b.order := wf.layout.mem_order.2 (.inr (.inl hroot))
  have hdriver : b.IsDriver root := wf.layout.isDriver (List.mem_append_right _ hroot)
  rcases Store.tabulateCone_ok_or_input ranked ⟨horder, hdriver⟩
      (Network.idxOf_le_size (N := .builder b wf) horder) hn with
    ⟨-, t, ht⟩ | ⟨i, c, bypass, hi, hinput, -⟩
  · exact ⟨t, ht, Network.tabulateCone_value (N := .builder b wf) horder ht⟩
  · rw [separated.isInput_of_bypasses bypass hi] at hinput
    cases hinput

end Before

namespace Replaced

variable {store : Store} {strict : Prop} {r : Replacement} {shown : Link} {b full b' : Builder}
  {ins inn inn' outs kept : List Nat} {count : Nat} {c : Cell}

/-- The cells that a replacement brings are copies of cells of the subnet, and the buffer. -/
lemma regular_root (h : Replaced r shown b full b' ins inn inn' outs kept count c)
    (hshown : r.shown = .ok shown) (regular : ∀ e ∈ r.net.cells, store.Regular strict e) :
    store.Regular strict c := by
  have rootCell := h.rootCell
  cases rootCell with
  | inPlace direct last cell => exact (regular _ (Array.mem_of_getElem? cell)).rename _
  | buffer indirect all =>
      have hport : shown.port = 0 := by
        unfold Replacement.shown at hshown
        split at hshown
        · rename_i l hl
          cases hshown
          obtain ⟨e, he, hhead⟩ := Option.bind_eq_some_iff.1 hl
          exact (regular e (Array.mem_of_getElem? he)).port _ (List.mem_of_head? hhead)
        · cases hshown
      refine ⟨by simpa [Link.rename] using hport, fun _ => ?_, fun _ hconst => nomatch hconst⟩
      exact (Store.evaluableBelow_gate rfl).2 fun _ => by simp

/-- Regular cells in the place of a cone leave the inner cells of the builder regular. -/
lemma innerRegular (h : Replaced r shown b full b' ins inn inn' outs kept count c)
    (layout : Layout b ins (inn ++ r.root :: inn') outs)
    (fits : r.net.numInputs = r.leaves.length) (hshown : r.shown = .ok shown)
    (regular : ∀ e ∈ r.net.cells, store.Regular strict e) (old : b.InnerRegular store strict) :
    b'.InnerRegular store strict := by
  have harr := layout.arranged_order
  have hroot : r.root < b.size := layout.lt_size (by simp)
  intro id hid e he
  obtain ⟨hid, inner⟩ := List.mem_filter.1 hid
  rw [he, Option.any_some, Bool.not_eq_true'] at inner
  rw [h.same] at he
  by_cases e' : id = r.root
  · subst e'
    cases (h.getElem?_root hroot).symm.trans he
    exact h.regular_root hshown regular
  rcases h.mem_order_or_new layout hid with hold | hnew
  · rw [h.getElem?_old (harr.lt_size hold) e'] at he
    exact old id (mem_inner hold he inner) e he
  · obtain ⟨k, rfl⟩ := Nat.exists_eq_add_of_le hnew
    have hlt : b.size + k < b'.size := h.layout.lt_size (h.layout.order_eq ▸ hid)
    have hsize := h.size_eq
    have hstart := h.le_outputStart
    have hlt : r.net.numInputs + k < r.net.outputStart := by omega
    obtain ⟨d, hd⟩ := Subnet.exists_cell_of_le hlt.le (.inl hlt)
    obtain ⟨-, hcell⟩ := h.getElem?_place fits hroot (by omega) hd
    cases hcell.symm.trans he
    exact (regular d (Array.mem_of_getElem? hd)).rename _

/-- A valuation of the leaves, which have the bits of `x`, and of the copies, which have the values of
their originals. -/
def copyValues (r : Replacement) (m : Meaning) (base x : Nat) : Valuation := fun e =>
  if e ∈ r.leaves then [x.testBit (r.leaves.idxOf e)]
  else r.net.values m x.testBit (r.net.numInputs + (e - base))

/-- A valuation of the new cone: the root has the value of its cell. -/
def coneValues (r : Replacement) (m : Meaning) (base x : Nat) (c : Cell) : Valuation :=
  Function.update (copyValues r m base x) r.root (c.portsIn m (copyValues r m base x))

section NewCone

variable (h : Replaced r shown b full b' ins inn inn' outs kept count c)
  (layout : Layout b ins (inn ++ r.root :: inn') outs)
  (fits : r.net.numInputs = r.leaves.length) (hleaves : ∀ leaf ∈ r.leaves, leaf ∈ ins ++ inn)
  (nodup : r.leaves.Nodup)

include layout hleaves in
lemma root_notMem_leaves : r.root ∉ r.leaves := fun hmem =>
  layout.arranged_middle.linked.apart (hleaves _ hmem) (by simp)

include layout hleaves in
lemma leaf_lt {leaf : Nat} (hleaf : leaf ∈ r.leaves) : leaf < b.size := by
  refine layout.lt_size ?_
  rcases List.mem_append.1 (hleaves leaf hleaf) with hmem | hmem <;> simp [hmem]

include layout fits hleaves nodup in
/-- The places of the inputs and of the copies have the values that the entries of the subnet have. -/
lemma coneValues_place {m : Meaning} {x j : Nat} :
    coneValues r m b.size x c (r.place b.size j) = r.net.values m x.testBit j := by
  have hroot : r.root < b.size := layout.lt_size (by simp)
  by_cases hj : j < r.leaves.length
  · have hplace : r.place b.size j = r.leaves[j] := by simp [Replacement.place, hj]
    have hmem : r.leaves[j] ∈ r.leaves := List.getElem_mem hj
    have hne : r.leaves[j] ≠ r.root := fun e => root_notMem_leaves layout hleaves (e ▸ hmem)
    rw [coneValues, hplace, Function.update_of_ne hne, copyValues, if_pos hmem]
    rw [nodup.idxOf_getElem j hj, Subnet.values_of_lt (fits ▸ hj)]
  · have hplace : r.place b.size j = b.size + (j - r.leaves.length) := by
      simp [Replacement.place, Nat.not_lt.1 hj]
    have hleaf : b.size + (j - r.leaves.length) ∉ r.leaves := fun hmem => by
      have := leaf_lt layout hleaves hmem
      omega
    have hne : b.size + (j - r.leaves.length) ≠ r.root := by omega
    rw [coneValues, hplace, Function.update_of_ne hne, copyValues, if_neg hleaf,
      Nat.add_sub_cancel_left]
    rw [fits, Nat.add_sub_cancel' (Nat.not_lt.1 hj)]

/-- The entries of the new cone: the leaves, the copies and the root. -/
def InCone (r : Replacement) (base count e : Nat) : Prop :=
  e ∈ r.leaves ∨ (∃ k < count, e = base + k) ∨ e = r.root

/-- How far an entry of the new cone is above the leaves. -/
def coneRank (r : Replacement) (base count e : Nat) : Nat :=
  if e ∈ r.leaves then 0
  else if e = r.root then r.net.numInputs + count
  else r.net.numInputs + (e - base)

/-- An entry of the new cone above the leaves renames a cell whose drivers are places below `i`. -/
structure Original (store : Store) (strict : Prop) (r : Replacement) (cells : Array Cell)
    (base count e i : Nat) (d : Cell) : Prop where
  cell : cells[e]? = some (d.rename (r.place base))
  isInput : d.isInput = false
  regular : store.Regular strict d
  lt_of_reads : ∀ x ∈ d.drivers, x < i
  le : i ≤ r.net.numInputs + count
  rank : coneRank r base count e = i

include h layout fits in
lemma exists_original (hshown : r.shown = .ok shown)
    (regular : ∀ e ∈ r.net.cells, store.Regular strict e) {e : Nat} (he : InCone r b.size count e)
    (hleaf : e ∉ r.leaves) : ∃ i d, Original store strict r b'.cells b.size count e i d := by
  have hroot : r.root < b.size := layout.lt_size (by simp)
  rcases he.resolve_left hleaf with ⟨k, hk, rfl⟩ | rfl
  · have hstart := h.le_outputStart
    have hlt : r.net.numInputs + k < r.net.outputStart := by omega
    obtain ⟨d, hd⟩ := Subnet.exists_cell_of_le hlt.le (.inl hlt)
    have obeys := r.net.obeys hd
    refine ⟨r.net.numInputs + k, d, ?_, ?_, regular d (Array.mem_of_getElem? hd), obeys.lt_of_reads,
      by omega, ?_⟩
    · rw [h.same, (h.getElem?_place fits hroot hk hd).2]
    · exact Bool.eq_false_iff.2 fun hin => by have := obeys.isInput_iff.1 hin; omega
    · rw [coneRank, if_neg hleaf, if_neg (by omega), Nat.add_sub_cancel_left]
  · have hrank : coneRank r b.size count r.root = r.net.numInputs + count := by
      rw [coneRank, if_neg hleaf, if_pos rfl]
    have hcell : b'.cells[r.root]? = some c := h.same ▸ h.getElem?_root hroot
    have hregular := h.regular_root hshown regular
    have rootCell := h.rootCell
    cases rootCell with
    | @inPlace d direct last cell =>
        have obeys := r.net.obeys cell
        refine ⟨_, d, hcell, ?_, regular d (Array.mem_of_getElem? cell), obeys.lt_of_reads,
          le_refl _, hrank⟩
        exact Bool.eq_false_iff.2 fun hin => by have := obeys.isInput_iff.1 hin; omega
    | buffer indirect all =>
        have hlt := Replacement.shown_lt hshown
        refine ⟨_, ⟨.ofGate .buf, [shown]⟩, hcell, rfl, ?_, fun x hx => ?_, le_refl _, hrank⟩
        · refine ⟨fun l hl => ?_, fun _ => (Store.evaluableBelow_gate rfl).2 fun _ => by simp,
            fun _ hconst => nomatch hconst⟩
          have := hregular.port (l.rename (r.place b.size)) (by
            rw [List.mem_singleton.1 hl]
            exact List.mem_singleton_self _)
          exact this
        · rw [List.mem_singleton.1 hx]
          show shown.entry < _
          omega

include layout fits hleaves in
/-- The places of the entries below `i` are in the cone, and lower than `i`. -/
lemma inCone_place {i j : Nat} (hj : j < i) (hi : i ≤ r.net.numInputs + count) :
    InCone r b.size count (r.place b.size j) ∧ coneRank r b.size count (r.place b.size j) < i := by
  have hroot : r.root < b.size := layout.lt_size (by simp)
  by_cases hleaf : j < r.leaves.length
  · have hmem : r.place b.size j ∈ r.leaves := by simp [Replacement.place, hleaf]
    refine ⟨.inl hmem, ?_⟩
    rw [coneRank, if_pos hmem]
    omega
  · have hplace : r.place b.size j = b.size + (j - r.leaves.length) := by
      simp [Replacement.place, Nat.not_lt.1 hleaf]
    have hout : b.size + (j - r.leaves.length) ∉ r.leaves := fun hmem => by
      have := leaf_lt layout hleaves hmem
      omega
    rw [hplace]
    refine ⟨.inr (.inl ⟨_, by omega, rfl⟩), ?_⟩
    rw [coneRank, if_neg hout, if_neg (by omega)]
    omega

include layout hleaves nodup in
lemma length_leaves_le : r.leaves.length ≤ b.size := by
  have hsub : r.leaves ⊆ List.range b.size := fun leaf hleaf =>
    List.mem_range.2 (leaf_lt layout hleaves hleaf)
  simpa using (List.subperm_of_subset nodup hsub).length_le

include h layout fits hleaves nodup in
/-- The valuation of the new cone obeys its cells. -/
lemma coneValues_obeys {m : Meaning} {x e i : Nat} {d : Cell} (he : InCone r b.size count e)
    (hleaf : e ∉ r.leaves) (original : Original store strict r b'.cells b.size count e i d) :
    coneValues r m b.size x c e = (d.rename (r.place b.size)).portsIn m
        (coneValues r m b.size x c) ∧
      coneValues r m b.size x c e = d.portsIn m (r.net.values m x.testBit) := by
  have hroot : r.root < b.size := layout.lt_size (by simp)
  have hplace : ∀ j, coneValues r m b.size x c (r.place b.size j) = r.net.values m x.testBit j :=
    fun j => coneValues_place layout fits hleaves nodup
  have copied : (d.rename (r.place b.size)).portsIn m (coneValues r m b.size x c) =
      d.portsIn m (r.net.values m x.testBit) := by
    refine Cell.portsIn_rename fun l _ => ?_
    rw [Link.read, Link.read, ← hplace l.entry]
    rfl
  suffices coneValues r m b.size x c e = (d.rename (r.place b.size)).portsIn m
      (coneValues r m b.size x c) from ⟨this, this.trans copied⟩
  rcases he.resolve_left hleaf with ⟨k, hk, rfl⟩ | rfl
  · have hstart := h.le_outputStart
    have hlt : r.net.numInputs + k < r.net.outputStart := by omega
    obtain ⟨e, he⟩ := Subnet.exists_cell_of_le hlt.le (.inl hlt)
    obtain ⟨hpos, hcell⟩ := h.getElem?_place fits hroot hk he
    have hsame : e.rename (r.place b.size) = d.rename (r.place b.size) := by
      rw [← h.same, original.cell] at hcell
      exact (Option.some.inj hcell).symm
    rw [← hsame, ← hpos, hplace, Subnet.values_of_le (Nat.le_add_right _ _) he]
    refine (Cell.portsIn_rename fun l _ => ?_).symm
    rw [Link.read, Link.read, ← hplace l.entry]
    rfl
  · have hsame : c = d.rename (r.place b.size) := by
      have := h.getElem?_root hroot
      rw [← h.same, original.cell] at this
      exact (Option.some.inj this).symm
    rw [← hsame]
    rw [coneValues, Function.update_self]
    refine Cell.portsIn_congr fun z hz => (Function.update_of_ne ?_ ..).symm
    rw [hsame, Cell.drivers_rename] at hz
    obtain ⟨j, -, rfl⟩ := List.mem_map.1 hz
    -- no place is the root
    by_cases hj : j < r.leaves.length
    · have hmem : r.place b.size j ∈ r.leaves := by simp [Replacement.place, hj]
      exact fun e => hleaf (e ▸ hmem)
    · simp only [Replacement.place, List.getElem?_eq_none (Nat.not_lt.1 hj), Option.getD_none]
      omega

include h layout fits hleaves nodup in
/-- The root has the value of the output. -/
lemma coneValues_root {m : Meaning} {x i : Nat} {d : Cell}
    (original : Original store strict r b'.cells b.size count r.root i d) :
    (coneValues r m b.size x c r.root).headD false = shown.read (r.net.values m x.testBit) := by
  have hroot : r.root < b.size := layout.lt_size (by simp)
  have hleaf := root_notMem_leaves layout hleaves
  rw [(h.coneValues_obeys layout fits hleaves nodup (.inr (.inr rfl)) hleaf original).1]
  have hplace : ∀ j, coneValues r m b.size x c (r.place b.size j) = r.net.values m x.testBit j :=
    fun j => coneValues_place layout fits hleaves nodup
  have hread : ∀ l : Link, (l.rename (r.place b.size)).read (coneValues r m b.size x c) =
      l.read (r.net.values m x.testBit) := fun l => by
    rw [Link.read, Link.read, ← hplace l.entry]
    rfl
  have hsame : c = d.rename (r.place b.size) := by
    have := h.getElem?_root hroot
    rw [← h.same, original.cell] at this
    exact (Option.some.inj this).symm
  rw [← hsame]
  have rootCell := h.rootCell
  cases rootCell with
  | @inPlace e direct last cell =>
      obtain ⟨hinv, hport, -, hentry⟩ := Replacement.isInPlace_iff.1 direct
      have hpos : shown.entry = r.net.numInputs + count := by omega
      rw [Cell.portsIn_rename fun l _ => hread l, ← Subnet.values_of_le (Nat.le_add_right _ _) cell,
        Link.read, hpos, hinv, hport, Bool.xor_false]
      cases r.net.values m x.testBit (r.net.numInputs + count) <;> rfl
  | buffer indirect all => exact hread shown

end NewCone

/-- After a replacement the table of the same cut is that of the network that was put in place. -/
theorem tabulateCone_eq (h : Replaced r shown b full b' ins inn inn' outs kept count c)
    (layout : Layout b ins (inn ++ r.root :: inn') outs)
    (hleaves : ∀ leaf ∈ r.leaves, leaf ∈ ins ++ inn) (nodup : r.leaves.Nodup)
    (hn : r.leaves.length ≤ maxEvaluatedVariables) (hshown : r.shown = .ok shown)
    {f : TruthTable r.leaves.length} (implements : r.net.Implements store strict f) :
    store.tabulateCone b'.cells r.root r.leaves = .ok f := by
  have fits := implements.numInputs
  have original := fun {e} => h.exists_original layout fits hshown implements.regular (e := e)
  have evaluable : Store.ConeEvaluable store b'.cells r.leaves (InCone r b.size count)
      (coneRank r b.size count) := by
    refine ⟨fun e he hleaf => ?_⟩
    obtain ⟨i, d, original⟩ := original he hleaf
    refine ⟨_, original.cell, original.isInput, ?_, fun l hl => ?_⟩
    · exact (original.regular.rename (r.place b.size)).evaluable original.isInput
    · obtain ⟨k, hk, rfl⟩ := List.mem_map.1 hl
      have hlt := original.lt_of_reads k.entry (List.mem_map_of_mem hk)
      rw [original.rank]
      exact ⟨original.regular.port k hk, inCone_place layout fits hleaves hlt original.le⟩
  have hroot : InCone r b.size count r.root := .inr (.inr rfl)
  have hleaf := root_notMem_leaves layout hleaves
  have hrank : coneRank r b.size count r.root ≤ b'.cells.size := by
    have := length_leaves_le layout hleaves nodup
    have := h.size_eq
    rw [coneRank, if_neg hleaf, if_pos rfl, fits]
    simp only [Builder.size] at *
    omega
  obtain ⟨t, ht⟩ := Store.exists_tabulateCone evaluable hroot hrank hn
  rw [ht]
  refine congrArg Except.ok (TruthTable.ext_value fun x hx => ?_)
  have solution : ConeSolution store.ports b'.cells r.leaves x
      (coneValues r store.ports b.size x c) (InCone r b.size count) := by
    refine ⟨fun k e hk => ?_, fun e he hleaf d hd _ => ?_, fun e he hleaf d hd y hy => ?_⟩
    · obtain ⟨hlt, rfl⟩ := List.getElem?_eq_some_iff.1 hk
      have hplace : r.place b.size k = r.leaves[k] := by simp [Replacement.place, hlt]
      rw [← hplace, coneValues_place layout fits hleaves nodup, Subnet.values_of_lt (fits ▸ hlt)]
      rfl
    · obtain ⟨i, d', original⟩ := original he hleaf
      cases original.cell.symm.trans hd
      exact (h.coneValues_obeys layout fits hleaves nodup he hleaf original).1
    · obtain ⟨i, d', original⟩ := original he hleaf
      cases original.cell.symm.trans hd
      rw [Cell.drivers_rename] at hy
      obtain ⟨j, hj, rfl⟩ := List.mem_map.1 hy
      exact (inCone_place layout fits hleaves (original.lt_of_reads j hj) original.le).1
  obtain ⟨i, d, rootOriginal⟩ := original hroot hleaf
  have hvalue := implements.values x.testBit
  rw [Replacement.outputValues_eq implements.numOutputs hshown, encode_testBit hx] at hvalue
  rw [Store.tabulateCone_sound ht hx solution hroot,
    h.coneValues_root layout fits hleaves nodup rootOriginal]
  exact List.singleton_inj.1 hvalue

end Replaced

end Builder

end Gatework
