import Gatework.Proofs.Builder.Substitution
import Gatework.Proofs.Cut.Enumeration
import Gatework.Proofs.Reach
import Gatework.Rewrite

/-!
# Bringing cuts up to date

After a replacement only the cuts of the new entries, of the root and of what is above the root are
computed again.  The stale entries are a part of the order, so each is computed after those that it
reads (`Replaced.stale_sublist`).  The others read only each other and have the cells that they had,
so the cuts that they had are those that an enumeration from scratch would give them.

**Main statement.** `refreshCuts_eq_enumerate`.
-/

namespace Gatework

/-- The elements of a list that are in a sublist are the sublist. -/
lemma filter_mem_eq_of_sublist {xs ys : List Nat} (h : xs.Sublist ys) (nodup : ys.Nodup) :
    ys.filter (fun y => decide (y ∈ xs)) = xs := by
  induction h with
  | slnil => rfl
  | @cons xs ys y sub ih =>
      obtain ⟨fresh, nodup⟩ := List.nodup_cons.1 nodup
      rw [List.filter_cons_of_neg (by simpa using fun hy => fresh (sub.subset hy)), ih nodup]
  | @cons_cons xs ys y sub ih =>
      obtain ⟨fresh, nodup⟩ := List.nodup_cons.1 nodup
      rw [List.filter_cons_of_pos (by simp)]
      have same : ys.filter (fun z => decide (z ∈ y :: xs)) =
          ys.filter fun z => decide (z ∈ xs) := by
        refine List.filter_congr fun z hz => ?_
        have : z ≠ y := fun e => fresh (e ▸ hz)
        simp [this]
      rw [same, ih nodup]

namespace Builder

namespace Layout

variable {b : Builder} {ins inn inn' outs : List Nat} {root id d : Nat}

/-- The entries behind an inner cell. -/
lemma entriesAfter_eq (h : Layout b ins (inn ++ root :: inn') outs) :
    Rewrite.entriesAfter b root = inn' ++ outs := by
  have harr := h.arranged_middle
  rw [Rewrite.entriesAfter, harr.order_eq, List.dropWhile_append_of_pos]
  · simp
  · intro x hx
    exact decide_eq_true fun e => harr.linked.apart hx (by simp [e])

/-- What reads an inner cell or something behind it is behind the cell. -/
lemma behind_of_reads (h : Layout b ins (inn ++ root :: inn') outs) (hid : id ∈ b.order)
    (hreads : d ∈ b.driversOf id) (hd : d ∈ root :: (inn' ++ outs)) : id ∈ inn' ++ outs := by
  have harr := h.arranged_middle
  rw [harr.order_eq] at hid
  by_contra hbehind
  have hfront : d ∈ ins ++ inn := by
    rcases List.mem_append.1 hid with hid | hid
    · exact harr.mem_left hid hreads
    · obtain rfl := (List.mem_cons.1 hid).resolve_right hbehind
      exact harr.mem_front hreads
  exact harr.linked.apart hfront hd

end Layout

end Builder

/-- The cuts kept for the living entries are those that an enumeration gives. -/
def CutSets.Current (sets : CutSets) (b : Builder) : Prop :=
  sets.Holds (cutsAlong sets.options b.cells b.order) (· ∈ b.order)

namespace Builder

open Rewrite

/-- An enumeration of the cuts of a builder succeeds, and gives current cuts. -/
theorem WellFormed.exists_enumerate {b : Builder} {options : CutOptions} (h : WellFormed b)
    (size : 0 < options.size) : ∃ sets, CutSets.enumerate options b.cells b.order = .ok sets ∧
      sets.options = options ∧ sets.Current b := by
  obtain ⟨sets, hrun, hoptions, holds⟩ := CutSets.exists_enumerate size h.arranged.linked.nodup
    h.arranged.topological (fun id hid => h.arranged.lt_size hid)
    fun id hid d hd => h.arranged.mem_of_reads id hid d hd
  exact ⟨sets, hrun, hoptions, by rwa [CutSets.Current, hoptions]⟩

/-- The entries whose cuts are computed again after a replacement. -/
def staleEntries (b : Builder) (root firstNew : Nat) : List Nat :=
  (List.range' firstNew (b.size - firstNew)).filter b.isAlive ++ root ::
    (entriesAfter b root).filter (reachable b.fanouts b.size (b.fanouts root)).contains

namespace Replaced

variable {r : Replacement} {shown : Link} {b full b' : Builder}
  {ins inn inn' outs kept : List Nat} {count : Nat} {c : Cell} {id d : Nat}

lemma size_eq (h : Replaced r shown b full b' ins inn inn' outs kept count c) :
    b'.size = b.size + count := by
  have := h.length_take
  rw [Builder.size, h.same, h.cells]
  simpa [Builder.size] using this

/-- An entry that is there after the replacement was there before or is one of the copies. -/
lemma mem_order_or_new (h : Replaced r shown b full b' ins inn inn' outs kept count c)
    (layout : Layout b ins (inn ++ r.root :: inn') outs) (hid : id ∈ b'.order) :
    id ∈ b.order ∨ b.size ≤ id := by
  rw [h.layout.mem_order] at hid
  rw [layout.mem_order]
  rcases hid with hid | hid | hid
  · exact .inl (.inl hid)
  · rcases List.mem_append.1 hid with hid | hid
    · rcases List.mem_append.1 (h.sublist.subset hid) with hid | hid
      · exact .inl (.inr (.inl (List.mem_append_left _ hid)))
      · exact .inr (List.mem_range'_1.1 hid).1
    · exact .inl (.inr (.inl (List.mem_append_right _ hid)))
  · exact .inl (.inr (.inr hid))

/-- The stale entries stand in the order in which the builder has them. -/
lemma stale_sublist (h : Replaced r shown b full b' ins inn inn' outs kept count c)
    (layout : Layout b ins (inn ++ r.root :: inn') outs) :
    (b'.staleEntries r.root b.size).Sublist (ins ++ kept ++ r.root :: (inn' ++ outs)) := by
  have hsize : b'.size - b.size = count := by
    rw [h.size_eq]
    omega
  rw [staleEntries, h.layout.entriesAfter_eq, hsize]
  refine List.Sublist.append ?_ (List.filter_sublist.cons_cons r.root)
  refine List.Sublist.trans ?_ (List.sublist_append_right ins kept)
  have nodup : (inn ++ List.range' b.size count).Nodup := by
    have := h.complete.arranged.linked.nodup
    rw [List.append_assoc, List.append_assoc, ← List.append_assoc] at this
    exact (List.nodup_append.1 (List.nodup_append.1 (by simpa using this)).2.1).1
  have hkept := filter_mem_eq_of_sublist h.sublist nodup
  rw [List.filter_append] at hkept
  have same : (List.range' b.size count).filter b'.isAlive =
      (List.range' b.size count).filter fun id => decide (id ∈ kept) := by
    refine List.filter_congr fun id hid => ?_
    have hnew : ¬ id < b.size := Nat.not_lt.2 (List.mem_range'_1.1 hid).1
    have hold : id ∉ ins ++ (inn ++ r.root :: inn') ++ outs := fun hmem =>
      hnew (layout.lt_size hmem)
    rw [Bool.eq_iff_iff, h.layout.arranged.isAlive_iff, decide_eq_true_iff]
    simp only [List.mem_append, List.mem_cons, not_or] at hold ⊢
    tauto
  rw [same]
  conv_rhs => rw [← hkept]
  exact List.sublist_append_right _ _

/-- An entry that is not stale was there before and has the cell that it had. -/
lemma old_of_not_stale (h : Replaced r shown b full b' ins inn inn' outs kept count c)
    (layout : Layout b ins (inn ++ r.root :: inn') outs) (hid : id ∈ b'.order)
    (fresh : id ∉ b'.staleEntries r.root b.size) :
    id ∈ b.order ∧ b'.cells[id]? = b.cells[id]? := by
  have harr := layout.arranged_order
  have harr' := h.layout.arranged_order
  have hold : id ∈ b.order := by
    refine (h.mem_order_or_new layout hid).resolve_right fun hnew => fresh ?_
    refine List.mem_append_left _ (List.mem_filter.2 ⟨List.mem_range'_1.2 ?_, ?_⟩)
    · have := harr'.lt_size hid
      omega
    · exact (harr'.isAlive_iff id).2 hid
  have hroot : id ≠ r.root := fun e => fresh (by simp [staleEntries, e])
  exact ⟨hold, by rw [h.same, h.getElem?_old (harr.lt_size hold) hroot]⟩

/-- What an entry that is not stale reads is not stale either. -/
lemma not_stale_of_reads (h : Replaced r shown b full b' ins inn inn' outs kept count c)
    (layout : Layout b ins (inn ++ r.root :: inn') outs) (hid : id ∈ b'.order)
    (fresh : id ∉ b'.staleEntries r.root b.size) (hd : d ∈ b'.driversOf id) :
    d ∉ b'.staleEntries r.root b.size := by
  have harr' := h.layout.arranged_order
  have hafter := h.layout.entriesAfter_eq
  have hreader : id ∈ b'.fanouts d :=
    (harr'.mem_fanouts_iff (harr'.lt_size_of_reads hid hd)).2 ⟨hid, hd⟩
  have not_above : d = r.root ∨ d ∈ inn' ++ outs →
      ¬ (d = r.root ∨ d ∈ reachable b'.fanouts b'.size (b'.fanouts r.root)) := by
    intro hbehind above
    refine fresh (List.mem_append_right _ (List.mem_cons_of_mem _ (List.mem_filter.2 ⟨?_, ?_⟩)))
    · rw [hafter]
      exact h.layout.behind_of_reads hid hd (List.mem_cons.2 hbehind)
    · refine List.contains_iff_mem.2 ?_
      rcases above with rfl | above
      · exact mem_reachable_of_root hreader (harr'.lt_size hid)
      · exact mem_reachable_of_next above hreader (harr'.lt_size hid)
  intro hstale
  rcases List.mem_append.1 hstale with hcreated | hrest
  · -- an entry that reads a copy is not an old one, except the root
    have hnew := (List.mem_range'_1.1 (List.mem_filter.1 hcreated).1).1
    obtain ⟨hold, hcell⟩ := h.old_of_not_stale layout hid fresh
    have harr := layout.arranged_order
    have hreads : d ∈ b.driversOf id := by
      rw [driversOf, ← hcell]
      exact hd
    exact absurd (harr.lt_size_of_reads hold hreads) (Nat.not_lt.2 hnew)
  · rcases List.mem_cons.1 hrest with rfl | hrest
    · exact not_above (.inl rfl) (.inl rfl)
    · obtain ⟨hbehind, above⟩ := List.mem_filter.1 hrest
      rw [hafter] at hbehind
      exact not_above (.inr hbehind) (.inr (List.contains_iff_mem.1 above))

/-- On entries that are not stale, current cuts are still current. -/
lemma holds_of_current (h : Replaced r shown b full b' ins inn inn' outs kept count c)
    (layout : Layout b ins (inn ++ r.root :: inn') outs) {sets : CutSets}
    (current : sets.Current b) : sets.Holds (cutsAlong sets.options b'.cells b'.order)
      fun id => id ∈ b'.order ∧ id ∉ b'.staleEntries r.root b.size := by
  have harr := layout.arranged_order
  have harr' := h.layout.arranged_order
  have old := fun id (hid : id ∈ b'.order) => h.old_of_not_stale layout hid
  let S : Nat → Prop := fun id => id ∈ b'.order ∧ id ∉ b'.staleEntries r.root b.size
  have solved : ∀ id, S id → cutsAlong sets.options b.cells b.order id =
      entryCuts sets.options b.cells id (cutsAlong sets.options b.cells b.order) := fun id hid =>
    cutsAlong_eq harr.linked.nodup harr.topological id (old id hid.1 hid.2).1
  have solved' : ∀ id, S id → cutsAlong sets.options b'.cells b'.order id =
      entryCuts sets.options b.cells id (cutsAlong sets.options b'.cells b'.order) := by
    intro id hid
    rw [cutsAlong_eq harr'.linked.nodup harr'.topological id hid.1, entryCuts, entryCuts,
      (old id hid.1 hid.2).2]
  have reads : ∀ id, S id → ∀ d ∈ driversIn b.cells id,
      S d ∧ b.order.idxOf d < b.order.idxOf id := by
    intro id hid d hd
    obtain ⟨hold, hcell⟩ := old id hid.1 hid.2
    have hd' : d ∈ b'.driversOf id := by
      rw [driversOf, hcell]
      exact hd
    refine ⟨⟨harr'.mem_of_reads id hid.1 d hd', h.not_stale_of_reads layout hid.1 hid.2 hd'⟩, ?_⟩
    exact harr.topological.idxOf_lt hold hd (harr.mem_of_reads id hold d hd) harr.linked.nodup
  intro id hid
  rw [current id (old id hid.1 hid.2).1]
  exact congrArg some (agree_of_local local_entryCuts solved solved' (b.order.idxOf ·) reads id hid)

/-- After a replacement, current cuts are brought up to date. -/
theorem exists_refreshCuts (h : Replaced r shown b full b' ins inn inn' outs kept count c)
    (layout : Layout b ins (inn ++ r.root :: inn') outs) {sets : CutSets} (current : sets.Current b) :
    ∃ sets', refreshCuts sets b' r.root b.size = .ok sets' ∧ sets'.options = sets.options ∧
      sets'.Current b' := by
  have harr' := h.layout.arranged_order
  have sub := h.stale_sublist layout
  have horder : b'.order = ins ++ kept ++ r.root :: (inn' ++ outs) := by simp [h.layout.order_eq]
  rw [← horder] at sub
  have solved : ∀ id ∈ b'.order, cutsAlong sets.options b'.cells b'.order id =
      entryCuts sets.options b'.cells id (cutsAlong sets.options b'.cells b'.order) :=
    cutsAlong_eq harr'.linked.nodup harr'.topological
  obtain ⟨sets', hrun, hoptions, holds⟩ :=
    CutSets.exists_foldlM_recompute (h.holds_of_current layout current)
      (fun id hid => harr'.lt_size (sub.subset hid)) (fun id hid => solved id (sub.subset hid))
      fun done id rest hxs d hd => by
        have hd' := harr'.mem_of_reads id (sub.subset (by simp [hxs])) d hd
        by_cases hmem : d ∈ b'.staleEntries r.root b.size
        · have topological := harr'.topological.sublist sub
          rw [hxs] at topological hmem
          exact .inr (topological.mem_front hd hmem)
        · exact .inl ⟨hd', hmem⟩
  refine ⟨sets', hrun, hoptions, ?_⟩
  rw [CutSets.Current, hoptions]
  intro id hid
  by_cases hmem : id ∈ b'.staleEntries r.root b.size
  · exact holds id (.inr hmem)
  · exact holds id (.inl ⟨hid, hmem⟩)

end Replaced

/-- After a replacement with leaves in front of its root, bringing cuts up to date gives every living
entry the cuts that an enumeration from scratch gives it, if it had those before. -/
theorem refreshCuts_eq_enumerate {b b' : Builder} {r : Replacement} {options : CutOptions}
    {sets fresh : CutSets} (h : WellFormed b) (size : 0 < options.size)
    (hoptions : sets.options = options)
    (enumerated : CutSets.enumerate options b.cells b.order = .ok fresh)
    (agree : ∀ id ∈ b.order, sets.get id = fresh.get id)
    (leaves : ∀ leaf ∈ r.leaves, b.IsDriver leaf ∧ b.Precedes leaf r.root)
    (step : b.replace r = .ok b') :
    ∃ sets' fresh', refreshCuts sets b' r.root b.size = .ok sets' ∧
      CutSets.enumerate options b'.cells b'.order = .ok fresh' ∧
      ∀ id ∈ b'.order, ∃ cuts, sets'.get id = .ok cuts ∧ fresh'.get id = .ok cuts := by
  subst hoptions
  obtain ⟨shown, full, inn, inn', kept, count, c, hsplit, -, -, -, replaced⟩ :=
    h.exists_replaced leaves step
  have layout := h.layout
  rw [hsplit] at layout
  obtain ⟨fresh₀, henum, hfresh₀, current₀⟩ := h.exists_enumerate size
  cases enumerated.symm.trans henum
  have current : sets.Current b := by
    intro id hid
    rw [← CutSets.get_eq_ok_iff, agree id hid, CutSets.get_eq_ok_iff, current₀ id hid, hfresh₀]
  obtain ⟨sets', hrun, hsets', current'⟩ := replaced.exists_refreshCuts layout current
  obtain ⟨fresh', henum', hfresh', currentFresh⟩ :=
    (replaced.layout.wellFormed replaced.settled).exists_enumerate size
  refine ⟨sets', fresh', hrun, henum', fun id hid => ?_⟩
  refine ⟨_, CutSets.get_eq_ok_iff.2 (current' id hid), CutSets.get_eq_ok_iff.2 ?_⟩
  rw [currentFresh id hid, hfresh', hsets']

/-- The cuts of a conjunction and of the disjunction behind it, before and after the dual is put in the
place of the conjunction. -/
theorem refreshCuts_eq_enumerate_dual :
    ∃ sets b' sets' fresh', CutSets.enumerate {} absorber.cells absorber.order = .ok sets ∧
      absorber.replace dualReplacement = .ok b' ∧ 3 ∈ b'.order ∧ 2 ∈ b'.driversOf 3 ∧
      refreshCuts sets b' dualReplacement.root absorber.size = .ok sets' ∧
      CutSets.enumerate {} b'.cells b'.order = .ok fresh' ∧
      ∀ id ∈ b'.order, ∃ cuts, sets'.get id = .ok cuts ∧ fresh'.get id = .ok cuts := by
  have h := wellFormed_ofSubnet ofSubnet_absorption
  obtain ⟨sets, henum, hoptions, -⟩ := @WellFormed.exists_enumerate _ {} h (by decide)
  have hrun : (absorber.replace dualReplacement).map (fun b' => (b'.order, b'.driversOf 3)) =
      .ok ([0, 1, 5, 2, 3, 4], [0, 2]) := by cbv
  obtain ⟨b', step, hb'⟩ := map_eq_ok_iff.1 hrun
  obtain ⟨horder, hdrivers⟩ := Prod.mk.inj hb'
  obtain ⟨sets', fresh', hrun, henum', same⟩ := refreshCuts_eq_enumerate h (by decide) hoptions henum
    (fun _ _ => rfl) leaves_dualReplacement step
  exact ⟨sets, b', sets', fresh', henum, step, by simp [horder], by simp [hdrivers], hrun, henum', same⟩

end Builder

end Gatework
