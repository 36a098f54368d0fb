import Gatework.Proofs.Builder.Substitution

/-!
# Predictions are exact

`Builder.predict` counts references that are gained and released without touching the builder, where
`Builder.replace` changes the lists of readers and takes cells out.

Both go through the same waiting entries in the same order.  While they do, the references that an
entry has left are those it had, with the gained ones and without the released ones (`Tallied`), so an
entry is idle in the one exactly if it is given up in the other (`Tallied.isIdle_iff`), and the same cells
are left in the end (`Tallied.collect_perm_survivors`).  The depth of the root is computed over the depths
of the leaves, which are the same in both builders (`Replaced.depth_front`).

**Main statement.** `predict_exact`.
-/

namespace Gatework

/-- The depth of a copy is the depth of the original over the depths of the places. -/
lemma Cell.depth_rename {place : Nat → Nat} {c : Cell} {f : Nat → Nat} :
    (c.rename place).depth f = c.depth fun d => f (place d) := by
  simp only [Cell.depth, Cell.drivers_rename, List.map_map]
  rfl

/-- A buffer is as deep as what it reads. -/
lemma Cell.depth_buffer {l : Link} {f : Nat → Nat} :
    (⟨.ofGate .buf, [l]⟩ : Cell).depth f = f l.entry := by
  simp [Cell.depth, Cell.drivers]

/-- An array to which one element after the other is pushed keeps the elements it has. -/
lemma getD_foldl_push {α β : Type} {f : Array β → α → β} (xs : List α) (start : Array β) {d : β}
    {i : Nat} (hi : i < start.size) :
    (xs.foldl (fun ys x => ys.push (f ys x)) start).getD i d = start.getD i d := by
  induction xs generalizing start with
  | nil => rfl
  | cons x xs ih =>
      rw [List.foldl_cons, ih _ (by rw [Array.size_push]; omega)]
      simp [Array.getElem?_push, hi.ne]

lemma size_foldl_push {α β : Type} {f : Array β → α → β} (xs : List α) (start : Array β) :
    (xs.foldl (fun ys x => ys.push (f ys x)) start).size = start.size + xs.length := by
  induction xs generalizing start with
  | nil => rfl
  | cons x xs ih =>
      rw [List.foldl_cons, ih, Array.size_push, List.length_cons]
      omega

/-- The element that is pushed for `x`. -/
lemma getD_foldl_push_middle {α β : Type} {f : Array β → α → β} (xs ys : List α) (x : α)
    (start : Array β) {d : β} :
    ((xs ++ x :: ys).foldl (fun ys x => ys.push (f ys x)) start).getD (start.size + xs.length) d =
      f (xs.foldl (fun ys x => ys.push (f ys x)) start) x := by
  rw [List.foldl_append, List.foldl_cons,
    getD_foldl_push _ _ (by rw [Array.size_push, size_foldl_push]; omega)]
  have hlast := size_foldl_push (f := f) xs start
  rw [Array.getD_eq_getD_getElem?, ← hlast, Array.getElem?_push_size]
  rfl

namespace Builder

/-! ## References -/

/-- An entry is read as often as the living entries name it. -/
lemma Arranged.references_eq {b : Builder} {xs : List Nat} (h : Arranged b xs) {d : Nat}
    (hd : d < b.size) : b.references d = (xs.flatMap b.driversOf).count d := by
  have perm : (b.fanouts d).Perm
      (xs.flatMap fun user => List.replicate ((b.driversOf user).count d) user) := by
    rw [List.perm_iff_count]
    intro user
    rw [h.count_fanouts d hd,
      count_flatMap_replicate xs h.linked.nodup fun user => (b.driversOf user).count d]
  rw [references, perm.length_eq, List.length_flatMap, List.count_flatMap]
  simp [Function.comp_def]

/-- Taking out an entry gives up the references of its links. -/
lemma Layout.references_remove {b : Builder} {ins inn inn' outs : List Nat} {id d : Nat}
    (h : Layout b ins (inn ++ id :: inn') outs) (unused : b.fanouts id = []) (hd : d < b.size) :
    (b.remove id).references d + (b.driversOf id).count d = b.references d := by
  have hdrivers : (b.remove id).driversOf = b.driversOf := by
    rw [remove_eq]
    rfl
  have hsize : (b.remove id).size = b.size := by
    rw [remove_eq]
    rfl
  rw [(h.remove unused).arranged.references_eq (hsize ▸ hd), h.arranged.references_eq hd, hdrivers]
  simp only [List.flatMap_append, List.flatMap_cons, List.count_append]
  omega

/-- An inner cell that nothing reads is idle. -/
lemma Layout.isIdle_of_references {b : Builder} {ins inn outs : List Nat} {id : Nat}
    (h : Layout b ins inn outs) (hid : id ∈ inn) (unused : b.references id = 0) :
    b.isIdle id = true := by
  obtain ⟨c, hc, hterm⟩ := h.isInner id hid
  have alive : b.isAlive id = true := (h.arranged.isAlive_iff id).2 (by simp [hid])
  have empty : b.fanouts id = [] := List.length_eq_zero_iff.1 unused
  simp [isIdle, alive, isUnused, empty, hc, hterm]

lemma perm_erase_middle {front behind living copies : List Nat} {id : Nat}
    (perm : (front ++ id :: behind).Perm (living ++ copies)) (hid : id ∈ living) :
    (front ++ behind).Perm (living.erase id ++ copies) := by
  have right : (living ++ copies).Perm (id :: (living.erase id ++ copies)) :=
    (List.perm_cons_erase hid).append_right copies
  exact (List.perm_middle.symm.trans (perm.trans right)).cons_inv

/-- Collecting in a builder `full` goes along with counting in the builder `b` that was there before.
Both have the same cells left, apart from the `copies`, which `b` does not know, and an entry has the
references that it had, with the gained ones and without the released ones. -/
structure Tallied (b full : Builder) (root : Nat)
    (ins inn inn' outs gained living released copies : List Nat) : Prop where
  layout : Layout full ins (inn ++ root :: inn') outs
  perm : (inn ++ root :: inn').Perm (living ++ copies)
  drivers : ∀ id ∈ living, id ≠ root → full.driversOf id = b.driversOf id
  old : ∀ id ∈ living, id ≠ root → ∀ d ∈ b.driversOf id, d ∉ copies
  counted : ∀ id ∈ living,
    full.references id + released.count id = b.references id + gained.count id

namespace Tallied

variable {b full : Builder} {root id : Nat}
  {ins inn inn' outs gained living released copies front behind waiting : List Nat}

lemma mem_inner (h : Tallied b full root ins inn inn' outs gained living released copies)
    (hid : id ∈ living) : id ∈ inn ++ root :: inn' :=
  h.perm.symm.subset (List.mem_append_left _ hid)

/-- An entry is idle in the one exactly if it is given up in the other. -/
lemma isIdle_iff (h : Tallied b full root ins inn inn' outs gained living released copies)
    (hid : id ∈ living) :
    full.isIdle id = true ↔ b.references id + gained.count id ≤ released.count id := by
  have counted := h.counted id hid
  constructor
  · intro idle
    have unused : full.references id = 0 := by
      rw [references, (h.layout.idle idle).2, List.length_nil]
    omega
  · exact fun lost => h.layout.isIdle_of_references (h.mem_inner hid) (by omega)

/-- Taking out an idle cell and giving it up go along. -/
lemma remove
    (h : Tallied b full root ins (front ++ id :: behind) inn' outs gained living released copies)
    (hid : id ∈ living) (idle : full.isIdle id = true) :
    Tallied b (full.remove id) root ins (front ++ behind) inn' outs gained (living.erase id)
      (full.driversOf id ++ released) copies := by
  have layout : Layout full ins (front ++ id :: (behind ++ root :: inn')) outs := by
    simpa using h.layout
  have unused := (layout.idle idle).2
  have same : (full.remove id).driversOf = full.driversOf := by
    rw [remove_eq]
    rfl
  refine ⟨by simpa using layout.remove unused, ?_, fun x hx hne => ?_, fun x hx => ?_, fun x hx => ?_⟩
  · have perm : (front ++ id :: (behind ++ root :: inn')).Perm (living ++ copies) := by
      simpa using h.perm
    simpa using perm_erase_middle perm hid
  · rw [same]
    exact h.drivers x (List.mem_of_mem_erase hx) hne
  · exact h.old x (List.mem_of_mem_erase hx)
  · have hx := List.mem_of_mem_erase hx
    have hlt : x < full.size :=
      h.layout.lt_size (List.mem_append_left _ (List.mem_append_right _ (h.mem_inner hx)))
    have released := layout.references_remove unused hlt
    have := h.counted x hx
    rw [List.count_append]
    omega

/-- Collecting and counting leave the same cells, apart from the copies. -/
theorem collect_perm_survivors
    (h : Tallied b full root ins inn inn' outs gained living released copies)
    (hwait : ∀ id ∈ waiting, id ∉ root :: inn' ∧ id ∉ copies) :
    (full.collect waiting).inner.Perm (b.survivors gained living waiting released ++ copies) := by
  induction full, waiting using Builder.collect.induct generalizing inn living released with
  | case1 full =>
      rw [Builder.collect, survivors, h.layout.inner_eq]
      exact h.perm
  | case2 full id waiting idle ih =>
      obtain ⟨hinner, -⟩ := h.layout.idle idle
      obtain ⟨hback, hcopy⟩ := hwait id (by simp)
      have hroot : id ≠ root := fun e => hback (by simp [e])
      have hliving : id ∈ living := (List.mem_append.1 (h.perm.subset hinner)).resolve_right hcopy
      have same := h.drivers id hliving hroot
      obtain ⟨front, behind, rfl⟩ :=
        List.append_of_mem ((List.mem_append.1 hinner).resolve_right hback)
      rw [Builder.collect, dif_pos idle, survivors, dif_pos hliving,
        if_pos ((h.isIdle_iff hliving).1 idle), ← same]
      refine ih (h.remove hliving idle) fun x hx => ?_
      rcases List.mem_append.1 hx with hx | hx
      · have hx : x ∈ full.driversOf id := List.mem_reverse.1 hx
        refine ⟨fun hmem => ?_, h.old id hliving hroot x (same ▸ hx)⟩
        have layout : Layout full ins (front ++ id :: (behind ++ root :: inn')) outs := by
          simpa using h.layout
        exact layout.notMem_behind hx (List.mem_cons_of_mem _ (List.mem_append_right _ hmem))
      · exact hwait x (by simp [hx])
  | case3 full id waiting idle ih =>
      have rest := ih h fun x hx => hwait x (by simp [hx])
      rw [Builder.collect, dif_neg idle, survivors]
      by_cases hliving : id ∈ living
      · rwa [dif_pos hliving, if_neg fun lost => idle ((h.isIdle_iff hliving).2 lost)]
      · rwa [dif_neg hliving]

end Tallied

/-! ## The size -/

/-- The leaves that links of the replacing subnet read, counted at the places of these links. -/
lemma count_leafUses {r : Replacement} {links : List Link} {base id : Nat}
    (fits : r.net.numInputs = r.leaves.length) (hid : id < base) :
    (links.filterMap fun l =>
        if l.entry < r.net.numInputs then r.leaves[l.entry]? else none).count id =
      (links.map fun l => r.place base l.entry).count id := by
  induction links with
  | nil => rfl
  | cons l links ih =>
      rw [List.map_cons, List.count_cons, ← ih, List.filterMap_cons]
      by_cases hl : l.entry < r.leaves.length
      · have hleaf : r.leaves[l.entry]? = some r.leaves[l.entry] := List.getElem?_eq_getElem hl
        rw [if_pos (fits ▸ hl), hleaf, Replacement.place, hleaf]
        simp [List.count_cons]
      · have hnone : r.leaves[l.entry]? = none := List.getElem?_eq_none (Nat.not_lt.1 hl)
        have hne : base + (l.entry - r.leaves.length) ≠ id := by omega
        rw [if_neg (fits ▸ hl), Replacement.place, hnone]
        simp [hne]

namespace Replaced

variable {r : Replacement} {shown : Link} {b full b' : Builder}
  {ins inn inn' outs kept : List Nat} {count : Nat} {c : Cell}

lemma driversOf_old (h : Replaced r shown b full b' ins inn inn' outs kept count c) {id : Nat}
    (hid : id < b.size) (hroot : id ≠ r.root) : full.driversOf id = b.driversOf id := by
  rw [driversOf, h.getElem?_old hid hroot]
  rfl

/-- The links of the copies and of the root lead to the places of the links of the subnet. -/
lemma new_drivers (h : Replaced r shown b full b' ins inn inn' outs kept count c)
    (fits : r.net.numInputs = r.leaves.length) (hroot : r.root < b.size) :
    (List.range' b.size count).flatMap full.driversOf ++ c.drivers =
      (r.innerCells.flatMap (·.1.links) ++ if r.isInPlace shown then [] else [shown]).map
        fun l => r.place b.size l.entry := by
  have copies : (List.range' b.size count).flatMap full.driversOf =
      ((r.innerCells.take count).flatMap (·.1.links)).map fun l => r.place b.size l.entry := by
    have same : (List.range' b.size count).map full.driversOf =
        (r.innerCells.take count).map fun x => x.1.links.map fun l => r.place b.size l.entry := by
      refine List.ext_getElem? fun k => ?_
      by_cases hk : k < count
      · have hlt : k < r.innerCells.length := by
          have := h.length_take
          rw [List.length_take] at this
          omega
        obtain ⟨⟨e, i⟩, he⟩ : ∃ x, r.innerCells[k]? = some x := ⟨_, List.getElem?_eq_getElem hlt⟩
        obtain ⟨rfl, -, hcell⟩ := Replacement.getElem?_innerCells he
        obtain ⟨-, hcopy⟩ := h.getElem?_place fits hroot hk hcell
        have hdrivers : full.driversOf (b.size + k) = e.links.map fun l => r.place b.size l.entry := by
          rw [driversOf, hcopy, Option.elim_some, Cell.drivers_rename, Cell.drivers, List.map_map]
          rfl
        simp [hk, he, hdrivers]
      · have := h.length_take
        rw [List.getElem?_eq_none (by simp; omega), List.getElem?_eq_none (by simp; omega)]
    rw [List.flatMap_def, same, List.map_flatMap, List.flatMap_def]
  rw [copies, List.map_append]
  have hlength := Replacement.length_innerCells (r := r)
  have rootCell := h.rootCell
  cases rootCell with
  | @inPlace e direct last cell =>
      have hcell : r.innerCells[count]? = some (e, r.net.numInputs + count) := by
        rw [Replacement.innerCells, List.getElem?_drop, List.getElem?_take_of_lt (by omega)]
        simp [List.getElem?_zipIdx, cell]
      have hsplit : r.innerCells = r.innerCells.take count ++ [(e, r.net.numInputs + count)] := by
        rw [← Option.toList_some, ← hcell, ← List.take_add_one, List.take_of_length_le (by omega)]
      rw [if_pos direct, Cell.drivers_rename]
      conv_rhs => rw [hsplit]
      simp [Cell.drivers]
  | buffer indirect all =>
      rw [if_neg (by simp [indirect]), List.take_of_length_le (by omega)]
      simp [Cell.drivers, Link.rename]

/-- With the copies in place an old entry has won the leaf uses and lost the links of the old
root. -/
lemma references_full (h : Replaced r shown b full b' ins inn inn' outs kept count c)
    (layout : Layout b ins (inn ++ r.root :: inn') outs) (fits : r.net.numInputs = r.leaves.length)
    {id : Nat} (hid : id < b.size) :
    full.references id + (b.driversOf r.root).count id =
      b.references id + (leafUses r shown).count id := by
  have hroot : r.root < b.size := layout.lt_size (by simp)
  have hfull : id < full.size := by
    have := congrArg Array.size h.cells
    simp only [Array.size_setIfInBounds, Array.size_append] at this
    simp only [Builder.size] at hid ⊢
    omega
  have same : ∀ xs : List Nat, (∀ x ∈ xs, x ∈ ins ++ (inn ++ r.root :: inn') ++ outs) →
      r.root ∉ xs → xs.flatMap full.driversOf = xs.flatMap b.driversOf := by
    intro xs hxs hroot
    refine List.flatMap_congr fun x hx => ?_
    exact h.driversOf_old (layout.lt_size (hxs x hx)) fun e => hroot (e ▸ hx)
  have apart := layout.arranged_middle.linked.notMem_middle
  simp only [List.mem_append, not_or] at apart
  have new : full.driversOf r.root = c.drivers := by
    rw [driversOf, h.getElem?_root hroot]
    rfl
  have gained := congrArg (List.count id) (h.new_drivers fits hroot)
  rw [← count_leafUses fits hid, List.count_append] at gained
  rw [h.complete.arranged.references_eq hfull, layout.arranged.references_eq hid]
  have hins := same ins (fun x hx => by simp [hx]) apart.1.1
  have hinn := same inn (fun x hx => by simp [hx]) apart.1.2
  have hinn' := same inn' (fun x hx => by simp [hx]) apart.2.1
  have houts := same outs (fun x hx => by simp [hx]) apart.2.2
  simp only [List.flatMap_append, List.flatMap_cons, List.count_append, new, hins, hinn, hinn', houts]
  have uses : (leafUses r shown).count id = _ := gained.symm
  omega

/-- The cells that a replacement leaves are the survivors and the copies. -/
lemma inner_perm (h : Replaced r shown b full b' ins inn inn' outs kept count c)
    (layout : Layout b ins (inn ++ r.root :: inn') outs)
    (fits : r.net.numInputs = r.leaves.length) :
    b'.inner.Perm (b.survivors (leafUses r shown) (inn ++ r.root :: inn')
      (b.driversOf r.root).reverse (b.driversOf r.root) ++ List.range' b.size count) := by
  have hmem : ∀ {id}, id ∈ inn ++ r.root :: inn' → id ∈ ins ++ (inn ++ r.root :: inn') ++ outs :=
    fun hid => List.mem_append_left _ (List.mem_append_right _ hid)
  have old : ∀ {id}, id < b.size → id ∉ List.range' b.size count := by
    intro id hid hcopy
    have := List.mem_range'_1.1 hcopy
    omega
  have hcollect : (full.collect (b.driversOf r.root).reverse).inner = b'.inner := by
    rw [h.collected]
    rfl
  rw [← hcollect]
  refine Tallied.collect_perm_survivors ⟨h.complete, ?_, fun id hid hne => ?_,
    fun id hid _ d hd => ?_, fun id hid => ?_⟩ fun x hx => ?_
  · rw [List.append_assoc, List.append_assoc]
    exact (List.perm_append_comm).append_left inn
  · exact h.driversOf_old (layout.lt_size (hmem hid)) hne
  · exact old (layout.arranged.lt_size_of_reads (hmem hid) hd)
  · exact h.references_full layout fits (layout.lt_size (hmem hid))
  · have hx := List.mem_reverse.1 hx
    exact ⟨layout.notMem_behind hx, old (layout.arranged_middle.lt_size_of_reads (by simp) hx)⟩

/-- As many copies are made as the subnet has cells, without the one that the root becomes. -/
lemma count_eq (h : Replaced r shown b full b' ins inn inn' outs kept count c) :
    (count : Int) = r.net.cellCount - (r.isInPlace shown).toNat := by
  have hsize := r.net.numInputs_add_numOutputs_le
  have rootCell := h.rootCell
  simp only [Subnet.cellCount]
  cases rootCell with
  | inPlace direct last =>
      simp only [Subnet.outputStart, Subnet.size] at *
      simp only [direct, Bool.toNat_true]
      omega
  | buffer indirect all =>
      simp only [Subnet.outputStart, Subnet.size] at *
      simp only [indirect, Bool.toNat_false]
      omega

/-! ## The depth -/

/-- An entry in front of the root keeps its depth. -/
lemma depth_front (h : Replaced r shown b full b' ins inn inn' outs kept count c)
    (layout : Layout b ins (inn ++ r.root :: inn') outs) (settled : Settled b) {id : Nat}
    (hid : id ∈ ins ++ inn) (alive : id ∈ b'.order) : b'.depth id = b.depth id := by
  have harr := layout.arranged_middle
  have harr' := h.layout.arranged_order
  induction hrank : (ins ++ inn).idxOf id using Nat.strong_induction_on generalizing id with
  | _ rank ih =>
      have hmem : id ∈ ins ++ inn ++ r.root :: (inn' ++ outs) := List.mem_append_left _ hid
      have hroot : id ≠ r.root := fun e => harr.linked.apart hid (by simp [e])
      obtain ⟨e, he⟩ : ∃ e, b.cells[id]? = some e :=
        ⟨_, Array.getElem?_eq_getElem (harr.lt_size hmem)⟩
      have he' : b'.cells[id]? = some e := by
        rw [h.same, h.getElem?_old (harr.lt_size hmem) hroot, he]
      rw [h.settled id alive e he', settled id (by rwa [harr.order_eq]) e he]
      refine Cell.depth_congr fun d hd => ?_
      have hreads : d ∈ b.driversOf id := by rwa [driversOf, he]
      have hreads' : d ∈ b'.driversOf id := by rwa [driversOf, he']
      have hd' := harr.mem_left hid hreads
      refine ih _ ?_ hd' (harr'.mem_of_reads id alive d hreads') rfl
      rw [← hrank]
      exact (harr.topological.sublist (List.sublist_append_left _ _)).idxOf_lt hid hreads hd'
        (List.nodup_append.1 harr.linked.nodup).1

end Replaced

variable {b : Builder} {r : Replacement}

/-- The predicted depths of the leaves are those that they have. -/
lemma replacementDepths_leaf {j : Nat} (hj : j < r.leaves.length) :
    (b.replacementDepths r).getD j 0 = b.depth (r.leaves.getD j 0) := by
  rw [replacementDepths, getD_foldl_push _ _ (by simpa using hj)]
  simp [hj]

/-- The predicted depths of the other entries are those of their cells. -/
lemma replacementDepths_cell (fits : r.net.numInputs = r.leaves.length) {i : Nat} {e : Cell}
    (hi : r.net.numInputs ≤ i) (he : r.net.cells[i]? = some e) :
    (b.replacementDepths r).getD i 0 = e.depth fun j => (b.replacementDepths r).getD j 0 := by
  obtain ⟨k, rfl⟩ := Nat.exists_eq_add_of_le hi
  set start := (r.leaves.map b.depth).toArray with hstart
  have hsize : start.size = r.net.numInputs := by simp [hstart, fits]
  set cells := r.net.cells.toList.drop r.net.numInputs with hcells
  have hk : cells[k]? = some e := by simpa [hcells] using he
  obtain ⟨hlt, hget⟩ := List.getElem?_eq_some_iff.1 hk
  have hsplit : cells = cells.take k ++ e :: cells.drop (k + 1) := by
    rw [← hget, ← List.drop_eq_getElem_cons hlt, List.take_append_drop]
  have hlength : (cells.take k).length = k := List.length_take_of_le hlt.le
  let step : Array Nat → Cell → Nat := fun ds c => c.depth fun i => ds.getD i 0
  have done : ∀ j, j < start.size + k → (b.replacementDepths r).getD j 0 =
      ((cells.take k).foldl (fun ds c => ds.push (c.depth fun i => ds.getD i 0)) start).getD j 0 := by
    intro j hj
    rw [replacementDepths, ← hstart, ← hcells, hsplit, List.foldl_append, ← hsplit]
    refine getD_foldl_push (f := step) _ _ ?_
    rwa [size_foldl_push (f := step), hlength]
  have pushed := getD_foldl_push_middle (f := step) (cells.take k) (cells.drop (k + 1)) e start
    (d := 0)
  rw [← hsplit, hlength, hsize] at pushed
  rw [show (b.replacementDepths r).getD (r.net.numInputs + k) 0 = _ from pushed]
  refine Cell.depth_congr fun d hd => (done d ?_).symm
  rw [hsize]
  exact (r.net.obeys he).lt_of_reads d hd

namespace Replaced

variable {shown : Link} {full b' : Builder} {ins inn inn' outs kept : List Nat} {count : Nat}
  {c : Cell}

/-- What the places of the subnet are as deep as, as far as they are still there. -/
lemma depth_place (h : Replaced r shown b full b' ins inn inn' outs kept count c)
    (layout : Layout b ins (inn ++ r.root :: inn') outs) (settled : Settled b)
    (fits : r.net.numInputs = r.leaves.length) (hleaves : ∀ leaf ∈ r.leaves, leaf ∈ ins ++ inn)
    {j : Nat} (hj : j < r.net.numInputs + count) (alive : r.place b.size j ∈ b'.order) :
    b'.depth (r.place b.size j) = (b.replacementDepths r).getD j 0 := by
  have harr' := h.layout.arranged_order
  induction j using Nat.strong_induction_on with
  | _ j ih =>
      by_cases hleaf : j < r.leaves.length
      · have hplace : r.place b.size j = r.leaves.getD j 0 := by
          simp [Replacement.place, hleaf]
        have hmem : r.leaves.getD j 0 ∈ ins ++ inn := by
          simpa [hleaf] using hleaves _ (List.getElem_mem hleaf)
        rw [replacementDepths_leaf hleaf, hplace]
        exact h.depth_front layout settled hmem (hplace ▸ alive)
      · have hstart := h.le_outputStart
        have hroot : r.root < b.size := layout.lt_size (by simp)
        obtain ⟨k, rfl⟩ := Nat.exists_eq_add_of_le (fits ▸ Nat.not_lt.1 hleaf)
        have hlt : r.net.numInputs + k < r.net.outputStart := by omega
        obtain ⟨e, he⟩ := Subnet.exists_cell_of_le hlt.le (.inl hlt)
        obtain ⟨hplace, hcell⟩ := h.getElem?_place fits hroot (by omega) he
        rw [← h.same] at hcell
        rw [replacementDepths_cell fits (Nat.le_add_right _ _) he, hplace]
        rw [h.settled _ (hplace ▸ alive) _ hcell, Cell.depth_rename]
        refine Cell.depth_congr fun d hd => ?_
        have hlt := (r.net.obeys he).lt_of_reads d hd
        refine ih d hlt (hlt.trans hj) (harr'.mem_of_reads _ (hplace ▸ alive) _ ?_)
        rw [driversOf, hcell, Option.elim_some, Cell.drivers_rename]
        exact List.mem_map_of_mem hd

/-- The root is as deep as the entry that the output shows. -/
lemma depth_root (h : Replaced r shown b full b' ins inn inn' outs kept count c)
    (layout : Layout b ins (inn ++ r.root :: inn') outs) (settled : Settled b)
    (fits : r.net.numInputs = r.leaves.length) (hleaves : ∀ leaf ∈ r.leaves, leaf ∈ ins ++ inn)
    (hshown : shown.entry < r.net.outputStart) :
    b'.depth r.root = (b.replacementDepths r).getD shown.entry 0 := by
  have harr' := h.layout.arranged_order
  have alive : r.root ∈ b'.order := h.layout.mem_order.2 (by simp)
  have hcell : b'.cells[r.root]? = some c := h.same ▸ h.getElem?_root (layout.lt_size (by simp))
  have reads : ∀ d ∈ c.drivers, d ∈ b'.order := fun d hd =>
    harr'.mem_of_reads _ alive d (by rwa [driversOf, hcell])
  rw [h.settled _ alive c hcell]
  have rootCell := h.rootCell
  cases rootCell with
  | @inPlace e direct last cell =>
      obtain ⟨-, -, -, hlast⟩ := Replacement.isInPlace_iff.1 direct
      have hentry : shown.entry = r.net.numInputs + count := by omega
      rw [Cell.depth_rename, hentry, replacementDepths_cell fits (Nat.le_add_right _ _) cell]
      refine Cell.depth_congr fun d hd => ?_
      refine h.depth_place layout settled fits hleaves ((r.net.obeys cell).lt_of_reads d hd) ?_
      refine reads _ ?_
      rw [Cell.drivers_rename]
      exact List.mem_map_of_mem hd
  | buffer indirect all =>
      rw [Cell.depth_buffer]
      exact h.depth_place layout settled fits hleaves (by omega)
        (reads _ (by simp [Cell.drivers, Link.rename]))

/-- The prediction is the change in the number of cells and in the depth of the root. -/
theorem predict_eq (h : Replaced r shown b full b' ins inn inn' outs kept count c)
    (layout : Layout b ins (inn ++ r.root :: inn') outs) (settled : Settled b)
    (single : r.net.numOutputs = 1) (fits : r.net.numInputs = r.leaves.length)
    (hleaves : ∀ leaf ∈ r.leaves, leaf ∈ ins ++ inn) (hshown : r.shown = .ok shown) :
    b.predict r = .ok ⟨(b'.cellCount : Int) - b.cellCount,
      (b'.depth r.root : Int) - b.depth r.root⟩ := by
  have length := (h.inner_perm layout fits).length_eq
  have hcount := h.count_eq
  have hdepth := h.depth_root layout settled fits hleaves (Replacement.shown_lt hshown)
  rw [List.length_append, List.length_range'] at length
  rw [predict, layout.checkReplacement single fits hleaves, hshown]
  simp only [ok_bind, layout.inner_eq]
  refine congrArg Except.ok ?_
  rw [Effect.mk.injEq]
  refine ⟨?_, by rw [hdepth]⟩
  simp only [cellCount, layout.inner_eq]
  omega

end Replaced

/-- For a living inner cell as root, leaves in front of it and a subnet whose output shows something,
there is a prediction, and the replacement changes the number of cells and the depth of the root by
what was predicted. -/
theorem predict_exact (h : WellFormed b) (single : r.net.numOutputs = 1)
    (fits : r.net.numInputs = r.leaves.length) (root : r.root ∈ b.inner)
    (leaves : ∀ leaf ∈ r.leaves, b.IsDriver leaf ∧ b.Precedes leaf r.root) :
    ((∃ e, b.predict r = .ok e) ↔ (r.net.outputLink? 0).isSome) ∧
      ∀ e, b.predict r = .ok e → ∃ b', b.replace r = .ok b' ∧
        (b'.cellCount : Int) - b.cellCount = e.size ∧
        (b'.depth r.root : Int) - b.depth r.root = e.depth := by
  obtain ⟨inn, inn', -, layout, hleaves⟩ :=
    h.exists_layout root fun leaf hleaf => (leaves leaf hleaf).2
  constructor
  · rw [predict, layout.checkReplacement single fits hleaves, Replacement.shown]
    cases r.net.outputLink? 0 <;> simp [bind, Except.bind, pure, Except.pure]
  · intro e predicted
    obtain ⟨⟨⟩, -, hrest⟩ := bind_eq_ok_iff.1 predicted
    obtain ⟨shown, hshown, -⟩ := bind_eq_ok_iff.1 hrest
    obtain ⟨b', full, kept, count, c, hrun, replaced⟩ := layout.replace h.settled single fits hleaves hshown
    cases predicted.symm.trans (replaced.predict_eq layout h.settled single fits hleaves hshown)
    exact ⟨b', hrun, rfl, rfl⟩

/-- The sum in the place of the half adder leaves one cell of the same depth, as predicted. -/
theorem predict_exact_half : halfBuilder.predict sumReplacement = .ok ⟨0, 0⟩ ∧
    ∃ b', halfBuilder.replace sumReplacement = .ok b' ∧
      (b'.cellCount : Int) - halfBuilder.cellCount = 0 ∧
      (b'.depth sumReplacement.root : Int) - halfBuilder.depth sumReplacement.root = 0 := by
  have predicted : halfBuilder.predict sumReplacement = .ok ⟨0, 0⟩ := by cbv
  exact ⟨predicted, (predict_exact reachable_halfBuilder.wellFormed rfl rfl
    (by rw [inner_halfBuilder]; simp) leaves_sumReplacement).2 _ predicted⟩

end Builder

end Gatework
