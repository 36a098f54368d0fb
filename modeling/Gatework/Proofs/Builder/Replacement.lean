import Gatework.Proofs.Builder.Depths
import Gatework.Proofs.Builder.Exchange
import Gatework.Proofs.Runs
import Gatework.Proofs.Subnet

/-!
# Carrying out a replacement

What `Builder.replace` does to a builder, entry by entry.  The inner cells of the replacing subnet
get consecutive numbers from the size of the builder on and go right in front of the root, each a copy
of its original with links to the leaves and to the other copies.  Then the root gets a new cell, and
what nothing reads any more is taken out.

* `Copied.run`: the run of the loop that copies the cells.
* `Layout.replace`: a replacement whose leaves are in front of its root succeeds, and its result.
-/

namespace Gatework

namespace Replacement

variable (r : Replacement)

/-- Where an entry of the replacing subnet is found in the builder: the inputs at the leaves, the
inner cells from entry `base` on. -/
def place (base j : Nat) : Nat := (r.leaves[j]?).getD (base + (j - r.leaves.length))

variable {r} {count : Nat}

/-- The leaves and the copies are listed at their places. -/
lemma getElem?_places (base : Nat) {j : Nat} (hj : j < r.leaves.length + count) :
    (r.leaves ++ List.range' base count)[j]? = some (r.place base j) := by
  by_cases h : j < r.leaves.length
  · simp [place, List.getElem?_append_left h, h]
  · have hlt : j - r.leaves.length < count := by omega
    simp [place, List.getElem?_append_right (Nat.not_lt.1 h), h, hlt]

lemma place_mem (base : Nat) {j : Nat} (hj : j < r.leaves.length + count) :
    r.place base j ∈ r.leaves ++ List.range' base count :=
  List.mem_of_getElem? (getElem?_places base hj)

/-- The inner cells are those between the inputs and the outputs, with their positions. -/
lemma getElem?_innerCells {k i : Nat} {c : Cell} (h : r.innerCells[k]? = some (c, i)) :
    i = r.net.numInputs + k ∧ i < r.net.outputStart ∧ r.net.cells[i]? = some c := by
  rw [innerCells, List.getElem?_drop] at h
  rw [List.getElem?_take] at h
  split at h
  · rename_i hlt
    obtain ⟨e, he, hpair⟩ : ∃ e, r.net.cells[r.net.numInputs + k]? = some e ∧
        (e, r.net.numInputs + k) = (c, i) := by
      simpa [List.getElem?_zipIdx] using h
    cases hpair
    exact ⟨rfl, hlt, he⟩
  · cases h

lemma length_innerCells : r.innerCells.length = r.net.outputStart - r.net.numInputs := by
  simp [innerCells, Subnet.outputStart, Subnet.size]

/-- The output shows an entry in front of it. -/
lemma shown_lt {shown : Link} (h : r.shown = .ok shown) : shown.entry < r.net.outputStart := by
  unfold Replacement.shown at h
  split at h
  · rename_i l hl
    cases h
    obtain ⟨c, hc, hhead⟩ := Option.bind_eq_some_iff.1 hl
    exact (r.net.obeys hc).lt_of_reads _ (List.mem_map_of_mem (List.mem_of_head? hhead))
  · cases h

/-- The output shows the last inner cell directly. -/
lemma isInPlace_iff {shown : Link} : r.isInPlace shown = true ↔ shown.inverted = false ∧
    shown.port = 0 ∧ r.net.numInputs ≤ shown.entry ∧ shown.entry + 1 = r.net.outputStart := by
  simp [isInPlace, and_assoc]

/-- Where the output shows the last inner cell directly, the other inner cells are in front of it. -/
lemma exists_last_of_isInPlace {shown : Link} (direct : r.isInPlace shown = true) :
    ∃ c, r.net.cells[shown.entry]? = some c ∧
      r.innerCells = r.innerCells.take (shown.entry - r.net.numInputs) ++ [(c, shown.entry)] ∧
      ∀ x ∈ r.innerCells.take (shown.entry - r.net.numInputs), x.2 < shown.entry := by
  obtain ⟨-, -, hge, hlast⟩ := isInPlace_iff.1 direct
  have hlength := length_innerCells (r := r)
  obtain ⟨⟨c, i⟩, hc⟩ : ∃ x, r.innerCells[shown.entry - r.net.numInputs]? = some x :=
    ⟨_, List.getElem?_eq_getElem (by omega)⟩
  obtain ⟨hi, -, hcell⟩ := getElem?_innerCells hc
  obtain rfl : i = shown.entry := by omega
  refine ⟨c, hcell, ?_, fun x hx => ?_⟩
  · rw [← Option.toList_some, ← hc, ← List.take_add_one, List.take_of_length_le (by omega)]
  · obtain ⟨k, hk⟩ := List.mem_iff_getElem?.1 hx
    rw [List.getElem?_take] at hk
    split at hk
    · have := (getElem?_innerCells hk).1
      omega
    · cases hk

/-- The cell that the root becomes, when the first `count` inner cells are copied: the next cell, if
it is the last one and the output shows it directly, or else a buffer. -/
inductive RootCell (r : Replacement) (base : Nat) (shown : Link) : (count : Nat) → Cell → Prop
  | inPlace {count : Nat} {c : Cell} (direct : r.isInPlace shown = true)
      (last : r.net.numInputs + count + 1 = r.net.outputStart)
      (cell : r.net.cells[r.net.numInputs + count]? = some c) :
      RootCell r base shown count (c.rename (r.place base))
  | buffer {count : Nat} (indirect : r.isInPlace shown = false)
      (all : r.net.numInputs + count = r.net.outputStart) :
      RootCell r base shown count ⟨.ofGate .buf, [shown.rename (r.place base)]⟩

end Replacement

namespace Builder

variable {b : Builder} {r : Replacement}

/-- The conditions of a replacement. -/
lemma checkReplacement_eq_ok_iff : b.checkReplacement r = .ok () ↔
    r.net.numOutputs = 1 ∧ r.net.numInputs = r.leaves.length ∧ b.isAlive r.root = true ∧
      (b.cells[r.root]?).any Cell.isTerminal = false ∧ r.root ∉ r.leaves ∧
      ∀ leaf ∈ r.leaves, b.isAlive leaf = true := by
  unfold checkReplacement
  simp only [guard_eq_ok_iff]
  cases hfind : r.leaves.find? fun leaf => !b.isAlive leaf with
  | some leaf =>
      have dead := List.find?_some hfind
      have hleaf := List.mem_of_find?_eq_some hfind
      simp only [throw, throwThe, MonadExceptOf.throw, reduceCtorEq, and_false, false_iff]
      rintro ⟨-, -, -, -, -, alive⟩
      simp [alive leaf hleaf] at dead
  | none =>
      simpa [pure, Except.pure] using fun _ _ _ _ _ => List.find?_eq_none.1 hfind

/-- A link of the replacing subnet becomes a link to the place of its driver. -/
lemma relink_places (base count : Nat) {l : Link} (hl : l.entry < r.leaves.length + count) :
    relink ((r.leaves ++ List.range' base count).map Link.of).toArray l =
      .ok (l.rename (r.place base)) := by
  have hplace : ((r.leaves ++ List.range' base count).map Link.of).toArray[l.entry]? =
      some (.of (r.place base l.entry)) := by
    rw [List.getElem?_toArray, List.getElem?_map, Replacement.getElem?_places base hl]
    rfl
  rw [relink, hplace]
  by_cases hport : l.port = 0 <;> simp [Link.of, Link.rename, hport]

lemma mapM_relink_places (base count : Nat) {c : Cell}
    (hc : ∀ d ∈ c.drivers, d < r.leaves.length + count) :
    c.links.mapM (relink ((r.leaves ++ List.range' base count).map Link.of).toArray) =
      .ok (c.rename (r.place base)).links :=
  mapM_eq_ok fun l hl => relink_places base count (hc l.entry (List.mem_map_of_mem hl))

/-- The state of the loop that copies the cells of a replacing subnet, when those in `done` are
copied. -/
structure Copied (r : Replacement) (b : Builder) (ins inn inn' outs : List Nat)
    (done : List (Cell × Nat)) (state : Builder × Array Link × Option Cell) : Prop where
  layout : Layout state.1 ins (inn ++ List.range' b.size done.length ++ r.root :: inn') outs
  cells : state.1.cells = b.cells ++ (done.map fun x => x.1.rename (r.place b.size)).toArray
  options : state.1.options = b.options
  places : state.2.1 = ((r.leaves ++ List.range' b.size done.length).map Link.of).toArray
  rootCell : state.2.2 = none
  settled : Settled state.1

namespace Copied

variable {ins inn inn' outs : List Nat} {done : List (Cell × Nat)}
  {state : Builder × Array Link × Option Cell} {c : Cell} {i : Nat}

lemma size (h : Copied r b ins inn inn' outs done state) :
    state.1.size = b.size + done.length := by
  simp [Builder.size, h.cells]

/-- What a cell of the replacing subnet reads is in front of the root. -/
lemma mem_of_reads (hleaves : ∀ leaf ∈ r.leaves, leaf ∈ ins ++ inn) {count : Nat}
    (hc : ∀ d ∈ c.drivers, d < r.leaves.length + count) :
    ∀ d ∈ (c.rename (r.place b.size)).drivers,
      d ∈ ins ++ (inn ++ List.range' b.size count) := by
  intro d hd
  rw [Cell.drivers_rename] at hd
  obtain ⟨e, he, rfl⟩ := List.mem_map.1 hd
  rw [← List.append_assoc]
  rcases List.mem_append.1 (Replacement.place_mem b.size (hc e he)) with hmem | hmem
  · exact List.mem_append_left _ (hleaves _ hmem)
  · exact List.mem_append_right _ hmem

/-- One more cell is copied, unless it is the one that the root becomes. -/
lemma step (h : Copied r b ins inn inn' outs done state)
    (fits : r.net.numInputs = r.leaves.length) (hleaves : ∀ leaf ∈ r.leaves, leaf ∈ ins ++ inn)
    (hcell : r.innerCells[done.length]? = some (c, i)) {rootPosition : Option Nat}
    (hroot : rootPosition ≠ some i) :
    ∃ state', replaceCell r rootPosition state (c, i) = .ok state' ∧
      Copied r b ins inn inn' outs (done ++ [(c, i)]) state' := by
  obtain ⟨hi, hlt, hc⟩ := Replacement.getElem?_innerCells hcell
  have obeys := r.net.obeys hc
  have hreads : ∀ d ∈ c.drivers, d < r.leaves.length + done.length := fun d hd => by
    have := obeys.lt_of_reads d hd
    omega
  have hterm : (c.rename (r.place b.size)).isTerminal = false := by
    have hin : c.isInput = false := by simpa [hi] using mt obeys.isInput_iff.1
    have hout : c.isOutput = false := by simpa [hlt] using mt obeys.isOutput_iff.1
    rw [Cell.isTerminal_rename, Cell.isTerminal, hin, hout, Bool.or_false]
  obtain ⟨b', places, rootCell⟩ := state
  have front := mem_of_reads (b := b) hleaves hreads
  obtain ⟨hid, layout, added⟩ := h.layout.splice front hterm
  have hsize : b'.size = b.size + done.length := h.size
  have hrange : List.range' b.size (done ++ [(c, i)]).length =
      List.range' b.size done.length ++ [b'.size] := by
    simp [List.range'_1_concat, hsize]
  refine ⟨((b'.splice r.root (c.rename (r.place b.size))).2, places.push (.of b'.size), rootCell),
    ?_, ?_, ?_, ?_, ?_, h.rootCell, ?_⟩
  · have hlinks := mapM_relink_places b.size _ hreads
    rw [← show places = _ from h.places] at hlinks
    simp only [replaceCell, hlinks, ok_bind, if_neg hroot]
    rw [← hid]
    rfl
  · rw [hrange]
    simpa using layout
  · rw [added.cells, show b'.cells = _ from h.cells]
    simp
  · exact added.options.trans h.options
  · rw [hrange, show places = _ from h.places]
    simp
  · refine h.layout.settled_of_added added h.settled (fun d hd => ?_) layout fun x hx => ?_
    · exact (List.sublist_append_left _ _).append_left ins |>.subset (front d hd)
    · simp only [List.mem_append, List.mem_cons] at hx ⊢
      tauto

/-- The loop over the first cells of a replacing subnet. -/
lemma run (h : Layout b ins (inn ++ r.root :: inn') outs) (settled : Settled b)
    (fits : r.net.numInputs = r.leaves.length) (hleaves : ∀ leaf ∈ r.leaves, leaf ∈ ins ++ inn)
    (rootPosition : Option Nat) {cells : List (Cell × Nat)} (hcells : cells <+: r.innerCells)
    (hroot : ∀ x ∈ cells, rootPosition ≠ some x.2) :
    ∃ state, cells.foldlM (replaceCell r rootPosition)
        (b, (r.leaves.map Link.of).toArray, none) = .ok state ∧
      Copied r b ins inn inn' outs cells state := by
  refine exists_foldlM_eq_ok (Copied r b ins inn inn' outs) ?_ ?_
  · exact ⟨by simpa using h, by simp, rfl, by simp, rfl, settled⟩
  · rintro done ⟨c, i⟩ rest state rfl hdone
    refine hdone.step fits hleaves ?_ (hroot (c, i) (by simp))
    obtain ⟨others, hothers⟩ := hcells
    rw [← hothers]
    simp

end Copied

/-! ## The result -/

namespace Layout

variable {ins inn inn' outs : List Nat} {c : Cell}

/-- A root gets another cell, and what it alone used is taken out. -/
theorem rewriteCell {root : Nat} (h : Layout b ins (inn ++ root :: inn') outs)
    (new : ∀ d ∈ c.drivers, d ∈ ins ++ inn) (hc : c.isTerminal = false) :
    ∃ kept, kept.Sublist inn ∧ Layout (b.rewriteCell root c) ins (kept ++ root :: inn') outs ∧
      (b.rewriteCell root c).cells = (b.exchange root c).cells ∧
      (b.rewriteCell root c).depths = b.depths ∧ (b.rewriteCell root c).options = b.options := by
  have hwait : ∀ x ∈ (b.driversOf root).reverse, x ∉ root :: inn' := fun x hx =>
    h.notMem_behind (List.mem_reverse.1 hx)
  obtain ⟨kept, sub, layout, hcells, hdepths, hoptions⟩ := (h.exchange new hc).collect hwait
  exact ⟨kept, sub, layout, hcells, hdepths.trans (by rw [exchange_eq]),
    hoptions.trans (by rw [exchange_eq])⟩

/-- When a root has got another cell, no other depth is wrong, and all depths can be brought up to date. -/
theorem exists_updateDepths_rewriteCell {root : Nat} (h : Layout b ins (inn ++ root :: inn') outs)
    (settled : Settled b) (new : ∀ d ∈ c.drivers, d ∈ ins ++ inn) (hc : c.isTerminal = false) :
    ∃ kept depths, kept.Sublist inn ∧
      (b.rewriteCell root c).updateDepths root = .ok { b.rewriteCell root c with depths } ∧
      Layout { b.rewriteCell root c with depths } ins (kept ++ root :: inn') outs ∧
      Settled { b.rewriteCell root c with depths } ∧
      (b.rewriteCell root c).cells = (b.exchange root c).cells ∧
      (b.rewriteCell root c).options = b.options := by
  obtain ⟨kept, sub, layout, cells, sameDepths, options⟩ := h.rewriteCell new hc
  have hroot : root ∈ ins ++ (kept ++ root :: inn') ++ outs := by simp
  obtain ⟨depths, hrun, layout', right⟩ := layout.exists_updateDepths hroot
    fun id hid hne e he => by
      rw [cells, getElem?_exchange_of_ne hne] at he
      rw [sameDepths]
      refine settled id ?_ e he
      rw [h.order_eq]
      have sub' := (sub.append_right (root :: inn')).append_left ins
      exact (sub'.append_right outs).subset hid
  exact ⟨kept, depths, sub, hrun, layout', right, cells, options⟩

end Layout

/-- What a replacement comes to: `full` is the builder with all copies in place and nothing taken out
yet, `b'` is the result. -/
structure Replaced (r : Replacement) (shown : Link) (b full b' : Builder)
    (ins inn inn' outs kept : List Nat) (count : Nat) (c : Cell) : Prop where
  rootCell : r.RootCell b.size shown count c
  complete : Layout full ins (inn ++ List.range' b.size count ++ r.root :: inn') outs
  cells : full.cells = (b.cells ++ ((r.innerCells.take count).map fun x =>
    x.1.rename (r.place b.size)).toArray).setIfInBounds r.root c
  sublist : kept.Sublist (inn ++ List.range' b.size count)
  layout : Layout b' ins (kept ++ r.root :: inn') outs
  settled : Settled b'
  same : b'.cells = full.cells
  options : b'.options = b.options
  collected : b' = { full.collect (b.driversOf r.root).reverse with depths := b'.depths }

namespace Layout

variable {ins inn inn' outs : List Nat} {c : Cell} {shown : Link}

/-- The replacement of a root with a new cell, after the copies are in place. -/
lemma replaced {state : Builder × Array Link × Option Cell} {cells : List (Cell × Nat)}
    (copied : Copied r b ins inn inn' outs cells state)
    (hcells : cells = r.innerCells.take cells.length)
    (hleaves : ∀ leaf ∈ r.leaves, leaf ∈ ins ++ inn)
    (fits : r.net.numInputs = r.leaves.length) (hshown : shown.entry < r.net.outputStart)
    (hroot : r.root < b.size) (rootCell : r.RootCell b.size shown cells.length c) :
    ∃ b' full kept, (state.1.rewriteCell r.root c).updateDepths r.root = .ok b' ∧
      Replaced r shown b full b' ins inn inn' outs kept cells.length c := by
  obtain ⟨new, hc⟩ : (∀ d ∈ c.drivers, d ∈ ins ++ (inn ++ List.range' b.size cells.length)) ∧
      c.isTerminal = false := by
    cases hroot : rootCell with
    | inPlace direct last hcell =>
        have obeys := r.net.obeys hcell
        refine ⟨Copied.mem_of_reads hleaves fun d hd => fits ▸ obeys.lt_of_reads d hd, ?_⟩
        have hin := mt obeys.isInput_iff.1 (by omega)
        have hout := mt obeys.isOutput_iff.1 (by omega)
        rw [Cell.isTerminal_rename, Cell.isTerminal, Bool.eq_false_iff.2 hin,
          Bool.eq_false_iff.2 hout, Bool.or_false]
    | buffer indirect all =>
        refine ⟨?_, rfl⟩
        refine Copied.mem_of_reads (c := ⟨.ofGate .buf, [shown]⟩) hleaves fun d hd => ?_
        rw [List.mem_singleton.1 hd]
        show shown.entry < _
        omega
  obtain ⟨kept, depths, sub, hrun, layout, settled, same, options⟩ :=
    copied.layout.exists_updateDepths_rewriteCell copied.settled new hc
  refine ⟨_, state.1.exchange r.root c, kept, hrun, rootCell, copied.layout.exchange new hc, ?_, sub,
    layout, settled, same, options.trans copied.options, ?_⟩
  · rw [exchange_eq, copied.cells, ← hcells]
  · have hdrivers : state.1.driversOf r.root = b.driversOf r.root := by
      rw [driversOf, copied.cells, Array.getElem?_append_left hroot]
      rfl
    rw [← hdrivers]
    rfl

/-- A replacement whose leaves are in front of its root meets the conditions. -/
lemma checkReplacement (h : Layout b ins (inn ++ r.root :: inn') outs)
    (single : r.net.numOutputs = 1) (fits : r.net.numInputs = r.leaves.length)
    (hleaves : ∀ leaf ∈ r.leaves, leaf ∈ ins ++ inn) : b.checkReplacement r = .ok () := by
  have hroot : r.root ∈ ins ++ (inn ++ r.root :: inn') ++ outs := by simp
  have front : ∀ leaf ∈ r.leaves, leaf ∈ ins ++ (inn ++ r.root :: inn') ++ outs := by
    intro leaf hleaf
    rcases List.mem_append.1 (hleaves leaf hleaf) with hmem | hmem <;> simp [hmem]
  refine checkReplacement_eq_ok_iff.2 ⟨single, fits, (h.arranged.isAlive_iff _).2 hroot, ?_, ?_, ?_⟩
  · obtain ⟨c, hc, hterm⟩ := h.isInner r.root (by simp)
    simp [hc, hterm]
  · exact fun hmem => h.arranged_middle.linked.apart (hleaves _ hmem) (by simp)
  · exact fun leaf hleaf => (h.arranged.isAlive_iff leaf).2 (front leaf hleaf)

/-- A replacement whose leaves are in front of its root succeeds. -/
theorem replace (h : Layout b ins (inn ++ r.root :: inn') outs) (settled : Settled b)
    (single : r.net.numOutputs = 1) (fits : r.net.numInputs = r.leaves.length)
    (hleaves : ∀ leaf ∈ r.leaves, leaf ∈ ins ++ inn) (hshown : r.shown = .ok shown) :
    ∃ b' full kept count c, b.replace r = .ok b' ∧
      Replaced r shown b full b' ins inn inn' outs kept count c := by
  have hlt := Replacement.shown_lt hshown
  have hlength := Replacement.length_innerCells (r := r)
  have hsize := r.net.numInputs_add_numOutputs_le
  have hstart : r.net.outputStart = r.net.size - r.net.numOutputs := rfl
  have hroot : r.root < b.size := h.lt_size (by simp)
  unfold Builder.replace
  rw [h.checkReplacement single fits hleaves, hshown]
  simp only [ok_bind]
  by_cases direct : r.isInPlace shown = true
  · -- the last inner cell is the one that the root becomes
    obtain ⟨-, -, hge, hlast⟩ := Replacement.isInPlace_iff.1 direct
    obtain ⟨e, hcell, hsplit, before⟩ := Replacement.exists_last_of_isInPlace direct
    set count := shown.entry - r.net.numInputs
    have hcount : (r.innerCells.take count).length = count := by simp; omega
    have hentry : r.net.numInputs + count = shown.entry := by omega
    obtain ⟨state, hrun, copied⟩ :=
      Copied.run h settled fits hleaves (some shown.entry) (List.take_prefix count r.innerCells)
        fun x hx => by simpa using (before x hx).ne'
    have obeys := r.net.obeys hcell
    have hlinks := mapM_relink_places (r := r) b.size count (c := e)
      fun d hd => by
        have := obeys.lt_of_reads d hd
        omega
    have hplaces := copied.places
    rw [hcount] at hplaces
    rw [← hplaces] at hlinks
    obtain ⟨b', full, kept, hupdate, replaced⟩ := replaced copied (by rw [hcount]) hleaves fits hlt
      hroot (.inPlace direct (by omega) (by rw [hcount, hentry]; exact hcell))
    refine ⟨b', full, kept, _, _, ?_, replaced⟩
    rw [if_pos direct, hsplit, List.foldlM_append, hrun]
    simp only [ok_bind, List.foldlM_cons, List.foldlM_nil, replaceCell, hlinks, if_true]
    exact hupdate
  · obtain ⟨state, hrun, copied⟩ := Copied.run h settled fits hleaves none
      (List.prefix_refl _) (by simp)
    have hlink := relink_places (r := r) b.size r.innerCells.length (l := shown)
      (by omega)
    rw [← copied.places] at hlink
    obtain ⟨b', full, kept, hupdate, replaced⟩ := replaced copied (by simp) hleaves fits hlt
      hroot (.buffer (by simpa using direct) (by omega))
    refine ⟨b', full, kept, _, _, ?_, replaced⟩
    rw [if_neg direct, hrun]
    simp only [ok_bind, copied.rootCell, hlink]
    exact hupdate

end Layout

end Builder

end Gatework
