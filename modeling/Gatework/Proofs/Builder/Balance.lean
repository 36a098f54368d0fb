import Gatework.Proofs.Builder.Plain
import Gatework.Proofs.Builder.Width

/-!
# Trees are balanced

A tree of an associative gate is built level by level.  A level cuts the links that are left into groups of
the width asked for, so it leaves a `width`-th part of them, and each of its cells is at most one level above
the links that it joins.

Folding may leave a cell out and sharing may return a cell that was there before, so a level cannot count on
new cells.  What it can count on is `Within`: a bound on the depth of a link that may be read.  A reused cell
has the normal form of the cell asked for, and with it its depth (`WellFormed.raised_place`).

**Main statement.** `addTree_balanced`.
-/

namespace Gatework

/-- A cell and its normal form are equally deep. -/
lemma Cell.depth_normal (c : Cell) (f : Nat → Nat) : c.normal.depth f = c.depth f := by
  have hperm : c.normal.drivers.Perm c.drivers := by
    unfold Cell.normal
    split
    · exact (List.mergeSort_perm c.links _).map _
    · exact .refl _
  have deepest : (c.normal.drivers.map f).foldl max 0 = (c.drivers.map f).foldl max 0 :=
    (hperm.map f).foldl_eq 0
  simp only [Cell.depth, Cell.kind_normal, deepest]

/-- A cell is at most one level above what it reads. -/
lemma Cell.depth_le {c : Cell} {f : Nat → Nat} {bound : Nat} (h : ∀ d ∈ c.drivers, f d ≤ bound) :
    c.depth f ≤ bound + 1 := by
  have deepest : (c.drivers.map f).foldl max 0 ≤ bound :=
    foldl_max_le_iff.2 ⟨Nat.zero_le _, List.forall_mem_map.2 h⟩
  unfold Cell.depth
  split <;> simp only [Nat.zero_le, Nat.add_le_add_iff_right, deepest, deepest.trans (Nat.le_succ _)]

namespace Builder

variable {b b' b'' : Builder} {c : Cell} {kind : CellKind} {l : Link} {links : List Link}
  {width bound : Nat}

/-! ## Links of bounded depth -/

/-- The builder has grown by cells that are narrow enough, and nothing has become deeper. -/
structure Raised (width : Nat) (b b' : Builder) : Prop extends Grown b b' where
  depth : ∀ id < b.size, b'.depth id = b.depth id
  narrow : ∀ id c, b.size ≤ id → b'.cells[id]? = some c → c.links.length ≤ width

namespace Raised

lemma refl (h : WellFormed b) : Raised width b b :=
  ⟨.refl h, fun _ _ => rfl, fun id c hid hc => by
    rw [Array.getElem?_eq_none hid] at hc
    cases hc⟩

lemma trans (h : Raised width b b') (h' : Raised width b' b'') : Raised width b b'' where
  toGrown := h.toGrown.trans h'.toGrown
  depth id hid := (h'.depth id (hid.trans_le h.size_le)).trans (h.depth id hid)
  narrow id c hid hc := by
    rcases Nat.lt_or_ge id b'.size with hlt | hge
    · exact h.narrow id c hid (h'.cells id hlt ▸ hc)
    · exact h'.narrow id c hge hc

end Raised

/-- A link that may be read and is not deeper than a bound. -/
structure Within (b : Builder) (bound : Nat) (l : Link) : Prop where
  readable : b.Readable l
  depth : b.depth l.entry ≤ bound

namespace Within

lemma mono (h : b.Within bound l) {bound' : Nat} (hle : bound ≤ bound') : b.Within bound' l :=
  ⟨h.readable, h.depth.trans hle⟩

lemma raised (h : b.Within bound l) (wf : WellFormed b) (raised : Raised width b b') :
    b'.Within bound l := by
  refine ⟨h.readable.grown raised.toGrown, ?_⟩
  rw [raised.depth _ (wf.layout.lt_size (List.mem_append_left _ h.readable))]
  exact h.depth

lemma congr {k : Link} (h : b.Within bound k) (hentry : k.entry = l.entry) : b.Within bound l := by
  obtain ⟨readable, depth⟩ := h
  rw [Readable, hentry] at readable
  exact ⟨readable, hentry ▸ depth⟩

end Within

namespace WellFormed

/-- A cell that is placed has its own depth, also when it is a cell that was there before. -/
lemma raised_place (h : WellFormed b) (hc : c.isTerminal = false) (reads : ∀ l ∈ c.links, b.Readable l)
    (hwidth : c.links.length ≤ width) : Raised width b (b.place c).2 ∧
      (b.place c).2.Within (c.depth b.depth) (b.place c).1 ∧
      (b.options.share = false → (b.place c).2.size = b.size + 1) := by
  obtain ⟨-, readable⟩ := h.place hc reads
  cases hfound : if b.options.share then b.table[c.normal]? else none with
  | some id =>
      have hplace : b.place c = (.of id, b) := by rw [Builder.place, hfound]
      rw [hplace] at readable ⊢
      split at hfound
      · rename_i hshare
        obtain ⟨hinner, e, he, hnormal⟩ := h.layout.offered _ _ hfound
        have horder : id ∈ b.order := h.layout.mem_order.2 (.inr (.inl hinner))
        refine ⟨.refl h, ⟨readable, ?_⟩, fun hunshared => absurd hshare (by simp [hunshared])⟩
        -- the cell that is reused has the same normal form
        show b.depth id ≤ c.depth b.depth
        rw [h.settled id horder e he, ← Cell.depth_normal, hnormal, Cell.depth_normal]
      · cases hfound
  | none =>
      have hplace : b.place c = (.of b.size, (b.append c).2) := by rw [Builder.place, hfound]; rfl
      obtain ⟨-, grown, -, cells⟩ := h.append hc reads
      have new : ∀ d ∈ c.drivers, d ∈ b.inputs ++ b.inner := List.forall_mem_map.2 reads
      obtain ⟨-, -, added⟩ := h.layout.append new hc
      have sized := h.layout.arranged.sized
      rw [hplace] at readable ⊢
      refine ⟨⟨grown, fun id => added.depth_of_lt sized, fun id e hid he => ?_⟩, ⟨readable, ?_⟩,
        fun _ => added.size⟩
      · rw [cells, Array.getElem?_push] at he
        split at he
        · cases he
          exact hwidth
        · rw [Array.getElem?_eq_none hid] at he
          cases he
      · simp [Builder.depth, added.depths, ← sized.depths, Link.of]

end WellFormed

/-! ## Single cells -/

/-- What is left of a cell after folding is placed at most one level above the operands. -/
lemma WellFormed.raised_placed (h : WellFormed b) (hkind : (Cell.mk kind []).isTerminal = false)
    {folded : Folded} (within : ∀ l ∈ folded.links, b.Within bound l)
    (hwidth : ∀ kept inverted, folded = .cell kept inverted → kept.length ≤ width) :
    Raised width b (folded.placed b kind).2 ∧
      (folded.placed b kind).2.Within (bound + 1) (folded.placed b kind).1 := by
  cases folded with
  | link l => exact ⟨.refl h, (within l (by simp [Folded.links])).mono (Nat.le_succ _)⟩
  | constant value =>
      obtain ⟨raised, placed, -⟩ := h.raised_place (c := ⟨.ofGate (.ofBool value), []⟩)
        (by cases value <;> rfl) (by simp) (Nat.zero_le width)
      exact ⟨raised, placed.mono (Cell.depth_le (by simp [Cell.drivers]))⟩
  | cell kept inverted =>
      obtain ⟨raised, placed, -⟩ := h.raised_place (c := ⟨kind, kept⟩) hkind
        (fun l hl => (within l hl).readable) (hwidth kept inverted rfl)
      have hdepth : (Cell.mk kind kept).depth b.depth ≤ bound + 1 :=
        Cell.depth_le (List.forall_mem_map.2 fun l hl => (within l hl).depth)
      exact ⟨raised, (placed.mono hdepth).congr rfl⟩

/-- A cell that is asked for leads at most one level up, and adds one cell if nothing is simplified. -/
lemma exists_addPositive_within (h : WellFormed b) (hkind : (Cell.mk kind []).isTerminal = false)
    (reducible : b.Reducible kind links) (within : ∀ l ∈ links, b.Within bound l)
    (hwidth : links.length ≤ width) :
    ∃ l b', addPositive kind links b = .ok (l, b') ∧ Raised width b b' ∧ b'.Within (bound + 1) l ∧
      (b.options = {} → b'.size = b.size + 1) := by
  have reads : ∀ l ∈ links, b.Readable l := fun l hl => (within l hl).readable
  have left : ∀ l ∈ (b.simplified kind links).links, b.Within bound l := fun l hl => by
    obtain ⟨k, hk, hentry, -⟩ := exists_of_mem_simplified l hl
    exact (within k hk).congr hentry
  obtain ⟨raised, placed⟩ := h.raised_placed hkind left fun kept inverted hcase =>
    (length_simplified_le hcase).trans hwidth
  refine ⟨_, _, h.addPositive_eq_ok_iff.2 ⟨reads, reducible, rfl⟩, raised, placed, fun plain => ?_⟩
  have hcell : b.simplified kind links = .cell links false := by rw [simplified, plain]; rfl
  rw [hcell]
  exact (h.raised_place (c := ⟨kind, links⟩) hkind reads hwidth).2.2 (by rw [plain])

/-- A constant is as deep as an input. -/
lemma exists_addConst_within (h : WellFormed b) (width : Nat) (value : Bool) :
    ∃ l b', addConst value b = .ok (l, b') ∧ Raised width b b' ∧ b'.Within 0 l := by
  have hcell : b.simplified (.ofGate (.ofBool value)) [] = .cell [] false := by
    unfold simplified
    split
    · cases value <;> rfl
    · rfl
  have hdepth : (Cell.mk (.ofGate (.ofBool value)) []).depth b.depth = 0 := by cases value <;> rfl
  obtain ⟨raised, placed, -⟩ := h.raised_place (c := ⟨.ofGate (.ofBool value), []⟩)
    (by cases value <;> rfl) (by simp) (Nat.zero_le width)
  rw [hdepth] at placed
  exact ⟨_, _, h.addPositive_eq_ok_iff.2 ⟨by simp,
    reducible_of_ne_buf (by cases value <;> decide), congrArg (Folded.placed b _) hcell⟩, raised,
    placed.congr rfl⟩

/-- A gate that may be regrouped. -/
lemma exists_addCell_within (h : WellFormed b) {g : Gate} (hg : g.traits.regroupable = true)
    (within : ∀ l ∈ links, b.Within bound l) (htwo : 2 ≤ links.length) (hwidth : links.length ≤ width)
    (hmax : links.length ≤ maxArity) :
    ∃ l b', addCell (.gate g) links b = .ok (l, b') ∧ Raised width b b' ∧ b'.Within (bound + 1) l ∧
      (b.options = {} → b'.size = b.size + 1) := by
  obtain ⟨hin, hout, harity⟩ := Gate.arity_of_regroupable hg
  obtain ⟨l, b', hrun, raised, within, count⟩ :=
    exists_addPositive_within h (isTerminal_positive g hin hout)
      (reducible_of_ne_nil (List.ne_nil_of_length_pos (by omega))) within hwidth
  refine ⟨_, b', addCell_eq_ok_iff.2 ⟨g, l, rfl, hin, hout, ?_, hrun, rfl⟩, raised, within.congr rfl, count⟩
  rw [harity]
  exact ⟨htwo, hmax⟩

/-! ## Levels -/

lemma two_le_length (hnil : links ≠ []) (hsingle : ∀ l, links = [l] → False) : 2 ≤ links.length := by
  have hpos := List.length_pos_of_ne_nil hnil
  have hone : links.length ≠ 1 := fun hone =>
    (List.length_eq_one_iff.1 hone).elim hsingle
  omega

/-- A step for each element of a list, which adds one cell less than the element has operands. -/
lemma exists_mapM_within {α : Type} {f : α → Build Link} {operands : α → Nat} {xs : List α}
    {start : Builder} (step : ∀ x ∈ xs, ∀ b, Raised width start b → ∃ l b', f x b = .ok (l, b') ∧
      Raised width b b' ∧ b'.Within bound l ∧
      (b.options = {} → width = 2 → b'.size + 1 = b.size + operands x)) (hb : Raised width start b) :
    ∃ ls b', xs.mapM f b = .ok (ls, b') ∧ Raised width b b' ∧ ls.length = xs.length ∧
      (∀ l ∈ ls, b'.Within bound l) ∧
      (b.options = {} → width = 2 → b'.size + xs.length = b.size + (xs.map operands).sum) := by
  induction xs generalizing b with
  | nil => exact ⟨[], b, rfl, .refl hb.wellFormed, rfl, by simp, fun _ _ => rfl⟩
  | cons x xs ih =>
      obtain ⟨l, b₁, hl, raised, within, count⟩ := step x List.mem_cons_self b hb
      obtain ⟨ls, b₂, hls, raised', hlength, within', count'⟩ :=
        ih (fun y hy => step y (List.mem_cons_of_mem x hy)) (hb.trans raised)
      refine ⟨l :: ls, b₂, ?_, raised.trans raised', congrArg Nat.succ hlength,
        List.forall_mem_cons.2 ⟨within.raised raised.wellFormed raised', within'⟩, fun plain hwidth => ?_⟩
      · rw [List.mapM_cons, build_bind_eq_ok_iff]
        exact ⟨l, b₁, hl, build_bind_eq_ok_iff.2 ⟨ls, b₂, hls, rfl⟩⟩
      · have := count plain hwidth
        have := count' (raised.options.trans plain) hwidth
        rw [List.length_cons, List.map_cons, List.sum_cons]
        omega

/-- One level of a tree. -/
lemma exists_joinGroups_within (h : WellFormed b) {g : Gate} (hg : g.traits.regroupable = true)
    (hmax : width ≤ maxArity) {groups : List (List Link)}
    (within : ∀ group ∈ groups, ∀ l ∈ group, b.Within bound l)
    (hlength : ∀ group ∈ groups, 1 ≤ group.length ∧ group.length ≤ width) :
    ∃ ls b', joinGroups (.gate g) groups b = .ok (ls, b') ∧ Raised width b b' ∧
      ls.length = groups.length ∧ (∀ l ∈ ls, b'.Within (bound + 1) l) ∧
      (b.options = {} → width = 2 → b'.size + groups.length = b.size + groups.flatten.length) := by
  rw [List.length_flatten]
  refine exists_mapM_within (fun group hgroup b' hb' => ?_) (.refl h)
  obtain ⟨hpos, hle⟩ := hlength group hgroup
  have within : ∀ l ∈ group, b'.Within bound l := fun l hl => (within group hgroup l hl).raised h hb'
  split
  · rename_i l
    exact ⟨l, b', rfl, .refl hb'.wellFormed, (within l List.mem_cons_self).mono (Nat.le_succ _),
      fun _ _ => rfl⟩
  · rename_i hsingle
    have htwo := two_le_length (List.ne_nil_of_length_pos hpos) hsingle
    obtain ⟨l, b'', hrun, raised, within, count⟩ :=
      exists_addCell_within hb'.wellFormed hg within htwo hle (hle.trans hmax)
    refine ⟨l, b'', hrun, raised, within, fun plain hwidth => ?_⟩
    have := count plain
    omega

lemma exists_joinLevels_single (h : WellFormed b) {symbol : Symbol} {levels height : Nat}
    (within : ∀ l ∈ links, b.Within bound l) (hone : links.length = 1) :
    ∃ l b', joinLevels symbol width levels links b = .ok (l, b') ∧ Raised width b b' ∧
      b'.Within (bound + height) l ∧
      (b.options = {} → width = 2 → b'.size + 1 = b.size + links.length) := by
  obtain ⟨l, rfl⟩ := List.length_eq_one_iff.1 hone
  exact ⟨l, b, by cases levels <;> rfl, .refl h, (within l (by simp)).mono (Nat.le_add_right ..),
    fun _ _ => rfl⟩

/-- All levels of a tree.  A level takes one from the height that is left. -/
lemma exists_joinLevels_within {g : Gate} (hg : g.traits.regroupable = true) (htwo : 2 ≤ width)
    (hmax : width ≤ maxArity) {levels : Nat} (h : WellFormed b)
    (within : ∀ l ∈ links, b.Within bound l) (hne : links ≠ []) (hlevels : links.length ≤ levels + 1)
    {height : Nat} (hheight : links.length ≤ width ^ height) :
    ∃ l b', joinLevels (.gate g) width levels links b = .ok (l, b') ∧ Raised width b b' ∧
      b'.Within (bound + height) l ∧
      (b.options = {} → width = 2 → b'.size + 1 = b.size + links.length) := by
  have hpos := List.length_pos_of_ne_nil hne
  induction levels generalizing links bound height b with
  | zero => exact exists_joinLevels_single h within (by omega)
  | succ levels ih =>
      by_cases hone : links.length = 1
      · exact exists_joinLevels_single h within hone
      obtain ⟨height, rfl⟩ : ∃ k, height = k + 1 :=
        Nat.exists_eq_succ_of_ne_zero fun hzero => by
          rw [hzero, Nat.pow_zero] at hheight
          omega
      obtain ⟨ls, b₁, hls, raised, hlength, within₁, count⟩ := exists_joinGroups_within h hg hmax
        (fun group (hgroup : group ∈ pieces (width - 1) links) l hl =>
          within l (mem_of_mem_pieces hgroup hl))
        fun group hgroup => by
          have := length_of_mem_pieces links group hgroup
          omega
      have hlt := length_pieces_lt (show 1 ≤ width - 1 by omega) (show 2 ≤ links.length by omega)
      have hfew : (pieces (width - 1) links).length ≤ width ^ height := by
        refine length_pieces_le_of ?_
        rwa [Nat.sub_add_cancel (by omega), ← Nat.pow_succ]
      have hnil : ls ≠ [] := by
        rintro rfl
        have hflat := @flatten_pieces _ (width - 1) links
        rw [List.length_eq_zero_iff.1 hlength.symm, List.flatten_nil] at hflat
        exact hne hflat.symm
      obtain ⟨l, b₂, hl, raised', within₂, count'⟩ := ih raised.wellFormed within₁ hnil (by omega)
        (hlength ▸ hfew) (List.length_pos_of_ne_nil hnil)
      have hrun : joinLevels (.gate g) width (levels + 1) links b = .ok (l, b₂) := by
        rw [joinLevels, build_bind_eq_ok_iff]
        · exact ⟨ls, b₁, hls, hl⟩
        · rintro k rfl
          exact hone rfl
      refine ⟨l, b₂, hrun, raised.trans raised', within₂.mono (by omega), fun plain hwidth => ?_⟩
      have := count plain hwidth
      have := count' (raised.options.trans plain) hwidth
      rw [flatten_pieces] at *
      omega

/-! ## Trees -/

/-- The depth of the deepest operand. -/
def deepest (b : Builder) (links : List Link) : Nat := (links.map fun l => b.depth l.entry).foldl max 0

lemma within_deepest (reads : ∀ l ∈ links, b.Readable l) : ∀ l ∈ links, b.Within (b.deepest links) l :=
  fun l hl => ⟨reads l hl, (foldl_max_le_iff.1 (le_refl (b.deepest links))).2 _
    (List.mem_map_of_mem hl)⟩

/-- A tree over operands of bounded depth. -/
lemma exists_addTree_within (h : WellFormed b) {g : Gate} (hg : g.traits.regroupable = true)
    (within : ∀ l ∈ links, b.Within bound l) {arity : Nat}
    (hmax : max arity 2 ≤ maxArity ∨ links.length ≤ maxArity) :
    ∃ l b', addTree (.gate g) links arity b = .ok (l, b') ∧ Raised (max arity 2) b b' ∧
      b'.Within (bound + Nat.clog (max arity 2) links.length) l ∧
      (b.options = {} → max arity 2 = 2 → links ≠ [] → b'.size + 1 = b.size + links.length) := by
  have hregroup : (Symbol.gate g).traits.regroupable = true := hg
  have htwo : 2 ≤ max arity 2 := le_max_right ..
  unfold addTree
  simp only [hregroup, if_true]
  split
  · obtain ⟨l, b', hrun, raised, within⟩ :=
      exists_addConst_within h (max arity 2) (decide (Symbol.gate g = .gate .and))
    exact ⟨l, b', hrun, raised, within.mono (Nat.zero_le _), fun _ _ hne => absurd rfl hne⟩
  · rename_i l
    exact ⟨l, b, rfl, .refl h, (within l (by simp)).mono (Nat.le_add_right ..), fun _ _ _ => rfl⟩
  · rename_i hnil hsingle
    have hlength := two_le_length hnil hsingle
    split
    · rename_i hle
      obtain ⟨l, b', hrun, raised, within, count⟩ :=
        exists_addCell_within h hg within hlength hle (hmax.elim hle.trans id)
      refine ⟨l, b', hrun, raised, ?_, fun plain htwo _ => ?_⟩
      · rwa [Nat.clog_eq_one hlength hle]
      · rw [htwo] at hle
        rw [count plain]
        omega
    · rename_i hlt
      have hmax : max arity 2 ≤ maxArity := hmax.elim id (Nat.not_le.1 hlt).le.trans
      obtain ⟨l, b', hrun, raised, within, count⟩ := exists_joinLevels_within hg htwo hmax h within
        hnil (Nat.le_succ _) (Nat.le_pow_clog htwo links.length)
      exact ⟨l, b', hrun, raised, within, fun plain htwo _ => count plain htwo⟩

/-- A tree of an associative gate always has a result.  No cell of it is wider than asked for, and the tree
is balanced: over `n` operands it is no higher than a complete tree with `n` leaves, whatever is simplified
and whatever cells are reused.  If nothing is simplified or reused, a binary tree has one cell less than
operands. -/
theorem addTree_balanced (h : WellFormed b) {symbol : Symbol} (hsymbol : symbol.traits.regroupable = true)
    (reads : ∀ l ∈ links, b.Readable l) {arity : Nat} (harity : arity ≤ maxArity) :
    ∃ l b', addTree symbol links arity b = .ok (l, b') ∧ b'.Readable l ∧
      (∀ id c, b.size ≤ id → b'.cells[id]? = some c → c.links.length ≤ max 2 arity) ∧
      b'.depth l.entry ≤ b.deepest links + Nat.clog (max 2 arity) links.length ∧
      (b.options = {} → max 2 arity = 2 → 1 ≤ links.length → b'.size = b.size + (links.length - 1)) := by
  have hmax : max arity 2 ≤ maxArity := max_le harity (by decide)
  cases symbol with
  | cell => cases hsymbol
  | gate g =>
      obtain ⟨l, b', hrun, raised, within, count⟩ :=
        exists_addTree_within h hsymbol (within_deepest reads) (.inl hmax)
      rw [Nat.max_comm] at raised within count
      refine ⟨l, b', hrun, within.readable, raised.narrow, within.depth, fun plain htwo hlength => ?_⟩
      have := count plain htwo (List.ne_nil_of_length_pos hlength)
      omega

/-- Five inputs of a builder that simplifies nothing are joined by four cells on three levels. -/
theorem addTree_balanced_five : ∃ b l b', addInputs 5 (.empty {}) = .ok ((List.range' 0 5).map .of, b) ∧
    addTree (.gate .xor) ((List.range' 0 5).map .of) 2 b = .ok (l, b') ∧ b.size = 5 ∧ b'.size = 9 ∧
      b'.depth l.entry ≤ 3 ∧ ∀ id c, 5 ≤ id → b'.cells[id]? = some c → c.links.length ≤ 2 := by
  obtain ⟨b, hinputs, plain⟩ := plain_empty.addInputs 5
  have first : ∀ l ∈ (List.range' 0 5).map Link.of, l.entry < 5 := by decide
  have reads : ∀ l ∈ (List.range' 0 5).map Link.of, b.Readable l := fun l hl =>
    plain.readable_iff.2 (first l hl)
  obtain ⟨l, b', hrun, -, narrow, depth, count⟩ :=
    addTree_balanced plain.wellFormed (rfl : (Symbol.gate .xor).traits.regroupable = true) reads
      (by decide : 2 ≤ maxArity)
  have hdeepest : b.deepest ((List.range' 0 5).map .of) = 0 := by
    refine Nat.le_zero.1 (foldl_max_le_iff.2 ⟨le_rfl, List.forall_mem_map.2 fun l hl => ?_⟩)
    have hmem : l.entry ∈ b.order := plain.wellFormed.layout.mem_order.2
      (.inl (plain.inputs_eq ▸ List.mem_range.2 (first l hl)))
    exact (plain.wellFormed.settled _ hmem .input (plain.getElem?_input (first l hl))).le
  have hclog : Nat.clog (max 2 2) ((List.range' 0 5).map Link.of).length = 3 := by decide +kernel
  rw [hdeepest, hclog] at depth
  rw [plain.size_eq] at narrow count
  exact ⟨b, l, b', hinputs, hrun, plain.size_eq, count plain.options_eq rfl (by decide), depth, narrow⟩

end Builder

end Gatework
