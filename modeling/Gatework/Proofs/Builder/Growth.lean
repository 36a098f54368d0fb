import Gatework.Proofs.Builder.Composition
import Gatework.Proofs.Builder.WellFormed
import Gatework.Proofs.Subnet

/-!
# Construction steps keep a builder well-formed

Every way of adding cells comes down to `Builder.append`, behind a check that the operands may be
read.  `Grown b b'` says that a well-formed builder came out of `b` in this way; what it says about
`b'` is what later steps rely on.  `Grows` says this of a construction step that succeeds, and composes
(`composes_grown`), so that trees and instances follow from single cells.

* `grows_addPositive`, `grows_addCell`, `grows_addTree`, `grows_addInstance` for the steps,
* `WellFormed.addInput`, `WellFormed.addOutput` for the terminals,
* `wellFormed_ofSubnet` for the copy of a finished network.
-/

namespace Gatework

namespace Builder

/-- A well-formed builder with the entries of `b` and possibly more inner cells behind them. -/
structure Grown (b b' : Builder) : Prop where
  wellFormed : WellFormed b'
  options : b'.options = b.options
  size_le : b.size ≤ b'.size
  cells : ∀ id < b.size, b'.cells[id]? = b.cells[id]?
  inputs : b'.inputs = b.inputs
  inner : b.inner <+: b'.inner
  outputs : b'.outputs = b.outputs

namespace Grown

variable {b b' b'' : Builder}

lemma refl (h : WellFormed b) : Grown b b :=
  ⟨h, rfl, le_refl _, fun _ _ => rfl, rfl, List.prefix_refl _, rfl⟩

lemma trans (h : Grown b b') (h' : Grown b' b'') : Grown b b'' where
  wellFormed := h'.wellFormed
  options := h'.options.trans h.options
  size_le := h.size_le.trans h'.size_le
  cells id hid := (h'.cells id (hid.trans_le h.size_le)).trans (h.cells id hid)
  inputs := h'.inputs.trans h.inputs
  inner := h.inner.trans h'.inner
  outputs := h'.outputs.trans h.outputs

end Grown

/-- Whether a link names an input or an inner cell. -/
def Readable (b : Builder) (l : Link) : Prop := l.entry ∈ b.inputs ++ b.inner

lemma Readable.grown {b b' : Builder} {l : Link} (h : b.Readable l) (grown : Grown b b') :
    b'.Readable l := by
  rw [Readable, grown.inputs]
  rcases List.mem_append.1 h with h | h
  · exact List.mem_append_left _ h
  · exact List.mem_append_right _ (grown.inner.subset h)

namespace WellFormed

variable {b : Builder} {c : Cell}

lemma readable_iff (h : WellFormed b) {l : Link} : b.checkDriver l = .ok () ↔ b.Readable l :=
  h.layout.checkDriver_eq_ok_iff

/-- One more inner cell behind the others. -/
lemma append (h : WellFormed b) (hc : c.isTerminal = false) (reads : ∀ l ∈ c.links, b.Readable l) :
    (b.append c).1 = b.size ∧ Grown b (b.append c).2 ∧
      (b.append c).2.inner = b.inner ++ [b.size] ∧ (b.append c).2.cells = b.cells.push c := by
  have new : ∀ d ∈ c.drivers, d ∈ b.inputs ++ b.inner := by
    intro d hd
    obtain ⟨l, hl, rfl⟩ := List.mem_map.1 hd
    exact reads l hl
  obtain ⟨hid, layout, added⟩ := h.layout.append new hc
  refine ⟨hid, ⟨layout.wellFormed ?_, added.options, ?_, ?_, layout.inputs_eq, ?_,
    layout.outputs_eq⟩, layout.inner_eq, added.cells⟩
  · refine h.layout.settled_of_added added h.settled new layout fun id hid => ?_
    simp only [List.mem_append, List.mem_singleton] at hid ⊢
    tauto
  · rw [added.size]
    exact Nat.le_succ _
  · exact fun id hid => added.getElem?_of_lt hid
  · rw [layout.inner_eq]
    exact List.prefix_append ..

/-- A link to a cell, be it a new one or one that is reused. -/
lemma place (h : WellFormed b) (hc : c.isTerminal = false) (reads : ∀ l ∈ c.links, b.Readable l) :
    Grown b (b.place c).2 ∧ (b.place c).2.Readable (b.place c).1 := by
  unfold Builder.place
  split
  · rename_i id hid
    refine ⟨.refl h, ?_⟩
    split at hid
    · exact List.mem_append_right _ (h.layout.offered _ _ hid).1
    · cases hid
  · obtain ⟨hid, grown, inner, -⟩ := h.append hc reads
    refine ⟨grown, ?_⟩
    show (b.append c).1 ∈ (b.append c).2.inputs ++ (b.append c).2.inner
    simp [hid, inner]

/-- A new input. -/
theorem addInput (h : WellFormed b) :
    ∃ b', Builder.addInput b = .ok (.of b.size, b') ∧ WellFormed b' ∧
      b'.inputs = b.inputs ++ [b.size] ∧ b'.inner = b.inner ∧ b'.outputs = b.outputs ∧
      b'.options = b.options ∧ b'.cells = b.cells.push .input := by
  obtain ⟨b', hb', layout, added⟩ := h.layout.addInput
  refine ⟨b', hb', layout.wellFormed ?_, layout.inputs_eq, layout.inner_eq, layout.outputs_eq,
    added.options, added.cells⟩
  refine h.layout.settled_of_added added h.settled (by simp [Cell.drivers, Cell.input]) layout ?_
  intro id hid
  simp only [List.mem_append, List.mem_singleton] at hid ⊢
  tauto

/-- A new output. -/
theorem addOutput (h : WellFormed b) {l : Link} (hl : b.Readable l) :
    ∃ b', Builder.addOutput l b = .ok (b.size, b') ∧ WellFormed b' ∧
      b'.inputs = b.inputs ∧ b'.inner = b.inner ∧ b'.outputs = b.outputs ++ [b.size] ∧
      b'.options = b.options ∧ b'.cells = b.cells.push (.output l) := by
  obtain ⟨b', hb', layout, added⟩ := h.layout.addOutput hl
  refine ⟨b', hb', layout.wellFormed ?_, layout.inputs_eq, layout.inner_eq, layout.outputs_eq,
    added.options, added.cells⟩
  refine h.layout.settled_of_added added h.settled (fun d hd => ?_) layout ?_
  · rw [List.mem_singleton.1 hd]
    exact hl
  · intro id hid
    simp only [List.mem_append, List.mem_singleton] at hid ⊢
    tauto

end WellFormed

/-- The builder without entries is well-formed. -/
lemma layout_empty (options : BuilderOptions) : Layout (.empty options) [] [] [] where
  arranged := {
    sized := ⟨rfl, rfl, rfl, rfl, rfl⟩
    linked := ⟨List.nodup_nil, rfl, rfl⟩
    isAlive_iff := by simp [isAlive, Builder.empty]
    mem_of_reads := by simp
    isDriver_of_reads := by simp
    topological := ⟨by simp, .nil⟩
    count_fanouts := by simp [Builder.empty, Builder.size] }
  isInput := by simp
  isInner := by simp
  isOutput := by simp
  lastInput := rfl
  firstOutput := rfl
  numInputs := rfl
  numOutputs := rfl
  offered := by simp [Builder.empty]
  unshared := by simp [Builder.empty]

theorem wellFormed_empty (options : BuilderOptions) : WellFormed (.empty options) :=
  (layout_empty options).wellFormed fun id hid => by
    rw [(layout_empty options).order_eq] at hid
    cases hid

/-! ## Folding -/

section Folding

variable {b : Builder}

/-- Folding a conjunction or disjunction keeps only operands. -/
lemma mem_of_mem_foldLattice {absorbing : Bool} {kept links result : List Link}
    (h : b.foldLattice absorbing kept links = some result) :
    ∀ l ∈ result, l ∈ kept ∨ l ∈ links := by
  induction links generalizing kept with
  | nil =>
      cases h
      exact fun l hl => .inl hl
  | cons k links ih =>
      have skip : b.foldLattice absorbing kept links = some result →
          ∀ l ∈ result, l ∈ kept ∨ l ∈ k :: links := fun h l hl =>
        (ih h l hl).imp_right (List.mem_cons_of_mem k)
      unfold foldLattice at h
      split at h
      · split at h
        · cases h
        · exact skip h
      · split at h
        · cases h
        · split at h
          · exact skip h
          · intro l hl
            have := ih h l hl
            simp only [List.mem_append, List.mem_singleton] at this
            rw [List.mem_cons]
            tauto

/-- Folding an exclusive disjunction keeps only operands. -/
lemma mem_of_mem_foldParity (parity : Bool) (kept links : List Link) :
    ∀ l ∈ (b.foldParity kept parity links).1, l ∈ kept ∨ l ∈ links := by
  induction links generalizing kept parity with
  | nil => exact fun l hl => .inl hl
  | cons k links ih =>
      intro l hl
      unfold foldParity at hl
      rw [List.mem_cons]
      split at hl
      · have := ih _ _ l hl
        tauto
      · split at hl
        · have := (ih _ _ l hl).imp_left List.mem_of_mem_erase
          tauto
        · have := ih _ _ l hl
          simp only [List.mem_append, List.mem_singleton] at this
          tauto

/-- The links that are left after folding. -/
def Folded.links : Folded → List Link
  | .link l => [l]
  | .constant _ => []
  | .cell links _ => links

/-- What is left after folding reads only what the operands read. -/
lemma exists_of_mem_foldCell {symbol : Symbol} {links : List Link} :
    ∀ l ∈ (b.foldCell symbol links).links, ∃ k ∈ links, k.entry = l.entry ∧ k.port = l.port := by
  have lattice : ∀ absorbing, ∀ l ∈ (foldCell.lattice b absorbing links).links,
      ∃ k ∈ links, k.entry = l.entry ∧ k.port = l.port := by
    intro absorbing l hl
    unfold foldCell.lattice at hl
    split at hl
    · cases hl
    · cases hl
    · rename_i k hk
      rw [List.mem_singleton.1 hl]
      exact ⟨k, (mem_of_mem_foldLattice hk k (by simp)).resolve_left List.not_mem_nil, rfl, rfl⟩
    · rename_i kept _ hkept
      exact ⟨l, (mem_of_mem_foldLattice hkept l hl).resolve_left List.not_mem_nil, rfl, rfl⟩
  intro l hl
  unfold foldCell at hl
  split at hl
  · rw [List.mem_singleton.1 hl]
    exact ⟨_, by simp, rfl, rfl⟩
  · exact lattice _ l hl
  · exact lattice _ l hl
  · have parity := mem_of_mem_foldParity (b := b) false [] links
    split at hl
    · cases hl
    · rename_i k parity' hk
      rw [List.mem_singleton.1 hl]
      rw [hk] at parity
      exact ⟨k, (parity k (by simp)).resolve_left List.not_mem_nil, rfl, rfl⟩
    · rename_i kept parity' _ hkept
      rw [hkept] at parity
      exact ⟨l, (parity l hl).resolve_left List.not_mem_nil, rfl, rfl⟩
  · exact ⟨l, hl, rfl, rfl⟩

end Folding

/-! ## Steps -/

/-- A construction step that, if it succeeds, only adds inner cells. -/
def Grows {α : Type} (x : Build α) : Prop :=
  ∀ b a b', WellFormed b → x b = .ok (a, b') → Grown b b'

section Grows

variable {α : Type}

lemma grows_iff {x : Build α} : Grows x ↔ Relates (fun b b' => WellFormed b → Grown b b') x :=
  ⟨fun h b a b' hrun wf => h b a b' wf hrun, fun h b a b' wf hrun => h b a b' hrun wf⟩

lemma composes_grown : Composes fun b b' => WellFormed b → Grown b b' where
  refl _ := .refl
  trans h h' wf := (h wf).trans (h' (h wf).wellFormed)

/-- What is left reads only what the operands read. -/
lemma exists_of_mem_simplified {b : Builder} {kind : CellKind} {links : List Link} :
    ∀ l ∈ (b.simplified kind links).links, ∃ k ∈ links, k.entry = l.entry ∧ k.port = l.port := by
  unfold simplified
  split
  · exact exists_of_mem_foldCell
  · exact fun l hl => ⟨l, hl, rfl, rfl⟩

/-- In a well-formed builder the check of the operands is whether they may be read. -/
lemma WellFormed.addPositive_eq_ok_iff {b : Builder} (h : WellFormed b) {kind : CellKind}
    {links : List Link} {r : Link × Builder} : addPositive kind links b = .ok r ↔
      (∀ l ∈ links, b.Readable l) ∧ b.Reducible kind links ∧
        (b.simplified kind links).placed b kind = r := by
  rw [Builder.addPositive_eq_ok_iff]
  simp only [h.readable_iff]

/-- What is left of a cell is placed in front of the outputs. -/
lemma WellFormed.placed {b : Builder} (h : WellFormed b) {kind : CellKind}
    (hkind : (Cell.mk kind []).isTerminal = false) (folded : Folded)
    (reads : ∀ l ∈ folded.links, b.Readable l) : Grown b (folded.placed b kind).2 := by
  cases folded with
  | link l => exact .refl h
  | constant value => exact (h.place (by cases value <;> rfl) (by simp)).1
  | cell links inverted => exact (h.place (c := ⟨kind, links⟩) hkind reads).1

/-- Adding a cell that is neither an input nor an output. -/
theorem grows_addPositive {kind : CellKind} (hkind : (Cell.mk kind []).isTerminal = false)
    (links : List Link) : Grows (addPositive kind links) := by
  rintro b l b' h hrun
  obtain ⟨reads, -, hplaced⟩ := h.addPositive_eq_ok_iff.1 hrun
  have grown := h.placed hkind (b.simplified kind links) fun k hk => by
    obtain ⟨l, hl, he, -⟩ := exists_of_mem_simplified k hk
    have := reads l hl
    rwa [Readable, he] at this
  rwa [hplaced] at grown

lemma cellwise_grown : Cellwise fun b b' => WellFormed b → Grown b b' where
  toComposes := composes_grown
  addPositive _ links hkind := grows_iff.1 (grows_addPositive hkind links)

theorem grows_addCell (symbol : Symbol) (links : List Link) : Grows (addCell symbol links) :=
  grows_iff.2 (cellwise_grown.addCell symbol links)

theorem grows_addOfType (store : Store) (type : Nat) (links : List Link) :
    Grows (addOfType store type links) := grows_iff.2 (cellwise_grown.addOfType store type links)

theorem grows_addConst (value : Bool) : Grows (addConst value) :=
  grows_iff.2 (cellwise_grown.addConst value)

lemma grows_joinGroups (symbol : Symbol) (groups : List (List Link)) :
    Grows (joinGroups symbol groups) := grows_iff.2 (cellwise_grown.joinGroups symbol groups)

theorem grows_addTree (symbol : Symbol) (links : List Link) (maxArity : Nat) :
    Grows (addTree symbol links maxArity) := grows_iff.2 (cellwise_grown.addTree symbol links maxArity)

lemma grows_addInstanceCell (links : Array Link) (state : Array Link × List Link) (c : Cell) :
    Grows (addInstanceCell links state c) := grows_iff.2 (cellwise_grown.addInstanceCell links state c)

theorem grows_addInstance (net : Subnet) (links : List Link) : Grows (addInstance net links) :=
  grows_iff.2 (cellwise_grown.addInstance net links)

end Grows

/-! ## Copies of finished networks -/

/-- The copy of the first `count` entries of a network, under the same numbers. -/
structure CopyOf (net : Subnet) (count : Nat) (b : Builder) : Prop where
  layout : Layout b ((List.range count).filter (· < net.numInputs))
    ((List.range count).filter fun i => net.numInputs ≤ i ∧ i < net.outputStart)
    ((List.range count).filter (net.outputStart ≤ ·))
  settled : Settled b
  size : b.size = count

namespace CopyOf

variable {net : Subnet} {count : Nat} {b b' : Builder} {c : Cell}

/-- A cell of the network reads entries that were copied as inputs or inner cells. -/
lemma readable (h : CopyOf net count b) (hc : net.cells[count]? = some c) :
    ∀ d ∈ c.drivers, d ∈ b.inputs ++ b.inner := by
  intro d hd
  obtain ⟨_, _, hlt, hstart, _⟩ := Subnet.exists_driver hc hd
  rw [h.layout.inputs_eq, h.layout.inner_eq]
  simp only [List.mem_append, List.mem_filter, List.mem_range, decide_eq_true_eq]
  omega

/-- One more entry is copied. -/
lemma step (h : CopyOf net count b) (hc : net.cells[count]? = some c)
    (hrun : copyCell c b = .ok ((), b')) : CopyOf net (count + 1) b' := by
  have hwf := h.layout.wellFormed h.settled
  have obeys := net.obeys hc
  have hreads := h.readable hc
  have hstart := net.numInputs_le_outputStart
  have hsize := h.size
  unfold copyCell at hrun
  split at hrun
  · rename_i hin
    have hlt := obeys.isInput_iff.1 hin
    obtain ⟨b'', hb'', wf, ins, inn, outs, -, cells⟩ := hwf.addInput
    obtain ⟨l, hl⟩ := build_discard_eq_ok_iff.1 hrun
    cases hb''.symm.trans hl
    refine ⟨?_, wf.settled, by rw [Builder.size, cells, Array.size_push]; exact congrArg _ hsize⟩
    have layout := wf.layout
    rw [ins, inn, outs, h.layout.inputs_eq, h.layout.inner_eq, h.layout.outputs_eq, hsize] at layout
    simpa [List.range_succ, List.filter_append, hlt, show ¬ net.numInputs ≤ count by omega,
      show ¬ net.outputStart ≤ count by omega] using layout
  · rename_i hin
    have hge : net.numInputs ≤ count := Nat.not_lt.1 (mt obeys.isInput_iff.2 hin)
    split at hrun
    · rename_i hout
      have hle := obeys.isOutput_iff.1 hout
      cases hlinks : c.links with
      | cons l rest =>
        rw [hlinks] at hrun
        obtain ⟨b'', hb'', wf, ins, inn, outs, -, cells⟩ := hwf.addOutput (l := l)
          (hreads l.entry (by simp [Cell.drivers, hlinks]))
        obtain ⟨id, hid⟩ := build_discard_eq_ok_iff.1 hrun
        cases hb''.symm.trans hid
        refine ⟨?_, wf.settled, by rw [Builder.size, cells, Array.size_push]; exact congrArg _ hsize⟩
        have layout := wf.layout
        rw [ins, inn, outs, h.layout.inputs_eq, h.layout.inner_eq, h.layout.outputs_eq,
          hsize] at layout
        simpa [List.range_succ, List.filter_append, hle, show ¬ count < net.numInputs by omega,
          show ¬ count < net.outputStart by omega] using layout
      | nil =>
        rw [hlinks] at hrun
        cases hrun
    · rename_i hout
      have hlt : count < net.outputStart := Nat.not_le.1 (mt obeys.isOutput_iff.2 hout)
      have hterm : c.isTerminal = false :=
        Bool.or_eq_false_iff.2 ⟨Bool.eq_false_iff.2 hin, Bool.eq_false_iff.2 hout⟩
      obtain ⟨-, grown, inn, cells⟩ := hwf.append hterm
        fun l hl => hreads l.entry (List.mem_map_of_mem hl)
      cases hrun
      refine ⟨?_, grown.wellFormed.settled, by
        rw [Builder.size, cells, Array.size_push]; exact congrArg _ hsize⟩
      have layout := grown.wellFormed.layout
      rw [grown.inputs, inn, grown.outputs, h.layout.inputs_eq, h.layout.inner_eq,
        h.layout.outputs_eq, hsize] at layout
      simpa [List.range_succ, List.filter_append, hlt, hge, show ¬ count < net.numInputs by omega,
        show ¬ net.outputStart ≤ count by omega] using layout

/-- The loop over the entries of the network, from entry `count` on. -/
lemma run (h : CopyOf net count b) (hcount : count ≤ net.size)
    (hrun : (net.cells.toList.drop count).forM copyCell b = .ok ((), b')) :
    CopyOf net net.size b' := by
  induction hrest : net.cells.toList.drop count generalizing count b with
  | nil =>
      rw [hrest] at hrun
      cases hrun
      have : net.size ≤ count := by simpa [Subnet.size] using hrest
      rwa [Nat.le_antisymm this hcount]
  | cons c rest ih =>
      have hlt : count < net.size := by
        by_contra hge
        have : net.cells.toList.drop count = [] :=
          List.drop_eq_nil_of_le (by simpa [Subnet.size] using hge)
        rw [this] at hrest
        cases hrest
      have hc : net.cells[count]? = some c := by
        have := congrArg List.head? hrest
        simpa using this
      have htail : net.cells.toList.drop (count + 1) = rest := by
        have := congrArg List.tail hrest
        simpa using this
      rw [hrest] at hrun
      obtain ⟨⟨⟩, b₁, h₁, h₂⟩ := build_bind_eq_ok_iff.1 hrun
      exact ih (h.step hc h₁) hlt (htail.symm ▸ h₂) htail

end CopyOf

/-- A copy of a subnet is well-formed. -/
theorem wellFormed_ofSubnet {net : Subnet} {b : Builder} (h : ofSubnet net = .ok b) :
    WellFormed b := by
  obtain ⟨⟨⟨⟩, b'⟩, hrun, hb⟩ := bind_eq_ok_iff.1 h
  cases hb
  have start : CopyOf net 0 (.empty {}) :=
    ⟨layout_empty {}, (wellFormed_empty {}).settled, rfl⟩
  have copied := start.run (Nat.zero_le _) (by rwa [List.drop_zero])
  exact copied.layout.wellFormed copied.settled

end Builder

end Gatework
