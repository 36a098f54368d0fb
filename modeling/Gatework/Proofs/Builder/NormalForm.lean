import Gatework.Proofs.Builder.Finish
import Gatework.Proofs.Builder.Substitution

/-!
# The normal form of a builder

`finish` gives the inputs, the inner cells that an output depends on and the outputs, in the order of
the builder, under their places in this list (`Subnet.Lists`).  A copy of the result has the same
cells (`exists_ofSubnet`), and its outputs reach all of them, since the renumbering carries paths over
(`Finished.dependsOn`).  So the copy is finished with every entry at its own place.

**Main statement.** `WellFormed.finish_normal`.
-/

namespace Gatework

/-! ## Networks that list entries of a builder -/

/-- The numbers of the inputs, the inner cells and the outputs follow each other. -/
lemma Subnet.range_size (net : Subnet) : List.range net.size = List.range' 0 net.numInputs ++
    List.range' net.numInputs (net.outputStart - net.numInputs) ++ net.outputs := by
  have hle := net.numInputs_le_outputStart
  have hinner : 0 + net.numInputs + (net.outputStart - net.numInputs) = net.outputStart := by omega
  have hfront := List.range'_append_1 (s := 0) (m := net.numInputs)
    (n := net.outputStart - net.numInputs)
  have hall := List.range'_append_1 (s := 0) (m := net.outputStart) (n := net.numOutputs)
  rw [net.outputStart_add_numOutputs, Nat.zero_add] at hall
  rw [Nat.zero_add] at hfront hinner
  rw [hfront, hinner, outputs, hall, List.range_eq_range']

/-- The network lists entries of a builder: it has the cell of every entry at the place of this entry
in the list, and where that cell reads an entry, it reads the place of the entry. -/
structure Subnet.Lists (net : Subnet) (b : Builder) (entries : List Nat) : Prop where
  size : net.size = entries.length
  cell : ∀ (i : Nat) id, entries[i]? = some id →
    ∃ c, b.cells[id]? = some c ∧ net.cells[i]? = some (c.rename entries.idxOf)

namespace Builder

variable {b : Builder} {net : Subnet}

lemma Finished.lists (h : Finished b net) : net.Lists b b.finished where
  size := h.size
  cell i id hid := by
    obtain ⟨c, hc⟩ : ∃ c, net.cells[i]? = some c :=
      Subnet.exists_cell (h.size ▸ (List.getElem?_eq_some_iff.1 hid).1)
    obtain ⟨id', e, hid', -, he, rfl⟩ := h.entry i c hc
    obtain rfl := Option.some.inj (hid.symm.trans hid')
    exact ⟨e, he, hc⟩

namespace WellFormed

variable (h : WellFormed b)
include h

/-- What a finished entry depends on is finished as well. -/
lemma mem_finished_of_dependsOn {x y : Nat} (hx : x ∈ b.finished) (hdep : b.DependsOn x y) :
    y ∈ b.finished := by
  induction hdep with
  | refl => exact hx
  | tail _ hreads ih => exact List.mem_append_left _ (h.mem_of_reads_finished ih hreads)

/-- Exactly those inner cells are needed that an output depends on. -/
lemma mem_needed_iff {id : Nat} :
    id ∈ b.needed ↔ id ∈ b.inner ∧ ∃ o ∈ b.outputs, b.DependsOn o id := by
  have harr := h.layout.arranged_order
  rw [needed, List.mem_filter, List.contains_iff_mem]
  suffices (∃ o ∈ b.outputs, b.DependsOn o id) → id ∈ reachable b.driversOf b.size b.outputs from
    and_congr_right fun _ => ⟨exists_path_of_mem_reachable, this⟩
  rintro ⟨o, ho, hdep⟩
  have horder : o ∈ b.order := (List.mem_filter.1 ho).1
  -- along the path all entries are reached, and all are living
  suffices id ∈ b.order ∧ id ∈ reachable b.driversOf b.size b.outputs from this.2
  induction hdep with
  | refl => exact ⟨horder, mem_reachable_of_root ho (harr.lt_size horder)⟩
  | tail _ hreads ih =>
      have hmem := harr.mem_of_reads _ ih.1 _ hreads
      exact ⟨hmem, mem_reachable_of_next ih.2 hreads (harr.lt_size hmem)⟩

end WellFormed

/-! ## Copies of finished networks -/

/-- The inputs and outputs of a network are what a builder adds as such: an input reads nothing, an
output reads one link. -/
structure PlainTerminals (net : Subnet) : Prop where
  input : ∀ (i : Nat) c, net.cells[i]? = some c → c.isInput = true → c = .input
  output : ∀ (i : Nat) c, net.cells[i]? = some c → c.isOutput = true → ∃ l, c = .output l

/-- What a builder is finished with has the inputs and outputs of the builder. -/
lemma Finished.plainTerminals (wf : WellFormed b) (h : Finished b net) : PlainTerminals net where
  input i c hc hin := by
    obtain ⟨id, e, -, hid, he, rfl⟩ := h.entry i c hc
    have hmem : id ∈ b.inputs := List.mem_filter.2 ⟨hid, by simpa [he, Cell.isInput, Cell.rename] using hin⟩
    rw [wf.layout.isInput id hmem] at he
    cases he
    rfl
  output i c hc hout := by
    obtain ⟨id, e, -, hid, he, rfl⟩ := h.entry i c hc
    have hmem : id ∈ b.outputs :=
      List.mem_filter.2 ⟨hid, by simpa [he, Cell.isOutput, Cell.rename] using hout⟩
    obtain ⟨l, hl⟩ := wf.layout.isOutput id hmem
    rw [hl] at he
    cases he
    exact ⟨l.rename b.finished.idxOf, rfl⟩

namespace CopyOf

variable {count : Nat} {c : Cell}

/-- One more entry can be copied. -/
lemma exists_step (h : CopyOf net count b) (plain : PlainTerminals net)
    (hc : net.cells[count]? = some c) :
    ∃ b', copyCell c b = .ok ((), b') ∧ b'.cells = b.cells.push c := by
  have hwf := h.layout.wellFormed h.settled
  have hreads := h.readable hc
  unfold copyCell
  split
  · rename_i hin
    obtain ⟨b', hrun, -, -, -, -, -, cells⟩ := hwf.addInput
    rw [plain.input count c hc hin]
    exact ⟨b', build_discard_eq_ok_iff.2 ⟨_, hrun⟩, cells⟩
  · rename_i hin
    split
    · rename_i hout
      obtain ⟨l, rfl⟩ := plain.output count c hc hout
      obtain ⟨b', hrun, -, -, -, -, -, cells⟩ :=
        hwf.addOutput (hreads l.entry (by simp [Cell.drivers, Cell.output]))
      exact ⟨b', build_discard_eq_ok_iff.2 ⟨_, hrun⟩, cells⟩
    · rename_i hout
      have hterm : c.isTerminal = false :=
        Bool.or_eq_false_iff.2 ⟨Bool.eq_false_iff.2 hin, Bool.eq_false_iff.2 hout⟩
      obtain ⟨-, -, -, cells⟩ := hwf.append hterm
        fun l hl => hreads l.entry (List.mem_map_of_mem hl)
      exact ⟨_, rfl, cells⟩

/-- The entries from number `count` on can be copied. -/
lemma exists_run (h : CopyOf net count b) (plain : PlainTerminals net) (hcount : count ≤ net.size)
    (hcells : b.cells.toList = net.cells.toList.take count) :
    ∃ b', (net.cells.toList.drop count).forM copyCell b = .ok ((), b') ∧
      CopyOf net net.size b' ∧ b'.cells = net.cells := by
  induction hrest : net.cells.toList.drop count generalizing count b with
  | nil =>
      have hge : net.size ≤ count := by simpa [Subnet.size] using hrest
      obtain rfl := Nat.le_antisymm hge hcount
      refine ⟨b, rfl, h, Array.ext' (hcells.trans (List.take_of_length_le ?_))⟩
      simp [Subnet.size]
  | cons c rest ih =>
      have hc : net.cells[count]? = some c := by simpa using congrArg List.head? hrest
      have htail : net.cells.toList.drop (count + 1) = rest := by
        simpa using congrArg List.tail hrest
      obtain ⟨b₁, hstep, cells⟩ := h.exists_step plain hc
      have hcells₁ : b₁.cells.toList = net.cells.toList.take (count + 1) := by
        rw [cells, Array.toList_push, hcells, List.take_add_one, Array.getElem?_toList, hc]
        rfl
      obtain ⟨b', hrun, copied⟩ := ih (h.step hc hstep) (Subnet.lt_size hc) hcells₁ htail
      exact ⟨b', build_bind_eq_ok_iff.2 ⟨(), b₁, hstep, hrun⟩, copied⟩

end CopyOf

/-- A network with plain terminals can be copied, cell by cell. -/
lemma exists_ofSubnet (plain : PlainTerminals net) :
    ∃ b, ofSubnet net = .ok b ∧ CopyOf net net.size b ∧ b.cells = net.cells := by
  have start : CopyOf net 0 (.empty {}) :=
    ⟨layout_empty {}, (wellFormed_empty {}).settled, rfl⟩
  obtain ⟨b, hrun, copied⟩ := start.exists_run plain (Nat.zero_le _) rfl
  rw [List.drop_zero] at hrun
  exact ⟨b, bind_eq_ok_iff.2 ⟨_, hrun, rfl⟩, copied⟩

/-- Picks out the numbers between two bounds. -/
lemma filter_range_eq {p : Nat → Bool} {start count size : Nat} (hle : start + count ≤ size)
    (hp : ∀ i < size, p i = decide (start ≤ i ∧ i < start + count)) :
    (List.range size).filter p = List.range' start count := by
  obtain ⟨rest, rfl⟩ := Nat.exists_eq_add_of_le hle
  have front : (List.range' 0 start).filter p = [] := by
    refine List.filter_eq_nil_iff.2 fun i hi => ?_
    have := List.mem_range'_1.1 hi
    rw [hp i (by omega), decide_eq_true_eq]
    omega
  have middle : (List.range' start count).filter p = List.range' start count := by
    refine List.filter_eq_self.2 fun i hi => ?_
    have := List.mem_range'_1.1 hi
    rw [hp i (by omega), decide_eq_true_eq]
    omega
  have behind : (List.range' (start + count) rest).filter p = [] := by
    refine List.filter_eq_nil_iff.2 fun i hi => ?_
    have := List.mem_range'_1.1 hi
    rw [hp i (by omega), decide_eq_true_eq]
    omega
  rw [List.range_eq_range', ← List.range'_append_1, ← List.range'_append_1]
  simp only [Nat.zero_add, List.filter_append, front, middle, behind, List.nil_append, List.append_nil]

namespace CopyOf

variable (h : CopyOf net net.size b)
include h

lemma inputs_eq : b.inputs = List.range' 0 net.numInputs := by
  have := net.numInputs_add_numOutputs_le
  refine h.layout.inputs_eq.trans (filter_range_eq (by omega) fun i _ => ?_)
  rw [decide_eq_decide]
  omega

lemma inner_eq : b.inner = List.range' net.numInputs (net.outputStart - net.numInputs) := by
  have := net.numInputs_le_outputStart
  have := net.outputStart_add_numOutputs
  refine h.layout.inner_eq.trans (filter_range_eq (by omega) fun i _ => ?_)
  rw [decide_eq_decide]
  omega

lemma outputs_eq : b.outputs = net.outputs := h.layout.outputs_eq.trans net.filter_outputs

end CopyOf

/-! ## The copy of a finished network -/

/-- Entries of a finished network depend on each other as those of the builder do. -/
lemma Finished.dependsOn (wf : WellFormed b) (h : Finished b net) {b' : Builder}
    (cells : b'.cells = net.cells) {x y : Nat} (hx : x ∈ b.finished) (hdep : b.DependsOn x y) :
    b'.DependsOn (b.finished.idxOf x) (b.finished.idxOf y) := by
  induction hdep with
  | refl => exact .refl
  | @tail y z hdep hreads ih =>
      have hy := wf.mem_finished_of_dependsOn hx hdep
      obtain ⟨c, hc, hcopy⟩ := h.lists.cell _ y (List.getElem?_idxOf hy)
      rw [driversOf, hc] at hreads
      refine ih.tail ?_
      rw [driversOf, cells, hcopy, Option.elim_some, Cell.drivers_rename]
      exact List.mem_map_of_mem hreads

/-- In the copy of a finished network the outputs depend on all inner cells. -/
lemma Finished.needed_copy (wf : WellFormed b) (h : Finished b net) {b' : Builder}
    (copied : CopyOf net net.size b') (cells : b'.cells = net.cells) : b'.needed = b'.inner := by
  have wf' := copied.layout.wellFormed copied.settled
  suffices ∀ i ∈ b'.inner, i ∈ b'.needed from
    List.filter_eq_self.2 fun i hi => (List.mem_filter.1 (this i hi)).2
  intro i hi
  refine wf'.mem_needed_iff.2 ⟨hi, ?_⟩
  rw [copied.inner_eq, List.mem_range'_1] at hi
  have hstart := net.numInputs_le_outputStart
  have hend := net.outputStart_add_numOutputs
  have hlt : i < b.finished.length := by
    rw [← h.size]
    omega
  obtain ⟨o, ho, hdep⟩ : ∃ o ∈ b.outputs, b.DependsOn o b.finished[i] := by
    rcases WellFormed.position_finished (List.getElem?_eq_getElem hlt) with
      ⟨hin, -⟩ | ⟨-, -, hmem⟩ | ⟨hout, -⟩
    · have := h.numInputs
      omega
    · exact (wf.mem_needed_iff.1 hmem).2
    · have : b.finished.length = b.inputs.length + b.needed.length + b.outputs.length := by
        rw [finished, List.length_append, List.length_append]
      have := h.size
      have := h.numOutputs
      omega
  have hmem : o ∈ b.finished := List.mem_append_right _ ho
  refine ⟨b.finished.idxOf o, ?_, ?_⟩
  · obtain ⟨c, hc, hcopy⟩ := h.lists.cell _ o (List.getElem?_idxOf hmem)
    obtain ⟨l, hl⟩ := wf.layout.isOutput o ho
    obtain rfl := Option.some.inj (hl.symm.trans hc)
    have hge := (net.obeys hcopy).isOutput_iff.1 rfl
    have hsize := Subnet.lt_size hcopy
    rw [copied.outputs_eq, Subnet.outputs, List.mem_range'_1]
    omega
  · have := h.dependsOn wf cells hmem hdep
    rwa [wf.nodup_finished.idxOf_getElem i hlt] at this

/-- Renaming every entry to its place among all numbers changes nothing. -/
lemma rename_idxOf_range {c : Cell} {size : Nat} (h : ∀ d ∈ c.drivers, d < size) :
    c.rename (List.range size).idxOf = c := by
  have place : ∀ l ∈ c.links, l.rename (List.range size).idxOf = l := by
    intro l hl
    have hlt : l.entry < (List.range size).length := by
      simpa using h l.entry (List.mem_map_of_mem hl)
    have := List.nodup_range.idxOf_getElem l.entry hlt
    rw [List.getElem_range] at this
    rw [Link.rename, this]
  rw [Cell.rename, List.map_congr_left place, List.map_id']

/-- Where every entry stands at its own place among those that are finished, the cells stay as they
are. -/
lemma Finished.cells_eq (wf : WellFormed b) (h : Finished b net)
    (all : b.finished = List.range b.size) : net.cells = b.cells := by
  have hsize : net.size = b.size := by rw [h.size, all, List.length_range]
  refine Array.ext_getElem? fun i => ?_
  by_cases hi : i < b.size
  · obtain ⟨c, hc, hc'⟩ := h.lists.cell i i (by rw [all, List.getElem?_range hi])
    rw [hc', hc, all, rename_idxOf_range fun d hd => ?_]
    have hmem : i ∈ b.order := wf.finished_sublist.subset (by rw [all]; exact List.mem_range.2 hi)
    exact wf.lt_size (wf.arranged.mem_of_reads i hmem d (by rwa [driversOf, hc]))
  · rw [Array.getElem?_eq_none (Nat.not_lt.1 hi),
      Array.getElem?_eq_none (hsize.trans_le (Nat.not_lt.1 hi))]

/-- The copy of a finished network is finished with the same network. -/
lemma Finished.finish_copy (wf : WellFormed b) (h : Finished b net) :
    ∃ b', ofSubnet net = .ok b' ∧ b'.finish = .ok net := by
  obtain ⟨b', hrun, copied, cells⟩ := exists_ofSubnet (h.plainTerminals wf)
  have wf' := copied.layout.wellFormed copied.settled
  have hfinished : b'.finished = List.range net.size := by
    rw [finished, h.needed_copy wf copied cells, copied.inputs_eq, copied.inner_eq,
      copied.outputs_eq, net.range_size]
  obtain ⟨net', hfinish, h'⟩ := wf'.exists_finished
  have hsize : b'.size = net.size := congrArg Array.size cells
  refine ⟨b', hrun, ?_⟩
  have hcells : net'.cells = net.cells := (h'.cells_eq wf' (hsize ▸ hfinished)).trans cells
  have hin : net'.numInputs = net.numInputs := by
    rw [h'.numInputs, copied.inputs_eq, List.length_range']
  have hout : net'.numOutputs = net.numOutputs := by
    rw [h'.numOutputs, copied.outputs_eq, Subnet.outputs, List.length_range']
  obtain rfl : net' = net := by
    obtain ⟨_, _, _, _⟩ := net
    obtain ⟨_, _, _, _⟩ := net'
    cases hcells
    cases hin
    cases hout
    rfl
  exact hfinish

/-! ## Normal forms -/

/-- A well-formed builder can be finished.  The network obeys the rules; it lists the inputs, exactly
those inner cells that an output depends on, and the outputs, each in the order of the builder; its
outputs have the values of the outputs of the builder; and its copy is finished with the same
network. -/
theorem WellFormed.finish_normal (h : WellFormed b) :
    ∃ net, b.finish = .ok net ∧
      Subnet.violation? net.cells net.numInputs net.numOutputs = none ∧
      net.numInputs = b.inputs.length ∧ net.numOutputs = b.outputs.length ∧
      b.needed.Sublist b.inner ∧
      (∀ id, id ∈ b.needed ↔ id ∈ b.inner ∧ ∃ o ∈ b.outputs, b.DependsOn o id) ∧
      net.Lists b (b.inputs ++ b.needed ++ b.outputs) ∧
      (∀ m σ, net.outputValues m σ = b.outputValues m σ) ∧
      ∃ b', ofSubnet net = .ok b' ∧ b'.finish = .ok net := by
  obtain ⟨net, hrun, finished⟩ := h.exists_finished
  exact ⟨net, hrun, net.valid, finished.numInputs, finished.numOutputs, List.filter_sublist,
    fun _ => h.mem_needed_iff, finished.lists, finished.outputValues, finished.finish_copy h⟩

/-- An exclusive disjunction that an output shows, a conjunction that nothing reads, and an input
that is added last. -/
def spareBuild : Build Unit := do
  let operands ← addInputs 2
  discard (addCell (.gate .and) operands)
  discard (addOutput (← addCell (.gate .xor) operands))
  discard addInput

/-- The builder that `spareBuild` leads to. -/
def spareBuilder : Builder :=
  match spareBuild.run (.empty {}) with
  | .ok (_, b) => b
  | .error _ => .empty {}

lemma reachable_spareBuilder : Reachable spareBuilder := by
  have inputs := Reachable.addInput (.addInput (.empty {}) rfl) rfl
  have spare := @Reachable.addCell _ _ (.gate .and) [.of 0, .of 1] _ inputs rfl
  have shown := @Reachable.addCell _ _ (.gate .xor) [.of 0, .of 1] _ spare rfl
  have output := Reachable.addOutput (l := .of 3) shown rfl
  have late := Reachable.addInput output rfl
  obtain ⟨b, hb, hrun⟩ : ∃ b, Reachable b ∧ spareBuild.run (.empty {}) = .ok ((), b) :=
    ⟨_, late, by cbv⟩
  rwa [spareBuilder, hrun]

/-- The conjunction is left out, and the late input moves in front. -/
theorem finish_normal_spare : ∃ net, spareBuilder.finish = .ok net ∧
    net.Lists spareBuilder [0, 1, 5, 3, 4] ∧
    ∃ b', ofSubnet net = .ok b' ∧ b'.finish = .ok net := by
  obtain ⟨net, hrun, -, -, -, -, -, lists, -, again⟩ :=
    reachable_spareBuilder.wellFormed.finish_normal
  have listed : spareBuilder.inputs ++ spareBuilder.needed ++ spareBuilder.outputs =
      [0, 1, 5, 3, 4] := by cbv
  rw [listed] at lists
  exact ⟨net, hrun, lists, again⟩

end Builder

end Gatework
