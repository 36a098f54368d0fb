import Gatework.Proofs.Builder.Instance
import Gatework.Proofs.Builder.NormalForm

/-!
# Builders that only grow

A builder that simplifies nothing gives every cell that it is asked for the next number.  As long as the
inputs come first and the outputs last, the numbers are the places in the order (`Plain`), and if the
outputs reach all inner cells, the builder is finished with its own cells (`Plain.exists_finish`).  So
what is built in this way can be read off the requests, cell by cell.
-/

namespace Gatework

namespace Builder

variable {b : Builder} {ins inner outs : Nat} {kind : CellKind} {links : List Link} {l : Link}

/-- A builder that simplifies nothing, whose inputs, inner cells and outputs follow each other by their
numbers. -/
structure Plain (b : Builder) (ins inner outs : Nat) : Prop where
  wellFormed : WellFormed b
  options_eq : b.options = {}
  inputs_eq : b.inputs = List.range ins
  inner_eq : b.inner = List.range' ins inner
  outputs_eq : b.outputs = List.range' (ins + inner) outs
  size_eq : b.size = ins + inner + outs

lemma plain_empty : Plain (.empty {}) 0 0 0 where
  wellFormed := wellFormed_empty {}
  options_eq := rfl
  inputs_eq := (layout_empty {}).inputs_eq
  inner_eq := (layout_empty {}).inner_eq
  outputs_eq := (layout_empty {}).outputs_eq
  size_eq := rfl

namespace Plain

lemma readable_iff (h : Plain b ins inner outs) : b.Readable l ↔ l.entry < ins + inner := by
  rw [Readable, h.inputs_eq, h.inner_eq, List.mem_append, List.mem_range, List.mem_range'_1]
  omega

lemma getElem?_input (h : Plain b ins inner outs) {i : Nat} (hi : i < ins) :
    b.cells[i]? = some .input :=
  h.wellFormed.layout.isInput i (by rwa [h.inputs_eq, List.mem_range])

/-- The next input. -/
lemma addInput (h : Plain b ins 0 0) : ∃ b', Builder.addInput b = .ok (.of ins, b') ∧
    Plain b' (ins + 1) 0 0 ∧ b'.cells = b.cells.push .input := by
  have hsize : b.size = ins := h.size_eq
  obtain ⟨b', hrun, wf, inputs, inner, outputs, options, cells⟩ := h.wellFormed.addInput
  rw [hsize] at hrun inputs
  refine ⟨b', hrun, ⟨wf, options.trans h.options_eq, ?_, inner.trans h.inner_eq,
    outputs.trans h.outputs_eq, ?_⟩, cells⟩
  · rw [inputs, h.inputs_eq, List.range_succ]
  · simp only [Builder.size] at hsize ⊢
    rw [cells, Array.size_push, hsize]

/-- The next inputs. -/
lemma addInputs (h : Plain b ins 0 0) (count : Nat) : ∃ b',
    Builder.addInputs count b = .ok ((List.range' ins count).map .of, b') ∧
      Plain b' (ins + count) 0 0 := by
  induction count generalizing b ins with
  | zero => exact ⟨b, rfl, h⟩
  | succ count ih =>
      obtain ⟨b₁, hfirst, h₁, -⟩ := h.addInput
      obtain ⟨b', hrest, h'⟩ := ih h₁
      refine ⟨b', ?_, by rwa [Nat.add_right_comm] at h'⟩
      rw [Builder.addInputs, List.replicate_succ, List.mapM_cons, build_bind_eq_ok_iff]
      exact ⟨_, b₁, hfirst, build_bind_eq_ok_iff.2 ⟨_, b', hrest, rfl⟩⟩

/-- The next cell. -/
lemma addPositive (h : Plain b ins inner 0) (hkind : (Cell.mk kind []).isTerminal = false)
    (reads : ∀ l ∈ links, l.entry < ins + inner) :
    ∃ b', Builder.addPositive kind links b = .ok (.of (ins + inner), b') ∧
      Plain b' ins (inner + 1) 0 ∧ b'.cells = b.cells.push ⟨kind, links⟩ := by
  have reads : ∀ l ∈ links, b.Readable l := fun l hl => h.readable_iff.2 (reads l hl)
  have hsize : b.size = ins + inner := h.size_eq
  obtain ⟨-, grown, added, cells⟩ := h.wellFormed.append (c := ⟨kind, links⟩) hkind reads
  rw [hsize, h.inner_eq] at added
  refine ⟨_, hsize ▸ h.wellFormed.addPositive_eq h.options_eq reads, ⟨grown.wellFormed,
    grown.options.trans h.options_eq, grown.inputs.trans h.inputs_eq, ?_,
    grown.outputs.trans h.outputs_eq, ?_⟩, cells⟩
  · rw [added, List.range'_concat, Nat.one_mul]
  · simp only [Builder.size] at hsize ⊢
    rw [cells, Array.size_push, hsize]
    rfl

/-- The next output. -/
lemma addOutput (h : Plain b ins inner outs) (hl : l.entry < ins + inner) :
    ∃ b', Builder.addOutput l b = .ok (ins + inner + outs, b') ∧ Plain b' ins inner (outs + 1) ∧
      b'.cells = b.cells.push (.output l) := by
  obtain ⟨b', hrun, wf, inputs, inner', outputs, options, cells⟩ :=
    h.wellFormed.addOutput (h.readable_iff.2 hl)
  rw [h.size_eq] at hrun outputs
  refine ⟨b', hrun, ⟨wf, options.trans h.options_eq, inputs.trans h.inputs_eq,
    inner'.trans h.inner_eq, ?_, ?_⟩, cells⟩
  · rw [outputs, h.outputs_eq, List.range'_concat, Nat.one_mul]
  · have := h.size_eq
    simp only [Builder.size] at this ⊢
    rw [cells, Array.size_push, this]
    rfl

/-- If the outputs reach all inner cells, the finished network has the cells of the builder. -/
theorem exists_finish (h : Plain b ins inner outs)
    (needed : ∀ i, ins ≤ i → i < ins + inner → ∃ o ∈ b.outputs, b.DependsOn o i) :
    ∃ net, b.finish = .ok net ∧ net.cells = b.cells ∧ net.numInputs = ins ∧
      net.numOutputs = outs := by
  have hneeded : b.needed = b.inner := by
    suffices ∀ i ∈ b.inner, i ∈ b.needed from
      List.filter_eq_self.2 fun i hi => (List.mem_filter.1 (this i hi)).2
    intro i hi
    have hrange := hi
    rw [h.inner_eq, List.mem_range'_1] at hrange
    exact h.wellFormed.mem_needed_iff.2 ⟨hi, needed i hrange.1 hrange.2⟩
  have all : b.finished = List.range b.size := by
    rw [finished, hneeded, h.inputs_eq, h.inner_eq, h.outputs_eq, h.size_eq, List.range_eq_range',
      List.range_eq_range', ← List.range'_append_1, ← List.range'_append_1, Nat.zero_add, Nat.zero_add]
  obtain ⟨net, hrun, finished⟩ := h.wellFormed.exists_finished
  refine ⟨net, hrun, finished.cells_eq h.wellFormed all, ?_, ?_⟩
  · rw [finished.numInputs, h.inputs_eq, List.length_range]
  · rw [finished.numOutputs, h.outputs_eq, List.length_range']

end Plain

end Builder

end Gatework
