import Gatework.Proofs.Builder.Arrangement
import Gatework.Proofs.Builder.Composition
import Gatework.Proofs.Subnet

/-!
# The shapes of cells

What holds of every cell because of its kind and the number of its operands is kept by construction, as
soon as it holds of the single cells that are placed.  Finishing renames the operands of a cell and
leaves its kind and their number as they are.

* `shaped_addPositive`: a cell that is added, whatever folding leaves of it.
* `shaped_toSubnet`: the cells of a network that is built by steps which keep the shape.
-/

namespace Gatework

namespace Builder

variable {b b' : Builder} {c : Cell} {kind : CellKind} {links : List Link}
  {P : CellKind → Nat → Prop}

/-- The kinds and the numbers of operands of all cells go together. -/
def Shaped (P : CellKind → Nat → Prop) (b : Builder) : Prop := ∀ c ∈ b.cells, P c.kind c.links.length

/-- A construction step that adds cells of such shapes only. -/
def KeepsShaped (P : CellKind → Nat → Prop) {α : Type} (x : Build α) : Prop :=
  Relates (fun b b' => b.Shaped P → b'.Shaped P) x

lemma composes_shaped (P : CellKind → Nat → Prop) :
    Composes fun b b' => b.Shaped P → b'.Shaped P := composes_keeps (Shaped P)

/-! ## Steps -/

lemma cells_append (b : Builder) (c : Cell) : (b.append c).2.cells = b.cells.push c := by
  unfold append
  exact congrArg Builder.cells (offer_eq ..)

lemma Shaped.push (h : b.Shaped P) (hc : P c.kind c.links.length)
    (hcells : b'.cells = b.cells.push c) : b'.Shaped P := by
  intro e he
  rw [hcells, Array.mem_push] at he
  rcases he with he | rfl
  · exact h e he
  · exact hc

lemma Shaped.place (h : b.Shaped P) (hc : P c.kind c.links.length) : (b.place c).2.Shaped P := by
  unfold Builder.place
  split
  · exact h
  · exact h.push hc (cells_append b c)

/-- A cell is added in a shape that folding may leave. -/
lemma shaped_addPositive (hconst : ∀ value, P (.ofGate (.ofBool value)) 0)
    (hcell : ∀ (b : Builder) kept inverted, b.simplified kind links = .cell kept inverted →
      P kind kept.length) : KeepsShaped P (addPositive kind links) := by
  rintro b l b' hrun h
  obtain ⟨-, -, hplaced⟩ := addPositive_eq_ok_iff.1 hrun
  cases hcase : b.simplified kind links with
  | link k =>
      rw [hcase] at hplaced
      cases hplaced
      exact h
  | constant value =>
      rw [hcase] at hplaced
      have placed := h.place (c := ⟨.ofGate (.ofBool value), []⟩) (hconst value)
      rwa [show b.place _ = _ from hplaced] at placed
  | cell kept inverted =>
      have hkept := hcell b kept inverted hcase
      rw [hcase] at hplaced
      cases hplaced
      exact h.place (c := ⟨kind, kept⟩) hkept

lemma shaped_addInput (hinput : P (.ofGate .input) 0) : KeepsShaped P addInput := by
  rintro b l b' hrun h
  cases hrun
  exact h.push (c := .input) hinput rfl

lemma shaped_addInputs (hinput : P (.ofGate .input) 0) (count : Nat) :
    KeepsShaped P (addInputs count) :=
  (composes_shaped P).mapM fun _ _ => shaped_addInput hinput

lemma shaped_addOutput (houtput : P (.ofGate .output) 1) (l : Link) : KeepsShaped P (addOutput l) := by
  rintro b i b' hrun h
  obtain ⟨_, -, hrun⟩ := bind_eq_ok_iff.1 hrun
  cases hrun
  exact h.push (c := .output l) houtput rfl

/-! ## Finishing -/

/-- A finished cell has the shape of the cell that it was copied from. -/
lemma Shaped.finish (h : b.Shaped P) {net : Subnet} (hrun : b.finish = .ok net) :
    ∀ c ∈ net.cells, P c.kind c.links.length := by
  obtain ⟨⟨places, cells⟩, hcells, hrun⟩ := bind_eq_ok_iff.1 hrun
  have shaped : ∀ c ∈ cells, P c.kind c.links.length := by
    refine foldlM_invariant (fun state : Array (Option Nat) × Array Cell =>
      ∀ c ∈ state.2, P c.kind c.links.length) (by simp) ?_ hcells
    rintro id - ⟨places, cells⟩ ⟨places', cells'⟩ hshaped hstep
    unfold copyEntry at hstep
    split at hstep
    · cases hstep
    · rename_i e he
      obtain ⟨links, hlinks, hstep⟩ := bind_eq_ok_iff.1 hstep
      cases hstep
      have hlength : e.links.length = links.length := (forall₂_of_mapM_eq_ok hlinks).length_eq
      intro c hc
      rcases Array.mem_push.1 hc with hc | rfl
      · exact hshaped c hc
      · exact hlength ▸ h e (Array.mem_of_getElem? he)
  have hnet : Subnet.ofCells cells b.numInputs b.numOutputs = .ok net := by
    dsimp only at hrun
    cases hcopy : Subnet.ofCells cells b.numInputs b.numOutputs with
    | ok net' =>
        rw [hcopy] at hrun
        exact congrArg Except.ok (Except.ok.inj hrun)
    | error v =>
        rw [hcopy] at hrun
        cases hrun
  obtain ⟨hcells, -⟩ := Subnet.ofCells_eq_ok_iff.1 hnet
  exact hcells ▸ shaped

/-- A network that is built by steps which keep the shape has cells of this shape. -/
theorem shaped_toSubnet {build : Build Unit} (h : KeepsShaped P build) {options : BuilderOptions}
    {net : Subnet} (hrun : Build.toSubnet build options = .ok net) :
    ∀ c ∈ net.cells, P c.kind c.links.length := by
  obtain ⟨⟨_, b⟩, hbuild, hfinish⟩ := bind_eq_ok_iff.1 hrun
  have start : (Builder.empty options).Shaped P := by simp [Shaped, Builder.empty]
  exact (h _ _ _ hbuild start).finish hfinish

end Builder

end Gatework
