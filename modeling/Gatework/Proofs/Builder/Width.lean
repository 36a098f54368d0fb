import Gatework.Proofs.Builder.Shape

/-!
# How many operands cells have

Folding only takes operands away, so a cell that is added has no more of them than were asked for.

* `narrow_addCell`: a gate keeps the cells of a builder narrow.
* `narrow_toSubnet`: a network built by steps that keep the cells narrow has narrow cells.
-/

namespace Gatework

namespace Builder

variable {b : Builder} {c : Cell} {kind : CellKind} {links : List Link} {width : Nat}

/-- No cell has more operands than `width`. -/
def Narrow (width : Nat) (b : Builder) : Prop := ∀ c ∈ b.cells, c.links.length ≤ width

/-- A construction step that adds no wider cells. -/
def KeepsNarrow (width : Nat) {α : Type} (x : Build α) : Prop :=
  Relates (fun b b' => b.Narrow width → b'.Narrow width) x

lemma composes_narrow (width : Nat) :
    Composes fun b b' => b.Narrow width → b'.Narrow width := composes_keeps (Narrow width)

/-! ## Folding -/

lemma length_foldLattice_le {absorbing : Bool} {kept result : List Link}
    (h : b.foldLattice absorbing kept links = some result) :
    result.length ≤ kept.length + links.length := by
  induction links generalizing kept with
  | nil =>
      cases h
      exact Nat.le_refl _
  | cons l links ih =>
      have skip : b.foldLattice absorbing kept links = some result →
          result.length ≤ kept.length + (l :: links).length := fun h =>
        (ih h).trans (Nat.add_le_add_left (Nat.le_succ _) _)
      unfold foldLattice at h
      split at h
      · split at h
        · cases h
        · exact skip h
      · split at h
        · cases h
        · split at h
          · exact skip h
          · refine (ih h).trans_eq ?_
            rw [List.length_append, List.length_cons, List.length_cons, List.length_nil]
            omega

lemma length_foldParity_le (kept : List Link) (parity : Bool) (links : List Link) :
    (b.foldParity kept parity links).1.length ≤ kept.length + links.length := by
  induction links generalizing kept parity with
  | nil => exact Nat.le_refl _
  | cons l links ih =>
      rw [List.length_cons]
      unfold foldParity
      split
      · exact (ih _ _).trans (Nat.add_le_add_left (Nat.le_succ _) _)
      · split
        · exact (ih _ _).trans (Nat.add_le_add List.length_erase_le (Nat.le_succ _))
        · refine (ih _ _).trans_eq ?_
          rw [List.length_append, List.length_singleton]
          omega

/-- What is left after folding has no more operands. -/
lemma length_foldCell_le {symbol : Symbol} {kept : List Link} {inverted : Bool}
    (h : b.foldCell symbol links = .cell kept inverted) : kept.length ≤ links.length := by
  have lattice : ∀ absorbing, foldCell.lattice b absorbing links = .cell kept inverted →
      kept.length ≤ links.length := by
    intro absorbing h
    unfold foldCell.lattice at h
    split at h
    · cases h
    · cases h
    · cases h
    · rename_i hkept
      cases h
      simpa using length_foldLattice_le hkept
  unfold foldCell at h
  split at h
  · cases h
  · exact lattice _ h
  · exact lattice _ h
  · have parity := length_foldParity_le (b := b) [] false links
    split at h
    · cases h
    · cases h
    · rename_i hkept
      cases h
      simpa [hkept] using parity
  · cases h
    exact Nat.le_refl _

lemma length_simplified_le {kept : List Link} {inverted : Bool}
    (h : b.simplified kind links = .cell kept inverted) : kept.length ≤ links.length := by
  unfold simplified at h
  split at h
  · exact length_foldCell_le h
  · cases h
    exact Nat.le_refl _

/-! ## Steps -/

lemma narrow_addPositive (kind : CellKind) (hlinks : links.length ≤ width) :
    KeepsNarrow width (addPositive kind links) := by
  refine shaped_addPositive (P := fun _ k => k ≤ width) (fun _ => Nat.zero_le width)
    fun b kept inverted hcase => ?_
  exact (length_simplified_le hcase).trans hlinks

theorem narrow_addCell (symbol : Symbol) (hlinks : links.length ≤ width) :
    KeepsNarrow width (addCell symbol links) :=
  relates_addCell fun _ _ _ => narrow_addPositive _ hlinks

lemma narrow_addConst (width : Nat) (value : Bool) : KeepsNarrow width (addConst value) :=
  narrow_addPositive _ (Nat.zero_le width)

lemma narrow_addInputs (width count : Nat) : KeepsNarrow width (addInputs count) :=
  shaped_addInputs (P := fun _ k => k ≤ width) (Nat.zero_le width) count

lemma narrow_addOutput (hwidth : 1 ≤ width) (l : Link) : KeepsNarrow width (addOutput l) :=
  shaped_addOutput (P := fun _ k => k ≤ width) hwidth l

/-- A network that is built by narrow steps has narrow cells. -/
theorem narrow_toSubnet {build : Build Unit} (h : KeepsNarrow width build) {options : BuilderOptions}
    {net : Subnet} (hrun : Build.toSubnet build options = .ok net) :
    ∀ c ∈ net.cells, c.links.length ≤ width :=
  shaped_toSubnet (P := fun _ k => k ≤ width) h hrun

end Builder

end Gatework
