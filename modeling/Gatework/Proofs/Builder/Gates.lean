import Gatework.Proofs.Builder.Hosting
import Gatework.Proofs.Gates

/-!
# Building networks of gates

The empty store has types for gates only, so a network of gates is one that the empty store houses, and
what is built from gates and from copies of networks of gates is a network of gates.

* `gates_addCell`, `gates_addConst`: gates and constants keep the cells of a builder gates.
* `Subnet.OfGates.onSubnet`: a transformed network of gates is one.
-/

namespace Gatework

/-- The empty store has types for the cells of gates only. -/
lemma CellKind.exists_gate_of_takes {kind : CellKind} {operands : Nat}
    (takes : Store.empty.Takes kind operands) : ∃ g, kind = .ofGate g := by
  obtain ⟨type, htype, symbol, -⟩ := takes
  rw [Store.types_empty, List.getElem?_map, Option.map_eq_some_iff] at htype
  obtain ⟨g, hg, rfl⟩ := htype
  have position : g.position = kind.type :=
    (List.getElem?_inj g.position_lt (by decide)).1 ((Gate.all_getElem?_position g).trans hg.symm)
  exact ⟨g, CellKind.ext symbol.symm position.symm⟩

/-- The gates are what the empty store has types for. -/
lemma CellKind.isGate_eq : CellKind.IsGate = Store.empty.Takes := by
  funext kind operands
  refine propext ?_
  constructor
  · rintro ⟨g, rfl, h⟩
    exact (Store.Extends.refl _).takes_gate_iff.2 (CellType.accepts_ofGate_iff.1 h)
  · intro takes
    obtain ⟨g, hg⟩ := CellKind.exists_gate_of_takes takes
    exact ⟨g, hg, CellType.accepts_ofGate_iff.2 ((Store.Extends.refl _).takes_gate_iff.1 (hg ▸ takes))⟩

lemma Subnet.ofGates_iff {net : Subnet} : net.OfGates ↔ Store.empty.Houses net := by
  rw [Store.Houses, ← CellKind.isGate_eq]
  rfl

namespace Builder

/-- A construction step that adds gates with as many operands as they take. -/
def KeepsGates {α : Type} (x : Build α) : Prop := KeepsShaped CellKind.IsGate x

lemma keepsGates_iff {α : Type} {x : Build α} : KeepsGates x ↔ KeepsHoused .empty x := by
  rw [KeepsGates, CellKind.isGate_eq]
  rfl

lemma composes_gates :
    Composes fun b b' => b.Shaped CellKind.IsGate → b'.Shaped CellKind.IsGate := composes_shaped _

/-- A gate is added only if it takes the operands. -/
theorem gates_addCell (symbol : Symbol) (links : List Link) : KeepsGates (addCell symbol links) :=
  keepsGates_iff.2 (housed_addCell (.refl _) symbol links)

lemma gates_addConst (value : Bool) : KeepsGates (addConst value) :=
  keepsGates_iff.2 (housed_addConst (.refl _) value)

lemma gates_addInputs (count : Nat) : KeepsGates (addInputs count) :=
  keepsGates_iff.2 (housed_addInputs (.refl _) count)

lemma gates_addOutput (l : Link) : KeepsGates (addOutput l) :=
  keepsGates_iff.2 (housed_addOutput (.refl _) l)

end Builder

/-- A transformed network of gates is one. -/
theorem Subnet.OfGates.onSubnet {net net' : Subnet} (h : net.OfGates) {t : Transform}
    (run : t.onSubnet net = .ok net') : net'.OfGates :=
  Subnet.ofGates_iff.2 ((Subnet.ofGates_iff.1 h).onSubnet (.refl _) run)

end Gatework
