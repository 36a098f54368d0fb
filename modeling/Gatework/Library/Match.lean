import Gatework.Library.Basic

/-!
# Matching cells

A cell matches a function if it computes the function with its pins bound to the variables, each
variable to one pin, some of them complemented.  The binding found has as few complemented variables
as possible.  The value of the cell is never complemented.
-/

namespace Gatework

/-- What drives a pin: a variable of the function, complemented or not. -/
structure PinSource where
  leaf : Nat
  inverted : Bool
deriving DecidableEq, Repr

/-- A cell of a library with its pins bound, the first pin first. -/
structure CellMatch where
  cell : Nat
  pins : List PinSource
deriving DecidableEq, Repr

/-- The number of complemented pins. -/
def CellMatch.inversions (m : CellMatch) : Nat := m.pins.countP (·.inverted)

namespace Match

/-- All choices of complemented variables, those with fewer ones first. -/
def masksByWeight (n : Nat) : List Nat :=
  (List.range (n + 1)).flatMap fun weight =>
    (List.range (2 ^ n)).filter fun mask => TruthTable.countBits n mask == weight

/-- A cell's function with its inputs in every order. -/
def arrangements {n : Nat} (cell : TruthTable n) : List (List Nat × TruthTable n) :=
  (Permutation.all n).map fun perm => (perm, (Transform.mk perm 0 false).onTable cell)

/-- The sources of the pins: variable `i` drives pin `perm[i]`. -/
def sources (perm : List Nat) (mask : Nat) : List PinSource :=
  (List.range perm.length).map fun pin =>
    let leaf := Transform.lastPosition pin perm
    ⟨leaf, mask.testBit leaf⟩

/-- The first binding of a cell to a function: by the number of complemented variables, then by
which they are, then by the order of the inputs. -/
def bind? {n : Nat} (cell f : TruthTable n) : Option (List PinSource) :=
  let arranged := arrangements cell
  (masksByWeight n).findSome? fun mask =>
    let wanted := f.flipAll mask
    (arranged.find? fun (_, t) => t == wanted).map fun (perm, _) => sources perm mask

end Match

namespace Library

/-- The binding of a cell of the library to a function, if there is one. -/
def bindCell? {n : Nat} (l : Library) (f : TruthTable n) (cell : Nat) : Option CellMatch := do
  let c ← l.cells[cell]?
  let f ← f.any.as? c.inputs
  let pins ← Match.bind? c.function f
  return { cell, pins }

/-- The bindings of the cells to a function of at most six variables, in the order of the cells.  Only
cells of its class are tried, and complemented pins need an inverter. -/
def matchesOf {n : Nat} (l : Library) (f : TruthTable n) : List CellMatch :=
  match f.class? with
  | some key => ((l.cellsOf key).filterMap (l.bindCell? f)).filter
      fun m => m.inversions == 0 || l.inverter.isSome
  | none => []

end Library

end Gatework
