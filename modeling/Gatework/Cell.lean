import Gatework.Gate

/-!
# Links and cells

A network is a list of cells.  A cell is of some kind and reads its operands through links; a link
names the entry that drives it, the output port of that entry, and whether the value is complemented
on the way.
-/

namespace Gatework

/-- A reference to a value: the entry that drives it, its output port, and a polarity. -/
@[ext]
structure Link where
  entry : Nat
  port : UInt16 := 0
  inverted : Bool := false
deriving DecidableEq, Repr, Hashable

namespace Link

/-- The first port of an entry, uncomplemented. -/
def of (entry : Nat) : Link := { entry }

/-- The same value, complemented if `flag` says so. -/
def invertIf (l : Link) (flag : Bool) : Link := { l with inverted := l.inverted ^^ flag }

/-- The complement of the value. -/
def invert (l : Link) : Link := l.invertIf true

/-- The uncomplemented value. -/
def positive (l : Link) : Link := { l with inverted := false }

/-- Entries first, then ports, then polarity with the uncomplemented link first. -/
def order (a b : Link) : Ordering :=
  (compare a.entry b.entry).then
    ((compare a.port b.port).then (compare a.inverted.toNat b.inverted.toNat))

/-- The written form: `%entry`, with `~` in front of a complemented link and `.port` behind it
unless the port is the first one. -/
def text (l : Link) : String :=
  (if l.inverted then "~%" else "%") ++ toString l.entry ++
    (if l.port = 0 then "" else "." ++ toString l.port.toNat)

/-- The written form of the operands of a cell: nothing if there are none. -/
def operandsText (ls : List Link) : String :=
  if ls.isEmpty then "" else "(" ++ ", ".intercalate (ls.map text) ++ ")"

end Link

/-- What a cell computes: the symbol of its type, and the position of the type among the cell types of
the store.  A type that was registered under the symbol of a gate is not the built-in type of the
gate. -/
@[ext]
structure CellKind where
  symbol : Symbol
  type : Nat
deriving DecidableEq, Repr, Hashable

namespace CellKind

/-- The kind of the cells of a built-in type, which is the same in every store. -/
def ofGate (g : Gate) : CellKind := ⟨.gate g, g.position⟩

@[simp] theorem symbol_ofGate (g : Gate) : (ofGate g).symbol = .gate g := rfl

/-- Whether the operands may be reordered. -/
def commutative (k : CellKind) : Bool := k.symbol.traits.commutative

end CellKind

/-- One entry of a network: its kind and the operands it reads. -/
structure Cell where
  kind : CellKind
  links : List Link
deriving DecidableEq, Repr, Hashable

namespace Cell

/-- Whether the cell is a primary input. -/
def isInput (c : Cell) : Bool := c.kind.symbol == .gate .input

/-- Whether the cell is a primary output. -/
def isOutput (c : Cell) : Bool := c.kind.symbol == .gate .output

/-- Whether the cell is one of the two constants. -/
def isConst (c : Cell) : Bool := c.kind.symbol.isConst

/-- Whether the cell is a primary input or output. -/
def isTerminal (c : Cell) : Bool := c.isInput || c.isOutput

/-- The entries the cell reads, one for each link. -/
def drivers (c : Cell) : List Nat := c.links.map (·.entry)

/-- A primary input. -/
def input : Cell := ⟨.ofGate .input, []⟩

/-- A primary output that shows the value of a link. -/
def output (l : Link) : Cell := ⟨.ofGate .output, [l]⟩

/-- The logic depth of a cell over the depths of its drivers: inputs, constants and identities add
no level, every other cell adds one. -/
def depth (c : Cell) (depthOf : Nat → Nat) : Nat :=
  let deepest := (c.drivers.map depthOf).foldl max 0
  match c.kind.symbol with
  | .gate .input | .gate .zero | .gate .one => 0
  | .gate .buf | .gate .output => deepest
  | _ => deepest + 1

end Cell

end Gatework
