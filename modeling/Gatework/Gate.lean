/-!
# Built-in gates

The cells of a network are gates with a fixed meaning, or composites whose meaning is another
network.  This module holds the gates: their names, how many operands they take, and the algebraic
properties that construction relies on.

Four gates are negative: they compute the complement of another one.  `Gate.positive` gives that
other gate, so that a complement can be moved onto the link that reads the result.
-/

namespace Gatework

/-- The built-in gates, in the order of their cell types in every store. -/
inductive Gate where
  | input
  | output
  | zero
  | one
  | buf
  | not
  | and
  | or
  | xor
  | nand
  | nor
  | xnor
  | maj
deriving DecidableEq, Repr, Hashable

/-- Properties of a cell type that construction may rely on. -/
structure Traits where
  combinational : Bool := false
  constant : Bool := false
  identity : Bool := false
  commutative : Bool := false
  associative : Bool := false
  regroupable : Bool := false
  negative : Bool := false
deriving DecidableEq, Repr

/-- The names of the traits that hold, in a fixed order. -/
def Traits.names (t : Traits) : List String :=
  [(t.combinational, "combinational"), (t.constant, "constant"), (t.identity, "identity"),
    (t.commutative, "commutative"), (t.associative, "associative"),
    (t.regroupable, "regroupable"), (t.negative, "negative")].filterMap
      fun (holds, name) => if holds then some name else none

/-- The most operands that a gate with any number of operands takes. -/
def maxArity : Nat := 255

namespace Gate

/-- All gates, in the order of their cell types. -/
def all : List Gate :=
  [input, output, zero, one, buf, not, and, or, xor, nand, nor, xnor, maj]

/-- The position of a gate in `Gate.all`, which is the position of its cell type in a store. -/
def position : Gate → Nat
  | input => 0
  | output => 1
  | zero => 2
  | one => 3
  | buf => 4
  | not => 5
  | and => 6
  | or => 7
  | xor => 8
  | nand => 9
  | nor => 10
  | xnor => 11
  | maj => 12

theorem all_getElem?_position (g : Gate) : all[g.position]? = some g := by cases g <;> rfl

/-- The name of a gate in the text form of a network. -/
def name : Gate → String
  | input => "in"
  | output => "out"
  | zero => "zero"
  | one => "one"
  | buf => "buf"
  | not => "not"
  | and => "and"
  | or => "or"
  | xor => "xor"
  | nand => "nand"
  | nor => "nor"
  | xnor => "xnor"
  | maj => "maj"

/-- The least and the greatest number of operands. -/
def arity : Gate → Nat × Nat
  | input | zero | one => (0, 0)
  | output | buf | not => (1, 1)
  | and | or | xor | nand | nor | xnor => (2, maxArity)
  | maj => (3, maxArity)

/-- The number of output ports. -/
def ports : Gate → Nat
  | output => 0
  | _ => 1

/-- The properties of a gate. -/
def traits : Gate → Traits
  | input => {}
  | zero | one => { combinational := true, constant := true }
  | output | buf => { combinational := true, identity := true }
  | not => { combinational := true, negative := true }
  | and | or | xor =>
      { combinational := true, commutative := true, associative := true, regroupable := true }
  | nand | nor | xnor => { combinational := true, commutative := true, negative := true }
  | maj => { combinational := true, commutative := true }

/-- The gate whose complement a negative gate computes, and whether there is a complement. -/
def positive : Gate → Gate × Bool
  | not => (buf, true)
  | nand => (and, true)
  | nor => (or, true)
  | xnor => (xor, true)
  | g => (g, false)

/-- The positive counterpart is never negative itself. -/
theorem negative_positive (g : Gate) : g.positive.1.traits.negative = false := by cases g <;> rfl

/-- Whether the gate is one of the two constants. -/
def isConst : Gate → Bool
  | zero | one => true
  | _ => false

/-- The constant gate of a value. -/
def ofBool (value : Bool) : Gate := if value then one else zero

end Gate

/-- What a cell type stands for: a built-in gate, or a network registered as a cell. -/
inductive Symbol where
  | gate (g : Gate)
  | cell
deriving DecidableEq, Repr, Hashable

namespace Symbol

/-- All symbols: the gates in order, then the composite. -/
def all : List Symbol := Gate.all.map gate ++ [cell]

/-- The name of a symbol. -/
def name : Symbol → String
  | gate g => g.name
  | cell => "cell"

/-- The least and the greatest number of operands. -/
def arity : Symbol → Nat × Nat
  | gate g => g.arity
  | cell => (0, maxArity)

/-- The properties of a symbol. -/
def traits : Symbol → Traits
  | gate g => g.traits
  | cell => { combinational := true }

/-- The positive counterpart and whether there is a complement. -/
def positive : Symbol → Symbol × Bool
  | gate g => (gate g.positive.1, g.positive.2)
  | cell => (cell, false)

/-- Whether the symbol is one of the two constants. -/
def isConst : Symbol → Bool
  | gate g => g.isConst
  | cell => false

end Symbol

end Gatework
