import Gatework.Builder.Growth

/-!
# Arithmetic networks

Ripple-carry adders and subtractors over two operands of the same width, least significant bit
first.  A subtractor adds the complement of the second operand and one, so its carry says that the
first operand is not smaller.
-/

namespace Gatework

/-- Operations on two numbers. -/
inductive Arithmetic where
  | add
  | sub
  | mul
  | div
  | rem
deriving DecidableEq, Repr

namespace Arithmetic

/-- The sum bits of two equally long operands and a carry, and after them the last carry. -/
def ripple : (carry : Option Link) → List (Link × Link) → Build (List Link)
  | carry, [] =>
      match carry with
      | some c => return [c]
      | none => return [← Builder.addConst false]
  | none, (x, y) :: rest => do
      let sum ← Builder.addCell (.gate .xor) [x, y]
      let carry ← Builder.addCell (.gate .and) [x, y]
      return sum :: (← ripple (some carry) rest)
  | some c, (x, y) :: rest => do
      let sum ← Builder.addCell (.gate .xor) [x, y, c]
      let carry ← Builder.addCell (.gate .maj) [x, y, c]
      return sum :: (← ripple (some carry) rest)

/-- The construction of an adder. -/
def addAdder (a b : List Link) : Build (List Link) := ripple none (a.zip b)

/-- The construction of a subtractor. -/
def addSubtractor (a b : List Link) : Build (List Link) := do
  let one ← Builder.addConst true
  ripple (some one) (a.zip (b.map Link.invert))

/-- A network over the bits of two operands of `width` bits; multiplication and division have
none. -/
def synthesize (op : Arithmetic) (width : Nat) : Except Fault (Option Subnet) :=
  if width = 0 then .error .noOperandBits
  else
    match op with
    | add => (network addAdder).map some
    | sub => (network addSubtractor).map some
    | mul | div | rem => .ok none
where
  /-- The network whose outputs a construction over the two operands returns. -/
  network (build : List Link → List Link → Build (List Link)) : Except Fault Subnet :=
    Build.toSubnet (do
      let a ← Builder.addInputs width
      let b ← Builder.addInputs width
      for l in ← build a b do
        discard (Builder.addOutput l)) .simplifying

end Arithmetic

end Gatework
