import Gatework.TruthTable.Words

/-!
# Signals

A signal is the value of one wire at `width` points at once: the ticks of a simulation, or the
assignments of a truth table.  All operators work point by point.  The two operands need not be
equally long: an operator has the width of its first operand, and beyond the end of the second one
it leaves the first unchanged.
-/

namespace Gatework

/-- The values of a wire at `width` points. -/
structure Signal where
  width : Nat
  bits : BitVec width
deriving DecidableEq, Repr

namespace Signal

/-- The value at point `i`. -/
def value (s : Signal) (i : Nat) : Bool := s.bits.getLsbD i

/-- The same value at every point. -/
def const (width : Nat) (value : Bool) : Signal :=
  ⟨width, if value then BitVec.allOnes _ else 0⟩

/-- The bits of a signal over `width` points, with `fill` beyond its end. -/
def bitsOver (s : Signal) (width : Nat) (fill : Bool) : BitVec width :=
  if fill then ~~~((~~~s.bits).setWidth width) else s.bits.setWidth width

/-- The complement. -/
def not (s : Signal) : Signal := ⟨s.width, ~~~s.bits⟩

/-- The complement if `flag` says so. -/
def invertIf (s : Signal) (flag : Bool) : Signal := if flag then s.not else s

/-- The conjunction. -/
def and (a b : Signal) : Signal := ⟨a.width, a.bits &&& b.bitsOver a.width true⟩

/-- The disjunction. -/
def or (a b : Signal) : Signal := ⟨a.width, a.bits ||| b.bitsOver a.width false⟩

/-- The exclusive disjunction. -/
def xor (a b : Signal) : Signal := ⟨a.width, a.bits ^^^ b.bitsOver a.width false⟩

/-! ## Majority -/

/-- One more operand in a list whose member `j` says where at least `j + 1` operands were set. -/
def raise {width : Nat} (atLeast : List (BitVec width)) (x : BitVec width) :
    List (BitVec width) :=
  atLeast.zipWith (fun here below => here ||| (x &&& below)) (BitVec.allOnes width :: atLeast)

/-- The points at which at least `count + 1` of the operands are set. -/
def atLeast (width count : Nat) (operands : List Signal) : Signal :=
  let start := List.replicate (count + 1) (0 : BitVec width)
  let reached := operands.foldl (fun c s => raise c (s.bitsOver width false)) start
  ⟨width, reached.getLastD (0 : BitVec width)⟩

/-- The points at which more than half of the operands are set. -/
def majority (width : Nat) (operands : List Signal) : Signal :=
  atLeast width (operands.length / 2) operands

/-! ## Words and tables -/

/-- The signal whose points are the bits of a list of words, least significant first. -/
def ofWords (words : List UInt64) : Signal :=
  ⟨64 * words.length, BitVec.ofNat _ (natOfWords words)⟩

/-- The points of a signal cut into words. -/
def words (s : Signal) : List UInt64 := wordsOfNat (s.width / 64) s.bits.toNat

end Signal

end Gatework
