import Gatework.TruthTable.Stored

/-!
# The hexadecimal digits of stored tables

The text of a stored table is read and written digit by digit.  Digit `pos`, counted from the end of the
text, is the four bits from bit `4 * pos` on, and these lie in one word.  A text may have more digits than
the table has room for as long as they are zeros.  Below two variables a table has fewer bits than a digit,
so there the digit itself may be too large.
-/

namespace Gatework

namespace WordTable

/-! ## Reading -/

/-- Whether a digit other than zero sets a bit that the table does not have. -/
def overflows (t : WordTable) (pos digit : Nat) : Bool :=
  max (2 ^ t.numVars) 4 ≤ 4 * pos ||
    (t.numVars < 2 &&
      UInt64.ofNat digit <<< UInt64.ofNat (4 * pos) >>> UInt64.ofNat (2 ^ t.numVars) != 0)

/-- The table with the bits of a digit set too, if it has room for them. -/
def placeDigit? (t : WordTable) (pos digit : Nat) : Option WordTable :=
  if digit = 0 then some t
  else if t.overflows pos digit then none
  else
    let bits := UInt64.ofNat digit <<< UInt64.ofNat (4 * pos % 64)
    some { t with words := t.words.modify (4 * pos / 64) (· ||| bits) }

/-- The table with the bits of all digits of a text set too, the last digit of which comes first and
stands at `pos`. -/
def placeDigits? (t : WordTable) (pos : Nat) : List Char → Option WordTable
  | [] => some t
  | c :: cs =>
      (hexValue? c).bind fun digit =>
        (t.placeDigit? pos digit).bind fun t => t.placeDigits? (pos + 1) cs

/-- The table of `n` variables that a text denotes. -/
def ofHex? (n : Nat) (text : String) : Option WordTable :=
  match dropHexMark (Text.trimBlanks text.toList) with
  | [] => none
  | digits =>
      if n ≤ maxTableVariables then
        placeDigits? ⟨n, List.replicate (wordCount n) 0⟩ 0 digits.reverse
      else none

/-! ## Writing -/

/-- The four bits of a digit. -/
def nibble (t : WordTable) (pos : Nat) : Nat :=
  (t.words.getD (4 * pos / 64) 0 >>> UInt64.ofNat (4 * pos % 64) &&& 15).toNat

/-- The written form of a table whose words cover its variables. -/
def digits (t : WordTable) : String :=
  String.ofList ((List.range (TruthTable.hexCount t.numVars)).reverse.map (hexChar <| t.nibble ·))

end WordTable

end Gatework
