import Gatework.TruthTable.Basic
import Gatework.Text.Character

/-!
# Truth tables as hexadecimal text

A table is written as the hexadecimal digits of the number that its bits form, most significant
digit first, with one digit for every four bits and at least one.  A text is read back as the
number that its digits denote: blanks at the ends and one leading `0x` are skipped, either case of
a digit is accepted, any number of leading zeros is, and a number that does not fit is not.
-/

namespace Gatework

/-- The value of a hexadecimal digit of either case. -/
def hexValue? (c : Char) : Option Nat :=
  if '0' ≤ c ∧ c ≤ '9' then some (c.toNat - '0'.toNat)
  else if 'a' ≤ c ∧ c ≤ 'f' then some (c.toNat - 'a'.toNat + 10)
  else if 'A' ≤ c ∧ c ≤ 'F' then some (c.toNat - 'A'.toNat + 10)
  else none

/-- The lower-case hexadecimal digit of a number below sixteen. -/
def hexChar (d : Nat) : Char :=
  if d < 10 then Char.ofNat ('0'.toNat + d) else Char.ofNat ('a'.toNat + (d - 10))

/-- The lowest `count` hexadecimal digits of `v`, most significant first, in front of `rest`. -/
def hexText : (count : Nat) → (v : Nat) → (rest : List Char) → List Char
  | 0, _, rest => rest
  | count + 1, v, rest => hexText count (v / 16) (hexChar (v % 16) :: rest)

/-- The number denoted by a list of hexadecimal digits, most significant first, behind the digits
of `high`. -/
def hexNumber? (high : Nat) : List Char → Option Nat
  | [] => some high
  | c :: cs => (hexValue? c).bind fun d => hexNumber? (high * 16 + d) cs

/-- The digits behind an optional `0x` or `0X`. -/
def dropHexMark : List Char → List Char
  | '0' :: 'x' :: cs => cs
  | '0' :: 'X' :: cs => cs
  | cs => cs

/-- The number a text denotes in hexadecimal, unless it has no digits or another character. -/
def hexTextNumber? (cs : List Char) : Option Nat :=
  match dropHexMark (Text.trimBlanks cs) with
  | [] => none
  | digits => hexNumber? 0 digits

namespace TruthTable

/-- The number of hexadecimal digits of a table of `n` variables. -/
def hexCount (n : Nat) : Nat := max 1 (2 ^ n / 4)

/-- The written form of a table. -/
def toHex {n : Nat} (t : TruthTable n) : String :=
  String.ofList (hexText (hexCount n) t.toNat [])

/-- The table of `n` variables that a text denotes. -/
def ofHex? (n : Nat) (text : String) : Option (TruthTable n) :=
  if n ≤ maxTableVariables then
    (hexTextNumber? text.toList).bind fun v =>
      if v < valuesOf (2 ^ n) then some (ofNat n v) else none
  else none

end TruthTable

end Gatework
