import Gatework.Decimal.Shortest
import Gatework.Json.Reader

/-!
# Numbers in JSON

A numeral is a number as it is written: a sign, the digits before and behind the point, and an
exponent.  Its value as a floating-point number is computed from the leading digits that fit into 64
bits; digits beyond them only count for the size of the number.  The significand is scaled by one
multiplication or division with a power of ten, so the result may differ from the nearest
floating-point number in the last place.  A number that is too large has no value, and a reader that
needs its value stops there; a reader that skips it only looks at the way it is written.
-/

namespace Gatework

/-- A number as it is written. -/
structure Numeral where
  negative : Bool
  /-- The digits before the point, at least one. -/
  whole : List Nat
  /-- The digits behind the point; none if there is no point. -/
  fraction : List Nat
  /-- The exponent with its sign, if there is one. -/
  exponent : Option Int
deriving DecidableEq, Repr

namespace Numeral

/-! ## Value -/

/-- One more than the largest significand. -/
def significandLimit : Nat := valuesOf 64

/-- The largest size of an exponent. -/
def maxExponent : Nat := valuesOf 31 - 1

/-- Appends digits to a significand as long as it fits; returns it with the number of digits that
were left over. -/
def absorb : (significand : Nat) → (digits : List Nat) → Nat × Nat
  | significand, [] => (significand, 0)
  | significand, d :: ds =>
      if 10 * significand + d < significandLimit then absorb (10 * significand + d) ds
      else (significand, ds.length + 1)

/-- The largest power of ten that a floating-point number can hold. -/
def maxPower : Nat := 308

/-- A power of ten. -/
def power (e : Nat) : Float := Float.ofScientific 1 false e

/-- Divides by a power of ten, in several steps if it is too large for one. -/
def scaleDown (f : Float) (e : Nat) : Float :=
  if e ≤ maxPower then f / power e
  else if f == 0 then f
  else scaleDown (f / power maxPower) (e - maxPower)
termination_by e
decreasing_by simp only [maxPower] at *; omega

/-- A significand times a power of ten, unless it is too large. -/
def scale? (significand : Nat) (exponent : Int) : Option Float :=
  let f := (UInt64.ofNat significand).toFloat
  match exponent with
  | .ofNat e =>
      if e ≤ maxPower then
        let f := f * power e
        if f.isInf then none else some f
      else if significand = 0 then some f
      else none
  | .negSucc e => some (scaleDown f (e + 1))

/-- The exponent of a sum, which does not leave the range of 32 bits. -/
def clampExponent (e : Int) : Int := max (-(maxExponent : Int) - 1) (min maxExponent e)

/-- The size of a number with a point or an exponent, or with too many digits. -/
def magnitude? (n : Numeral) : Option Float :=
  let (significand, dropped) := absorb 0 n.whole
  let (significand, ignored) := absorb significand n.fraction
  let shift : Int := (dropped : Int) - ((n.fraction.length - ignored : Nat) : Int)
  match n.exponent with
  | none => scale? significand shift
  | some e =>
      if maxExponent < e.natAbs then
        if significand ≠ 0 ∧ 0 < e then none else some 0
      else scale? significand (clampExponent (shift + e))

/-- Whether the number is an integer without exponent whose digits all fit. -/
def isInteger (n : Numeral) : Bool :=
  n.fraction.isEmpty && n.exponent.isNone && (absorb 0 n.whole).2 == 0

/-- The value in double precision. -/
def toFloat? (n : Numeral) : Option Float :=
  n.magnitude?.map fun f => if n.negative then -f else f

/-- The integer that is written, if all its digits fit and 64 bits can hold it.  The negative zero is
not an integer. -/
def toInt? (n : Numeral) : Option Int :=
  let size := (absorb 0 n.whole).1
  if !n.isInteger then none
  else if !n.negative then some size
  else if size = 0 ∨ valuesOf 63 < size then none
  else some (-(size : Int))

/-- The value in single precision.  Integers of 64 bits are rounded once, all other numbers by way of
double precision.  What is too large for single precision becomes infinite. -/
def toFloat32? (n : Numeral) : Option Float32 :=
  match n.toInt? with
  | some (.ofNat size) => some (UInt64.ofNat size).toFloat32
  | some size => some (Int64.ofInt size).toFloat32
  | none => n.toFloat?.map Float.toFloat32

/-- The words for a number that stands where something else is expected. -/
def describe (n : Numeral) : String :=
  match n.toInt? with
  | some i => s!"integer `{i}`"
  | none => s!"floating point `{Shortest.doubleText (n.toFloat?.getD 0)}`"

/-! ## Reading -/

/-- The digits that characters stand for. -/
def digitsOf (cs : List Char) : List Nat := cs.map fun c => c.toNat - '0'.toNat

/-- The number denoted by a list of digits. -/
def natOfDigits (digits : List Nat) : Nat := digits.foldl (fun n d => 10 * n + d) 0

/-- Takes digits, if there are any. -/
def takeDigits : JsonReader (List Nat) := digitsOf <$> JsonReader.takeWhile Char.isDigit

/-- Takes the digits before the point: at least one, and a leading zero stands alone.  `atEnd` is what
is wrong if the file ends here. -/
def takeWhole (atEnd : JsonFlaw) : JsonReader (List Nat) := do
  match ← JsonReader.next with
  | none => JsonReader.failHere atEnd
  | some '0' =>
      match ← JsonReader.peek with
      | some c => if c.isDigit then JsonReader.failAtNext .badNumber else return [0]
      | none => return [0]
  | some c =>
      if c.isDigit then return digitsOf [c] ++ (← takeDigits)
      else JsonReader.failHere .badNumber

/-- Takes the digits behind the point, if there is a point; then there is at least one digit. -/
def takeFraction (atEnd : JsonFlaw) : JsonReader (List Nat) := do
  if (← JsonReader.peek) ≠ some '.' then return []
  else
    JsonReader.advance
    match ← takeDigits, ← JsonReader.peek with
    | [], some _ => JsonReader.failAtNext .badNumber
    | [], none => JsonReader.failAtNext atEnd
    | digits, _ => return digits

/-- Takes the sign of an exponent, if there is one; returns whether it is negative. -/
def takeExponentSign : JsonReader Bool := do
  match ← JsonReader.peek with
  | some '+' => JsonReader.advance; return false
  | some '-' => JsonReader.advance; return true
  | _ => return false

/-- Takes the sign and the digits of an exponent, if there is one.  There is at least one digit. -/
def takeExponent (atEnd : JsonFlaw) : JsonReader (Option (Bool × List Nat)) := do
  match ← JsonReader.peek with
  | some 'e' | some 'E' => do
      JsonReader.advance
      let negative ← takeExponentSign
      match ← JsonReader.next with
      | none => JsonReader.failHere atEnd
      | some c =>
          if c.isDigit then return some (negative, digitsOf [c] ++ (← takeDigits))
          else JsonReader.failHere .badNumber
  | _ => return none

/-- The number of leading digits that show an exponent to be too large, or of all digits. -/
def decisiveDigits : (size : Nat) → List Nat → Nat
  | _, [] => 0
  | size, d :: digits =>
      if maxExponent < 10 * size + d then 1 else 1 + decisiveDigits (10 * size + d) digits

/-- Takes a numeral whose sign was taken before.  Its value has to be in range. -/
def take (negative : Bool) : JsonReader Numeral := do
  let whole ← takeWhole .endInValue
  let fraction ← takeFraction .endInValue
  let exponent ← takeExponent .endInValue
  let n : Numeral := ⟨negative, whole, fraction, exponent.map fun (negative, digits) =>
    if negative then -(natOfDigits digits : Int) else natOfDigits digits⟩
  if n.toFloat32?.isSome then return n
  else
    -- the digits of the exponent are looked at one by one until the number is out of range
    let undecided := exponent.elim 0 fun (_, digits) => digits.length - decisiveDigits 0 digits
    let c ← get
    JsonReader.failAt { c with column := c.column - undecided } .numberOutOfRange

/-- Skips a numeral whose sign was skipped before. -/
def skip : JsonReader Unit := do
  discard (takeWhole .badNumber)
  discard (takeFraction .badNumber)
  discard (takeExponent .badNumber)

end Numeral

end Gatework
