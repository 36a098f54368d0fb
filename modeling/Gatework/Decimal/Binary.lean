import Gatework.Power

/-!
# Binary numbers taken apart

A finite number in single or double precision is a sign and a magnitude `mantissa · 2 ^ exponent`.
What is written in decimal is computed from these two whole numbers, without further rounding.
-/

namespace Gatework

/-- How many bits a floating-point number has for its mantissa and for its exponent. -/
structure Precision where
  mantissaBits : Nat
  exponentBits : Nat
deriving DecidableEq, Repr

namespace Precision

/-- Numbers of 32 bits. -/
def single : Precision := ⟨23, 8⟩

/-- Numbers of 64 bits. -/
def double : Precision := ⟨52, 11⟩

/-- Half the number of exponents. -/
def halfRange (p : Precision) : Nat := 2 ^ (p.exponentBits - 1)

/-- The exponent of the smallest numbers. -/
def leastExponent (p : Precision) : Int := 2 - (p.halfRange : Int) - p.mantissaBits

end Precision

/-- The magnitude `mantissa · 2 ^ exponent`. -/
structure Binary where
  mantissa : Nat
  exponent : Int
deriving DecidableEq, Repr

namespace Binary

/-- The magnitude of a finite number with the given bits. -/
def ofBits (p : Precision) (bits : Nat) : Binary :=
  let tail : Nat := bits % 2 ^ p.mantissaBits
  let scale : Nat := bits / 2 ^ p.mantissaBits % valuesOf p.exponentBits
  if scale = 0 then ⟨tail, p.leastExponent⟩
  else ⟨tail + 2 ^ p.mantissaBits, p.leastExponent + scale - 1⟩

/-- Whether the sign of a number with the given bits is set. -/
def isNegative (p : Precision) (bits : Nat) : Bool :=
  bits / valuesOf (p.mantissaBits + p.exponentBits) == 1

/-- The magnitude as a fraction of two whole numbers. -/
def fraction (b : Binary) : Nat × Nat :=
  match b.exponent with
  | .ofNat e => (b.mantissa * 2 ^ e, 1)
  | .negSucc e => (b.mantissa, 2 ^ (e + 1))

end Binary

/-! ## A fixed number of decimal places

The exact value of a number is rounded to a given number of places, where a half goes to the even
neighbour.
-/

namespace Fixed

/-- The whole number nearest to a fraction; a half goes to the even neighbour. -/
def roundDiv (num den : Nat) : Nat :=
  let q := num / den
  let r := num % den
  if 2 * r < den then q
  else if den < 2 * r then q + 1
  else if q % 2 = 0 then q else q + 1

/-- A whole number with a point in front of its last `places` digits. -/
def placePoint (places n : Nat) : String :=
  let fraction := toString (n % 10 ^ places)
  toString (n / 10 ^ places) ++ "." ++ "".pushn '0' (places - fraction.length) ++ fraction

/-- A number with `places` digits behind the point. -/
def text (places : Nat) (x : Float32) : String :=
  if x.isNaN then "NaN"
  else
    let bits := x.toBits.toNat
    let sign := if Binary.isNegative .single bits then "-" else ""
    if x.isInf then sign ++ "inf"
    else
      let (num, den) := (Binary.ofBits .single bits).fraction
      sign ++ placePoint places (roundDiv (num * 10 ^ places) den)

end Fixed

end Gatework
