import Gatework.Decimal.Binary

/-!
# The shortest decimal

Of the decimals that read back as a given number, the shortest is the one with the fewest digits,
and among those the nearest.  The numbers that read back as `m · 2 ^ q` form an interval around it
that reaches halfway to its neighbours; its ends belong to it when `m` is even.  The decimals
`d · 10 ^ e` of one `e` form a grid; the coarsest grid with a point in the interval is the one to
take.
-/

namespace Gatework

/-- The decimal `digits · 10 ^ exponent`. -/
structure Decimal where
  digits : Nat
  exponent : Int
deriving DecidableEq, Repr

namespace Shortest

/-- The ends of the interval of numbers that round to a magnitude, and whether they belong to it.
All are fractions over one denominator. -/
structure Interval where
  low : Nat
  middle : Nat
  high : Nat
  denominator : Nat
  closed : Bool

/-- The interval of a positive magnitude.  Below a power of two the neighbours are half as far
apart. -/
def Interval.of (p : Precision) (b : Binary) : Interval :=
  let narrow := b.mantissa = 2 ^ p.mantissaBits ∧ p.leastExponent < b.exponent
  let (unit, den) := Binary.fraction ⟨1, b.exponent - 2⟩
  { low := (4 * b.mantissa - if narrow then 1 else 2) * unit
    middle := 4 * b.mantissa * unit
    high := (4 * b.mantissa + 2) * unit
    denominator := den
    closed := b.mantissa % 2 == 0 }

/-- Whether a fraction over the interval's denominator lies in it. -/
def Interval.contains (i : Interval) (n : Nat) : Bool :=
  if i.closed then decide (i.low ≤ n) && decide (n ≤ i.high)
  else decide (i.low < n) && decide (n < i.high)

/-- The point of the grid of `10 ^ e` in an interval that is nearest to its middle.  Of two that are
equally near the even one is taken. -/
def Interval.gridPoint? (i : Interval) (e : Int) : Option Decimal :=
  -- the interval and the grid over a common denominator, where the grid has the step `step`
  let (step, i) := match e with
    | .ofNat e => (10 ^ e * i.denominator, i)
    | .negSucc e =>
        let s := 10 ^ (e + 1)
        (i.denominator, { i with low := i.low * s, middle := i.middle * s, high := i.high * s })
  let below := i.middle / step
  let candidates := [below, below + 1].filter fun d => 0 < d && i.contains (d * step)
  match candidates with
  | [] => none
  | [d] => some ⟨d, e⟩
  | _ =>
      let rest := 2 * (i.middle % step)
      let up := decide (step < rest) || (rest == step && below % 2 == 1)
      some ⟨if up then below + 1 else below, e⟩

/-- The exponents of the grids, the coarsest first.  A third of a binary exponent exceeds the decimal
one of the same number. -/
def gridExponents (p : Precision) : List Int :=
  let top := p.halfRange / 3
  (List.range (top + p.leastExponent.natAbs / 3 + 1)).map fun (k : Nat) => (top : Int) - k

/-- The shortest decimal of a positive magnitude. -/
def decimal (p : Precision) (b : Binary) : Decimal :=
  let i := Interval.of p b
  ((gridExponents p).findSome? i.gridPoint?).getD ⟨0, 0⟩

/-- When a decimal is written without an exponent. -/
structure Style where
  /-- The most digits before the point. -/
  digitsBefore : Nat
  /-- The most zeros right behind the point. -/
  zerosBehind : Nat

/-- The style of numbers in single precision. -/
def singleStyle : Style := ⟨13, 5⟩

/-- The style of numbers in double precision. -/
def doubleStyle : Style := ⟨16, 4⟩

/-- A decimal as text: with a point where the number of digits before it is moderate, otherwise with
an exponent. -/
def layout (style : Style) (d : Decimal) : String :=
  let digits := toString d.digits
  let length : Int := digits.length
  let point := length + d.exponent
  if 0 ≤ d.exponent ∧ point ≤ style.digitsBefore then digits.pushn '0' d.exponent.toNat ++ ".0"
  else if 0 < point ∧ point ≤ style.digitsBefore then
    let cs := digits.toList
    String.ofList (cs.take point.toNat) ++ "." ++ String.ofList (cs.drop point.toNat)
  else if -(style.zerosBehind : Int) ≤ point ∧ point ≤ 0 then
    "0.".pushn '0' (-point).toNat ++ digits
  else
    let mark := "e" ++ toString (point - 1)
    match digits.toList with
    | [c] => c.toString ++ mark
    | c :: cs => c.toString ++ "." ++ String.ofList cs ++ mark
    | [] => mark

/-- The shortest text of a finite number with the given bits. -/
def textOfBits (p : Precision) (style : Style) (bits : Nat) : String :=
  let sign := if Binary.isNegative p bits then "-" else ""
  let b := Binary.ofBits p bits
  if b.mantissa = 0 then sign ++ "0.0" else sign ++ layout style (decimal p b)

/-- The shortest text of a finite number in single precision. -/
def text (x : Float32) : String := textOfBits .single singleStyle x.toBits.toNat

/-- The shortest text of a finite number in double precision. -/
def doubleText (x : Float) : String := textOfBits .double doubleStyle x.toBits.toNat

end Shortest

end Gatework
