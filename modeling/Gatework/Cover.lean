import Gatework.TruthTable.Basic

/-!
# Irredundant sums of products

Between two functions `lower` and `upper`, the first contained in the second, `Cover.between` finds
a sum of cubes that lies in the interval.  It splits on the highest variable `v` that either bound
depends on: what only the half `v = 0` can supply is covered by cubes with the literal `¬v`, what
only the half `v = 1` can supply by cubes with the literal `v`, and what is left by cubes that do
not mention `v`.  Each step goes on below `v`, so the recursion ends.
-/

namespace Gatework

/-! ## Product terms

A cube is a conjunction of literals.  It is kept as two bit masks: the variables that occur, and of
those the ones that occur positively.
-/

/-- A conjunction of literals: variable `v` occurs iff bit `v` of `mask` is set, as a positive
literal iff bit `v` of `polarity` is set too. -/
structure Cube where
  mask : Nat
  polarity : Nat
deriving DecidableEq, Repr

namespace Cube

/-- The cube without literals, which is constantly true. -/
def empty : Cube := ⟨0, 0⟩

/-- The most variables a cube can mention. -/
def maxVariables : Nat := 32

/-- The literals as variable and sign, in ascending order of variables. -/
def literals (c : Cube) : List (Nat × Bool) :=
  ((List.range maxVariables).filter c.mask.testBit).map fun v => (v, c.polarity.testBit v)

/-- The number of literals. -/
def size (c : Cube) : Nat := c.literals.length

/-- The cube with variable `v` made a literal of the given sign. -/
def withLiteral (c : Cube) (v : Nat) (positive : Bool) : Cube where
  mask := c.mask ||| 1 <<< v
  polarity :=
    if positive then c.polarity ||| 1 <<< v
    else if c.polarity.testBit v then c.polarity ^^^ 1 <<< v else c.polarity

/-- The table of a literal. -/
def literalTable (n : Nat) (literal : Nat × Bool) : TruthTable n :=
  let t := TruthTable.var n literal.1
  if literal.2 then t else t.not

/-- The table of a cube over `n` variables. -/
def toTable (n : Nat) (c : Cube) : TruthTable n :=
  c.literals.foldl (fun t literal => t.and (literalTable n literal)) (.one n)

end Cube

/-! ## Covers -/

/-- A sum of cubes and the function it realises. -/
structure Cover (n : Nat) where
  cubes : List Cube
  table : TruthTable n
deriving DecidableEq, Repr

namespace Cover

variable {n : Nat}

/-- The greatest number below `top` with a property. -/
def highest? (p : Nat → Bool) : (top : Nat) → Option { v : Nat // v < top }
  | 0 => none
  | top + 1 =>
      if p top then some ⟨top, Nat.lt_succ_self top⟩
      else (highest? p top).map fun v => ⟨v.1, Nat.lt_succ_of_lt v.2⟩

/-- The function `low` where variable `v` is false and `high` where it is true. -/
def select (v : Nat) (low high : TruthTable n) : TruthTable n :=
  let x := TruthTable.var n v
  (low.andNot x).or (high.and x)

/-- A cover between two bounds that depend on no variable from `top` on. -/
def below (top : Nat) (lower upper : TruthTable n) : Except Fault (Cover n) :=
  if lower.isZero then .ok ⟨[], .zero n⟩
  else if upper.isOne then .ok ⟨[.empty], .one n⟩
  else
    match highest? (fun v => lower.hasVar v || upper.hasVar v) top with
    | none => .error (.noSupportBelow top)
    | some ⟨v, _⟩ => do
        let lower0 := lower.cofactor v false
        let lower1 := lower.cofactor v true
        let upper0 := upper.cofactor v false
        let upper1 := upper.cofactor v true
        let negative ← below v (lower0.andNot upper1) upper0
        let positive ← below v (lower1.andNot upper0) upper1
        let left := (lower0.andNot negative.table).or (lower1.andNot positive.table)
        let rest ← below v left (upper0.and upper1)
        .ok {
          cubes := negative.cubes.map (·.withLiteral v false) ++
            positive.cubes.map (·.withLiteral v true) ++ rest.cubes
          table := (select v negative.table positive.table).or rest.table }
termination_by top

/-- An irredundant sum of products that contains `lower` and is contained in `upper`. -/
def between (lower upper : TruthTable n) : Except Fault (Cover n) :=
  if lower.implies upper then below n lower upper else .error .emptyInterval

/-- The number of literals that a sum costs; a cube without literals counts as one. -/
def literalCount (cubes : List Cube) : Nat := cubes.foldl (fun n c => n + max c.size 1) 0

end Cover

end Gatework
