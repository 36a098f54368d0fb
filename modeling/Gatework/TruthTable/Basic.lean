import Gatework.Fault

/-!
# Truth tables

A Boolean function of `n` variables is tabulated by `2 ^ n` bits: bit `x` is the value on the
assignment whose variable `v` is bit `v` of `x`, so variable `0` is the least significant selector.
The bits form one `BitVec (2 ^ n)`, hence a table has no unused bits and two tables are equal
exactly when they agree on every assignment.

Cofactors and polarity flips are computed on all assignments at once, by masking with the bits of a
variable and shifting by the distance `2 ^ v` between the two halves that the variable selects.
-/

namespace Gatework

/-- A Boolean function of `n` variables, tabulated over all assignments. -/
@[ext]
structure TruthTable (n : Nat) where
  bits : BitVec (2 ^ n)
deriving DecidableEq, Repr

namespace TruthTable

variable {n : Nat}

/-- The value on the assignment encoded by `x`. -/
def value (t : TruthTable n) (x : Nat) : Bool := t.bits.getLsbD x

/-- The table read as a binary number. -/
def toNat (t : TruthTable n) : Nat := t.bits.toNat

/-- The table whose bits are the low binary digits of `v`. -/
def ofNat (n v : Nat) : TruthTable n := ⟨BitVec.ofNat _ v⟩

/-! ## Tabulating a function -/

/-- The number whose bit `x`, for `x < 2 ^ n`, is `f (start + x)`. -/
def pack (f : Nat → Bool) : (n : Nat) → (start : Nat) → Nat
  | 0, start => (f start).toNat
  | n + 1, start => pack f n start ||| pack f n (start + 2 ^ n) <<< 2 ^ n

/-- The table of a function of assignments. -/
def ofFn (n : Nat) (f : Nat → Bool) : TruthTable n := ofNat n (pack f n 0)

/-! ## Constants and variables -/

/-- The constant function `value`. -/
def const (n : Nat) (value : Bool) : TruthTable n :=
  if value then ⟨BitVec.allOnes _⟩ else ⟨0⟩

/-- The constant false. -/
def zero (n : Nat) : TruthTable n := const n false

/-- The constant true. -/
def one (n : Nat) : TruthTable n := const n true

/-- Of the `2 ^ n` assignments, those in which variable `v` is set, as a bit mask.  A new top
variable selects the upper half; any other one repeats its pattern in both halves. -/
def variableMask : (n : Nat) → (v : Nat) → Nat
  | 0, _ => 0
  | n + 1, v =>
      if v = n then (valuesOf (2 ^ n) - 1) <<< 2 ^ n
      else
        let half := variableMask n v
        half ||| half <<< 2 ^ n

/-- The function that reads off variable `v`. -/
def var (n v : Nat) : TruthTable n := ofNat n (variableMask n v)

/-! ## Pointwise operations -/

/-- The complement. -/
def not (t : TruthTable n) : TruthTable n := ⟨~~~t.bits⟩

/-- The conjunction. -/
def and (s t : TruthTable n) : TruthTable n := ⟨s.bits &&& t.bits⟩

/-- The disjunction. -/
def or (s t : TruthTable n) : TruthTable n := ⟨s.bits ||| t.bits⟩

/-- The exclusive disjunction. -/
def xor (s t : TruthTable n) : TruthTable n := ⟨s.bits ^^^ t.bits⟩

/-- What `s` has and `t` does not. -/
def andNot (s t : TruthTable n) : TruthTable n := s.and t.not

/-- Whether the function is constantly false. -/
def isZero (t : TruthTable n) : Bool := t.bits == 0

/-- Whether the function is constantly true. -/
def isOne (t : TruthTable n) : Bool := t.bits == BitVec.allOnes _

/-- Whether `t` holds wherever `s` does. -/
def implies (s t : TruthTable n) : Bool := (s.andNot t).isZero

/-- The number of set bits among the low `2 ^ n` bits of a number. -/
def countBits : (n : Nat) → Nat → Nat
  | 0, x => x % 2
  | n + 1, x => countBits n (x % valuesOf (2 ^ n)) + countBits n (x >>> 2 ^ n)

/-- The number of assignments on which the function holds. -/
def countOnes (t : TruthTable n) : Nat := countBits n t.toNat

/-! ## Single variables -/

/-- The function with variable `v` fixed to `value`, still over all variables. -/
def cofactor (t : TruthTable n) (v : Nat) (value : Bool) : TruthTable n :=
  let mask := (var n v).bits
  if value then
    let half := t.bits &&& mask
    ⟨half ||| half >>> 2 ^ v⟩
  else
    let half := t.bits &&& ~~~mask
    ⟨half ||| half <<< 2 ^ v⟩

/-- The function with variable `v` complemented. -/
def flip (t : TruthTable n) (v : Nat) : TruthTable n :=
  let mask := (var n v).bits
  ⟨(t.bits &&& mask) >>> 2 ^ v ||| (t.bits &&& ~~~mask) <<< 2 ^ v⟩

/-- Existential quantification of variable `v`. -/
def quantify (t : TruthTable n) (v : Nat) : TruthTable n :=
  (t.cofactor v false).or (t.cofactor v true)

/-- The variables of the function that are set in a bit mask, in ascending order. -/
def variablesIn (n mask : Nat) : List Nat := (List.range n).filter mask.testBit

/-- Existential quantification of every variable set in `mask`. -/
def quantifyAll (t : TruthTable n) (mask : Nat) : TruthTable n :=
  (variablesIn n mask).foldl quantify t

/-- The function with every variable set in `mask` fixed to false. -/
def clearAll (t : TruthTable n) (mask : Nat) : TruthTable n :=
  (variablesIn n mask).foldl (fun s v => s.cofactor v false) t

/-- The function with every variable set in `mask` complemented. -/
def flipAll (t : TruthTable n) (mask : Nat) : TruthTable n :=
  (variablesIn n mask).foldl flip t

/-- Whether the function depends on variable `v`. -/
def hasVar (t : TruthTable n) (v : Nat) : Bool := t.cofactor v false != t.cofactor v true

/-- The variables the function depends on, in ascending order. -/
def support (t : TruthTable n) : List Nat := (List.range n).filter t.hasVar

/-- A list of positions as a bit mask. -/
def maskOf (positions : List Nat) : Nat := positions.foldl (fun m v => m ||| 1 <<< v) 0

/-- The support as a bit mask. -/
def supportMask (t : TruthTable n) : Nat := maskOf t.support

/-! ## Renaming variables -/

/-- The assignment that gives variable `vars[i]` the value of bit `i` of `y` and every other
variable false. -/
def spread (vars : List Nat) (y : Nat) : Nat :=
  vars.zipIdx.foldl (fun x (v, i) => if y.testBit i then x ||| 1 <<< v else x) 0

/-- The function over the listed variables only: new variable `i` stands for `vars[i]`.  It is the
same function when the listed variables cover the support. -/
def project (t : TruthTable n) (vars : List Nat) : TruthTable vars.length :=
  ofFn vars.length fun y => t.value (spread vars y)

end TruthTable

end Gatework
