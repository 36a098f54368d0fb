import Gatework.Synthesis.SumOfProducts

/-!
# Synthesis by bi-decomposition

A function is split as `f = g op h`, where `op` is a disjunction, a conjunction or an exclusive
disjunction, `g` does not depend on a set `right` of variables and `h` not on a set `left`.  The two
parts are requirements themselves: any functions that meet them combine to one that meets the
requirement of `f`.  Each part depends on fewer variables, so the splitting ends; where no split is
found, the function is built as a sum of products.
-/

namespace Gatework

namespace BiDecomposition

variable {n : Nat}

/-- The gates that join the two parts. -/
inductive Join where
  | or
  | and
  | xor
deriving DecidableEq, Repr

/-- A split: the gate, the variables that only the first part sees, and those that only the second
part sees, as bit masks. -/
structure Split where
  join : Join
  left : Nat
  right : Nat
deriving DecidableEq, Repr

/-- The number of variables that only one part sees. -/
def Split.score (n : Nat) (s : Split) : Nat :=
  (TruthTable.variablesIn n s.left).length + (TruthTable.variablesIn n s.right).length

/-- Whether a requirement is met by a disjunction of two such parts. -/
def orSeparable (r : Requirement n) (left right : Nat) : Bool :=
  ((r.on.and (r.off.quantifyAll right)).and (r.off.quantifyAll left)).isZero

/-- The two parts of an exclusive disjunction. -/
def xorParts (f : TruthTable n) (left right : Nat) : TruthTable n × TruthTable n :=
  let g := f.clearAll right
  let cleared := f.clearAll left
  (g, cleared.xor (cleared.clearAll right))

/-- The requirement of the complement. -/
def complement (r : Requirement n) : Requirement n := ⟨r.off, r.on⟩

/-- Whether a requirement can be split by a gate along two sets of variables. -/
def separable (join : Join) (r : Requirement n) (left right : Nat) : Bool :=
  match join with
  | .or => orSeparable r left right
  | .and => orSeparable (complement r) left right
  | .xor =>
      let (g, h) := xorParts r.on left right
      g.xor h == r.on

/-- Gives a variable to one of the two sets if the split stays possible, preferring the first. -/
def enlarge (join : Join) (r : Requirement n) (s : Nat × Nat) (v : Nat) : Nat × Nat :=
  let (left, right) := s
  if (left ||| right).testBit v then s
  else if separable join r (left ||| 1 <<< v) right then (left ||| 1 <<< v, right)
  else if separable join r left (right ||| 1 <<< v) then (left, right ||| 1 <<< v)
  else s

/-- The split grown from a pair of variables, if the pair can be separated. -/
def grow? (join : Join) (r : Requirement n) (vars : List Nat) (pair : Nat × Nat) : Option Split :=
  let start := (1 <<< pair.1, 1 <<< pair.2)
  if separable join r start.1 start.2 then
    let (left, right) := vars.foldl (enlarge join r) start
    some ⟨join, left, right⟩
  else none

/-- The pairs of a list, in the order of their first and then of their second element. -/
def pairs : List Nat → List (Nat × Nat)
  | [] => []
  | v :: vs => vs.map (v, ·) ++ pairs vs

/-- The first of the splits with the highest score. -/
def widest? (n : Nat) (splits : List Split) : Option Split :=
  splits.foldl (fun best s =>
    match best with
    | none => some s
    | some b => if b.score n < s.score n then some s else some b) none

/-- The widest split by one gate. -/
def bestSplit? (join : Join) (r : Requirement n) (vars : List Nat) : Option Split :=
  widest? n ((pairs vars).filterMap (grow? join r vars))

/-- The widest split by any gate.  An exclusive disjunction is tried only where every assignment is
cared for. -/
def anySplit? (r : Requirement n) (vars : List Nat) : Option Split :=
  let joins := if (r.on.or r.off).isOne then [Join.or, .and, .xor] else [.or, .and]
  widest? n (joins.filterMap fun join => bestSplit? join r vars)

/-- A link and the function it realises. -/
structure Realized (n : Nat) where
  link : Link
  table : TruthTable n

/-- Builds a requirement as a sum of products. -/
def addCover (inputs : Array Link) (maxArity : Nat) (r : Requirement n) : Build (Realized n) := do
  let cover ← (Cover.between r.on r.off.not : Except Fault (Cover n))
  return ⟨← SumOfProducts.addCubes inputs maxArity cover.cubes, cover.table⟩

/-- Builds two parts whose disjunction meets a requirement. -/
def addParts (build : Requirement n → Build (Realized n)) (r : Requirement n) (left right : Nat) :
    Build (Realized n × Realized n) := do
  let offLeft := r.off.quantifyAll left
  let g ← build ⟨(r.on.and offLeft).quantifyAll right, r.off.quantifyAll right⟩
  let h ← build ⟨(r.on.andNot g.table).quantifyAll left, offLeft⟩
  return (g, h)

/-- Builds a requirement by splitting it as long as possible.  Every part depends on fewer
variables, so `fuel` has to exceed their number. -/
def decompose (inputs : Array Link) (maxArity : Nat) :
    (fuel : Nat) → Requirement n → Build (Realized n)
  | 0, _ => throw .internal
  | fuel + 1, r => do
      if r.on.isZero then return ⟨← Builder.addConst false, .zero n⟩
      else if r.off.isZero then return ⟨← Builder.addConst true, .one n⟩
      else
        let vars := TruthTable.variablesIn n (r.on.supportMask ||| r.off.supportMask)
        match if vars.length ≤ 1 then none else anySplit? r vars with
        | none => addCover inputs maxArity r
        | some ⟨.or, left, right⟩ => do
            let (g, h) ← addParts (decompose inputs maxArity fuel) r left right
            return ⟨← Builder.addCell (.gate .or) [g.link, h.link], g.table.or h.table⟩
        | some ⟨.and, left, right⟩ => do
            let (g, h) ← addParts (decompose inputs maxArity fuel) (complement r) left right
            return ⟨← Builder.addCell (.gate .and) [g.link.invert, h.link.invert],
              (g.table.or h.table).not⟩
        | some ⟨.xor, left, right⟩ => do
            let (g, h) := xorParts r.on left right
            let g ← decompose inputs maxArity fuel ⟨g, g.not⟩
            let h ← decompose inputs maxArity fuel ⟨h, h.not⟩
            return ⟨← Builder.addCell (.gate .xor) [g.link, h.link], g.table.xor h.table⟩

/-- A network with one output that meets a requirement. -/
def synthesize (r : Requirement n) (maxArity : Nat) : Except Fault Subnet :=
  Build.toSubnet (do
    let inputs ← Builder.addInputs n
    let realized ← decompose inputs.toArray maxArity (n + 1) r
    discard (Builder.addOutput realized.link)) .simplifying

end BiDecomposition

end Gatework
