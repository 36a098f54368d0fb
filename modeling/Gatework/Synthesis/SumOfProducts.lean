import Gatework.Builder.Growth
import Gatework.Cover

/-!
# Two-level synthesis

A function is built as a sum of products.  Both the function and its complement are covered, and the
cover with fewer literals is built, with a complement on the output if it covers the complement.
Where a care set is given, the assignments outside of it may go either way.
-/

namespace Gatework

/-- Where a function must be true and where it must be false. -/
structure Requirement (n : Nat) where
  on : TruthTable n
  off : TruthTable n

/-- The requirement of a function on a care set, on all assignments if there is none. -/
def Requirement.of {n : Nat} (f : TruthTable n) : Option (TruthTable n) → Requirement n
  | some care => ⟨f.and care, care.andNot f⟩
  | none => ⟨f, f.not⟩

namespace SumOfProducts

/-- The product of the literals of a cube, as a tree. -/
def addCube (inputs : Array Link) (maxArity : Nat) (c : Cube) : Build Link := do
  let literals ← c.literals.mapM fun (v, positive) =>
    match inputs[v]? with
    | some l => (return l.invertIf (!positive) : Build Link)
    | none => throw .internal
  Builder.addTree (.gate .and) literals maxArity

/-- The sum of cubes, as a tree of trees. -/
def addCubes (inputs : Array Link) (maxArity : Nat) (cubes : List Cube) : Build Link := do
  let terms ← cubes.mapM (addCube inputs maxArity)
  Builder.addTree (.gate .or) terms maxArity

/-- The construction of a function that meets a requirement. -/
def addFunction {n : Nat} (inputs : Array Link) (maxArity : Nat) (r : Requirement n) :
    Build Link := do
  if r.on.isZero then Builder.addConst false
  else if r.off.isZero then Builder.addConst true
  else
    let direct ← (Cover.between r.on r.off.not : Except Fault (Cover n))
    let complement ← (Cover.between r.off r.on.not : Except Fault (Cover n))
    if Cover.literalCount complement.cubes < Cover.literalCount direct.cubes then
      return (← addCubes inputs maxArity complement.cubes).invert
    else addCubes inputs maxArity direct.cubes

/-- A network with one output that meets a requirement. -/
def synthesize {n : Nat} (r : Requirement n) (maxArity : Nat) : Except Fault Subnet :=
  Build.toSubnet (do
    let inputs ← Builder.addInputs n
    discard (Builder.addOutput (← addFunction inputs.toArray maxArity r))) .simplifying

end SumOfProducts

end Gatework
