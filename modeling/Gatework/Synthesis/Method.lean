import Gatework.Npn.Catalogue
import Gatework.Synthesis.BiDecomposition

/-!
# Methods of synthesis

A method makes a network with one output for a function.  Two methods construct it; the third looks
it up in a catalogue and takes the cheapest implementation whose cells are narrow enough, and so may
find nothing.
-/

namespace Gatework

/-- How a function is turned into a network. -/
inductive Method where
  | sumOfProducts
  | biDecomposition
  | catalogue (c : Catalogue)

namespace Method

/-- The name of a method. -/
def name : Method → String
  | sumOfProducts => "isop"
  | biDecomposition => "bidecomp"
  | catalogue _ => "npn"

/-- The widest cell of a network. -/
def maxFanin (net : Subnet) : Nat := (net.cells.toList.map (·.links.length)).foldl max 0

/-- The number of a network in a list that is narrow enough and has the fewest cells, then the least
depth; of equally good ones the first. -/
def cheapest? (store : Store) (maxArity : Nat) (networks : List Nat) : Option Nat :=
  let costs := networks.zipIdx.filterMap fun (position, i) => do
    let net ← store.subnets[position]?
    if maxFanin net ≤ maxArity then some (net.cellCount, net.pathLength.2, i) else none
  (costs.foldl (fun best cost =>
    match best with
    | none => some cost
    | some b =>
        if cost.1 < b.1 || (cost.1 == b.1 && cost.2.1 < b.2.1) then some cost else some b)
    none).map (·.2.2)

/-- A network that meets the requirement of a function on a care set, whose cells have at most
`max 2 maxArity` operands.  A catalogue ignores the care set and is strict about the operands. -/
def synthesize {n : Nat} (m : Method) (store : Store) (f : TruthTable n)
    (care : Option (TruthTable n)) (maxArity : Nat) : Except Fault (Option Subnet) :=
  match m with
  | sumOfProducts => (SumOfProducts.synthesize (.of f care) maxArity).map some
  | biDecomposition => (BiDecomposition.synthesize (.of f care) maxArity).map some
  | catalogue c =>
      match c.find? f with
      | none => .ok none
      | some finding =>
          match cheapest? store maxArity finding.networks with
          | none => .ok none
          | some i => (finding.realize store i).map some

/-- As `synthesize`, for a function and a care set whose numbers of variables are known only when the
program runs. -/
def synthesizeAny (m : Method) (store : Store) (f : AnyTable) (care : Option AnyTable)
    (maxArity : Nat) : Except Fault (Option Subnet) :=
  match m, care with
  | catalogue _, _ | _, none => m.synthesize store f.table none maxArity
  | _, some care =>
      match care.as? f.numVars with
      | some care => m.synthesize store f.table (some care) maxArity
      | none => .error .differentVariables

end Method

/-- A way to turn functions into networks over a store, to which it adds what it makes. -/
structure Resynthesizer where
  name : String
  resynthesize (store : Store) {n : Nat} (f : TruthTable n) (care : Option (TruthTable n))
    (maxArity : Nat) : Except Fault (Store × Option Subnet)

/-- A method that stores its networks. -/
def Method.resynthesizer (m : Method) : Resynthesizer where
  name := m.name
  resynthesize store _ f care maxArity := do
    match ← m.synthesize store f care maxArity with
    | none => return (store, none)
    | some net => return ((store.addSubnet net).1, some net)

instance : Coe Method Resynthesizer := ⟨Method.resynthesizer⟩

instance : Coe (List Method) (List Resynthesizer) := ⟨List.map Method.resynthesizer⟩

end Gatework
