import Gatework.Cell

/-!
# Subnets

A subnet is a finished combinational network: a list of cells with the inputs at the front, the
outputs at the back, and every link pointing to an earlier entry that is not an output.  These rules
are part of the type, so every subnet is a directed acyclic graph whose entry order is topological.
`Subnet.ofCells` is the only way in; it reports the first place where a list of cells breaks a rule, which
is a `Violation`.
-/

namespace Gatework

/-- The ways in which a list of cells is not a subnet. -/
inductive Violation where
  /-- More inputs and outputs are declared than there are entries. -/
  | terminalsExceedSize (inputs outputs size : Nat)
  /-- Entry `entry` is an input behind the inputs, or something else among them. -/
  | inputPosition (entry : Nat)
  /-- Entry `entry` is an output before the outputs, or something else among them. -/
  | outputPosition (entry : Nat)
  /-- Entry `entry` reads an entry that does not come before it. -/
  | forwardLink (entry driver : Nat)
  /-- Entry `entry` reads an output. -/
  | drivenByOutput (entry driver : Nat)
deriving DecidableEq, Repr

/-- The wording of a violation. -/
def Violation.message : Violation → String
  | terminalsExceedSize i o n => s!"in_num {i} + out_num {o} exceeds size {n}"
  | inputPosition e => s!"entry {e} breaks the input prefix"
  | outputPosition e => s!"entry {e} breaks the output suffix"
  | forwardLink e d => s!"entry {e} links forward to entry {d}"
  | drivenByOutput e d => s!"entry {e} is driven by output {d}"

namespace Subnet

/-- The first rule that entry `i` breaks in a list of cells with `inputs` inputs whose outputs
start at `outputStart`. -/
def cellViolation? (cells : Array Cell) (inputs outputStart i : Nat) (c : Cell) :
    Option Violation :=
  if decide (i < inputs) != c.isInput then some (.inputPosition i)
  else if decide (outputStart ≤ i) != c.isOutput then some (.outputPosition i)
  else c.drivers.findSome? fun d =>
    if i ≤ d then some (.forwardLink i d)
    else if (cells[d]?).any Cell.isOutput then some (.drivenByOutput i d)
    else none

/-- The first rule that a list of cells breaks. -/
def violation? (cells : Array Cell) (inputs outputs : Nat) : Option Violation :=
  if cells.size < inputs + outputs then
    some (.terminalsExceedSize inputs outputs cells.size)
  else
    cells.toList.zipIdx.findSome? fun (c, i) =>
      cellViolation? cells inputs (cells.size - outputs) i c

end Subnet

/-- A finished combinational network. -/
structure Subnet where
  cells : Array Cell
  numInputs : Nat
  numOutputs : Nat
  valid : Subnet.violation? cells numInputs numOutputs = none
deriving DecidableEq

namespace Subnet

/-- The subnet with the given cells, or the first rule that they break. -/
def ofCells (cells : Array Cell) (inputs outputs : Nat) : Except Violation Subnet :=
  match h : violation? cells inputs outputs with
  | none => .ok ⟨cells, inputs, outputs, h⟩
  | some v => .error v

/-- The number of entries. -/
def size (s : Subnet) : Nat := s.cells.size

/-- The position of the first output. -/
def outputStart (s : Subnet) : Nat := s.size - s.numOutputs

/-- The number of entries that are neither inputs nor outputs. -/
def cellCount (s : Subnet) : Nat := s.size - s.numInputs - s.numOutputs

/-- The positions of the outputs. -/
def outputs (s : Subnet) : List Nat := List.range' s.outputStart s.numOutputs

/-- The link shown by output number `i`. -/
def outputLink? (s : Subnet) (i : Nat) : Option Link :=
  (s.cells[s.outputStart + i]?).bind fun c => c.links.head?

/-- The logic depth of every entry of a list of cells, each computed from the depths of the entries
before it. -/
def depthsOf (cells : Array Cell) : Array Nat :=
  cells.foldl (fun depths c => depths.push (c.depth fun i => depths.getD i 0)) #[]

/-- The logic depth of every entry. -/
def depths (s : Subnet) : Array Nat := depthsOf s.cells

/-- The least and the greatest depth over the outputs, both zero when there is none. -/
def pathLength (s : Subnet) : Nat × Nat :=
  let depths := s.depths
  match s.outputs.map fun o => depths.getD o 0 with
  | [] => (0, 0)
  | d :: ds => (ds.foldl min d, ds.foldl max d)

end Subnet

end Gatework
