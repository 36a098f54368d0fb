import Std.Data.HashMap.Basic
import Gatework.Signal
import Gatework.Store

/-!
# Evaluating networks

A network is evaluated cell by cell, at all points of its signals at once.  A gate combines the
signals of its operands; a composite evaluates the subnet that implements it.  Because a composite
is always registered after its implementation, the positions of the implementations reached in this
way fall, which is what makes evaluation end.

`Store.simulate` gives the signals of every entry for given inputs, `Store.tabulate` the truth table
of every output, and `Store.tabulateCone` the function of one entry over a set of leaves that
separates it from the inputs.
-/

namespace Gatework

/-- The signals on the output ports of one entry. -/
abbrev Ports := List Signal

/-- The signal that a link reads from the ports of its driver. -/
def Ports.read (ports : Ports) (l : Link) : Except Fault Signal :=
  match ports[l.port.toNat]? with
  | some s => .ok (s.invertIf l.inverted)
  | none => .error .internal

/-- The signal that a gate without complement computes. -/
def Gate.positiveSignal (width : Nat) (operands : List Signal) : Gate → Except Fault Signal
  | .zero => .ok (.const width false)
  | .one => .ok (.const width true)
  | .buf | .output =>
      match operands with
      | s :: _ => .ok s
      | [] => .error .internal
  | .and => .ok (operands.foldl Signal.and (.const width true))
  | .or => .ok (operands.foldl Signal.or (.const width false))
  | .xor => .ok (operands.foldl Signal.xor (.const width false))
  | .maj =>
      if operands.all (width ≤ ·.width) then .ok (.majority width operands)
      else .error .internal
  | .input => .error .inputWithoutFunction
  | .not | .nand | .nor | .xnor => .error .internal

/-- The signal that a gate computes from the signals of its operands. -/
def Gate.signal (g : Gate) (width : Nat) (operands : List Signal) : Except Fault Signal :=
  (g.positive.1.positiveSignal width operands).map (·.invertIf g.positive.2)

/-- The meaning of composites: the signals on the ports of a cell type for given operands. -/
abbrev CompositeMeaning := (type : Nat) → List Signal → Except Fault Ports

/-- The signals on the ports of a cell. -/
def Cell.evaluate (composite : CompositeMeaning) (width : Nat) (c : Cell)
    (operands : List Signal) : Except Fault Ports :=
  match c.kind.symbol with
  | .gate g => (g.signal width operands).map ([·])
  | .cell => composite c.kind.type operands

/-- The signal read by a link from the entries evaluated so far. -/
def readEntry (values : Array Ports) (l : Link) : Except Fault Signal :=
  match values[l.entry]? with
  | some ports => ports.read l
  | none => .error .internal

/-- Evaluates the next cell of a network and appends its ports; input number `i` is entry `i`. -/
def evaluateNext (composite : CompositeMeaning) (width : Nat) (stimulus : Array Signal)
    (values : Array Ports) (c : Cell) : Except Fault (Array Ports) := do
  if c.isInput then
    match stimulus[values.size]? with
    | some s => .ok (values.push [s])
    | none => .error .internal
  else
    let operands ← c.links.mapM (readEntry values)
    return values.push (← c.evaluate composite width operands)

/-- The signals of every entry of a network. -/
def Subnet.simulate (composite : CompositeMeaning) (width : Nat) (net : Subnet)
    (stimulus : List Signal) : Except Fault (Array Ports) :=
  if stimulus.length = net.numInputs then
    net.cells.toList.foldlM (evaluateNext composite width stimulus.toArray) #[]
  else .error .wrongStimulus

/-- The first ports of the outputs of a simulated network. -/
def Subnet.outputSignals (net : Subnet) (values : Array Ports) : Except Fault (List Signal) :=
  net.outputs.mapM fun o => readEntry values (.of o)

namespace Store

/-- The meaning of the composites of a store whose implementations are at positions below
`limit`. -/
def meaningBelow (store : Store) (width : Nat) (limit : Nat) : CompositeMeaning :=
  fun type operands =>
    match store.types[type]? with
    | none => .error .internal
    | some t =>
        match t.implementation with
        | none => .error (.noImplementation t.name)
        | some i =>
            if _h : i < limit then
              match store.subnets[i]? with
              | none => .error .internal
              | some net => do
                  let values ← net.simulate (meaningBelow store width i) width operands
                  net.outputSignals values
            else .error .internal
termination_by limit

/-- The meaning of the composites of a store. -/
def meaning (store : Store) (width : Nat) : CompositeMeaning :=
  store.meaningBelow width store.subnets.size

/-- The signals of every entry for given inputs.  A network without inputs is evaluated over one
word. -/
def simulate (store : Store) (net : Subnet) (stimulus : List Signal) :
    Except Fault (Array Ports) :=
  let width := (stimulus.head?).elim 64 (·.width)
  net.simulate (store.meaning width) width stimulus

/-- The signals that run through all assignments of `n` variables.  They take up whole words, of which
below six variables some bits are no assignments. -/
def assignments (n : Nat) : List Signal :=
  (List.range n).map fun v => .ofWords (TruthTable.var n v).words

/-- The truth table of every output over all inputs. -/
def tabulate (store : Store) (net : Subnet) : Except Fault (List (TruthTable net.numInputs)) := do
  let n := net.numInputs
  if maxEvaluatedVariables < n then .error (.tooManyInputs n)
  else
    let values ← store.simulate net (assignments n)
    return (← net.outputSignals values).map fun s => .ofWords n s.words

/-! ## Cones -/

/-- The ports of the entries evaluated so far, by entry. -/
abbrev ConeValues := Std.HashMap Nat Ports

/-- The signal read by a link from the evaluated part of a cone. -/
def readCone (values : ConeValues) (l : Link) : Except Fault Signal :=
  match values[l.entry]? with
  | some ports => ports.read l
  | none => .error .internal

/-- Evaluates an entry and, before it, everything it reads that has no value yet; of several
operands the last one is visited first.  No path through a network is longer than its number of
cells, which is what `fuel` has to exceed. -/
def visitCone (cells : Array Cell) (composite : CompositeMeaning) (width root : Nat) :
    (fuel : Nat) → ConeValues → (entry : Nat) → Except Fault ConeValues
  | 0, _, _ => .error .internal
  | fuel + 1, values, entry =>
      if values.contains entry then .ok values
      else
        match cells[entry]? with
        | none => .error .internal
        | some c =>
            if c.isInput then .error (.inputNotLeaf entry root)
            else do
              let values ← c.drivers.reverse.foldlM
                (visitCone cells composite width root fuel) values
              let operands ← c.links.mapM (readCone values)
              return values.insert entry (← c.evaluate composite width operands)

/-- The values of the leaves of a cone: leaf number `i` is variable `i`. -/
def leafValues (leaves : List Nat) : ConeValues :=
  (leaves.zip (assignments leaves.length)).foldl (fun m (leaf, s) => m.insert leaf [s]) ∅

/-- The function of entry `root` with leaf `i` as variable `i`.  The leaves have to separate the
root from the inputs. -/
def tabulateCone (store : Store) (cells : Array Cell) (root : Nat) (leaves : List Nat) :
    Except Fault (TruthTable leaves.length) := do
  let n := leaves.length
  if maxEvaluatedVariables < n then .error (.coneTooWide n)
  else
    let width := 64 * wordCount n
    let values ← visitCone cells (store.meaning width) width root (cells.size + 1)
      (leafValues leaves) root
    return .ofWords n (← readCone values (.of root)).words

end Store

end Gatework
