import Gatework.Handle
import Gatework.Subnet.Basic

/-!
# Broken contracts

Operations of the library have preconditions: a link must name a living entry, a cut must separate
its root from the inputs, two tables must range over the same variables.  A call that breaks one
yields a `Fault` in place of a result.  The fault names the cause; `Fault.message` is its only
wording.  Errors in data read from outside are not faults and have types of their own.
-/

namespace Gatework

/-- A precondition that a call did not meet. -/
inductive Fault where
  /-- A position outside of what it indexes, or a number outside of its range. -/
  | internal
  /-- A loop that was still going on when its bound was reached. -/
  | endless
  /-- A random number out of none. -/
  | emptyRange
  -- tables
  | tableTooWide (numVars : Nat)
  | noVariableAmong (index numVars : Nat)
  | noVariable (index : Nat)
  | tooFewWords (given numVars : Nat)
  | tooWideForWord
  | spansWords (numVars : Nat)
  | differentVariables
  | emptyInterval
  | noSupportBelow (bound : Nat)
  -- store
  | noBuiltinType
  | noHandle (kind : RecordKind) (position : Nat)
  | wrongTag (handle : Handle) (expected : RecordKind)
  | foreignHandle (handle : Handle) (expected : RecordKind)
  | nullHandle (kind : RecordKind)
  | danglingHandle (kind : RecordKind) (handle : Handle) (size : Nat)
  -- builders
  | brokenSubnet (violation : Violation)
  | notAddable (symbol : String)
  | badArity (type : String) (links : Nat)
  | notRegroupable (symbol : String)
  | wrongInstance (inputs links : Nat)
  | unknownDriver (entry : Nat)
  | removedDriver (entry : Nat)
  | outputDriver (entry : Nat)
  | severalOutputs
  | wrongLeafCount (inputs leaves : Nat)
  | rootRemoved (root : Nat)
  | rootIsTerminal (root : Nat)
  | rootIsLeaf (root : Nat)
  | leafRemoved (leaf : Nat)
  | droppedDriver (entry : Nat)
  -- evaluation
  | noImplementation (type : String)
  | inputWithoutFunction
  | wrongStimulus
  | tooManyInputs (inputs : Nat)
  | coneTooWide (leaves : Nat)
  | inputNotLeaf (input root : Nat)
  -- cuts
  | cutSizeZero
  | tooManyRoots (roots size : Nat)
  -- classes of functions
  | transformOfTable (transform table : Nat)
  | transformOfSubnet (transform subnet : Nat)
  | transformOutputs
  | classRange (numVars : Nat)
  | catalogueOutputs
  -- synthesis
  | noOperandBits
  | wrongSynthesis (method : String) (inputs leaves : Nat)
  -- activity
  | tooFewTicks
  | wrongProbabilities (given inputs : Nat)
  | wrongReport (activity subnet : Nat)
deriving DecidableEq, Repr

/-- The most variables a truth table may range over. -/
def maxTableVariables : Nat := 24

/-- The most inputs or leaves over which a function is tabulated exhaustively. -/
def maxEvaluatedVariables : Nat := 16

/-- The wording of each fault. -/
def Fault.message : Fault → String
  | internal | endless | emptyRange => "internal"
  | tableTooWide n =>
      s!"truth table over {n} variables exceeds the limit of {maxTableVariables}"
  | noVariableAmong v n => s!"variable {v} out of range for {n} vars"
  | noVariable v => s!"variable {v} out of range"
  | tooFewWords given n => s!"{given} words supplied for a {n}-variable table"
  | tooWideForWord => "from_u64 needs at most 6 variables"
  | spansWords n => s!"table over {n} vars spans words"
  | differentVariables => "truth tables over different variable counts"
  | emptyInterval => "isop interval is empty: lower bound is not contained in upper bound"
  | noSupportBelow bound => s!"isop: non-constant bounds with no support below {bound}"
  | noBuiltinType => "composite cells have no built-in type"
  | noHandle kind position =>
      s!"{kind.name} slot index {position} does not fit in a handle"
  | wrongTag h kind =>
      s!"handle {h.hex} carries tag {h.tag} but a {kind.name} handle was expected"
  | foreignHandle h kind => s!"handle {h.hex} does not name a {kind.name}"
  | nullHandle kind => s!"null {kind.name} handle dereferenced"
  | danglingHandle kind h size =>
      s!"{kind.name} handle {h.hex} is out of bounds (len {size})"
  | brokenSubnet v => s!"subnet invariant violated: {v.message}"
  | notAddable symbol => s!"{symbol} cells are not added through add_cell"
  | badArity type links => s!"{type} does not accept {links} inputs"
  | notRegroupable symbol => s!"{symbol} cannot be regrouped into a tree"
  | wrongInstance inputs links =>
      s!"subnet with {inputs} inputs instantiated with {links} links"
  | unknownDriver e => s!"link to unknown entry {e}"
  | removedDriver e => s!"link to removed entry {e}"
  | outputDriver e => s!"link to output entry {e}"
  | severalOutputs => "replacement subnet must have a single output"
  | wrongLeafCount inputs leaves =>
      s!"replacement has {inputs} inputs but {leaves} leaves are bound"
  | rootRemoved root => s!"replacing removed entry {root}"
  | rootIsTerminal root => s!"entry {root} is an input or output and cannot be replaced"
  | rootIsLeaf root => s!"root {root} is bound as a leaf of its own replacement"
  | leafRemoved leaf => s!"leaf {leaf} was removed"
  | droppedDriver e => s!"entry {e} links to a dropped entry"
  | noImplementation type => s!"cell type '{type}' has no implementation to evaluate"
  | inputWithoutFunction => "input cells carry no function"
  | wrongStimulus => "simulation needs one stimulus vector per input"
  | tooManyInputs inputs =>
      s!"exhaustive evaluation of {inputs} inputs exceeds {maxEvaluatedVariables}"
  | coneTooWide leaves => s!"cone with {leaves} leaves exceeds {maxEvaluatedVariables}"
  | inputNotLeaf input root => s!"input {input} is not a leaf of the cut at {root}"
  | cutSizeZero => "cut size must be positive"
  | tooManyRoots roots size => s!"{roots} roots do not fit a cut of size {size}"
  | transformOfTable transform table =>
      s!"transform over {transform} vars applied to a {table}-var table"
  | transformOfSubnet transform subnet =>
      s!"transform over {transform} vars applied to a {subnet}-input subnet"
  | transformOutputs => "NPN transforms apply to single-output subnets"
  | classRange n => s!"class enumeration supports 1 to 4 inputs, got {n}"
  | catalogueOutputs => "only single-output subnets can be stored"
  | noOperandBits => "arithmetic operands need at least one bit"
  | wrongSynthesis method inputs leaves =>
      s!"{method} produced {inputs} inputs for a cut of {leaves} leaves"
  | tooFewTicks => "simulation needs at least two ticks"
  | wrongProbabilities given inputs =>
      s!"{given} input probabilities given for {inputs} inputs"
  | wrongReport activity subnet =>
      s!"activity of {activity} entries reported against a subnet of {subnet}"

end Gatework
