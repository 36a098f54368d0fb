import Gatework.Builder.Growth
import Gatework.TruthTable.Any

/-!
# Transforms of functions

Two functions are equivalent if one becomes the other by complementing inputs, permuting inputs and
complementing the output.  A `Transform` is one such change.  It acts on tables, and on networks by
wiring: input `i` of the new network drives input `perm[i]` of the old one.
-/

namespace Gatework

/-- A change of the inputs and the output of a function.  The new function at the assignment `y` is
the old one at the assignment `x` with `x[perm[i]] = y[i]`, complemented if `mask` has bit `i`; the
value is complemented if `negated`. -/
structure Transform where
  perm : List Nat
  mask : Nat
  negated : Bool
deriving DecidableEq, Repr

namespace Transform

/-- The transform that changes nothing.  An input number is a byte, so a number of inputs beyond a
byte counts by its lowest byte. -/
def identity (n : Nat) : Transform := ⟨List.range (n % 256), 0, false⟩

/-- The number of inputs. -/
def numVars (t : Transform) : Nat := t.perm.length

/-- Whether every input number is below `variables`. -/
def isInRange (t : Transform) : Bool := t.perm.all fun p => decide (p < t.numVars)

/-- The assignment of the old function that belongs to an assignment of the new one. -/
def source (t : Transform) (y : Nat) : Nat := TruthTable.spread t.perm (y ^^^ t.mask)

/-- The transformed function. -/
def onTable {n : Nat} (t : Transform) (f : TruthTable n) : TruthTable n :=
  .ofFn n fun y => f.value (t.source y) ^^ t.negated

/-- The last position of a number in a list, zero if there is none. -/
def lastPosition (p : Nat) (ps : List Nat) : Nat :=
  ps.zipIdx.foldl (fun found (q, i) => if q = p then i else found) 0

/-- The transform that undoes this one. -/
def inverse (t : Transform) : Transform where
  perm := (List.range t.numVars).map fun p => lastPosition p t.perm
  mask := TruthTable.maskOf ((t.perm.zipIdx.filter fun (_, i) => t.mask.testBit i).map (·.1))
  negated := t.negated

/-- Transforms a table that has as many variables. -/
def apply (t : Transform) (f : AnyTable) : Except Fault AnyTable :=
  if t.numVars = f.numVars then
    if t.isInRange then .ok (t.onTable f.table).any else .error .internal
  else .error (.transformOfTable t.numVars f.numVars)

/-- The transform that undoes this one, whose input numbers have to be in range. -/
def inverse? (t : Transform) : Except Fault Transform :=
  if t.isInRange then .ok t.inverse else .error .internal

/-- The links that drive the inputs of the old network, given the inputs of the new one. -/
def wiring (t : Transform) (inputs : List Link) : List Link :=
  ((t.perm.zip inputs).zipIdx.foldl
    (fun bound ((p, l), i) => bound.setIfInBounds p (l.invertIf (t.mask.testBit i)))
    inputs.toArray).toList

/-- The construction of the transformed network. -/
def build (t : Transform) (net : Subnet) : Build Unit := do
  let inputs ← Builder.addInputs net.numInputs
  let shown ← Builder.addInstance net (t.wiring inputs)
  match shown with
  | l :: _ => discard (Builder.addOutput (l.invertIf t.negated))
  | [] => throw .internal

/-- A network for the transformed function of a network with one output. -/
def onSubnet (t : Transform) (net : Subnet) : Except Fault Subnet :=
  if net.numOutputs ≠ 1 then .error .transformOutputs
  else if net.numInputs ≠ t.numVars then
    .error (.transformOfSubnet t.numVars net.numInputs)
  else if t.isInRange then (t.build net).toSubnet {}
  else .error .internal

end Transform

end Gatework
