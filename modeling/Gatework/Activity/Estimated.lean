import Gatework.Activity.Basic
import Gatework.Store

/-!
# Estimated activity

The probability that a value is one is computed from the probabilities of the operands as if these
were independent.  A value that is one with probability `p` at every tick changes with probability
`2p(1 - p)`.
-/

namespace Gatework

namespace Estimate

/-- The distribution of the number of operands that are one, with one operand more: entry `k` is the
probability of `k` ones. -/
def addOperand (distribution : List Float) (p : Float) : List Float :=
  let stay := (distribution ++ [0]).map (· * (1 - p))
  let rise := 0 :: distribution.map (· * p)
  stay.zipWith (· + ·) rise

/-- The distribution of the number of operands that are one. -/
def distribution (operands : List Float) : List Float := operands.foldl addOperand [1]

/-- The members of a list at odd positions. -/
def oddMembers {α : Type} : List α → List α
  | _ :: y :: rest => y :: oddMembers rest
  | _ => []

/-- The sum of a list of probabilities. -/
def sum (ps : List Float) : Float := ps.foldl (· + ·) 0

/-- The product of a list of probabilities. -/
def product (ps : List Float) : Float := ps.foldl (· * ·) 1

/-- The probability that a gate without complement is one. -/
def positiveGate (operands : List Float) : Gate → Except Fault Float
  | .zero => .ok 0
  | .one => .ok 1
  | .buf | .output =>
      match operands with
      | p :: _ => .ok p
      | [] => .error .internal
  | .and => .ok (product operands)
  | .or => .ok (1 - product (operands.map (1 - ·)))
  | .xor => .ok (sum (oddMembers (distribution operands)))
  | .maj => .ok (sum ((distribution operands).drop (operands.length / 2 + 1)))
  | .input | .not | .nand | .nor | .xnor => .error .internal

/-- The probability of the complement if `flag` says so. -/
def complementIf (p : Float) (flag : Bool) : Float := if flag then 1 - p else p

/-- The probability that a gate is one. -/
def gate (g : Gate) (operands : List Float) : Except Fault Float :=
  (positiveGate operands g.positive.1).map (complementIf · g.positive.2)

/-- The probability that the value of a composite is one. -/
abbrev CompositeEstimate := (type : Nat) → List Float → Except Fault Float

/-- The probability that a link reads one. -/
def read (known : Array Float) (l : Link) : Except Fault Float :=
  match known[l.entry]? with
  | some p => .ok (complementIf p l.inverted)
  | none => .error .internal

/-- Appends the probability of the next cell. -/
def cell (composite : CompositeEstimate) (inputs : List Float) (known : Array Float) (c : Cell) :
    Except Fault (Array Float) := do
  if c.isInput then return known.push (← inputProbability inputs known.size)
  else
    let operands ← c.links.mapM (read known)
    match c.kind.symbol with
    | .gate g => return known.push (← gate g operands)
    | .cell => return known.push (← composite c.kind.type operands)

/-- The probabilities that the entries of a network are one. -/
def network (composite : CompositeEstimate) (net : Subnet) (inputs : List Float) :
    Except Fault (Array Float) :=
  net.cells.toList.foldlM (cell composite inputs) #[]

/-- The estimate for composites whose implementations are at positions below `limit`: the first
output of the implementation, or one half if there is none. -/
def compositeBelow (store : Store) (limit : Nat) : CompositeEstimate := fun type operands =>
  match store.types[type]? with
  | none => .error .internal
  | some t =>
      match t.implementation with
      | none => .ok 0.5
      | some i =>
          if _h : i < limit then
            match store.subnets[i]? with
            | none => .error .internal
            | some net => do
                let known ← network (compositeBelow store i) net operands
                match known[net.outputStart]? with
                | some p => .ok p
                | none => .error .internal
          else .error .internal
termination_by limit

end Estimate

/-- The activity of a network, estimated from the probabilities of its inputs. -/
def Store.estimatedActivity (store : Store) (net : Subnet) (probabilities : List Float) :
    Except Fault Activity := do
  checkProbabilities probabilities net.numInputs
  let known ← Estimate.network (Estimate.compositeBelow store store.subnets.size) net probabilities
  return {
    switching := known.map fun p => (2 * p * (1 - p)).toFloat32
    onState := known.map Float.toFloat32
    counts := none }

end Gatework
