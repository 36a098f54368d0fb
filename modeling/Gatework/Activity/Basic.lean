import Gatework.Fault

/-!
# Switching activity

The activity of a network says for every entry how often its value changes and how often it is one.
It is counted over the ticks of a simulation, or estimated from probabilities; only the former knows
the two directions of a change apart.
-/

namespace Gatework

/-- The changes of every entry over a number of ticks, by direction. -/
structure ToggleCounts where
  ticks : Nat
  rises : Array Nat
  falls : Array Nat

/-- The activity of every entry of a network. -/
structure Activity where
  /-- The probability that the value changes between two ticks. -/
  switching : Array Float32
  /-- The probability that the value is one. -/
  onState : Array Float32
  /-- The changes that were counted, if the activity was simulated. -/
  counts : Option ToggleCounts

namespace Activity

/-- The number of entries. -/
def size (a : Activity) : Nat := a.switching.size

/-- The sum of the switching probabilities, in double precision. -/
def total (a : Activity) : Float := a.switching.foldl (fun sum p => sum + p.toFloat) 0

/-- A count in single precision. -/
def ofCount (n : Nat) : Float32 := (UInt64.ofNat n).toFloat32

/-- The share of the steps between ticks at which one of the changes happens.  An estimate divides
the switching probability evenly between the directions. -/
def rate (a : Activity) (direction : ToggleCounts → Array Nat) (entry : Nat) : Float32 :=
  match a.counts with
  | some c => ofCount ((direction c).getD entry 0) / ofCount (c.ticks - 1)
  | none => a.switching.getD entry 0 / 2

/-- The rate of changes from zero to one. -/
def riseRate (a : Activity) (entry : Nat) : Float32 := a.rate (·.rises) entry

/-- The rate of changes from one to zero. -/
def fallRate (a : Activity) (entry : Nat) : Float32 := a.rate (·.falls) entry

end Activity

/-- Probabilities of the inputs: one for each of `inputs`, or none, which means one half for all. -/
def checkProbabilities (given : List Float) (inputs : Nat) : Except Fault Unit :=
  if given.isEmpty || given.length == inputs then .ok ()
  else .error (.wrongProbabilities given.length inputs)

/-- The probability that an input is one. -/
def inputProbability (given : List Float) (input : Nat) : Except Fault Float :=
  if given.isEmpty then .ok 0.5
  else
    match given[input]? with
    | some p => .ok p
    | none => .error .internal

end Gatework
