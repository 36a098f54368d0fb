import Gatework.Activity.Simulated
import Gatework.Mapping.Selection

/-!
# Selecting for power

Among the candidates of one cut that arrive in time, the one with the least internal power is kept.
Across the cuts the least area flow decides, and of nearly equal ones the least switch flow: the
switching of the entry with its share of the switching of everything below.
-/

namespace Gatework

/-- The internal power of a cell: for every pin its energies times the rates of the changes there.  A
complemented pin exchanges the rates. -/
def Problem.power (p : Problem) (activity : Activity) : Realization → Float32
  | .cell c pins =>
      let costs := p.costsOf c
      let energy (xs : List Float32) (i : Nat) : Float32 := (xs.getD i 0).abs
      Cost.sum (pins.zipIdx.map fun (pin, i) =>
        let rise := activity.riseRate pin.entry
        let fall := activity.fallRate pin.entry
        let (rise, fall) := if pin.inverted then (fall, rise) else (rise, fall)
        energy costs.risePower i * rise + energy costs.fallPower i * fall)
  | _ => 0

namespace Selection

/-- The switching of an entry with its share of the switching below. -/
def switchFlow (p : Problem) (activity : Activity) (flow : Array Float32) (entry : Nat)
    (r : Realization) : Float32 :=
  activity.switching.getD entry 0 + Cost.sum (r.leaves.map (p.share flow))

/-- Of neighbouring candidates with the same cut the one with the least power; the kept ones are
listed with the latest first. -/
def keepLeastPower (power : Candidate → Float32) (kept : List Candidate) (c : Candidate) :
    List Candidate :=
  match kept with
  | [] => [c]
  | k :: rest =>
      if k.cut = c.cut then
        if power c < power k - Cost.slack then c :: rest else k :: rest
      else c :: k :: rest

/-- A place in the order of all numbers in single precision, where those that are no numbers come
last and the negative zero comes before the positive one. -/
def orderKey (x : Float32) : Int :=
  let bits := x.toBits.toNat
  if bits < valuesOf 31 then bits else valuesOf 31 - 1 - (bits : Int)

/-- The candidate of an entry that is picked, given the area flow and the switch flow below. -/
def pickLeastPower (p : Problem) (activity : Activity) (required : Array Float32)
    (switchFlows flow : Array Float32) (entry : Nat) (arrivals : Array Float32) :
    Option Candidate :=
  let time (c : Candidate) : Float32 := p.arrival arrivals c.realization
  let candidates := p.candidatesAt entry
  let deadline := required.getD entry Cost.infinite + Cost.slack
  let inTime := candidates.filter fun c => !decide (deadline < time c)
  let kept := (inTime.foldl (keepLeastPower fun c => p.power activity c.realization) []).reverse
  (firstBest? (fun c => (p.areaFlow flow c.realization,
      switchFlow p activity switchFlows entry c.realization))
    Cost.better kept).or
    (firstBest? (fun c => orderKey (time c)) (fun a b => decide (a < b)) candidates)

/-- The selection for low power. -/
def leastPower (p : Problem) : Except Fault Selection := do
  let activity ← p.store.simulatedActivity p.net p.options.ticks p.options.seed []
  let required := (earliest p).requiredTimes p
  return withFlow p (fun switchFlows flow entry arrivals =>
    let picked := pickLeastPower p activity required switchFlows flow entry arrivals
    let switchFlows := picked.elim switchFlows fun c =>
      switchFlows.setIfInBounds entry (switchFlow p activity switchFlows entry c.realization)
    (picked, switchFlows)) activity.switching

end Selection

end Gatework
