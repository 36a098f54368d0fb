import Gatework.Activity.Basic
import Gatework.Evaluation
import Gatework.Random.Generator
import Gatework.TruthTable.Stored

/-!
# Simulated activity

Every input is driven by random words, the network is simulated on all of them at once, and the
changes of every entry between one tick and the next are counted, word by word.
-/

namespace Gatework

namespace Simulation

/-- Draws 64 values that are one with probability `p`, the first for the least significant bit. -/
def drawWord (p : Float) (g : Xoshiro) : Except Fault (UInt64 × Xoshiro) :=
  if p == 0.5 then .ok (Generator.next g)
  else
    (List.range 64).foldlM (fun (w, g) i => do
      let (b, g) ← Generator.chance p g
      return (if b then w ||| 1 <<< UInt64.ofNat i else w, g)) (0, g)

/-- Draws `count` words. -/
def drawWords (p : Float) : (count : Nat) → Xoshiro → Except Fault (List UInt64 × Xoshiro)
  | 0, g => .ok ([], g)
  | count + 1, g => do
      let (w, g) ← drawWord p g
      let (ws, g) ← drawWords p count g
      return (w :: ws, g)

/-- Draws the words of the inputs, one input after the other. -/
def drawStimulus (words : Nat) :
    (probabilities : List Float) → Xoshiro → Except Fault (List Signal)
  | [], _ => .ok []
  | p :: ps, g => do
      let (ws, g) ← drawWords p words g
      return .ofWords ws :: (← drawStimulus words ps g)

/-- The number of words that hold `ticks` values. -/
def wordsFor (ticks : Nat) : Nat := (ticks + 63) / 64

/-- The lowest `width` bits of a word. -/
def lowBits (width : Nat) : UInt64 :=
  if width < 64 then (1 <<< UInt64.ofNat width) - 1 else fullWord

/-- The number of set bits of a word. -/
def countOnes (w : UInt64) : Nat := TruthTable.countBits 6 w.toNat

/-- How often a signal has risen, fallen and been one so far, and its value at the last tick. -/
structure Tally where
  rises : Nat := 0
  falls : Nat := 0
  ones : Nat := 0
  last : Bool := false

/-- Counts one word more, of which the lowest `width` bits are ticks.  The value at the first tick of all
is not a change. -/
def Tally.addWord (isFirst : Bool) (width : Nat) (c : Tally) (word : UInt64) : Tally :=
  let valid := lowBits width
  let now := word &&& valid
  -- bit `t` is the value one tick before tick `t`
  let before := now <<< 1 ||| c.last.toUInt64
  let steps := if isFirst then valid &&& ~~~1 else valid
  { rises := c.rises + countOnes (~~~before &&& now &&& steps)
    falls := c.falls + countOnes (before &&& ~~~now &&& steps)
    ones := c.ones + countOnes now
    last := now >>> UInt64.ofNat (width - 1) &&& 1 != 0 }

/-- Counts the words of the ticks that are left. -/
def Tally.addWords (isFirst : Bool) : (ticks : Nat) → List UInt64 → Tally → Tally
  | _, [], c => c
  | ticks, w :: ws, c => addWords false (ticks - 64) ws (c.addWord isFirst (min ticks 64) w)

/-- Counts the first `ticks` ticks of a signal. -/
def countToggles (ticks : Nat) (words : List UInt64) : Tally := Tally.addWords true ticks words {}

/-- The words of the signal on the first port of an entry, which has to cover `count` words. -/
def observed (count : Nat) (ports : Ports) : Except Fault (List UInt64) :=
  match ports with
  | s :: _ => if 64 * count ≤ s.width then .ok (s.words.take count) else .error .internal
  | [] => .error .internal

/-- The random words that drive the inputs of a network over `ticks` ticks. -/
def stimulus (inputs ticks : Nat) (seed : UInt64) (probabilities : List Float) :
    Except Fault (List Signal) := do
  checkProbabilities probabilities inputs
  let ps ← (List.range inputs).mapM (inputProbability probabilities)
  drawStimulus (wordsFor ticks) ps (.ofSeed seed)

/-- The activity of entries that were counted over `ticks` ticks. -/
def activity (ticks : Nat) (counted : Array Tally) : Activity where
  switching := counted.map fun c =>
    Activity.ofCount (c.rises + c.falls) / Activity.ofCount (ticks - 1)
  onState := counted.map fun c => Activity.ofCount c.ones / Activity.ofCount ticks
  counts := some { ticks, rises := counted.map (·.rises), falls := counted.map (·.falls) }

end Simulation

/-- The activity of a network, simulated over `ticks` ticks with random inputs. -/
def Store.simulatedActivity (store : Store) (net : Subnet) (ticks : Nat) (seed : UInt64)
    (probabilities : List Float) : Except Fault Activity := do
  if ticks < 2 then .error .tooFewTicks
  else
    let stimulus ← Simulation.stimulus net.numInputs ticks seed probabilities
    let values ← store.simulate net stimulus
    let words ← values.mapM (Simulation.observed (Simulation.wordsFor ticks))
    return Simulation.activity ticks (words.map (Simulation.countToggles ticks))

end Gatework
