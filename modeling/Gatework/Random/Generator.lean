import Gatework.Fault

/-!
# Random numbers

A generator is a state that yields one 64-bit word after the other.  What is drawn from it depends on
the state alone, and every drawing returns the state that follows.  There are two generators, one for
simulations and one for searches.
-/

namespace Gatework

/-- States that yield words. -/
class Generator (G : Type) where
  /-- The next word and the state that follows. -/
  next : G → UInt64 × G

namespace Generator

variable {G : Type} [Generator G]

/-- The word whose share of all words is a probability below one. -/
def threshold (p : Float) : UInt64 := (p * 18446744073709551616.0).toUInt64

/-- True with probability `p`.  Certainty draws nothing; a number that is no probability breaks the
contract. -/
def chance (p : Float) (g : G) : Except Fault (Bool × G) :=
  if p == 1 then .ok (true, g)
  else if 0 ≤ p ∧ p < 1 then
    let (w, g) := next g
    .ok (decide (w < threshold p), g)
  else .error .internal

/-- As many words as the list has elements. -/
def words {α : Type} : List α → G → List UInt64 × G
  | [], g => ([], g)
  | _ :: rest, g =>
      let (w, g) := next g
      let (ws, g) := words rest g
      (w :: ws, g)

/-! ## Numbers below a bound -/

/-- The largest low half of a product that is accepted: multiplying words by `n` fills the words up
to it evenly. -/
def zone (n : Nat) : Nat := n <<< (64 - (Nat.log2 n + 1)) - 1

/-- Draws words until the low half of the product with `n` is accepted; the high half is the
result. -/
def drawBelow (n : Nat) : (fuel : Nat) → G → Nat × G
  | 0, g => (0, g)
  | fuel + 1, g =>
      let (w, g) := next g
      let product := w.toNat * n
      if product % valuesOf 64 ≤ zone n then (product / valuesOf 64, g) else drawBelow n fuel g

/-- No generator has more states than this. -/
def maxStates : Nat := valuesOf 256

/-- A number below `n`, which is positive. -/
def below (n : Nat) (g : G) : Nat × G := drawBelow n maxStates g

/-! ## Weighted choices -/

/-- Weights of a choice, with their partial sums: all but the last, and the total. -/
structure Roulette where
  sums : List Float
  total : Float

/-- The partial sums of the weights behind `sum`. -/
def partialSums : (sum : Float) → List Float → List Float × Float
  | sum, [] => ([], sum)
  | sum, w :: ws =>
      let (sums, total) := partialSums (sum + w) ws
      (sum :: sums, total)

/-- The roulette of a list of weights that are not negative and not all zero. -/
def Roulette.of? (weights : List Float) : Option Roulette :=
  match weights with
  | [] => none
  | w :: ws =>
      if weights.all fun w => decide (0 ≤ w) then
        let (sums, total) := partialSums w ws
        if total == 0 then none else some ⟨sums, total⟩
      else none

/-- The upper 52 bits of a word as a fraction of one. -/
def fraction (w : UInt64) : Float := Float.ofBits ((0x3ff0000000000000 : UInt64) ||| w >>> 12) - 1

/-- The position of a choice, with probabilities in proportion to the weights. -/
def Roulette.spin (r : Roulette) (g : G) : Nat × G :=
  let (w, g) := next g
  let x := fraction w * r.total + 0
  (r.sums.countP fun s => decide (s ≤ x), g)

end Generator

/-! ## The generator of simulations

Four words of state, mixed by shifts and rotations.  The initial state is spread out from one word
by a second, simpler generator.
-/

/-- The bits of a word moved up, those that leave at the top entering at the bottom. -/
def rotateLeft (w : UInt64) (n : UInt64) : UInt64 := w <<< n ||| w >>> (64 - n)

/-- The state of the generator. -/
structure Xoshiro where
  s0 : UInt64
  s1 : UInt64
  s2 : UInt64
  s3 : UInt64
deriving DecidableEq, Repr

namespace Xoshiro

/-- The step between the words that a seed is spread to. -/
def stride : UInt64 := 0x9e3779b97f4a7c15

/-- Mixes the bits of a word. -/
def mix (z : UInt64) : UInt64 :=
  let z := (z ^^^ z >>> 30) * 0xbf58476d1ce4e5b9
  let z := (z ^^^ z >>> 27) * 0x94d049bb133111eb
  z ^^^ z >>> 31

/-- The state that a seed stands for. -/
def ofSeed (seed : UInt64) : Xoshiro where
  s0 := mix (seed + stride)
  s1 := mix (seed + 2 * stride)
  s2 := mix (seed + 3 * stride)
  s3 := mix (seed + 4 * stride)

/-- The next word and the state that follows. -/
def next (g : Xoshiro) : UInt64 × Xoshiro :=
  let s2 := g.s2 ^^^ g.s0
  let s3 := g.s3 ^^^ g.s1
  (rotateLeft (g.s0 + g.s3) 23 + g.s0, {
    s0 := g.s0 ^^^ s3
    s1 := g.s1 ^^^ s2
    s2 := s2 ^^^ g.s1 <<< 17
    s3 := rotateLeft s3 45 })

instance : Generator Xoshiro := ⟨next⟩

end Xoshiro

/-! ## The generator of searches

One state of 128 bits that is multiplied by a constant at every step.  A word is read off by folding
the halves of the state and rotating the result by its top bits.
-/

/-- The state of the generator; it is odd. -/
structure Pcg where
  state : BitVec 128
deriving DecidableEq, Repr

namespace Pcg

/-- The factor of a step. -/
def multiplier : BitVec 128 := 0x2360ed051fc65da44385df649fccf645

/-- The words of 32 bits that a seed is spread to. -/
def seedWords : (count : Nat) → UInt64 → List UInt32
  | 0, _ => []
  | count + 1, x =>
      let x := x * 6364136223846793005 + 11634580027462260723
      let folded := ((x >>> 18 ^^^ x) >>> 27).toUInt32
      let turn := (x >>> 59).toUInt32
      (folded >>> turn ||| folded <<< (32 - turn)) :: seedWords count x

/-- The number formed by words of 32 bits, least significant first. -/
def natOfSeedWords : List UInt32 → Nat
  | [] => 0
  | w :: ws => w.toNat + valuesOf 32 * natOfSeedWords ws

/-- The state that a seed stands for. -/
def ofSeed (seed : UInt64) : Pcg := ⟨BitVec.ofNat 128 (natOfSeedWords (seedWords 4 seed)) ||| 1⟩

/-- The next word and the state that follows. -/
def next (g : Pcg) : UInt64 × Pcg :=
  let state := g.state * multiplier
  let folded := state.setWidth 64 ^^^ (state >>> 64).setWidth 64
  (⟨folded.rotateRight (state >>> 122).toNat⟩, ⟨state⟩)

instance : Generator Pcg := ⟨next⟩

end Pcg

end Gatework
