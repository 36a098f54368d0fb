/-!
# Costs

Areas, delays and powers are single-precision numbers.  Maxima and minima ignore operands that are no
numbers, and of two equal operands, which may be zeros of different signs, the second is kept.  Sums
are taken from left to right, because rounding makes the order matter, and start from the negative
zero, which changes no number that is added to it.
-/

namespace Gatework

namespace Cost

/-- Differences up to this size do not count. -/
def slack : Float32 := 1e-6

/-- The cost that nothing can meet. -/
def infinite : Float32 := 1 / 0

/-- The larger of two costs. -/
def max (a b : Float32) : Float32 := if a.isNaN || decide (a ≤ b) then b else a

/-- The smaller of two costs. -/
def min (a b : Float32) : Float32 := if a.isNaN || decide (b ≤ a) then b else a

/-- The largest cost of a list, at least zero. -/
def maximum (costs : List Float32) : Float32 := costs.foldl max 0

/-- The sum of a list of costs. -/
def sum (costs : List Float32) : Float32 := costs.foldl (· + ·) (-0.0)

/-- The first of two pairs is better if its first cost is clearly smaller, or if the first costs are
nearly equal and its second one is clearly smaller. -/
def better (a b : Float32 × Float32) : Bool :=
  decide (a.1 < b.1 - slack) || (decide ((a.1 - b.1).abs ≤ slack) && decide (a.2 < b.2 - slack))

end Cost

end Gatework
