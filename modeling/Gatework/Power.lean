/-!
# Powers

Powers of two count the rows of a table and the values of a word, in types as well as in programs.
Inside this library `2 ^ n` is always the power that Lean itself computes with, also where a library
is loaded that has another way to the same number.
-/

namespace Gatework

/-- The power of natural numbers that Lean computes with comes first. -/
scoped instance (priority := 2000) powNat : Pow Nat Nat := instPowNat

/-- The number of values that so many bits can take. -/
abbrev valuesOf (bits : Nat) : Nat := 2 ^ bits

end Gatework
