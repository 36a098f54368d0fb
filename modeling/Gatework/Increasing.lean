/-!
# Strictly increasing lists

Finite sets of numbers are kept as strictly increasing lists.
-/

namespace Gatework

namespace Increasing

/-- Puts a number into an increasing list, unless it is there. -/
def insert (n : Nat) : List Nat → List Nat
  | [] => [n]
  | x :: xs =>
      if n < x then n :: x :: xs
      else if n = x then x :: xs
      else x :: insert n xs

/-- Puts the members of any list into an increasing list. -/
def union (xs more : List Nat) : List Nat := more.foldl (fun acc n => insert n acc) xs

/-- The members of any list in increasing order, each once. -/
def ofList (xs : List Nat) : List Nat := union [] xs

end Increasing

end Gatework
