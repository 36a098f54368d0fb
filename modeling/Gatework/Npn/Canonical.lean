import Gatework.Increasing
import Gatework.Npn.Transform
import Gatework.TruthTable.Stored

/-!
# Canonical forms

The canonical form of a function is the least table, read as a number, among all its transforms.  Of
several transforms that reach it the one taken is the least by output polarity, then input
polarities, then permutation.  Canonical forms are searched exhaustively, so they are limited to six
variables, and a table is one word.

For every permutation of the inputs the search walks through the tables with some inputs complemented.
The walk is in Gray code: from one table to the next a single input changes its polarity, which exchanges
the halves of the word that the input selects.  A mask of the inputs that are complemented is carried along.

The search runs through the permutations in lexicographic order.  `Permutation.next?` steps from a list
to the next larger rearrangement of it: the longest tail that is non-increasing has none; the element in
front of it is exchanged with the least larger element of the tail, and the tail is put into increasing
order.
-/

namespace Gatework

namespace Permutation

/-- Exchanges `x` with the first larger element of a list. -/
def exchange (x : Nat) : List Nat → Option (Nat × List Nat)
  | [] => none
  | y :: ys => if x < y then some (y, x :: ys) else (exchange x ys).map fun (z, zs) => (z, y :: zs)

/-- The next larger rearrangement of a list, if there is one. -/
def next? : List Nat → Option (List Nat)
  | [] => none
  | x :: xs =>
      match next? xs with
      | some ys => some (x :: ys)
      | none => (exchange x xs.reverse).map fun (y, ys) => y :: ys

/-- The number of rearrangements of `n` different elements. -/
def count : Nat → Nat
  | 0 => 1
  | n + 1 => (n + 1) * count n

/-- A list and its next larger rearrangements, `length` in all. -/
def steps : (length : Nat) → List Nat → List (List Nat)
  | 0, _ => []
  | length + 1, p => p :: (next? p).elim [] (steps length)

/-- All permutations of the numbers below `n`, in increasing order. -/
def all (n : Nat) : List (List Nat) := steps (count n) (List.range n)

end Permutation

/-- The most variables of a function that has a canonical form. -/
def maxClassVariables : Nat := 6

namespace Canonical

/-- The word of a table that the search comes to, and the transform that leads to the table. -/
structure Candidate where
  word : UInt64
  transform : Transform

/-- Compares two lists of numbers at the first place where they differ. -/
def orderPerm : List Nat → List Nat → Ordering
  | [], [] => .eq
  | [], _ :: _ => .lt
  | _ :: _, [] => .gt
  | a :: as, b :: bs => (compare a b).then (orderPerm as bs)

/-- The smaller table first, then the transform by output polarity, input polarities and
permutation. -/
def Candidate.order (a b : Candidate) : Ordering :=
  (compare a.word b.word).then <|
    (compare a.transform.negated.toNat b.transform.negated.toNat).then <|
      (compare a.transform.mask b.transform.mask).then <|
        orderPerm a.transform.perm b.transform.perm

/-- Takes a candidate if it is the first one or comes before the best one so far. -/
def consider (best : Option Candidate) (c : Candidate) : Option Candidate :=
  match best with
  | none => some c
  | some b => if (c.order b).isLT then some c else some b

/-- The word of a function of `n` variables with its inputs permuted. -/
def permuteWord (n : Nat) (perm : List Nat) (w : UInt64) : UInt64 :=
  (List.range (2 ^ n)).foldl
    (fun out y =>
      out ||| (w >>> UInt64.ofNat (TruthTable.spread perm y) &&& 1) <<< UInt64.ofNat y) 0

/-- The number of binary digits, of the last `n`, behind the last one that is set. -/
def trailingZeros : (n : Nat) → Nat → Nat
  | 0, _ => 0
  | n + 1, k => if k % 2 = 1 then 0 else trailingZeros n (k / 2) + 1

/-- Where a walk through the polarities stands: the word of the table, the inputs that are complemented
in it, and the best candidate so far. -/
structure Walk where
  word : UInt64
  mask : Nat
  best : Option Candidate

/-- Goes on to table number `k`, which for the first table is where the walk begins. -/
def Walk.turn (n k : Nat) (s : Walk) : Walk :=
  if k = 0 then s
  else
    let v := trailingZeros n k
    { s with word := flipWord v s.word &&& tailMask n, mask := s.mask ^^^ 1 <<< v }

/-- Considers the table where a walk stands, then its complement. -/
def Walk.judge (n : Nat) (perm : List Nat) (s : Walk) : Walk :=
  let best := consider s.best ⟨s.word, ⟨perm, s.mask, false⟩⟩
  { s with best := consider best ⟨~~~s.word &&& tailMask n, ⟨perm, s.mask, true⟩⟩ }

/-- Considers the first `count` tables of a walk. -/
def Walk.run (n : Nat) (perm : List Nat) (count : Nat) (s : Walk) : Walk :=
  (List.range count).foldl (fun s k => (s.turn n k).judge n perm) s

/-- Walks through all polarities of the inputs with one permutation of them. -/
def walk (n : Nat) (word : UInt64) (best : Option Candidate) (perm : List Nat) : Option Candidate :=
  let start : Walk := ⟨permuteWord n perm word, 0, best⟩
  (start.run n perm (2 ^ n)).best

/-- The least of all candidates for a function of `n` variables, given by its word. -/
def search (n : Nat) (word : UInt64) : Option Candidate :=
  (Permutation.all n).foldl (walk n word) none

end Canonical

/-- The canonical form of a function of at most six variables and the transform that takes the
function to it. -/
def TruthTable.canonical? {n : Nat} (f : TruthTable n) : Option (TruthTable n × Transform) :=
  if n ≤ maxClassVariables then
    (Canonical.search n f.word).map fun best => (ofWords n [best.word], best.transform)
  else none

/-- The canonical forms of all functions of `n` variables, in increasing order. -/
def canonicalForms (n : Nat) : Except Fault (List (TruthTable n)) :=
  if 1 ≤ n ∧ n ≤ 4 then
    let forms := (List.range (valuesOf (2 ^ n))).filterMap fun v =>
      (TruthTable.ofNat n v).canonical?.map fun (t, _) => t.toNat
    .ok ((Increasing.ofList forms).map (.ofNat n))
  else .error (.classRange n)

end Gatework
