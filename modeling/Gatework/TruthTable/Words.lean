import Gatework.TruthTable.Hex

/-!
# Truth tables as machine words

In files and in memory a table is a list of 64-bit words, least significant first.  A table of `n`
variables fills `wordCount n` of them; below six variables the upper bits of the only word are
unused and zero.

A `WordTable` is such a list as a file gives it, with a claimed number of variables and without any
check that the two fit together.  It is ordered by the number of variables, then by the words from
the most significant one down, which on tables that fit is the order of the numbers they denote.
-/

namespace Gatework

/-- The number of words of a table of `n` variables. -/
def wordCount (n : Nat) : Nat := if n ≤ 6 then 1 else 2 ^ (n - 6)

/-- Cuts a number into `count` words, least significant first. -/
def wordsOfNat : (count : Nat) → Nat → List UInt64
  | 0, _ => []
  | count + 1, v => UInt64.ofNat v :: wordsOfNat count (v >>> 64)

/-- The number formed by a list of words, least significant first. -/
def natOfWords : List UInt64 → Nat
  | [] => 0
  | w :: ws => w.toNat ||| natOfWords ws <<< 64

/-- The words of a table. -/
def TruthTable.words {n : Nat} (t : TruthTable n) : List UInt64 :=
  wordsOfNat (wordCount n) t.toNat

/-- The lowest word of a table, which is the only one if there are at most six variables. -/
def TruthTable.word {n : Nat} (t : TruthTable n) : UInt64 := UInt64.ofNat t.toNat

/-- The table formed by the first `wordCount n` words of a list, cut to `2 ^ n` bits. -/
def TruthTable.ofWords (n : Nat) (words : List UInt64) : TruthTable n :=
  ofNat n (natOfWords (words.take (wordCount n)))

/-- A table as a file gives it. -/
structure WordTable where
  numVars : Nat
  words : List UInt64
deriving DecidableEq, Repr

namespace WordTable

/-- The stored form of a table. -/
def ofTable {n : Nat} (t : TruthTable n) : WordTable := ⟨n, t.words⟩

/-- Compares two lists of words at the first place where they differ; a proper beginning of a list
comes before it. -/
def compareWords : List UInt64 → List UInt64 → Ordering
  | [], [] => .eq
  | [], _ :: _ => .lt
  | _ :: _, [] => .gt
  | a :: as, b :: bs => (compare a b).then (compareWords as bs)

/-- Fewer variables come first, then the smaller number. -/
def order (s t : WordTable) : Ordering :=
  (compare s.numVars t.numVars).then (compareWords s.words.reverse t.words.reverse)

/-- The written form, if the words cover the claimed number of variables. -/
def toHex? (t : WordTable) : Option String :=
  if t.numVars < 64 then
    if 2 ^ t.numVars ≤ 64 * t.words.length then
      some (String.ofList (hexText (TruthTable.hexCount t.numVars) (natOfWords t.words) []))
    else none
  else none

end WordTable

end Gatework
