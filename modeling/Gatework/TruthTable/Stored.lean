import Gatework.TruthTable.Words

/-!
# Operations on stored tables

A stored table is worked on word by word.  A variable below six selects half of the bits of every word,
which a pattern masks out and a shift lines up with the other half; any other variable selects half of the
words of every block.  An operation that may set unused bits of the last word clears them again, so the
same function of the same variables is always stored as the same words.

The operations check their arguments: that a variable exists, that two tables range over the same
variables, that a table is not wider than the limit.  They take it for granted that the words of a table
are as many as its variables need.
-/

namespace Gatework

/-! ## Words -/

/-- A word whose bits are all set. -/
def fullWord : UInt64 := 0xFFFFFFFFFFFFFFFF

/-- The positions in a word at which each of the first six variables is set. -/
def wordPatterns : List UInt64 :=
  [0xAAAAAAAAAAAAAAAA, 0xCCCCCCCCCCCCCCCC, 0xF0F0F0F0F0F0F0F0,
    0xFF00FF00FF00FF00, 0xFFFF0000FFFF0000, 0xFFFFFFFF00000000]

/-- The positions in a word at which variable `v` is set. -/
def wordPattern (v : Nat) : UInt64 := wordPatterns.getD v 0

/-- The positions in the last word of a table of `n` variables that are in use. -/
def tailMask (n : Nat) : UInt64 :=
  if 6 ≤ n then fullWord else (1 <<< UInt64.ofNat (2 ^ n)) - 1

/-- The half of a word in which variable `v` is set. -/
def setHalf (v : Nat) (w : UInt64) : UInt64 := w &&& wordPattern v

/-- The half of a word in which variable `v` is not set. -/
def clearHalf (v : Nat) (w : UInt64) : UInt64 := w &&& ~~~wordPattern v

/-- A word with the half in which variable `v` has the value `value` in place of both. -/
def cofactorWord (v : Nat) (value : Bool) (w : UInt64) : UInt64 :=
  if value then setHalf v w ||| setHalf v w >>> UInt64.ofNat (2 ^ v)
  else clearHalf v w ||| clearHalf v w <<< UInt64.ofNat (2 ^ v)

/-- A word with the two halves that variable `v` selects exchanged. -/
def flipWord (v : Nat) (w : UInt64) : UInt64 :=
  setHalf v w >>> UInt64.ofNat (2 ^ v) ||| clearHalf v w <<< UInt64.ofNat (2 ^ v)

/-- A word with bit `p` replaced. -/
def replaceBit (p : Nat) (value : Bool) (w : UInt64) : UInt64 :=
  let mask := 1 <<< UInt64.ofNat p
  if value then w ||| mask else w &&& ~~~mask

/-- Cuts a list into blocks of twice `2 ^ k` words and replaces each by what `f` makes of its halves. -/
def onBlocks (k : Nat) (f : List UInt64 → List UInt64 → List UInt64) : List UInt64 → List UInt64
  | [] => []
  | w :: ws =>
      let block := (w :: ws).take (2 * 2 ^ k)
      f (block.take (2 ^ k)) (block.drop (2 ^ k)) ++ onBlocks k f ((w :: ws).drop (2 * 2 ^ k))
termination_by words => words.length
decreasing_by
  have := Nat.two_pow_pos k
  simp only [List.length_drop, List.length_cons]
  omega

namespace WordTable

/-- The table formed by these words, with the unused bits of the last one cleared. -/
def masked (n : Nat) (words : List UInt64) : WordTable :=
  ⟨n, words.modify (words.length - 1) (· &&& tailMask n)⟩

/-! ## Making tables -/

/-- The complement. -/
def not (t : WordTable) : WordTable := masked t.numVars (t.words.map (~~~·))

/-- The constant false. -/
def zero (n : Nat) : Except Fault WordTable :=
  if n ≤ maxTableVariables then .ok ⟨n, List.replicate (wordCount n) 0⟩ else .error (.tableTooWide n)

/-- The constant true. -/
def one (n : Nat) : Except Fault WordTable := (zero n).map not

/-- The constant function `value`. -/
def const (n : Nat) (value : Bool) : Except Fault WordTable := if value then one n else zero n

/-- The function that reads off variable `v`. -/
def var (n v : Nat) : Except Fault WordTable :=
  if v < n then
    (zero n).map fun t => masked n <|
      if v < 6 then t.words.map fun _ => wordPattern v
      else t.words.mapIdx fun i w => if i / 2 ^ (v - 6) % 2 = 1 then fullWord else w
  else .error (.noVariableAmong v n)

/-- The table of `n` variables formed by at least as many words as it needs. -/
def ofWords (n : Nat) (words : List UInt64) : Except Fault WordTable :=
  if 70 ≤ n then .error .internal
  else if words.length < wordCount n then .error (.tooFewWords words.length n)
  else .ok (masked n (words.take (wordCount n)))

/-- The table of at most six variables formed by one word. -/
def ofWord (n : Nat) (word : UInt64) : Except Fault WordTable :=
  if n ≤ 6 then ofWords n [word] else .error .tooWideForWord

/-- The only word of a table of at most six variables. -/
def toWord (t : WordTable) : Except Fault UInt64 :=
  if t.numVars ≤ 6 then .ok (t.words.headD 0) else .error (.spansWords t.numVars)

/-! ## Single values -/

/-- Bit `x % 64` of word `x / 64`. -/
def bit (t : WordTable) (x : Nat) : Bool := (t.words.getD (x / 64) 0).toNat.testBit (x % 64)

/-- The value on an assignment. -/
def value (t : WordTable) (x : Nat) : Except Fault Bool :=
  if x < 2 ^ t.numVars then .ok (t.bit x) else .error .internal

/-- The table with the value on one assignment replaced. -/
def setValue (t : WordTable) (x : Nat) (value : Bool) : Except Fault WordTable :=
  if x < 2 ^ t.numVars then
    .ok { t with words := t.words.modify (x / 64) (replaceBit (x % 64) value) }
  else .error .internal

/-! ## Pointwise operations -/

/-- Combines the words of two tables over the same variables. -/
def zip (op : UInt64 → UInt64 → UInt64) (s t : WordTable) : Except Fault WordTable :=
  if s.numVars = t.numVars then .ok ⟨s.numVars, s.words.zipWith op t.words⟩
  else .error .differentVariables

/-- The conjunction. -/
def and : WordTable → WordTable → Except Fault WordTable := zip (· &&& ·)

/-- The disjunction. -/
def or : WordTable → WordTable → Except Fault WordTable := zip (· ||| ·)

/-- The exclusive disjunction. -/
def xor : WordTable → WordTable → Except Fault WordTable := zip (· ^^^ ·)

/-- What one table has and the other does not. -/
def andNot : WordTable → WordTable → Except Fault WordTable := zip fun a b => a &&& ~~~b

/-- Whether the function is constantly false. -/
def isZero (t : WordTable) : Bool := t.words.all (· == 0)

/-- Whether the function is constantly true. -/
def isOne (t : WordTable) : Except Fault Bool := (one t.numVars).map (t == ·)

/-- Whether `t` holds wherever `s` does. -/
def implies (s t : WordTable) : Except Fault Bool := (s.andNot t).map isZero

/-- The number of assignments on which the function holds. -/
def countOnes (t : WordTable) : Nat :=
  t.words.foldr (fun w count => TruthTable.countBits 6 w.toNat + count) 0

/-! ## Single variables -/

/-- Works on the halves that variable `v` selects: inside of every word, or in every block of words. -/
def onVariable (t : WordTable) (v : Nat) (inWord : UInt64 → UInt64)
    (inBlock : List UInt64 → List UInt64 → List UInt64) : Except Fault WordTable :=
  if v < t.numVars then
    .ok <| masked t.numVars <|
      if v < 6 then t.words.map inWord else onBlocks (v - 6) inBlock t.words
  else .error (.noVariable v)

/-- The function with variable `v` fixed to `value`, still over all variables. -/
def cofactor (t : WordTable) (v : Nat) (value : Bool) : Except Fault WordTable :=
  t.onVariable v (cofactorWord v value) fun low high => if value then high ++ high else low ++ low

/-- The function with variable `v` complemented. -/
def flip (t : WordTable) (v : Nat) : Except Fault WordTable :=
  t.onVariable v (flipWord v) fun low high => high ++ low

/-- Existential quantification of variable `v`. -/
def quantify (t : WordTable) (v : Nat) : Except Fault WordTable := do
  (← t.cofactor v false).or (← t.cofactor v true)

/-- Existential quantification of every variable set in `mask`. -/
def quantifyAll (t : WordTable) (mask : Nat) : Except Fault WordTable :=
  (TruthTable.variablesIn t.numVars mask).foldlM quantify t

/-- Whether the function depends on variable `v`. -/
def hasVar (t : WordTable) (v : Nat) : Except Fault Bool := do
  return (← t.cofactor v false) != (← t.cofactor v true)

/-- The variables the function depends on, as a bit mask. -/
def supportMask (t : WordTable) : Except Fault Nat :=
  (List.range t.numVars).foldlM
    (fun mask v => do return if ← t.hasVar v then mask ||| 1 <<< v else mask) 0

/-- The number of variables the function depends on. -/
def supportSize (t : WordTable) : Except Fault Nat :=
  t.supportMask.map (TruthTable.countBits 5)

/-! ## Renaming variables -/

/-- Sets one value of `s`, over the listed variables, as the function `t` of all variables says. -/
def copyValue (t : WordTable) (vars : List Nat) (s : WordTable) (y : Nat) : Except Fault WordTable := do
  s.setValue y (← t.value (TruthTable.spread vars y))

/-- The function over the listed variables, which have to exist and to cover the support: new variable
`i` stands for `vars[i]`. -/
def project (t : WordTable) (vars : List Nat) : Except Fault WordTable :=
  if vars.any (32 ≤ ·) then .error .internal
  else do
    let mask ← t.supportMask
    if mask &&& TruthTable.maskOf vars = mask then
      (List.range (2 ^ vars.length)).foldlM (t.copyValue vars) (← zero vars.length)
    else throw .internal

end WordTable

end Gatework
