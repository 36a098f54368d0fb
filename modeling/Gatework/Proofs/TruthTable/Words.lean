import Mathlib.Tactic.IntervalCases
import Gatework.Proofs.TruthTable
import Gatework.TruthTable.Stored

/-!
# The bits of stored words

Working on the halves that a variable selects comes to reading each bit at another position, at which the
one variable has another value.  Inside of a word this is what masking and shifting do to a table of six
variables (`testBit_cofactorWord`, `testBit_flipWord`); in a list of words it is what exchanging or copying
the halves of blocks does (`getElem?_onBlocks`).
-/

namespace Gatework

/-! ## Positions -/

section Positions

variable {x v k i : Nat} {value : Bool}

/-- The position with variable `v` changed as `c` says. -/
def moved (c : Bool → Bool) (v x : Nat) : Nat := setVar x v (c (x.testBit v))

variable {c : Bool → Bool}

@[simp] lemma moved_not : moved Bool.not v x = x ^^^ 2 ^ v := by
  rw [moved, setVar, if_neg (by simp)]

/-- Complementing a variable sets it to the value that it does not have. -/
lemma xor_two_pow (b : Bool) (h : x.testBit v = b) : x ^^^ 2 ^ v = setVar x v !b := by
  rw [← moved_not, moved, h]

lemma setVar_setVar (a b : Bool) : setVar (setVar x v a) v b = setVar x v b := by
  refine Nat.eq_of_testBit_eq fun i => ?_
  by_cases hi : i = v <;> simp [hi]

lemma testBit_moved : (moved c v x).testBit i = if i = v then c (x.testBit v) else x.testBit i :=
  testBit_setVar

lemma moved_lt {n : Nat} (hx : x < 2 ^ n) (hv : v < n) : moved c v x < 2 ^ n := setVar_lt hx hv

/-- A variable below six changes the position inside of a word. -/
lemma moved_of_lt (hv : v < 6) : moved c v x / 64 = x / 64 ∧ moved c v x % 64 = moved c v (x % 64) := by
  have hbit : (x % 2 ^ 6).testBit v = x.testBit v := by
    rw [Nat.testBit_mod_two_pow, decide_eq_true hv, Bool.true_and]
  constructor
  · refine Nat.eq_of_testBit_eq fun i => ?_
    rw [show 64 = 2 ^ 6 from rfl, Nat.testBit_div_two_pow, Nat.testBit_div_two_pow, testBit_moved,
      if_neg (by omega)]
  · refine Nat.eq_of_testBit_eq fun i => ?_
    rw [show 64 = 2 ^ 6 from rfl, Nat.testBit_mod_two_pow, testBit_moved, testBit_moved, hbit,
      Nat.testBit_mod_two_pow]
    by_cases hi : i = v
    · simp [hi, hv]
    · simp [hi]

/-- Any other variable changes which word it is. -/
lemma moved_of_ge (hv : 6 ≤ v) :
    moved c v x / 64 = moved c (v - 6) (x / 64) ∧ moved c v x % 64 = x % 64 := by
  have hbit : (x / 2 ^ 6).testBit (v - 6) = x.testBit v := by
    rw [Nat.testBit_div_two_pow, Nat.sub_add_cancel hv]
  constructor
  · refine Nat.eq_of_testBit_eq fun i => ?_
    rw [show 64 = 2 ^ 6 from rfl, Nat.testBit_div_two_pow, testBit_moved, testBit_moved, hbit,
      Nat.testBit_div_two_pow]
    simp only [show i + 6 = v ↔ i = v - 6 by omega]
  · refine Nat.eq_of_testBit_eq fun i => ?_
    rw [show 64 = 2 ^ 6 from rfl, Nat.testBit_mod_two_pow, Nat.testBit_mod_two_pow, testBit_moved]
    by_cases hi : i < 6
    · rw [if_neg (by omega)]
    · simp [hi]

/-- A variable changes positions alike in all blocks. -/
lemma moved_add_block : moved c k (i + 2 * 2 ^ k) = moved c k i + 2 * 2 ^ k := by
  have hdouble : 2 * 2 ^ k = 2 ^ (k + 1) := by rw [Nat.pow_succ, Nat.mul_comm]
  have hbit : (i + 2 ^ (k + 1)).testBit k = i.testBit k := by
    rw [Nat.add_comm, Nat.testBit_two_pow_add_gt (Nat.lt_succ_self k)]
  rw [hdouble, moved, moved, hbit]
  generalize c (i.testBit k) = value
  cases hi : i.testBit k <;> cases value
  · rw [setVar_of_testBit hi, setVar_of_testBit (hbit.trans hi)]
  · rw [← add_two_pow_eq_setVar hi, ← add_two_pow_eq_setVar (hbit.trans hi), Nat.add_right_comm]
  · obtain ⟨hle, hset⟩ := sub_two_pow_eq_setVar hi
    rw [← hset, ← (sub_two_pow_eq_setVar (hbit.trans hi)).2]
    omega
  · rw [setVar_of_testBit hi, setVar_of_testBit (hbit.trans hi)]

end Positions

/-! ## Bits of one word -/

section Words

variable {v p q n : Nat}

/-- Words are equal if their bits are. -/
lemma eq_of_testBit_word {v w : UInt64} (h : ∀ p < 64, v.toNat.testBit p = w.toNat.testBit p) :
    v = w := by
  refine UInt64.toNat_inj.1 (Nat.eq_of_testBit_eq fun p => ?_)
  by_cases hp : p < 64
  · exact h p hp
  · have high : ∀ w : UInt64, w.toNat.testBit p = false := fun w =>
      Nat.testBit_lt_two_pow (w.toNat_lt.trans_le
        (Nat.pow_le_pow_right (by decide) (Nat.not_lt.1 hp)))
    rw [high, high]

lemma compare_toNat (a b : UInt64) : compare a.toNat b.toNat = compare a b := by
  change compareOfLessAndEq a.toNat b.toNat = compareOfLessAndEq a b
  simp only [compareOfLessAndEq, UInt64.lt_iff_toNat_lt, UInt64.toNat_inj]

/-- A word is a table of six variables. -/
def wordTable (w : UInt64) : TruthTable 6 := ⟨w.toBitVec⟩

lemma value_wordTable (w : UInt64) (p : Nat) : (wordTable w).value p = w.toNat.testBit p := rfl

lemma testBit_not (w : UInt64) (hp : p < 64) : (~~~w).toNat.testBit p = !w.toNat.testBit p := by
  have : (~~~w).toBitVec.getLsbD p = !w.toBitVec.getLsbD p := by simp [hp]
  exact this

lemma testBit_fullWord (hp : p < 64) : fullWord.toNat.testBit p = true := by
  rw [show fullWord.toNat = 2 ^ 64 - 1 from rfl, Nat.testBit_two_pow_sub_one, decide_eq_true hp]

/-- The pattern of a variable is the table of the variable. -/
lemma wordTable_pattern (hv : v < 6) : wordTable (wordPattern v) = .var 6 v := by
  interval_cases v <;> decide

lemma testBit_wordPattern (hv : v < 6) (hp : p < 64) :
    (wordPattern v).toNat.testBit p = p.testBit v := by
  rw [← value_wordTable, wordTable_pattern hv, TruthTable.value_var hp]

/-- A shift of a word by the distance of a variable. -/
lemma toBitVec_distance (hv : v < 6) (w : UInt64) :
    (w <<< UInt64.ofNat (2 ^ v)).toBitVec = w.toBitVec <<< 2 ^ v ∧
      (w >>> UInt64.ofNat (2 ^ v)).toBitVec = w.toBitVec >>> 2 ^ v := by
  interval_cases v <;> exact ⟨rfl, rfl⟩

lemma wordTable_cofactorWord (hv : v < 6) (b : Bool) (w : UInt64) :
    wordTable (cofactorWord v b w) = (wordTable w).cofactor v b := by
  rw [TruthTable.cofactor, ← wordTable_pattern hv]
  cases b
  · exact TruthTable.ext (congrArg ((clearHalf v w).toBitVec ||| ·) (toBitVec_distance hv _).1)
  · exact TruthTable.ext (congrArg ((setHalf v w).toBitVec ||| ·) (toBitVec_distance hv _).2)

lemma testBit_cofactorWord (hv : v < 6) (hp : p < 64) (b : Bool) (w : UInt64) :
    (cofactorWord v b w).toNat.testBit p = w.toNat.testBit (setVar p v b) := by
  rw [← value_wordTable, wordTable_cofactorWord hv, TruthTable.value_cofactor hv hp, value_wordTable]

lemma wordTable_flipWord (hv : v < 6) (w : UInt64) :
    wordTable (flipWord v w) = (wordTable w).flip v := by
  rw [TruthTable.flip, ← wordTable_pattern hv]
  exact TruthTable.ext
    (congrArg₂ (· ||| ·) (toBitVec_distance hv (setHalf v w)).2 (toBitVec_distance hv _).1)

lemma testBit_flipWord (hv : v < 6) (hp : p < 64) (w : UInt64) :
    (flipWord v w).toNat.testBit p = w.toNat.testBit (p ^^^ 2 ^ v) := by
  rw [← value_wordTable, wordTable_flipWord hv, TruthTable.value_flip hv hp, value_wordTable]

/-- Below six variables the mask of the last word keeps the assignments. -/
lemma testBit_tailMask (hp : p < 64) : (tailMask n).toNat.testBit p = decide (p < 2 ^ n) := by
  unfold tailMask
  split
  · rename_i hn
    have : 2 ^ 6 ≤ 2 ^ n := Nat.pow_le_pow_right (by decide) hn
    rw [testBit_fullWord hp, decide_eq_true (by omega)]
  · rename_i hn
    have hmask : ((1 <<< UInt64.ofNat (2 ^ n)) - 1 : UInt64).toNat = 2 ^ 2 ^ n - 1 := by
      have : n < 6 := Nat.not_le.1 hn
      interval_cases n <;> rfl
    rw [hmask, Nat.testBit_two_pow_sub_one]

lemma testBit_pointWord (hq : q < 64) :
    (1 <<< UInt64.ofNat q : UInt64).toNat.testBit p = decide (q = p) := by
  have : (1 <<< UInt64.ofNat q : UInt64).toNat = 2 ^ q := by
    interval_cases q <;> rfl
  rw [this, Nat.testBit_two_pow]

lemma testBit_replaceBit (hp : p < 64) (hq : q < 64) (b : Bool) (w : UInt64) :
    (replaceBit q b w).toNat.testBit p = if p = q then b else w.toNat.testBit p := by
  cases b
  · rw [replaceBit, if_neg (by decide), UInt64.toNat_and, Nat.testBit_and, testBit_not _ hp,
      testBit_pointWord hq]
    by_cases h : p = q
    · simp [h]
    · simp [h, Ne.symm h]
  · rw [replaceBit, if_pos rfl, UInt64.toNat_or, Nat.testBit_or, testBit_pointWord hq]
    by_cases h : p = q
    · simp [h]
    · simp [h, Ne.symm h]

end Words

/-! ## Counting -/

lemma countP_range_add (p : Nat → Bool) (a b : Nat) :
    (List.range (a + b)).countP p =
      (List.range a).countP p + (List.range b).countP fun x => p (a + x) := by
  rw [List.range_add, List.countP_append, List.countP_map]
  rfl

/-- The number of set bits, half by half. -/
lemma countBits_eq (n x : Nat) :
    TruthTable.countBits n x = (List.range (2 ^ n)).countP x.testBit := by
  induction n generalizing x with
  | zero =>
      rw [TruthTable.countBits, show List.range (2 ^ 0) = [0] from rfl, List.countP_singleton,
        Nat.testBit_zero]
      rcases Nat.mod_two_eq_zero_or_one x with h | h <;> simp [h]
  | succ n ih =>
      rw [TruthTable.countBits, ih, ih, Nat.pow_succ, Nat.mul_two, countP_range_add]
      refine congrArg₂ _ (List.countP_congr fun i hi => ?_) (List.countP_congr fun i _ => ?_)
      · rw [valuesOf, Nat.testBit_mod_two_pow, decide_eq_true (List.mem_range.1 hi), Bool.true_and]
      · rw [Nat.testBit_shiftRight]

/-- The number of set bits of a list of words, word by word. -/
lemma foldr_countBits (words : List UInt64) :
    words.foldr (fun w count => TruthTable.countBits 6 w.toNat + count) 0 =
      (List.range (64 * words.length)).countP
        fun x => (words.getD (x / 64) 0).toNat.testBit (x % 64) := by
  induction words with
  | nil => rfl
  | cons w words ih =>
      rw [List.foldr_cons, ih, countBits_eq, List.length_cons,
        show 64 * (words.length + 1) = 2 ^ 6 + 64 * words.length by omega, countP_range_add]
      refine congrArg₂ _ (List.countP_congr fun x hx => ?_) (List.countP_congr fun x _ => ?_)
      · have hx : x < 64 := List.mem_range.1 hx
        rw [Nat.div_eq_of_lt hx, Nat.mod_eq_of_lt hx, List.getD_cons_zero]
      · rw [show (2 ^ 6 + x) / 64 = x / 64 + 1 by omega, show (2 ^ 6 + x) % 64 = x % 64 by omega,
          List.getD_cons_succ]

/-! ## Blocks of words -/

section Blocks

variable {k : Nat} {c : Bool → Bool} {f : List UInt64 → List UInt64 → List UInt64}

section Halves

variable {low high : List UInt64} (hlow : low.length = 2 ^ k) (hhigh : high.length = 2 ^ k)

include hlow hhigh

lemma length_half (b : Bool) : (if b then high else low).length = 2 ^ k := by
  cases b
  · exact hlow
  · exact hhigh

lemma length_halves (a b : Bool) :
    ((if a then high else low) ++ (if b then high else low)).length = 2 * 2 ^ k := by
  rw [List.length_append, length_half hlow hhigh, length_half hlow hhigh, Nat.two_mul]

/-- One block: a position in it and the moved one hold the same word. -/
lemma getElem?_halves {i : Nat} (hi : i < 2 * 2 ^ k) :
    ((if c false then high else low) ++ (if c true then high else low))[i]? =
      (low ++ high)[moved c k i]? := by
  have half := length_half hlow hhigh
  by_cases hlt : i < 2 ^ k
  · have hbit : i.testBit k = false := Nat.testBit_lt_two_pow hlt
    rw [List.getElem?_append_left (by rwa [half]), moved, hbit]
    cases c false
    · rw [setVar_of_testBit hbit, List.getElem?_append_left (by rwa [hlow])]
      rfl
    · rw [← add_two_pow_eq_setVar hbit, List.getElem?_append_right (by omega), hlow,
        Nat.add_sub_cancel]
      rfl
  · have hbit : i.testBit k = true :=
      Nat.testBit_of_two_pow_le_and_two_pow_add_one_gt (Nat.not_lt.1 hlt)
        (by rwa [Nat.pow_succ, Nat.mul_comm])
    rw [List.getElem?_append_right (by rw [half]; exact Nat.not_lt.1 hlt), half, moved, hbit]
    cases c true
    · have hset := (sub_two_pow_eq_setVar hbit).2
      rw [← hset, List.getElem?_append_left (by omega)]
      rfl
    · rw [setVar_of_testBit hbit, List.getElem?_append_right (by omega), hlow]
      rfl

/-- The first block is worked on by itself. -/
lemma onBlocks_append (rest : List UInt64) :
    onBlocks k f (low ++ high ++ rest) = f low high ++ onBlocks k f rest := by
  have hblock : (low ++ high).length = 2 * 2 ^ k := length_halves hlow hhigh false true
  generalize hwords : low ++ high ++ rest = words
  have htake : words.take (2 * 2 ^ k) = low ++ high := by rw [← hwords, List.take_left' hblock]
  have hdrop : words.drop (2 * 2 ^ k) = rest := by rw [← hwords, List.drop_left' hblock]
  cases words with
  | nil =>
      have := Nat.two_pow_pos k
      rw [← htake, List.take_nil, List.length_nil] at hblock
      omega
  | cons w ws => rw [onBlocks, htake, hdrop, List.take_left' hlow, List.drop_left' hlow]

end Halves

/-- A list of whole blocks is empty or starts with a block. -/
lemma exists_halves {words : List UInt64} {count : Nat}
    (blocks : words.length = (count + 1) * (2 * 2 ^ k)) :
    ∃ low high rest, words = low ++ high ++ rest ∧ low.length = 2 ^ k ∧ high.length = 2 ^ k ∧
      rest.length = count * (2 * 2 ^ k) := by
  rw [Nat.succ_mul] at blocks
  refine ⟨(words.take (2 * 2 ^ k)).take (2 ^ k), (words.take (2 * 2 ^ k)).drop (2 ^ k),
    words.drop (2 * 2 ^ k), ?_, ?_, ?_, ?_⟩
  · rw [List.take_append_drop, List.take_append_drop]
  · rw [List.length_take, List.length_take]
    omega
  · rw [List.length_drop, List.length_take]
    omega
  · rw [List.length_drop]
    omega

section Moving

variable
  (hf : ∀ low high, f low high = (if c false then high else low) ++ (if c true then high else low))
  {words : List UInt64} {count : Nat} (blocks : words.length = count * (2 * 2 ^ k))

include hf blocks

lemma length_onBlocks : (onBlocks k f words).length = words.length := by
  induction count generalizing words with
  | zero =>
      rw [Nat.zero_mul, List.length_eq_zero_iff] at blocks
      simp [blocks, onBlocks]
  | succ count ih =>
      obtain ⟨low, high, rest, rfl, hlow, hhigh, hrest⟩ := exists_halves blocks
      rw [onBlocks_append hlow hhigh, List.length_append, hf, length_halves hlow hhigh, ih hrest]
      rw [List.length_append, List.length_append, hlow, hhigh, Nat.two_mul]

/-- Putting one of its halves in place of each half of every block moves the words. -/
lemma getElem?_onBlocks (i : Nat) : (onBlocks k f words)[i]? = words[moved c k i]? := by
  induction count generalizing words i with
  | zero =>
      rw [Nat.zero_mul, List.length_eq_zero_iff] at blocks
      simp [blocks, onBlocks]
  | succ count ih =>
      obtain ⟨low, high, rest, rfl, hlow, hhigh, hrest⟩ := exists_halves blocks
      have hblock : (f low high).length = 2 * 2 ^ k := by rw [hf, length_halves hlow hhigh]
      have hhalves : (low ++ high).length = 2 * 2 ^ k := length_halves hlow hhigh false true
      rw [onBlocks_append hlow hhigh]
      by_cases hi : i < 2 * 2 ^ k
      · have hmoved : moved c k i < 2 * 2 ^ k := by
          have := moved_lt (c := c) (show i < 2 ^ (k + 1) by omega) (Nat.lt_succ_self k)
          omega
        rw [List.getElem?_append_left (by rwa [hblock]), hf, getElem?_halves hlow hhigh hi]
        exact (List.getElem?_append_left (by rwa [hhalves])).symm
      · obtain ⟨j, rfl⟩ := Nat.exists_eq_add_of_le' (Nat.not_lt.1 hi)
        rw [List.getElem?_append_right (by omega), hblock, Nat.add_sub_cancel, ih hrest,
          moved_add_block, List.getElem?_append_right (by omega), hhalves, Nat.add_sub_cancel]

end Moving

end Blocks

end Gatework
