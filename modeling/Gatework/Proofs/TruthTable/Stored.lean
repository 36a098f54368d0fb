import Mathlib.Data.List.Perm.Subperm
import Gatework.Proofs.Signal
import Gatework.Proofs.TruthTable.Words

/-!
# Stored tables as functions of assignments

A stored table is well-formed (`WordTable.Fits`) if its words are as many as its variables need and all
bits beyond the assignments are zero.  The well-formed tables are the stored forms of the tables
(`Fits.exists_table`), and each operation on words is described by the values of its result
(`WordTable.Gives`).  Operations that are made of others are done on the tables themselves.

**Main statement.** `WordTable.pointwise`.
-/

namespace Gatework

namespace WordTable

variable {n v x : Nat} {s t : WordTable} {f g : Nat → Bool}

/-! ## Well-formed tables -/

/-- A table of `n` variables has the words that they need, with zeros beyond the assignments. -/
structure Fits (t : WordTable) (n : Nat) : Prop where
  numVars : t.numVars = n
  length : t.words.length = wordCount n
  clear : ∀ x, 2 ^ n ≤ x → t.bit x = false

/-- A well-formed table of `n` variables with the values `f`. -/
structure Tabulates (t : WordTable) (n : Nat) (f : Nat → Bool) : Prop extends t.Fits n where
  bits : ∀ x < 2 ^ n, t.bit x = f x

/-- An operation succeeds with a well-formed table of `n` variables that has the values `f`. -/
def Gives (result : Except Fault WordTable) (n : Nat) (f : Nat → Bool) : Prop :=
  ∃ t, result = .ok t ∧ t.Tabulates n f

lemma Tabulates.congr (h : t.Tabulates n f) (same : ∀ x < 2 ^ n, f x = g x) : t.Tabulates n g :=
  ⟨h.toFits, fun x hx => (h.bits x hx).trans (same x hx)⟩

lemma Gives.congr {result : Except Fault WordTable} (h : Gives result n f)
    (same : ∀ x < 2 ^ n, f x = g x) : Gives result n g := by
  obtain ⟨t, ht, tabulates⟩ := h
  exact ⟨t, ht, tabulates.congr same⟩

/-- From seven variables on there is a word for every 64 assignments. -/
lemma wordCount_of_ge (hn : 6 ≤ n) : 64 * wordCount n = 2 ^ n := by
  unfold wordCount
  split
  · rw [show n = 6 by omega]
    rfl
  · rw [show 64 = 2 ^ 6 from rfl, ← Nat.pow_add, Nat.add_sub_cancel' hn]

lemma wordCount_of_lt (hn : n < 6) : wordCount n = 1 := if_pos (Nat.le_of_lt hn)

lemma two_pow_lt_word (hn : n < 6) : 2 ^ n < 64 := Nat.pow_lt_pow_right (n := 6) (by decide) hn

/-- The words of a table have a bit for every assignment. -/
lemma div_lt_wordCount (hx : x < 2 ^ n) : x / 64 < wordCount n := by
  by_cases hn : 6 ≤ n
  · have := wordCount_of_ge hn
    omega
  · have := two_pow_lt_word (Nat.not_le.1 hn)
    rw [wordCount_of_lt (Nat.not_le.1 hn)]
    omega

lemma lt_wordCount_bits (hx : x < 2 ^ n) : x < 64 * wordCount n := by
  have := div_lt_wordCount hx
  omega

lemma bit_mul_add {p i : Nat} (hp : p < 64) :
    t.bit (64 * i + p) = (t.words.getD i 0).toNat.testBit p := by
  rw [bit, show (64 * i + p) / 64 = i by omega, show (64 * i + p) % 64 = p by omega]

lemma bit_of_length_le (h : t.words.length ≤ x / 64) : t.bit x = false := by
  rw [bit, List.getD_eq_default _ _ h]
  exact Nat.zero_testBit _

/-- Well-formed tables of as many variables are equal if all their values are. -/
lemma Fits.ext (hs : s.Fits n) (ht : t.Fits n) (h : ∀ x < 2 ^ n, s.bit x = t.bit x) : s = t := by
  have same : ∀ x, s.bit x = t.bit x := fun x => by
    by_cases hx : x < 2 ^ n
    · exact h x hx
    · rw [hs.clear x (Nat.not_lt.1 hx), ht.clear x (Nat.not_lt.1 hx)]
  have words : s.words = t.words := by
    refine List.ext_getElem (hs.length.trans ht.length.symm) fun i hi hi' => ?_
    refine eq_of_testBit_word fun p hp => ?_
    have := same (64 * i + p)
    rwa [bit_mul_add hp, bit_mul_add hp, List.getD_eq_getElem _ _ hi,
      List.getD_eq_getElem _ _ hi'] at this
  have numVars : s.numVars = t.numVars := hs.numVars.trans ht.numVars.symm
  cases s
  cases t
  cases words
  cases numVars
  rfl

/-- Clearing the tail keeps the values and makes the table well-formed. -/
lemma masked_tabulates {words : List UInt64} (length : words.length = wordCount n)
    (h : ∀ x < 2 ^ n, (words.getD (x / 64) 0).toNat.testBit (x % 64) = f x) :
    (masked n words).Tabulates n f := by
  have bits : ∀ x, (masked n words).bit x =
      (decide (x < 2 ^ n) && (words.getD (x / 64) 0).toNat.testBit (x % 64)) := by
    intro x
    rw [bit, masked, List.getD_eq_getElem?_getD, List.getElem?_modify, List.getD_eq_getElem?_getD]
    rcases Nat.lt_or_ge (x / 64) words.length with hi | hi
    · rw [List.getElem?_eq_getElem hi, Option.map_eq_map, Option.map_some,
        Option.getD_some, Option.getD_some]
      by_cases hn : 6 ≤ n
      · have hx : x < 2 ^ n := by
          rw [length] at hi
          have := wordCount_of_ge hn
          omega
        have htail : x % 64 < 2 ^ n := (Nat.mod_le ..).trans_lt hx
        split
        · rw [UInt64.toNat_and, Nat.testBit_and, testBit_tailMask (Nat.mod_lt _ (by decide)),
            decide_eq_true hx, decide_eq_true htail, Bool.and_true, Bool.true_and]
        · rw [decide_eq_true hx, Bool.true_and]
      · have hone := wordCount_of_lt (Nat.not_le.1 hn)
        have hmod : x % 64 = x := Nat.mod_eq_of_lt (by omega)
        rw [if_pos (by omega), UInt64.toNat_and, Nat.testBit_and,
          testBit_tailMask (Nat.mod_lt _ (by decide)), hmod, Bool.and_comm]
    · rw [List.getElem?_eq_none hi]
      simp
  refine ⟨⟨rfl, ?_, fun x hx => ?_⟩, fun x hx => ?_⟩
  · rw [masked, List.length_modify, length]
  · rw [bits, decide_eq_false (Nat.not_lt.2 hx), Bool.false_and]
  · rw [bits, decide_eq_true hx, Bool.true_and, h x hx]

/-! ## Stored forms -/

section Tables

variable {T U : TruthTable n}

lemma bit_ofTable (T : TruthTable n) (x : Nat) : (ofTable T).bit x = T.value x := by
  rcases Nat.lt_or_ge (x / 64) (wordCount n) with hi | hi
  · rw [bit, ofTable, TruthTable.words, testBit_wordsOfNat _ hi (Nat.mod_lt _ (by decide)),
      Nat.div_add_mod]
    rfl
  · rw [bit_of_length_le (by rwa [ofTable, TruthTable.words, length_wordsOfNat]),
      TruthTable.value_of_ge (Nat.not_lt.1 fun hx => Nat.not_lt.2 hi (div_lt_wordCount hx))]

/-- The stored form of a table is well-formed and has its values. -/
lemma ofTable_tabulates (T : TruthTable n) : (ofTable T).Tabulates n T.value where
  numVars := rfl
  length := length_wordsOfNat _ _
  clear x hx := (bit_ofTable T x).trans (TruthTable.value_of_ge hx)
  bits x _ := bit_ofTable T x

lemma ofTable_fits (T : TruthTable n) : (ofTable T).Fits n := (ofTable_tabulates T).toFits

lemma ofTable_inj : ofTable T = ofTable U ↔ T = U := by
  refine ⟨fun h => TruthTable.ext_value fun x _ => ?_, congrArg _⟩
  rw [← bit_ofTable, h, bit_ofTable]

/-- Every well-formed table is the stored form of a table. -/
lemma Fits.exists_table (h : t.Fits n) : ∃ T : TruthTable n, t = ofTable T :=
  ⟨.ofFn n t.bit, h.ext (ofTable_fits _) fun x hx => by
    rw [bit_ofTable, TruthTable.value_ofFn _ hx]⟩

/-- An operation that has the values of a table for its result makes the stored form of the table. -/
lemma Gives.eq_ofTable {result : Except Fault WordTable} (h : Gives result n f)
    (same : ∀ x < 2 ^ n, f x = T.value x) : result = .ok (ofTable T) := by
  obtain ⟨t, rfl, ht⟩ := h
  rw [ht.ext (ofTable_fits T) fun x hx => by rw [ht.bits x hx, bit_ofTable, same x hx]]

end Tables

/-! ## Making tables -/

lemma zeros_tabulates : Tabulates ⟨n, List.replicate (wordCount n) 0⟩ n fun _ => false := by
  have bits : ∀ x, bit ⟨n, List.replicate (wordCount n) 0⟩ x = false := fun x => by
    have : (List.replicate (wordCount n) (0 : UInt64)).getD (x / 64) 0 = 0 := by
      rw [List.getD_eq_getElem?_getD, List.getElem?_replicate]
      split <;> rfl
    rw [bit, this]
    exact Nat.zero_testBit _
  exact ⟨⟨rfl, List.length_replicate, fun x _ => bits x⟩, fun x _ => bits x⟩

lemma gives_zero (hn : n ≤ maxTableVariables) : Gives (zero n) n fun _ => false :=
  ⟨_, if_pos hn, zeros_tabulates⟩

lemma Fits.not_tabulates (h : t.Fits n) : t.not.Tabulates n fun x => !t.bit x := by
  rw [not, h.numVars]
  refine masked_tabulates (by rw [List.length_map, h.length]) fun x hx => ?_
  have hi : x / 64 < t.words.length := h.length ▸ div_lt_wordCount hx
  rw [bit, List.getD_eq_getElem _ _ (by rwa [List.length_map]), List.getElem_map,
    testBit_not _ (Nat.mod_lt _ (by decide)), List.getD_eq_getElem _ _ hi]

lemma gives_one (hn : n ≤ maxTableVariables) : Gives (one n) n fun _ => true := by
  obtain ⟨t, ht, zeros⟩ := gives_zero hn
  refine ⟨t.not, by rw [one, ht]; rfl, zeros.not_tabulates.congr fun x hx => ?_⟩
  rw [zeros.bits x hx, Bool.not_false]

lemma gives_const (hn : n ≤ maxTableVariables) (c : Bool) : Gives (const n c) n fun _ => c := by
  cases c
  · exact gives_zero hn
  · exact gives_one hn

lemma gives_var (hn : n ≤ maxTableVariables) (hv : v < n) : Gives (var n v) n (·.testBit v) := by
  rw [var, if_pos hv, zero, if_pos hn]
  refine ⟨_, rfl, masked_tabulates ?_ fun x hx => ?_⟩
  · split <;> simp
  · have hi : x / 64 < wordCount n := div_lt_wordCount hx
    have hbit := Nat.mod_lt x (show 64 > 0 by decide)
    split
    · rename_i hv
      rw [List.getD_eq_getElem _ _ (by simpa using hi), List.getElem_map, testBit_wordPattern hv hbit,
        show 64 = 2 ^ 6 from rfl, Nat.testBit_mod_two_pow, decide_eq_true hv, Bool.true_and]
    · rename_i hv
      -- bit `v` of the assignment is bit `v - 6` of the number of its word
      have hword : x.testBit v = decide (x / 64 / 2 ^ (v - 6) % 2 = 1) := by
        rw [← Nat.testBit_eq_decide_div_mod_eq, show 64 = 2 ^ 6 from rfl, Nat.testBit_div_two_pow,
          Nat.sub_add_cancel (Nat.not_lt.1 hv)]
      rw [List.getD_eq_getElem _ _ (by simpa using hi), List.getElem_mapIdx, hword]
      split
      · rename_i hset
        rw [testBit_fullWord hbit, decide_eq_true hset]
      · rename_i hclear
        rw [List.getElem_replicate, decide_eq_false hclear]
        exact Nat.zero_testBit _

lemma gives_ofWords (hn : n < 70) {words : List UInt64} (length : wordCount n ≤ words.length) :
    Gives (ofWords n words) n fun x => (words.getD (x / 64) 0).toNat.testBit (x % 64) := by
  rw [ofWords, if_neg (Nat.not_le.2 hn), if_neg (Nat.not_lt.2 length)]
  refine ⟨_, rfl, masked_tabulates (List.length_take_of_le length) fun x hx => ?_⟩
  rw [List.getD_eq_getElem?_getD, List.getElem?_take_of_lt (div_lt_wordCount hx),
    List.getD_eq_getElem?_getD]

/-! ## Single values -/

lemma Fits.value_eq (h : t.Fits n) (hx : x < 2 ^ n) : t.value x = .ok (t.bit x) := by
  rw [value, h.numVars, if_pos hx]

lemma Fits.gives_setValue (h : t.Fits n) (hx : x < 2 ^ n) (b : Bool) :
    Gives (t.setValue x b) n fun y => if y = x then b else t.bit y := by
  have hx' : x < 2 ^ t.numVars := by rwa [h.numVars]
  have bits : ∀ y, bit ⟨t.numVars, t.words.modify (x / 64) (replaceBit (x % 64) b)⟩ y =
      if y = x then b else t.bit y := by
    intro y
    have same : y = x ↔ x / 64 = y / 64 ∧ y % 64 = x % 64 := by omega
    rw [bit, bit, List.getD_eq_getElem?_getD, List.getElem?_modify, List.getD_eq_getElem?_getD]
    by_cases hword : x / 64 = y / 64
    · have hi : y / 64 < t.words.length := by
        rw [← hword, h.length]
        exact div_lt_wordCount hx
      rw [List.getElem?_eq_getElem hi, Option.map_eq_map, Option.map_some, Option.getD_some,
        if_pos hword, testBit_replaceBit (Nat.mod_lt _ (by decide)) (Nat.mod_lt _ (by decide)),
        Option.getD_some]
      simp only [same, hword, true_and]
    · rw [if_neg fun e => hword (same.1 e).1]
      simp [hword]
  refine ⟨_, if_pos hx', ⟨h.numVars, ?_, fun y hy => ?_⟩, fun y _ => bits y⟩
  · rw [List.length_modify, h.length]
  · rw [bits, if_neg (by omega), h.clear y hy]

/-! ## Pointwise operations -/

/-- An operation on words that works bit by bit. -/
def IsBitwise (op : UInt64 → UInt64 → UInt64) (o : Bool → Bool → Bool) : Prop :=
  ∀ a b : UInt64, ∀ p < 64, (op a b).toNat.testBit p = o (a.toNat.testBit p) (b.toNat.testBit p)

/-- Combining words bit by bit combines the values; where both are zero the result has to be. -/
lemma Fits.gives_zip {op : UInt64 → UInt64 → UInt64} {o : Bool → Bool → Bool} (hop : IsBitwise op o)
    (zeros : o false false = false) (hs : s.Fits n) (ht : t.Fits n) :
    Gives (zip op s t) n fun x => o (s.bit x) (t.bit x) := by
  have bits : ∀ x, bit ⟨s.numVars, s.words.zipWith op t.words⟩ x = o (s.bit x) (t.bit x) := by
    intro x
    rcases Nat.lt_or_ge (x / 64) (wordCount n) with hi | hi
    · have his : x / 64 < s.words.length := hs.length ▸ hi
      have hit : x / 64 < t.words.length := ht.length ▸ hi
      rw [bit, bit, bit, List.getD_eq_getElem _ _ (by simp [his, hit]), List.getElem_zipWith,
        hop _ _ _ (Nat.mod_lt _ (by decide)), List.getD_eq_getElem _ _ his,
        List.getD_eq_getElem _ _ hit]
    · rw [bit_of_length_le (by simp [hs.length, hi]), bit_of_length_le (by rwa [hs.length]),
        bit_of_length_le (by rwa [ht.length]), zeros]
  refine ⟨_, if_pos (hs.numVars.trans ht.numVars.symm), ⟨hs.numVars, ?_, fun x hx => ?_⟩,
    fun x _ => bits x⟩
  · rw [List.length_zipWith, hs.length, ht.length, Nat.min_self]
  · rw [bits, hs.clear x hx, ht.clear x hx, zeros]

section Pointwise

variable (hs : s.Fits n) (ht : t.Fits n)

include hs ht

lemma Fits.gives_and : Gives (s.and t) n fun x => s.bit x && t.bit x :=
  gives_zip (fun a b p _ => by rw [UInt64.toNat_and, Nat.testBit_and]) rfl hs ht

lemma Fits.gives_or : Gives (s.or t) n fun x => s.bit x || t.bit x :=
  gives_zip (fun a b p _ => by rw [UInt64.toNat_or, Nat.testBit_or]) rfl hs ht

lemma Fits.gives_xor : Gives (s.xor t) n fun x => s.bit x ^^ t.bit x :=
  gives_zip (fun a b p _ => by rw [UInt64.toNat_xor, Nat.testBit_xor]) rfl hs ht

lemma Fits.gives_andNot : Gives (s.andNot t) n fun x => s.bit x && !t.bit x :=
  gives_zip (o := fun a b => a && !b)
    (fun a b p hp => by rw [UInt64.toNat_and, Nat.testBit_and, testBit_not _ hp]) rfl hs ht

end Pointwise

/-! ## Questions about the values -/

lemma Fits.eq_iff (hs : s.Fits n) (ht : t.Fits n) : s = t ↔ ∀ x < 2 ^ n, s.bit x = t.bit x :=
  ⟨fun h _ _ => by rw [h], hs.ext ht⟩

lemma Fits.isZero_iff (h : t.Fits n) : t.isZero = true ↔ ∀ x < 2 ^ n, t.bit x = false := by
  constructor
  · intro zeros x hx
    have hi : x / 64 < t.words.length := h.length ▸ div_lt_wordCount hx
    have hword : t.words[x / 64] = 0 := by
      simpa using List.all_eq_true.1 zeros _ (List.getElem_mem hi)
    rw [bit, List.getD_eq_getElem _ _ hi, hword]
    exact Nat.zero_testBit _
  · intro zeros
    rw [h.ext zeros_tabulates.toFits fun x hx => by rw [zeros x hx, zeros_tabulates.bits x hx]]
    simp [isZero]

lemma Fits.isOne_iff (hn : n ≤ maxTableVariables) (h : t.Fits n) :
    ∃ b, t.isOne = .ok b ∧ (b = true ↔ ∀ x < 2 ^ n, t.bit x = true) := by
  obtain ⟨r, hr, ones⟩ := gives_one hn
  refine ⟨t == r, by rw [isOne, h.numVars, hr]; rfl, ?_⟩
  rw [beq_iff_eq, h.eq_iff ones.toFits]
  exact forall₂_congr fun x hx => by rw [ones.bits x hx]

lemma Fits.implies_iff (hs : s.Fits n) (ht : t.Fits n) :
    ∃ b, s.implies t = .ok b ∧ (b = true ↔ ∀ x < 2 ^ n, s.bit x = true → t.bit x = true) := by
  obtain ⟨r, hr, differs⟩ := hs.gives_andNot ht
  refine ⟨r.isZero, by rw [implies, hr]; rfl, ?_⟩
  rw [differs.isZero_iff]
  refine forall₂_congr fun x hx => ?_
  rw [differs.bits x hx]
  cases s.bit x <;> simp

/-- Counting word by word counts the assignments, since the unused bits are zero. -/
lemma Fits.countOnes_eq (h : t.Fits n) : t.countOnes = (List.range (2 ^ n)).countP t.bit := by
  obtain ⟨unused, hunused⟩ : ∃ unused, 64 * t.words.length = 2 ^ n + unused := by
    refine Nat.exists_eq_add_of_le ?_
    rw [h.length]
    by_cases hn : 6 ≤ n
    · exact (wordCount_of_ge hn).ge
    · have := two_pow_lt_word (Nat.not_le.1 hn)
      rw [wordCount_of_lt (Nat.not_le.1 hn)]
      omega
  have rest : (List.range unused).countP (fun x => t.bit (2 ^ n + x)) = 0 :=
    List.countP_eq_zero.2 fun x _ => by simp [h.clear (2 ^ n + x) (Nat.le_add_right ..)]
  rw [countOnes, foldr_countBits, hunused]
  exact (countP_range_add t.bit _ _).trans (by rw [rest, Nat.add_zero])

/-! ## Single variables -/

/-- Work on the halves that a variable selects reads every value at another assignment. -/
lemma Fits.gives_onVariable {c : Bool → Bool} {inWord : UInt64 → UInt64}
    {inBlock : List UInt64 → List UInt64 → List UInt64}
    (word : v < 6 → ∀ w, ∀ p < 64, (inWord w).toNat.testBit p = w.toNat.testBit (moved c v p))
    (block : ∀ low high,
      inBlock low high = (if c false then high else low) ++ (if c true then high else low))
    (h : t.Fits n) (hv : v < n) :
    Gives (t.onVariable v inWord inBlock) n fun x => t.bit (moved c v x) := by
  rw [onVariable, h.numVars, if_pos hv]
  refine ⟨_, rfl, ?_⟩
  by_cases hlow : v < 6
  · rw [if_pos hlow]
    refine masked_tabulates (by rw [List.length_map, h.length]) fun x hx => ?_
    obtain ⟨hword, hbit⟩ := moved_of_lt (c := c) (x := x) hlow
    have hi : x / 64 < t.words.length := h.length ▸ div_lt_wordCount hx
    rw [bit, hword, hbit, List.getD_eq_getElem _ _ (by rwa [List.length_map]), List.getElem_map,
      word hlow _ _ (Nat.mod_lt _ (by decide)), List.getD_eq_getElem _ _ hi]
  · rw [if_neg hlow]
    have hge := Nat.not_lt.1 hlow
    obtain ⟨d, rfl⟩ := Nat.exists_eq_add_of_lt hv
    -- the variables between `v` and the top one count the blocks
    have blocks : t.words.length = 2 ^ d * (2 * 2 ^ (v - 6)) := by
      have hcount := wordCount_of_ge (n := v + d + 1) (by omega)
      have hpow : 2 ^ (v + d + 1) = 64 * (2 ^ d * (2 * 2 ^ (v - 6))) := by
        rw [show v + d + 1 = 6 + (d + (1 + (v - 6))) by omega, Nat.pow_add, Nat.pow_add, Nat.pow_add]
      have := h.length
      omega
    have hget := getElem?_onBlocks block blocks
    refine masked_tabulates ((length_onBlocks block blocks).trans h.length) fun x _ => ?_
    obtain ⟨hword, hbit⟩ := moved_of_ge (c := c) (x := x) hge
    rw [bit, hword, hbit, List.getD_eq_getElem?_getD, hget, List.getD_eq_getElem?_getD]

lemma Fits.gives_cofactor (h : t.Fits n) (hv : v < n) (b : Bool) :
    Gives (t.cofactor v b) n fun x => t.bit (setVar x v b) :=
  h.gives_onVariable (c := fun _ => b) (fun hv w p hp => testBit_cofactorWord hv hp b w)
    (fun low high => by cases b <;> rfl) hv

lemma Fits.gives_flip (h : t.Fits n) (hv : v < n) :
    Gives (t.flip v) n fun x => t.bit (x ^^^ 2 ^ v) := by
  simp only [← moved_not]
  exact h.gives_onVariable (fun hv w p hp => (testBit_flipWord hv hp w).trans (by rw [moved_not]))
    (fun low high => rfl) hv

lemma Fits.gives_quantify (h : t.Fits n) (hv : v < n) :
    Gives (t.quantify v) n fun x => t.bit (setVar x v false) || t.bit (setVar x v true) := by
  obtain ⟨low, hlow, lows⟩ := h.gives_cofactor hv false
  obtain ⟨high, hhigh, highs⟩ := h.gives_cofactor hv true
  rw [quantify, hlow, hhigh]
  exact (lows.toFits.gives_or highs.toFits).congr fun x hx => by rw [lows.bits x hx, highs.bits x hx]

/-- The value changes with variable `v` somewhere. -/
def Matters (n : Nat) (f : Nat → Bool) (v : Nat) : Prop := ∃ x < 2 ^ n, f x ≠ f (x ^^^ 2 ^ v)

section Tables

variable {T U : TruthTable n}

lemma hasVar_iff_matters (hv : v < n) : T.hasVar v = true ↔ Matters n T.value v := by
  rw [← Bool.not_eq_false, TruthTable.hasVar_eq_false_iff hv]
  constructor
  · intro h
    simp only [not_forall] at h
    obtain ⟨x, hx, differ⟩ := h
    refine ⟨setVar x v false, setVar_lt hx hv, fun same => differ ?_⟩
    rw [same, xor_two_pow false (by simp), setVar_setVar, Bool.not_false]
  · rintro ⟨x, hx, differ⟩ same
    refine differ ?_
    have := same x hx
    cases hbit : x.testBit v
    · rwa [setVar_of_testBit hbit, ← Bool.not_false, ← xor_two_pow false hbit] at this
    · rw [setVar_of_testBit hbit, ← Bool.not_true, ← xor_two_pow true hbit] at this
      exact this.symm

lemma cofactor_ofTable (hv : v < n) (b : Bool) :
    (ofTable T).cofactor v b = .ok (ofTable (T.cofactor v b)) :=
  ((ofTable_fits T).gives_cofactor hv b).eq_ofTable fun x hx => by
    rw [bit_ofTable, TruthTable.value_cofactor hv hx]

lemma quantify_ofTable (hv : v < n) : (ofTable T).quantify v = .ok (ofTable (T.quantify v)) :=
  ((ofTable_fits T).gives_quantify hv).eq_ofTable fun x hx => by
    rw [bit_ofTable, bit_ofTable, TruthTable.value_quantify hv hx]

/-- Quantifying on words, variable after variable, is quantifying on tables. -/
lemma quantifyAll_ofTable (mask : Nat) :
    (ofTable T).quantifyAll mask = .ok (ofTable (T.quantifyAll mask)) := by
  suffices ∀ vars : List Nat, (∀ v ∈ vars, v < n) →
      vars.foldlM quantify (ofTable T) = .ok (ofTable (vars.foldl TruthTable.quantify T)) from
    this _ fun v hv => (TruthTable.mem_variablesIn.1 hv).1
  intro vars hvars
  induction vars generalizing T with
  | nil => rfl
  | cons v vars ih =>
      rw [List.foldlM_cons, quantify_ofTable (hvars v List.mem_cons_self)]
      exact ih fun w hw => hvars w (List.mem_cons_of_mem v hw)

lemma hasVar_ofTable (hv : v < n) : (ofTable T).hasVar v = .ok (T.hasVar v) := by
  rw [hasVar, cofactor_ofTable hv, cofactor_ofTable hv, TruthTable.hasVar]
  refine congrArg Except.ok ?_
  rw [Bool.eq_iff_iff, bne_iff_ne, bne_iff_ne, ne_eq, ne_eq, ofTable_inj]

lemma supportMask_ofTable : (ofTable T).supportMask = .ok T.supportMask := by
  suffices ∀ (vars : List Nat) (mask : Nat), (∀ v ∈ vars, v < n) →
      vars.foldlM (fun mask v => do
        return if ← (ofTable T).hasVar v then mask ||| 1 <<< v else mask) mask =
      Except.ok ((vars.filter T.hasVar).foldl (fun m v => m ||| 1 <<< v) mask) from
    this _ _ fun v hv => List.mem_range.1 hv
  intro vars mask hvars
  induction vars generalizing mask with
  | nil => rfl
  | cons v vars ih =>
      rw [List.foldlM_cons, hasVar_ofTable (hvars v List.mem_cons_self), List.filter_cons]
      refine (ih _ fun w hw => hvars w (List.mem_cons_of_mem v hw)).trans ?_
      cases T.hasVar v <;> rfl

/-- The values of a projection are filled in one after the other. -/
lemma gives_copies {vars : List Nat} (hvars : ∀ v ∈ vars, v < n) {zeros : WordTable}
    (empty : zeros.Tabulates vars.length fun _ => false) {count : Nat} (hcount : count ≤ 2 ^ vars.length) :
    Gives ((List.range count).foldlM ((ofTable T).copyValue vars) zeros) vars.length
      fun y => decide (y < count) && T.value (TruthTable.spread vars y) := by
  induction count with
  | zero => exact ⟨zeros, rfl, empty.congr fun y _ => by simp⟩
  | succ count ih =>
      obtain ⟨s, hs, tabulates⟩ := ih (Nat.le_of_succ_le hcount)
      have hread := (ofTable_fits T).value_eq (TruthTable.spread_lt hvars count)
      obtain ⟨r, hr, next⟩ := tabulates.toFits.gives_setValue hcount
        (T.value (TruthTable.spread vars count))
      have hstep : (ofTable T).copyValue vars s count = .ok r := by
        rw [copyValue, hread, bit_ofTable]
        exact hr
      refine ⟨r, ?_, next.congr fun y hy => ?_⟩
      · rw [List.range_succ, List.foldlM_append, hs]
        exact congrArg (· >>= pure) hstep
      · rw [tabulates.bits y hy]
        by_cases hy : y = count
        · simp [hy]
        · have : y < count + 1 ↔ y < count := by omega
          simp [hy, this]

lemma project_ofTable (hn : n ≤ maxTableVariables) {vars : List Nat} (nodup : vars.Nodup)
    (hvars : ∀ v ∈ vars, v < n) (covers : ∀ v < n, T.hasVar v = true → v ∈ vars) :
    (ofTable T).project vars = .ok (ofTable (T.project vars)) := by
  have length : vars.length ≤ n := by
    simpa using (List.subperm_of_subset nodup fun v hv => List.mem_range.2 (hvars v hv)).length_le
  have narrow : ¬ vars.any (32 ≤ ·) = true := by
    have hn : n ≤ 24 := hn
    simp only [List.any_eq_true, decide_eq_true_eq, not_exists, not_and, Nat.not_le]
    exact fun v hv => (hvars v hv).trans_le (hn.trans (by decide))
  have kept : T.supportMask &&& TruthTable.maskOf vars = T.supportMask := by
    refine Nat.eq_of_testBit_eq fun v => ?_
    rw [Nat.testBit_and, TruthTable.testBit_maskOf, TruthTable.supportMask, TruthTable.testBit_maskOf]
    by_cases hv : v ∈ T.support
    · obtain ⟨hlt, hdep⟩ := TruthTable.mem_support.1 hv
      rw [decide_eq_true hv, decide_eq_true (covers v hlt hdep), Bool.true_and]
    · rw [decide_eq_false hv, Bool.false_and]
  obtain ⟨zeros, hzeros, empty⟩ := gives_zero (length.trans hn)
  have hproject : (ofTable T).project vars =
      (List.range (2 ^ vars.length)).foldlM ((ofTable T).copyValue vars) zeros := by
    rw [project, if_neg narrow, supportMask_ofTable, hzeros]
    exact if_pos kept
  rw [hproject]
  refine (gives_copies hvars empty le_rfl).eq_ofTable fun y hy => ?_
  rw [TruthTable.project, TruthTable.value_ofFn _ hy, decide_eq_true hy, Bool.true_and]

end Tables

/-! ## All operations -/

/-- The operations on tables of `n` variables are the operations on Boolean values, assignment by
assignment. -/
structure Pointwise (n : Nat) (s t : WordTable) : Prop where
  zero : Gives (zero n) n fun _ => false
  one : Gives (one n) n fun _ => true
  const : ∀ b, Gives (const n b) n fun _ => b
  var : ∀ v < n, Gives (var n v) n (·.testBit v)
  ofWords : ∀ words : List UInt64, wordCount n ≤ words.length →
    Gives (ofWords n words) n fun x => (words.getD (x / 64) 0).toNat.testBit (x % 64)
  value : ∀ x < 2 ^ n, s.value x = .ok (s.bit x)
  setValue : ∀ x < 2 ^ n, ∀ b, Gives (s.setValue x b) n fun y => if y = x then b else s.bit y
  not : Gives (.ok s.not) n fun x => !s.bit x
  and : Gives (s.and t) n fun x => s.bit x && t.bit x
  or : Gives (s.or t) n fun x => s.bit x || t.bit x
  xor : Gives (s.xor t) n fun x => s.bit x ^^ t.bit x
  andNot : Gives (s.andNot t) n fun x => s.bit x && !t.bit x
  cofactor : ∀ v < n, ∀ b, Gives (s.cofactor v b) n fun x => s.bit (setVar x v b)
  quantify : ∀ v < n,
    Gives (s.quantify v) n fun x => s.bit (setVar x v false) || s.bit (setVar x v true)
  /-- The variables set in `mask` may have any values. -/
  quantifyAll : ∀ mask, ∃ r, s.quantifyAll mask = .ok r ∧ r.Fits n ∧ ∀ x < 2 ^ n,
    (r.bit x = true ↔ ∃ y < 2 ^ n, (∀ v < n, mask.testBit v = false → x.testBit v = y.testBit v) ∧
      s.bit y = true)
  flip : ∀ v < n, Gives (s.flip v) n fun x => s.bit (x ^^^ 2 ^ v)
  /-- There is an assignment that gives the listed variables the values of the new ones, and on each such
  assignment the function has the value of its projection. -/
  project : ∀ vars : List Nat, vars.Nodup → (∀ v ∈ vars, v < n) →
    (∀ v < n, Matters n s.bit v → v ∈ vars) →
    ∃ r, s.project vars = .ok r ∧ r.Fits vars.length ∧ ∀ y < 2 ^ vars.length,
      (∃ x < 2 ^ n, ∀ i v, vars[i]? = some v → x.testBit v = y.testBit i) ∧
      ∀ x < 2 ^ n, (∀ i v, vars[i]? = some v → x.testBit v = y.testBit i) → r.bit y = s.bit x
  equal : s = t ↔ ∀ x < 2 ^ n, s.bit x = t.bit x
  isZero : s.isZero = true ↔ ∀ x < 2 ^ n, s.bit x = false
  isOne : ∃ b, s.isOne = .ok b ∧ (b = true ↔ ∀ x < 2 ^ n, s.bit x = true)
  implies : ∃ b, s.implies t = .ok b ∧ (b = true ↔ ∀ x < 2 ^ n, s.bit x = true → t.bit x = true)
  hasVar : ∀ v < n, ∃ b, s.hasVar v = .ok b ∧ (b = true ↔ Matters n s.bit v)
  supportMask : ∃ mask, s.supportMask = .ok mask ∧
    ∀ v, mask.testBit v = true ↔ v < n ∧ Matters n s.bit v
  countOnes : s.countOnes = (List.range (2 ^ n)).countP s.bit

/-- On well-formed tables of up to 24 variables every operation is pointwise. -/
theorem pointwise (hn : n ≤ maxTableVariables) (hs : s.Fits n) (ht : t.Fits n) : Pointwise n s t := by
  obtain ⟨T, rfl⟩ := hs.exists_table
  have matters : ∀ v < n, (T.hasVar v = true ↔ Matters n (ofTable T).bit v) := fun v hv => by
    rw [hasVar_iff_matters hv, funext (bit_ofTable T)]
  exact {
    zero := gives_zero hn
    one := gives_one hn
    const := gives_const hn
    var := fun v hv => gives_var hn hv
    ofWords := fun words length => gives_ofWords (Nat.lt_of_le_of_lt hn (by decide)) length
    value := fun x hx => hs.value_eq hx
    setValue := fun x hx b => hs.gives_setValue hx b
    not := ⟨_, rfl, hs.not_tabulates⟩
    and := hs.gives_and ht
    or := hs.gives_or ht
    xor := hs.gives_xor ht
    andNot := hs.gives_andNot ht
    cofactor := fun v hv b => hs.gives_cofactor hv b
    quantify := fun v hv => hs.gives_quantify hv
    quantifyAll := fun mask => by
      refine ⟨_, quantifyAll_ofTable mask, ofTable_fits _, fun x hx => ?_⟩
      rw [bit_ofTable, TruthTable.value_quantifyAll hx]
      simp only [bit_ofTable]
      rfl
    flip := fun v hv => hs.gives_flip hv
    project := fun vars nodup hvars covers => by
      have covers : ∀ v < n, T.hasVar v = true → v ∈ vars := fun v hv hdep =>
        covers v hv ((matters v hv).1 hdep)
      refine ⟨_, project_ofTable hn nodup hvars covers, ofTable_fits _, fun y hy => ⟨?_, ?_⟩⟩
      · exact ⟨_, TruthTable.spread_lt hvars y, fun i v hi => TruthTable.testBit_spread_of nodup y hi⟩
      · intro x hx placed
        rw [bit_ofTable, bit_ofTable, TruthTable.project, TruthTable.value_ofFn _ hy]
        refine TruthTable.value_congr (TruthTable.spread_lt hvars y) hx fun v hv hdep => ?_
        obtain ⟨i, hi⟩ := List.mem_iff_getElem?.1 (covers v hv hdep)
        rw [TruthTable.testBit_spread_of nodup y hi, placed i v hi]
    equal := hs.eq_iff ht
    isZero := hs.isZero_iff
    isOne := hs.isOne_iff hn
    implies := hs.implies_iff ht
    hasVar := fun v hv => ⟨_, hasVar_ofTable hv, matters v hv⟩
    supportMask := by
      refine ⟨_, supportMask_ofTable, fun v => ?_⟩
      rw [TruthTable.supportMask, TruthTable.testBit_maskOf, decide_eq_true_eq, TruthTable.mem_support]
      exact and_congr_right fun hv => matters v hv
    countOnes := hs.countOnes_eq }

/-- From six variables on no bit of a word is unused. -/
lemma fits_of_ge (hn : 6 ≤ n) {words : List UInt64} (length : words.length = wordCount n) :
    Fits ⟨n, words⟩ n where
  numVars := rfl
  length := length
  clear x hx := bit_of_length_le (by
    have := wordCount_of_ge hn
    change words.length ≤ x / 64
    omega)

/-- The last and the first of seven variables. -/
theorem pointwise_selectors :
    Fits ⟨7, [0, fullWord]⟩ 7 ∧ Fits ⟨7, [0xAAAAAAAAAAAAAAAA, 0xAAAAAAAAAAAAAAAA]⟩ 7 ∧
      Pointwise 7 ⟨7, [0, fullWord]⟩ ⟨7, [0xAAAAAAAAAAAAAAAA, 0xAAAAAAAAAAAAAAAA]⟩ :=
  have last := fits_of_ge (by decide) rfl
  have first := fits_of_ge (by decide) rfl
  ⟨last, first, pointwise (by decide) last first⟩

end WordTable

end Gatework
