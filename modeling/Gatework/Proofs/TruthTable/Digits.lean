import Gatework.TruthTable.Digits
import Gatework.Proofs.TruthTable.Agreement
import Gatework.Proofs.TruthTable.Numerals

/-!
# The text, the number and the order of stored tables

The bits of a stored table are the binary digits of a number (`WordTable.Denotes`), and a well-formed table
of `n` variables is one for each number below `2 ^ 2 ^ n`.  Placing a digit adds what it stands for to the
number, as long as the sum stays below that limit (`WordTable.placeDigit?_ofNat`), so the digits of a text
are placed exactly if the number that they denote is below the limit.  The words are compared from the last
one down, which compares the numbers.

**Main statement.** `WordTable.hex_faithful`.
-/

namespace Gatework

namespace WordTable

variable {n v w pos digit : Nat} {s t : WordTable}

/-- The bits of the table are the binary digits of `v`. -/
def Denotes (t : WordTable) (v : Nat) : Prop := ∀ x, t.bit x = v.testBit x

/-! ## Tables and numbers -/

lemma denotes_natOfWords (t : WordTable) : t.Denotes (natOfWords t.words) := fun x => by
  rw [bit, ← testBit_natOfWords _ _ (Nat.mod_lt x (by decide)), Nat.div_add_mod]

lemma Denotes.natOfWords_eq (h : t.Denotes v) : natOfWords t.words = v :=
  Nat.eq_of_testBit_eq fun x => (denotes_natOfWords t x).symm.trans (h x)

lemma Fits.denotes_lt (ht : t.Fits n) (h : t.Denotes v) : v < 2 ^ 2 ^ n :=
  Nat.lt_pow_two_of_testBit v fun x hx => (h x).symm.trans (ht.clear x hx)

lemma denotes_ofNat (hv : v < 2 ^ 2 ^ n) : (ofTable (.ofNat n v)).Denotes v := fun x => by
  rw [bit_ofTable]
  rcases Nat.lt_or_ge x (2 ^ n) with hx | hx
  · exact TruthTable.value_ofNat hx v
  · rw [TruthTable.value_of_ge hx,
      Nat.testBit_lt_two_pow (hv.trans_le (Nat.pow_le_pow_right (by decide) hx))]

/-- A well-formed table is known from its number. -/
lemma Fits.eq_ofNat (ht : t.Fits n) (h : t.Denotes v) : t = ofTable (.ofNat n v) :=
  ht.ext (ofTable_fits _) fun x _ => (h x).trans (denotes_ofNat (ht.denotes_lt h) x).symm

lemma Denotes.fits (h : t.Denotes v) (hv : v < 2 ^ 2 ^ n) (numVars : t.numVars = n)
    (length : t.words.length = wordCount n) : t.Fits n where
  numVars := numVars
  length := length
  clear x hx := by
    rw [h x, Nat.testBit_lt_two_pow (hv.trans_le (Nat.pow_le_pow_right (by decide) hx))]

/-! ## Reading -/

/-- What a digit stands for has its bits in one word. -/
lemma testBit_digitWord (hd : digit < 16) (x : Nat) :
    (digit * 16 ^ pos).testBit x = (decide (4 * pos / 64 = x / 64) &&
      (UInt64.ofNat digit <<< UInt64.ofNat (4 * pos % 64)).toNat.testBit (x % 64)) := by
  have hword : (UInt64.ofNat digit <<< UInt64.ofNat (4 * pos % 64)).toNat.testBit (x % 64) =
      (decide (4 * pos % 64 ≤ x % 64) && digit.testBit (x % 64 - 4 * pos % 64)) := by
    have hshift : (UInt64.ofNat (4 * pos % 64)).toNat % 64 = 4 * pos % 64 := by
      rw [UInt64.toNat_ofNat']
      omega
    have hdigit : (UInt64.ofNat digit).toNat = digit := by
      rw [UInt64.toNat_ofNat']
      omega
    rw [UInt64.toNat_shiftLeft, hshift, hdigit, Nat.testBit_mod_two_pow,
      decide_eq_true (Nat.mod_lt x (by decide)), Bool.true_and, Nat.testBit_shiftLeft]
  have hhigh : ∀ i, 4 ≤ i → digit.testBit i = false := fun i hi =>
    Nat.testBit_lt_two_pow (hd.trans_le (Nat.pow_le_pow_right (n := 2) (i := 4) (by decide) hi))
  rw [hword, show 16 = 2 ^ 4 from rfl, ← Nat.pow_mul, Nat.testBit_mul_two_pow]
  by_cases hx : 4 * pos / 64 = x / 64
  · rw [decide_eq_true hx, Bool.true_and, show x % 64 - 4 * pos % 64 = x - 4 * pos by omega]
    simp only [show 4 * pos % 64 ≤ x % 64 ↔ 4 * pos ≤ x by omega]
  · rw [decide_eq_false hx, Bool.false_and]
    by_cases hle : 4 * pos ≤ x
    · rw [hhigh _ (by omega), Bool.and_false]
    · rw [decide_eq_false hle, Bool.false_and]

lemma bit_modify_or {i : Nat} (hi : i < t.words.length) (word : UInt64) (x : Nat) :
    bit { t with words := t.words.modify i (· ||| word) } x =
      (t.bit x || (decide (i = x / 64) && word.toNat.testBit (x % 64))) := by
  rw [bit, bit, List.getD_eq_getElem?_getD, List.getElem?_modify, List.getD_eq_getElem?_getD]
  by_cases hword : i = x / 64
  · rw [← hword, List.getElem?_eq_getElem hi]
    simp
  · simp [hword]

/-- From two variables on a table has room for whole digits. -/
lemma two_pow_eq_four_mul (hn : 2 ≤ n) : 2 ^ n = 4 * 2 ^ (n - 2) := by
  rw [show 4 = 2 ^ 2 from rfl, ← Nat.pow_add, Nat.add_sub_cancel' hn]

/-- A digit goes beyond the bits of a table if what it stands for is beyond the limit. -/
lemma overflows_eq_false (hnum : t.numVars = n) (hd : digit < 16) (hne : digit ≠ 0) :
    t.overflows pos digit = false ↔ digit * 16 ^ pos < 2 ^ 2 ^ n := by
  rw [overflows, hnum, Bool.or_eq_false_iff, decide_eq_false_iff_not, Nat.not_le]
  by_cases hn : n < 2
  · -- the only digit is compared with the limit itself
    have hfour : max (2 ^ n) 4 = 4 := by interval_cases n <;> rfl
    rw [hfour, decide_eq_true hn, Bool.true_and]
    rcases Nat.eq_zero_or_pos pos with rfl | hpos
    · interval_cases n <;> interval_cases digit <;> decide
    · have hsixteen : 16 ≤ 16 ^ pos := Nat.le_self_pow hpos.ne' 16
      have hlimit : 2 ^ 2 ^ n ≤ 4 := by interval_cases n <;> decide
      have := Nat.le_mul_of_pos_left (16 ^ pos) (Nat.pos_of_ne_zero hne)
      exact ⟨fun h => by omega, fun h => by omega⟩
  · -- the digit is compared by its place only
    have hfour := two_pow_eq_four_mul (Nat.not_lt.1 hn)
    have hroom := Nat.two_pow_pos (n - 2)
    rw [decide_eq_false hn, Bool.false_and, hfour, Nat.pow_mul]
    constructor
    · rintro ⟨hpos, -⟩
      calc digit * 16 ^ pos < 16 * 16 ^ pos := Nat.mul_lt_mul_of_pos_right hd (Nat.pow_pos (by decide))
        _ = 16 ^ (pos + 1) := Nat.pow_succ'.symm
        _ ≤ 16 ^ 2 ^ (n - 2) := Nat.pow_le_pow_right (by decide) (by omega)
    · intro h
      have := Nat.le_mul_of_pos_left (16 ^ pos) (Nat.pos_of_ne_zero hne)
      have := (Nat.pow_lt_pow_iff_right (a := 16) (by decide)).1 (this.trans_lt h)
      exact ⟨by omega, rfl⟩

/-- Lower digits do not matter for the limit. -/
lemma add_digit_lt (hlow : v < 16 ^ pos) (hv : v < 2 ^ 2 ^ n) :
    v + digit * 16 ^ pos < 2 ^ 2 ^ n ↔ digit * 16 ^ pos < 2 ^ 2 ^ n := by
  refine ⟨(Nat.le_add_left ..).trans_lt, fun h => ?_⟩
  rw [show 16 = 2 ^ 4 from rfl, ← Nat.pow_mul] at *
  rcases Nat.lt_or_ge (2 ^ n) (4 * pos) with hpos | hpos
  · obtain rfl : digit = 0 := by
      by_contra hne
      have := Nat.pow_le_pow_right (n := 2) (by decide) hpos.le
      have := Nat.le_mul_of_pos_left (2 ^ (4 * pos)) (Nat.pos_of_ne_zero hne)
      omega
    omega
  · obtain ⟨rest, hrest⟩ := Nat.exists_eq_add_of_le hpos
    have hlimit : 2 ^ 2 ^ n = 2 ^ (4 * pos) * 2 ^ rest := by rw [hrest, Nat.pow_add]
    rw [hlimit, Nat.mul_comm digit] at h ⊢
    have hdigit : digit < 2 ^ rest := Nat.lt_of_mul_lt_mul_left h
    calc v + 2 ^ (4 * pos) * digit < 2 ^ (4 * pos) * (digit + 1) := by
          rw [Nat.mul_succ]
          omega
      _ ≤ 2 ^ (4 * pos) * 2 ^ rest := Nat.mul_le_mul_left _ hdigit

/-- Placing a digit in front of the lower ones adds what it stands for. -/
lemma placeDigit?_ofNat (hlow : v < 16 ^ pos) (hv : v < 2 ^ 2 ^ n) (hd : digit < 16) :
    (ofTable (.ofNat n v)).placeDigit? pos digit =
      if v + digit * 16 ^ pos < 2 ^ 2 ^ n then some (ofTable (.ofNat n (v + digit * 16 ^ pos)))
      else none := by
  have ht := ofTable_fits (TruthTable.ofNat n v)
  have hsum : v + digit * 16 ^ pos < 2 ^ 2 ^ n ↔ digit * 16 ^ pos < 2 ^ 2 ^ n := add_digit_lt hlow hv
  by_cases hzero : digit = 0
  · rw [placeDigit?, if_pos hzero, hzero, Nat.zero_mul, Nat.add_zero, if_pos hv]
  have hroom : (ofTable (TruthTable.ofNat n v)).overflows pos digit = false ↔
      digit * 16 ^ pos < 2 ^ 2 ^ n := overflows_eq_false ht.numVars hd hzero
  rw [placeDigit?, if_neg hzero]
  by_cases hlimit : digit * 16 ^ pos < 2 ^ 2 ^ n
  · rw [hroom.2 hlimit, if_neg (by decide), if_pos (hsum.2 hlimit)]
    have hword : 4 * pos / 64 < (ofTable (TruthTable.ofNat n v)).words.length := by
      have := Nat.le_mul_of_pos_left (16 ^ pos) (Nat.pos_of_ne_zero hzero)
      rw [show 16 = 2 ^ 4 from rfl, ← Nat.pow_mul] at *
      rw [ht.length]
      exact div_lt_wordCount ((Nat.pow_lt_pow_iff_right (by decide)).1 (this.trans_lt hlimit))
    -- the bits of the digit are above those of `v`, so they are added as they are set
    have hor : v + digit * 16 ^ pos = v ||| digit * 16 ^ pos := by
      rw [show 16 = 2 ^ 4 from rfl, ← Nat.pow_mul] at *
      rw [Nat.add_comm, Nat.mul_comm, Nat.two_pow_add_eq_or_of_lt hlow, Nat.or_comm]
    have hdenotes : Denotes { ofTable (TruthTable.ofNat n v) with
        words := (ofTable (TruthTable.ofNat n v)).words.modify (4 * pos / 64)
          (· ||| UInt64.ofNat digit <<< UInt64.ofNat (4 * pos % 64)) } (v + digit * 16 ^ pos) := by
      intro x
      rw [bit_modify_or hword, denotes_ofNat hv, ← testBit_digitWord hd, hor, Nat.testBit_or]
    have hfits := hdenotes.fits (hsum.2 hlimit) rfl (by rw [List.length_modify, ht.length])
    exact congrArg some (hfits.eq_ofNat hdenotes)
  · rw [Bool.eq_true_of_not_eq_false fun h => hlimit (hroom.1 h), if_pos rfl,
      if_neg fun h => hlimit (hsum.1 h)]

/-- Placing all digits of a text adds the number that they denote. -/
lemma placeDigits?_ofNat (hlow : v < 16 ^ pos) (hv : v < 2 ^ 2 ^ n) (digits : List Char) :
    (ofTable (.ofNat n v)).placeDigits? pos digits.reverse =
      (hexNumber? 0 digits).bind fun w =>
        if v + w * 16 ^ pos < 2 ^ 2 ^ n then some (ofTable (.ofNat n (v + w * 16 ^ pos)))
        else none := by
  induction digits using List.reverseRecOn generalizing v pos with
  | nil =>
      rw [List.reverse_nil, placeDigits?, hexNumber?, Option.bind_some, Nat.zero_mul, Nat.add_zero,
        if_pos hv]
  | append_singleton digits c ih =>
      rw [List.reverse_concat, placeDigits?, hexNumber?_concat]
      cases hdigit : hexValue? c with
      | none => cases hexNumber? 0 digits <;> rfl
      | some digit =>
          have hd := (hexValue?_eq_some.1 hdigit).lt
          have hpow : 16 ^ (pos + 1) = 16 * 16 ^ pos := Nat.pow_succ'
          have hsum : ∀ w, v + digit * 16 ^ pos + w * 16 ^ (pos + 1) =
              v + (w * 16 + digit) * 16 ^ pos := fun w => by
            rw [hpow]
            ring
          rw [Option.bind_some, placeDigit?_ofNat hlow hv hd, Option.bind_assoc]
          split
          · rename_i hlimit
            have hnext : v + digit * 16 ^ pos < 16 ^ (pos + 1) := by
              have := Nat.mul_le_mul_right (16 ^ pos) (Nat.le_of_lt_succ hd)
              omega
            rw [Option.bind_some, ih hnext hlimit]
            simp only [hsum, Option.map_some, Option.bind_some]
          · rename_i hlimit
            -- the digits in front only add to what is too much already
            have hover : ∀ w, ¬ v + (w * 16 + digit) * 16 ^ pos < 2 ^ 2 ^ n := fun w => by
              rw [← hsum]
              omega
            simp only [Option.map_some, Option.bind_some, Option.bind_none, if_neg (hover _),
              Option.bind_fun_none]

/-- The number that a text denotes is read, if it is below the limit. -/
lemma ofHex?_eq (hn : n ≤ maxTableVariables) (text : String) :
    ofHex? n text = (hexTextNumber? text.toList).bind fun v =>
      if v < 2 ^ 2 ^ n then some (ofTable (.ofNat n v)) else none := by
  have hzeros : (⟨n, List.replicate (wordCount n) 0⟩ : WordTable) = ofTable (.ofNat n 0) := by
    have zeros := zeros_tabulates (n := n)
    refine zeros.eq_ofNat fun x => ?_
    rw [Nat.zero_testBit]
    rcases Nat.lt_or_ge x (2 ^ n) with hx | hx
    · exact zeros.bits x hx
    · exact zeros.clear x hx
  rw [ofHex?, hexTextNumber?]
  cases dropHexMark (Text.trimBlanks text.toList) with
  | nil => rfl
  | cons c digits =>
      simp only
      rw [if_pos hn, hzeros, placeDigits?_ofNat (by decide) (Nat.two_pow_pos _)]
      simp only [Nat.pow_zero, Nat.mul_one, Nat.zero_add]

/-- The texts that are read, and as what. -/
lemma ofHex?_eq_some (hn : n ≤ maxTableVariables) {text : String} : ofHex? n text = some t ↔
    ∃ v < 2 ^ 2 ^ n, HexNumeral text.toList v ∧ t.Fits n ∧ t.Denotes v := by
  simp only [ofHex?_eq hn, Option.bind_eq_some_iff, hexTextNumber?_eq_some]
  constructor
  · rintro ⟨v, htext, h⟩
    split at h
    · rename_i hv
      cases h
      exact ⟨v, hv, htext, ofTable_fits _, denotes_ofNat hv⟩
    · cases h
  · rintro ⟨v, hv, htext, ht, hdenotes⟩
    exact ⟨v, htext, by rw [if_pos hv, ← ht.eq_ofNat hdenotes]⟩

/-! ## Writing -/

lemma nibble_eq (t : WordTable) (pos : Nat) : t.nibble pos = natOfWords t.words / 16 ^ pos % 16 := by
  have hshift : (UInt64.ofNat (4 * pos % 64)).toNat % 64 = 4 * pos % 64 := by
    rw [UInt64.toNat_ofNat']
    omega
  rw [nibble, UInt64.toNat_and, UInt64.toNat_shiftRight, hshift,
    show (15 : UInt64).toNat = 2 ^ 4 - 1 from rfl, Nat.and_two_pow_sub_one_eq_mod,
    show 16 = 2 ^ 4 from rfl, ← Nat.pow_mul]
  refine Nat.eq_of_testBit_eq fun i => ?_
  rw [Nat.testBit_mod_two_pow, Nat.testBit_mod_two_pow, Nat.testBit_shiftRight,
    Nat.testBit_div_two_pow]
  by_cases hi : i < 4
  · rw [show i + 4 * pos = 64 * (4 * pos / 64) + (4 * pos % 64 + i) by omega,
      testBit_natOfWords _ _ (by omega)]
  · rw [decide_eq_false hi, Bool.false_and, Bool.false_and]

/-- Digit by digit the same text is written as for the number. -/
lemma toHex?_eq (ht : t.Fits n) (hn : n ≤ maxTableVariables) : t.toHex? = some t.digits := by
  have hn : n ≤ 24 := hn
  have hcover : 2 ^ n ≤ 64 * t.words.length := by
    rw [ht.length]
    by_cases hsix : 6 ≤ n
    · rw [wordCount_of_ge hsix]
    · rw [wordCount_of_lt (Nat.not_le.1 hsix)]
      exact (two_pow_lt_word (Nat.not_le.1 hsix)).le
  rw [toHex?, digits, ht.numVars, if_pos (by omega), if_pos hcover, hexText_eq, List.append_nil]
  simp only [nibble_eq]

/-! ## Order -/

/-- The written digits hold all bits. -/
lemma two_pow_le_hexCount (n : Nat) : 2 ^ 2 ^ n ≤ 16 ^ TruthTable.hexCount n := by
  have hbits : 2 ^ n ≤ 4 * TruthTable.hexCount n := by
    unfold TruthTable.hexCount
    by_cases hn : n < 2
    · interval_cases n <;> decide
    · have := two_pow_eq_four_mul (Nat.not_lt.1 hn)
      omega
  rw [show 16 = 2 ^ 4 from rfl, ← Nat.pow_mul]
  exact Nat.pow_le_pow_right (by decide) hbits

/-- The written text denotes the number of the table. -/
lemma ofHex?_digits (ht : t.Fits n) (hn : n ≤ maxTableVariables) : ofHex? n t.digits = some t := by
  have hdenotes := denotes_natOfWords t
  have hlt := ht.denotes_lt hdenotes
  have hroom := two_pow_le_hexCount n
  have htext : t.digits.toList = hexText (TruthTable.hexCount n) (natOfWords t.words) [] := by
    rw [digits, ht.numVars, hexText_eq, String.toList_ofList, List.append_nil]
    simp only [nibble_eq]
  rw [ofHex?_eq hn, htext, hexTextNumber?_hexText (by unfold TruthTable.hexCount; omega),
    Nat.mod_eq_of_lt (hlt.trans_le hroom), Option.bind_some, if_pos hlt, ← ht.eq_ofNat hdenotes]

lemma natOfWords_cons (w : UInt64) (ws : List UInt64) :
    natOfWords (w :: ws) = 2 ^ 64 * natOfWords ws + w.toNat := by
  rw [natOfWords, Nat.shiftLeft_eq, Nat.mul_comm, Nat.or_comm,
    Nat.two_pow_add_eq_or_of_lt w.toNat_lt]

/-- The lower part decides between numbers with the same upper part. -/
lemma compare_mul_add {base a b : Nat} (ha : a < base) (hb : b < base) (p q : Nat) :
    compare (base * p + a) (base * q + b) = (compare p q).then (compare a b) := by
  rcases Nat.lt_trichotomy p q with h | rfl | h
  · have := Nat.mul_le_mul_left base (Nat.succ_le_of_lt h)
    rw [Nat.mul_succ] at this
    rw [Nat.compare_eq_lt.2 h, Nat.compare_eq_lt.2 (by omega)]
    rfl
  · rw [Nat.compare_eq_eq.2 rfl, Ordering.eq_then]
    rcases Nat.lt_trichotomy a b with h | rfl | h
    · rw [Nat.compare_eq_lt.2 h, Nat.compare_eq_lt.2 (by omega)]
    · rw [Nat.compare_eq_eq.2 rfl, Nat.compare_eq_eq.2 rfl]
    · rw [Nat.compare_eq_gt.2 h, Nat.compare_eq_gt.2 (by omega)]
  · have := Nat.mul_le_mul_left base (Nat.succ_le_of_lt h)
    rw [Nat.mul_succ] at this
    rw [Nat.compare_eq_gt.2 h, Nat.compare_eq_gt.2 (by omega)]
    rfl

lemma compareWords_concat {as bs : List UInt64} (same : as.length = bs.length) (a b : UInt64) :
    compareWords (as ++ [a]) (bs ++ [b]) = (compareWords as bs).then (compare a b) := by
  induction as generalizing bs with
  | nil =>
      obtain rfl := List.length_eq_zero_iff.1 same.symm
      simp only [List.nil_append, compareWords, Ordering.then_eq, Ordering.eq_then]
  | cons x as ih =>
      cases bs with
      | nil => cases same
      | cons y bs =>
          rw [List.cons_append, List.cons_append, compareWords, compareWords,
            ih (Nat.succ.inj same), Ordering.then_assoc]

/-- From the last word down, as many words are compared as the numbers they form. -/
lemma compareWords_reverse {as bs : List UInt64} (same : as.length = bs.length) :
    compareWords as.reverse bs.reverse = compare (natOfWords as) (natOfWords bs) := by
  induction as generalizing bs with
  | nil =>
      obtain rfl := List.length_eq_zero_iff.1 same.symm
      rfl
  | cons a as ih =>
      cases bs with
      | nil => cases same
      | cons b bs =>
          rw [List.reverse_cons, List.reverse_cons,
            compareWords_concat (by simpa using same), ih (Nat.succ.inj same)]
          rw [natOfWords_cons, natOfWords_cons, compare_mul_add a.toNat_lt b.toNat_lt, compare_toNat]

lemma order_of_denotes (hs : s.Fits n) (ht : t.Fits n) (hv : s.Denotes v) (hw : t.Denotes w) :
    s.order t = compare v w := by
  rw [order, hs.numVars, ht.numVars, compareWords_reverse (hs.length.trans ht.length.symm),
    hv.natOfWords_eq, hw.natOfWords_eq, Nat.compare_eq_eq.2 rfl]
  rfl

lemma order_of_lt (h : s.numVars < t.numVars) : s.order t = .lt := by
  rw [order, Nat.compare_eq_lt.2 h]
  rfl

end WordTable

namespace AnyTable

/-- Reading a text digit by digit makes the words of what reading its number makes. -/
lemma stored_ofHex? (n : Nat) (text : String) :
    (ofHex? n text).map stored = WordTable.ofHex? n text := by
  by_cases hn : n ≤ maxTableVariables
  · rw [WordTable.ofHex?_eq hn, ofHex?, TruthTable.ofHex?, if_pos hn, Option.map_map, Option.map_bind]
    refine congrArg _ (funext fun v => ?_)
    rw [Function.comp_apply, valuesOf]
    split <;> rfl
  · rw [ofHex?, TruthTable.ofHex?, if_neg hn, WordTable.ofHex?]
    split
    · rfl
    · rw [if_neg hn]
      rfl

end AnyTable

namespace WordTable

variable {n : Nat}

/-- For well-formed tables of at most 24 variables: the written text is read as the table.  A text is read
as a table exactly if it denotes a number below `2 ^ 2 ^ n`, the binary digits of which are then the bits of
the table, and reading the number has the same result as reading digit by digit.  Tables of as many
variables are ordered as their numbers, and one of fewer variables comes first. -/
theorem hex_faithful (hn : n ≤ maxTableVariables) :
    (∀ t, t.Fits n → t.toHex? = some t.digits ∧ ofHex? n t.digits = some t) ∧
      (∀ text t, ofHex? n text = some t ↔
        ∃ v < 2 ^ 2 ^ n, HexNumeral text.toList v ∧ t.Fits n ∧ t.Denotes v) ∧
      (∀ text, (AnyTable.ofHex? n text).map AnyTable.stored = ofHex? n text) ∧
      (∀ s t : WordTable, s.Fits n → t.Fits n →
        ∃ v w, s.Denotes v ∧ t.Denotes w ∧ s.order t = compare v w) ∧
      ∀ m < n, ∀ s t : WordTable, s.Fits m → t.Fits n → s.order t = .lt := by
  refine ⟨fun t ht => ?_, fun text t => ?_, AnyTable.stored_ofHex? n, fun s t hs ht => ?_,
    fun m hm s t hs ht => ?_⟩
  · exact ⟨toHex?_eq ht hn, ofHex?_digits ht hn⟩
  · exact ofHex?_eq_some hn
  · exact ⟨_, _, denotes_natOfWords s, denotes_natOfWords t,
      order_of_denotes hs ht (denotes_natOfWords s) (denotes_natOfWords t)⟩
  · exact order_of_lt (by rwa [hs.numVars, ht.numVars])

/-- A table of seven variables has two words, and the second one decides the order. -/
theorem hex_faithful_seven :
    7 ≤ maxTableVariables ∧ ofHex? 7 (digits ⟨7, [0, fullWord]⟩) = some ⟨7, [0, fullWord]⟩ ∧
      order ⟨7, [fullWord, 0]⟩ ⟨7, [0, 1]⟩ = .lt := by
  have hfits : ∀ words : List UInt64, words.length = 2 → Fits ⟨7, words⟩ 7 := fun _ h =>
    fits_of_ge (by decide) h
  obtain ⟨writes, -, -, ordered, -⟩ := hex_faithful (n := 7) (by decide)
  obtain ⟨v, w, hv, hw, horder⟩ := ordered _ _ (hfits [fullWord, 0] rfl) (hfits [0, 1] rfl)
  refine ⟨by decide, (writes _ (hfits [0, fullWord] rfl)).2, horder.trans ?_⟩
  rw [← hv.natOfWords_eq, ← hw.natOfWords_eq]
  decide

end WordTable

end Gatework
