import Mathlib.Data.Nat.Digits.Defs
import Mathlib.Data.List.Forall2
import Mathlib.Data.List.TakeWhile
import Mathlib.Tactic.IntervalCases
import Gatework.TruthTable.Hex

/-!
# Hexadecimal numerals

A text denotes a number (`HexNumeral`) if it is a list of digits with an optional mark in front of it and
blanks around it.  The reader of numbers accepts exactly these texts and computes the numbers
(`hexTextNumber?_eq_some`), and the digits written for a number are one of the texts that denote it
(`hexTextNumber?_hexText`).
-/

namespace Gatework

open List (Forall₂)

/-- A digit with the value `d`, of either case. -/
def IsHexDigit (c : Char) (d : Nat) : Prop :=
  ['0', '1', '2', '3', '4', '5', '6', '7', '8', '9', 'a', 'b', 'c', 'd', 'e', 'f'][d]? = some c ∨
    ['0', '1', '2', '3', '4', '5', '6', '7', '8', '9', 'A', 'B', 'C', 'D', 'E', 'F'][d]? = some c

/-- What may stand in front of the digits. -/
def hexMarks : List (List Char) := [[], ['0', 'x'], ['0', 'X']]

/-- The text consists of blanks, an optional mark, at least one digit and blanks, and the digits, of which
the last is the least significant, denote `v`. -/
def HexNumeral (text : List Char) (v : Nat) : Prop :=
  ∃ before mark digits after values,
    text = before ++ (mark ++ digits) ++ after ∧
    (∀ c ∈ before, Text.isBlank c = true) ∧ (∀ c ∈ after, Text.isBlank c = true) ∧
    mark ∈ hexMarks ∧ digits ≠ [] ∧
    Forall₂ IsHexDigit digits values ∧ v = Nat.ofDigits 16 values.reverse

/-! ## Digits -/

section Digits

variable {c : Char} {d : Nat}

lemma IsHexDigit.lt (h : IsHexDigit c d) : d < 16 := by
  rcases h with h | h
  · exact (List.getElem?_eq_some_iff.1 h).1
  · exact (List.getElem?_eq_some_iff.1 h).1

/-- The digits by their values: the reader knows each of them, none is a blank, and none is the letter of
a mark. -/
lemma IsHexDigit.read (h : IsHexDigit c d) :
    hexValue? c = some d ∧ Text.isBlank c = false ∧ c ≠ 'x' ∧ c ≠ 'X' := by
  have hd := h.lt
  rcases h with h | h <;> interval_cases d <;> obtain rfl := Option.some.inj h <;> decide

lemma isHexDigit_hexChar (hd : d < 16) : IsHexDigit (hexChar d) d := by
  interval_cases d <;> exact .inl rfl

/-- The reader takes nothing but digits. -/
lemma hexValue?_eq_some : hexValue? c = some d ↔ IsHexDigit c d := by
  refine ⟨fun h => ?_, fun h => h.read.1⟩
  -- every digit is one of the characters up to `f`, and these are tried one by one
  have hcode : c.toNat < 103 := by
    unfold hexValue? at h
    simp only [Char.le_def, UInt32.le_iff_toNat_le] at h
    change c.val.toNat < 103
    split at h
    · rename_i hc
      exact hc.2.trans_lt (by decide)
    · split at h
      · rename_i hc
        exact hc.2.trans_lt (by decide)
      · split at h
        · rename_i hc
          exact hc.2.trans_lt (by decide)
        · cases h
  have all : ∀ code < 103, ∀ d ∈ hexValue? (Char.ofNat code), IsHexDigit (Char.ofNat code) d := by
    unfold IsHexDigit
    decide +kernel
  simpa only [Char.ofNat_toNat] using all c.toNat hcode d (by rwa [Char.ofNat_toNat])

end Digits

/-! ## Lists of digits -/

section Lists

variable {cs : List Char} {count high v : Nat}

/-- The value read so far counts as one more digit in front. -/
lemma hexNumber?_eq_some : hexNumber? high cs = some v ↔
    ∃ values, Forall₂ IsHexDigit cs values ∧ v = Nat.ofDigits 16 (values.reverse ++ [high]) := by
  induction cs generalizing high with
  | nil =>
      simp only [hexNumber?, Option.some_inj, List.forall₂_nil_left_iff, exists_eq_left,
        List.reverse_nil, List.nil_append, Nat.ofDigits_singleton, eq_comm]
  | cons c cs ih =>
      have hstep : ∀ (d : Nat) (ds : List Nat),
          Nat.ofDigits 16 (ds.reverse ++ [high * 16 + d]) =
            Nat.ofDigits 16 ((d :: ds).reverse ++ [high]) := by
        intro d ds
        rw [List.reverse_cons, List.append_assoc, List.singleton_append, Nat.ofDigits_append,
          Nat.ofDigits_append, Nat.ofDigits_singleton, Nat.ofDigits_cons, Nat.ofDigits_singleton,
          Nat.add_comm d, Nat.mul_comm high]
      rw [hexNumber?, Option.bind_eq_some_iff]
      constructor
      · rintro ⟨d, hd, hrest⟩
        obtain ⟨ds, hds, rfl⟩ := ih.1 hrest
        exact ⟨d :: ds, .cons (hexValue?_eq_some.1 hd) hds, hstep d ds⟩
      · rintro ⟨_, hvalues, rfl⟩
        obtain _ | ⟨hd, hds⟩ := hvalues
        exact ⟨_, hexValue?_eq_some.2 hd, ih.2 ⟨_, hds, (hstep ..).symm⟩⟩

/-- One more digit at the end. -/
lemma hexNumber?_concat (cs : List Char) (c : Char) :
    hexNumber? high (cs ++ [c]) =
      (hexNumber? high cs).bind fun v => (hexValue? c).map (v * 16 + ·) := by
  induction cs generalizing high with
  | nil => cases h : hexValue? c <;> simp [hexNumber?, h]
  | cons x cs ih =>
      rw [List.cons_append, hexNumber?, hexNumber?, Option.bind_assoc]
      simp only [ih]

/-- The digits written for a number are read as its lowest digits. -/
lemma hexNumber?_hexText (count v : Nat) (rest : List Char) :
    hexNumber? high (hexText count v rest) =
      hexNumber? (high * 16 ^ count + v % 16 ^ count) rest := by
  induction count generalizing v rest with
  | zero => rw [hexText, Nat.pow_zero, Nat.mod_one, Nat.mul_one, Nat.add_zero]
  | succ count ih =>
      have hdigit := (isHexDigit_hexChar (Nat.mod_lt v (show 16 > 0 by decide))).read.1
      rw [hexText, ih, hexNumber?, hdigit, Option.bind_some, Nat.pow_succ', Nat.mod_mul]
      congr 1
      ring

/-- The written digits, most significant first. -/
lemma hexText_eq (count v : Nat) (rest : List Char) :
    hexText count v rest =
      (List.range count).reverse.map (fun pos => hexChar (v / 16 ^ pos % 16)) ++ rest := by
  induction count generalizing v rest with
  | zero => rfl
  | succ count ih =>
      rw [hexText, ih, List.range_succ_eq_map]
      simp [Nat.pow_succ', Nat.div_div_eq_div_mul]

end Lists

/-! ## Texts -/

section Texts

variable {cs digits : List Char} {values : List Nat} {v : Nat}

lemma exists_trimBlanks (cs : List Char) : ∃ before after,
    cs = before ++ Text.trimBlanks cs ++ after ∧
      (∀ c ∈ before, Text.isBlank c = true) ∧ ∀ c ∈ after, Text.isBlank c = true := by
  refine ⟨cs.takeWhile Text.isBlank, ((Text.skipBlanks cs).reverse.takeWhile Text.isBlank).reverse,
    ?_, fun c hc => List.mem_takeWhile_imp hc,
    fun c hc => List.mem_takeWhile_imp (List.mem_reverse.1 hc)⟩
  have hend : Text.trimBlanks cs ++ ((Text.skipBlanks cs).reverse.takeWhile Text.isBlank).reverse =
      Text.skipBlanks cs := by
    rw [Text.trimBlanks, ← List.reverse_append]
    exact List.reverse_eq_iff.2 List.takeWhile_append_dropWhile
  rw [List.append_assoc, hend]
  exact List.takeWhile_append_dropWhile.symm

lemma skipBlanks_append {before cs : List Char} (hbefore : ∀ c ∈ before, Text.isBlank c = true)
    (hcs : ∀ c ∈ cs.head?, Text.isBlank c = false) : Text.skipBlanks (before ++ cs) = cs := by
  rw [Text.skipBlanks, List.dropWhile_append_of_pos hbefore]
  cases cs with
  | nil => rfl
  | cons c cs => exact List.dropWhile_cons_of_neg (by simp [hcs c rfl])

/-- A text without blanks is what is left of it between blanks. -/
lemma trimBlanks_between {before core after : List Char}
    (hbefore : ∀ c ∈ before, Text.isBlank c = true) (hafter : ∀ c ∈ after, Text.isBlank c = true)
    (hcore : ∀ c ∈ core, Text.isBlank c = false) (hne : core ≠ []) :
    Text.trimBlanks (before ++ core ++ after) = core := by
  have hstart : Text.skipBlanks (before ++ (core ++ after)) = core ++ after := by
    refine skipBlanks_append hbefore fun c hc => ?_
    obtain ⟨c₀, rest, rfl⟩ := List.exists_cons_of_ne_nil hne
    exact hcore c (List.mem_of_mem_head? (show c ∈ (c₀ :: rest).head? from hc))
  have hend : Text.skipBlanks (after.reverse ++ core.reverse) = core.reverse := by
    refine skipBlanks_append (fun c hc => hafter c (List.mem_reverse.1 hc)) fun c hc => hcore c ?_
    exact List.mem_reverse.1 (List.mem_of_mem_head? hc)
  rw [List.append_assoc, Text.trimBlanks, hstart, List.reverse_append, hend, List.reverse_reverse]

lemma isBlank_of_digits (h : Forall₂ IsHexDigit digits values) :
    ∀ c ∈ digits, Text.isBlank c = false := by
  induction h with
  | nil => simp
  | cons hd _ ih => exact List.forall_mem_cons.2 ⟨hd.read.2.1, ih⟩

/-- Only digits stand behind the mark. -/
lemma dropHexMark_digits (h : Forall₂ IsHexDigit digits values) : dropHexMark digits = digits := by
  unfold dropHexMark
  split
  · cases h with
    | cons _ h => cases h with
      | cons hx _ => exact absurd rfl hx.read.2.2.1
  · cases h with
    | cons _ h => cases h with
      | cons hx _ => exact absurd rfl hx.read.2.2.2
  · rfl

lemma exists_hexMark (cs : List Char) : ∃ mark ∈ hexMarks, cs = mark ++ dropHexMark cs := by
  unfold dropHexMark
  split
  · exact ⟨['0', 'x'], by decide, rfl⟩
  · exact ⟨['0', 'X'], by decide, rfl⟩
  · exact ⟨[], by decide, rfl⟩

/-- The reader accepts the texts that denote a number, and reads that number. -/
lemma hexTextNumber?_eq_some : hexTextNumber? cs = some v ↔ HexNumeral cs v := by
  unfold hexTextNumber?
  constructor
  · intro h
    obtain ⟨before, after, hcs, hbefore, hafter⟩ := exists_trimBlanks cs
    obtain ⟨mark, hmark, htrim⟩ := exists_hexMark (Text.trimBlanks cs)
    split at h
    · cases h
    · rename_i hdigits
      obtain ⟨values, hvalues, rfl⟩ := hexNumber?_eq_some.1 h
      exact ⟨before, mark, _, after, values, htrim ▸ hcs, hbefore, hafter, hmark, hdigits, hvalues,
        Nat.ofDigits_append_zero ..⟩
  · rintro ⟨before, mark, digits, after, values, rfl, hbefore, hafter, hmark, hdigits, hvalues, rfl⟩
    have hmarked : dropHexMark (mark ++ digits) = digits := by
      simp only [hexMarks, List.mem_cons, List.not_mem_nil, or_false] at hmark
      rcases hmark with rfl | rfl | rfl
      · exact dropHexMark_digits hvalues
      · rfl
      · rfl
    have hmarks : ∀ mark ∈ hexMarks, ∀ c ∈ mark, Text.isBlank c = false := by
      simp only [hexMarks, List.forall_mem_cons, List.not_mem_nil, false_implies, implies_true,
        and_true, true_and]
      decide
    have hcore : ∀ c ∈ mark ++ digits, Text.isBlank c = false := by
      intro c hc
      rcases List.mem_append.1 hc with hc | hc
      · exact hmarks mark hmark c hc
      · exact isBlank_of_digits hvalues c hc
    rw [trimBlanks_between hbefore hafter hcore (by simp [hdigits]), hmarked]
    split
    · exact absurd rfl hdigits
    · exact hexNumber?_eq_some.2 ⟨values, hvalues, (Nat.ofDigits_append_zero ..).symm⟩

/-- What is written for a number denotes as much of it as the digits hold. -/
lemma hexTextNumber?_hexText {count : Nat} (hcount : count ≠ 0) (v : Nat) :
    hexTextNumber? (hexText count v []) = some (v % 16 ^ count) := by
  have hread : hexNumber? 0 (hexText count v []) = some (v % 16 ^ count) := by
    rw [hexNumber?_hexText, Nat.zero_mul, Nat.zero_add, hexNumber?]
  obtain ⟨values, hvalues, hsum⟩ := hexNumber?_eq_some.1 hread
  have hne : hexText count v [] ≠ [] := by
    rw [hexText_eq]
    simpa using hcount
  rw [hexTextNumber?_eq_some, hsum, Nat.ofDigits_append_zero]
  exact ⟨[], [], _, [], values, by simp, by simp, by simp, by decide, hne, hvalues, rfl⟩

end Texts

end Gatework
