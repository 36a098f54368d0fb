import Mathlib.Data.List.TakeWhile
import Gatework.Proofs.Runs
import Gatework.Subnet.Reader

/-!
# Tokens that are read back

The reader skips blanks in front of a token and takes as many characters for a number or a name as it
can.  So a number is read back where no digit stands behind it, and a name where no character stands
behind it that it could go on with; and since no name starts with a blank, no part of a name is
skipped.  The printed form puts a blank or a punctuation mark behind both (`Reader.Ends`).
-/

namespace Gatework

namespace Text

variable {c : Char}

/-! ## Letters and blanks -/

lemma exists_range {ranges : Array (Nat × Nat)} {v : Nat} (h : inRanges ranges v = true) :
    ∃ r ∈ ranges.toList, r.1 ≤ v ∧ v ≤ r.2 := by
  rw [inRanges, ← Array.any_toList, List.any_eq_true] at h
  obtain ⟨r, hr, hv⟩ := h
  exact ⟨r, hr, by simpa using hv⟩

/-- No range of letters or numbers has a blank or a punctuation mark in it. -/
lemma ranges_between {r : Nat × Nat} (hr : r ∈ letterRanges.toList ++ numberRanges.toList) :
    0x3001 ≤ r.1 ∨ (0x30 ≤ r.1 ∧ r.2 < 0x3A) ∨ (0x41 ≤ r.1 ∧ r.2 < 0x7B) ∨
      (0xA1 ≤ r.1 ∧ r.2 < 0x1680) ∨ (0x1681 ≤ r.1 ∧ r.2 < 0x2000) ∨ (0x2060 ≤ r.1 ∧ r.2 < 0x3000) := by
  have all : (letterRanges.toList ++ numberRanges.toList).all (fun r => (0x3001).ble r.1 ||
      (0x30).ble r.1 && r.2.blt 0x3A || (0x41).ble r.1 && r.2.blt 0x7B ||
      (0xA1).ble r.1 && r.2.blt 0x1680 || (0x1681).ble r.1 && r.2.blt 0x2000 ||
      (0x2060).ble r.1 && r.2.blt 0x3000) = true := by
    decide +kernel
  simpa [or_assoc] using List.all_eq_true.1 all r hr

/-- No part of a name is a blank. -/
lemma isBlank_of_isNamePart (h : isNamePart c = true) : isBlank c = false := by
  have between : ∀ r ∈ letterRanges.toList ++ numberRanges.toList,
      r.1 ≤ c.toNat ∧ c.toNat ≤ r.2 → isBlank c = false := by
    rintro r hr ⟨hlow, hhigh⟩
    have between := ranges_between hr
    simp only [isBlank, Bool.or_eq_false_iff, Bool.and_eq_false_iff, decide_eq_false_iff_not,
      beq_eq_false_iff_ne]
    omega
  rw [isNamePart, Bool.or_eq_true, Bool.or_eq_true] at h
  rcases h with (hletter | hnumber) | hunderscore
  · obtain ⟨r, hr, hin⟩ := exists_range hletter
    exact between r (List.mem_append_left _ hr) hin
  · obtain ⟨r, hr, hin⟩ := exists_range hnumber
    exact between r (List.mem_append_right _ hr) hin
  · rw [beq_iff_eq.1 hunderscore]
    rfl

lemma isNamePart_of_isNameStart (h : isNameStart c = true) : isNamePart c = true := by
  rw [isNamePart, Bool.or_right_comm]
  exact Bool.or_eq_true_iff.2 (.inl h)

/-- A name does not start with a blank. -/
lemma isBlank_of_isNameStart (h : isNameStart c = true) : isBlank c = false :=
  isBlank_of_isNamePart (isNamePart_of_isNameStart h)

/-- A name does not go on with a punctuation mark. -/
lemma isNamePart_of_gap (h : c.toNat < 0x30 ∨ (0x3A ≤ c.toNat ∧ c.toNat < 0x41) ∨
    (0x7B ≤ c.toNat ∧ c.toNat < 0xA1)) : isNamePart c = false := by
  have outside : ∀ ranges : Array (Nat × Nat),
      (∀ r ∈ ranges.toList, r ∈ letterRanges.toList ++ numberRanges.toList) →
      inRanges ranges c.toNat = false := by
    intro ranges hranges
    by_contra hin
    obtain ⟨r, hr, hlow, hhigh⟩ := exists_range (Bool.not_eq_false _ ▸ hin)
    have := ranges_between (hranges r hr)
    omega
  have hunderscore : (c == '_') = false := by
    refine beq_eq_false_iff_ne.2 ?_
    rintro rfl
    exact absurd h (by decide)
  rw [isNamePart, isLetter, isNumber, hunderscore,
    outside letterRanges fun r hr => List.mem_append_left _ hr,
    outside numberRanges fun r hr => List.mem_append_right _ hr]
  rfl

lemma isBlank_of_isDigit (h : c.isDigit = true) : isBlank c = false := by
  have hrange : 0x30 ≤ c.toNat ∧ c.toNat ≤ 0x39 := by
    simpa [Char.isDigit, UInt32.le_iff_toNat_le] using h
  simp only [isBlank, Bool.or_eq_false_iff, Bool.and_eq_false_iff, decide_eq_false_iff_not,
    beq_eq_false_iff_ne]
  omega

lemma skipBlanks_cons (h : isBlank c = false) (cs : List Char) : skipBlanks (c :: cs) = c :: cs := by
  rw [skipBlanks, List.dropWhile_cons, if_neg (by simp [h])]

end Text

namespace Reader

variable {cs rest : List Char} {n : Nat}

/-- A text does not go on with a character of some kind. -/
def Stops (p : Char → Bool) (cs : List Char) : Prop := ∀ c ∈ cs.head?, p c = false

/-- The characters that the printed form puts behind numbers and names. -/
def delimiters : List Char := [' ', '\n', '(', ')', ',']

/-- A text that does not go on with a character of a number or a name, or with a dot. -/
def Ends (cs : List Char) : Prop := ∀ c ∈ cs.head?, c ∈ delimiters

lemma ends_cons {c : Char} (h : c ∈ delimiters) (cs : List Char) : Ends (c :: cs) := by
  rintro d ⟨⟩
  exact h

lemma Ends.stops (ends : Ends cs) {p : Char → Bool} (h : delimiters.any p = false) : Stops p cs :=
  fun c hc => by simpa using List.any_eq_false.1 h c (ends c hc)

lemma any_isNamePart : delimiters.any Text.isNamePart = false := by
  have below : delimiters.all (fun c => decide (c.toNat < 0x30)) = true := rfl
  refine List.any_eq_false.2 fun c hc => ?_
  rw [Text.isNamePart_of_gap (.inl (of_decide_eq_true (List.all_eq_true.1 below c hc)))]
  exact Bool.false_ne_true

/-- A longest run of characters is taken off. -/
lemma takeWhile_append {p : Char → Bool} (h : ∀ c ∈ cs, p c = true) (stops : Stops p rest) :
    (cs ++ rest).takeWhile p = cs ∧ (cs ++ rest).dropWhile p = rest := by
  rw [List.takeWhile_append_of_pos h, List.dropWhile_append_of_pos h]
  cases rest with
  | nil => simp
  | cons c rest =>
      have hc : p c = false := stops c rfl
      simp [hc]

/-! ## Numbers -/

lemma decimal_toDigits (n : Nat) : decimal (Nat.toDigits 10 n) = n := by
  have h := @Nat.ofDigitChars_toDigits 10 n (by decide) (by decide)
  rw [decimal]
  simpa only [Nat.ofDigitChars, Nat.mul_comm] using h

/-- A number is read back where no digit stands behind it. -/
lemma number_toDigits (hn : n < entryLimit) (stops : Stops Char.isDigit rest) :
    number (Nat.toDigits 10 n ++ rest) = .ok (n, rest) := by
  have digits : ∀ c ∈ Nat.toDigits 10 n, c.isDigit = true := fun c hc =>
    Nat.isDigit_of_mem_toDigits (by decide) (by decide) hc
  have hblanks : Text.skipBlanks (Nat.toDigits 10 n ++ rest) = Nat.toDigits 10 n ++ rest := by
    cases hcs : Nat.toDigits 10 n with
    | nil => exact absurd hcs Nat.toDigits_ne_nil
    | cons c cs =>
        have hc : c.isDigit = true := digits c (hcs ▸ List.mem_cons_self)
        exact Text.skipBlanks_cons (Text.isBlank_of_isDigit hc) _
  obtain ⟨htake, hdrop⟩ := takeWhile_append digits stops
  have hne : (Nat.toDigits 10 n).isEmpty = false := by simp [Nat.toDigits_ne_nil]
  simp only [number, hblanks, htake, hdrop, hne, decimal_toDigits, hn, if_true, Bool.false_eq_true,
    if_false]

/-- What is read as a number is below the limit. -/
lemma number_lt (h : number cs = .ok (n, rest)) : n < entryLimit := by
  simp only [number] at h
  split at h
  · cases h
  · split at h
    · rename_i hlt
      cases h
      exact hlt
    · cases h

lemma port_toDigits {p : UInt16} (ends : Ends rest) :
    port (Nat.toDigits 10 p.toNat ++ rest) = .ok (p, rest) := by
  have hp : p.toNat < UInt16.size := p.toNat_lt
  have hn : p.toNat < entryLimit := hp.trans (by decide)
  rw [port, number_toDigits hn (ends.stops rfl), ok_bind]
  simp only [hp, if_true, UInt16.ofNat_toNat]

/-! ## Names -/

/-- The reader takes the whole text for a name. -/
def IsName (s : String) : Prop :=
  ∃ c cs, s.toList = c :: cs ∧ Text.isNameStart c = true ∧ ∀ d ∈ cs, Text.isNamePart d = true

lemma name_toList {s : String} (h : IsName s) (ends : Ends rest) :
    name (s.toList ++ rest) = .ok (s, rest) := by
  obtain ⟨c, cs, hs, hstart, hpart⟩ := h
  obtain ⟨htake, hdrop⟩ := takeWhile_append hpart (ends.stops any_isNamePart)
  have hblanks := Text.skipBlanks_cons (Text.isBlank_of_isNameStart hstart) (cs ++ rest)
  rw [name, hs, List.cons_append, hblanks]
  simp only [hstart, if_true, htake, hdrop, ← hs, String.ofList_toList]

/-- What is read as a name is one. -/
lemma isName_of_name {s : String} (h : name cs = .ok (s, rest)) : IsName s := by
  rw [name] at h
  split at h
  · cases h
  · rename_i c cs' hcs
    split at h
    · rename_i hstart
      cases h
      exact ⟨c, _, String.toList_ofList, hstart, fun d hd => List.mem_takeWhile_imp hd⟩
    · cases h

end Reader

end Gatework
