import Mathlib.Order.Nat
import Gatework.Evaluation
import Gatework.Proofs.Values

/-!
# Signals point by point

The operators on signals, read at one point, are the operators on Booleans, as long as all operands
have the same width.  The majority is computed by counting; `getElem?_foldl_raise` says what the
intermediate lists count.

A signal that is made of words, or cut into them, shows the bits of the words one after the other
(`Signal.value_ofWords`, `Signal.testBit_words`).

**Main statement.** `Gate.signal_eq`: at every point, a gate computes the value of the gate there.
-/

namespace Gatework

namespace Signal

variable {a b : Signal} {width i : Nat}

lemma value_const (hi : i < width) (value : Bool) : (const width value).value i = value := by
  cases value <;> simp [const, Signal.value, hi]

lemma value_not (hi : i < a.width) : a.not.value i = !a.value i := by
  simp [Signal.not, value, hi]

@[simp] lemma width_invertIf (flag : Bool) : (a.invertIf flag).width = a.width := by
  cases flag <;> rfl

lemma value_invertIf (hi : i < a.width) (flag : Bool) :
    (a.invertIf flag).value i = (a.value i ^^ flag) := by
  cases flag with
  | false => simp [invertIf]
  | true => simp [invertIf, value_not hi]

/-- Within the width, the fill does not matter. -/
lemma getLsbD_bitsOver (hi : i < width) (ha : i < a.width) (fill : Bool) :
    (a.bitsOver width fill).getLsbD i = a.value i := by
  cases fill <;> simp [bitsOver, value, hi, ha]

lemma value_and (hi : i < a.width) (hb : i < b.width) :
    (a.and b).value i = (a.value i && b.value i) := by
  rw [← getLsbD_bitsOver hi hb true]
  exact BitVec.getLsbD_and

lemma value_or (hi : i < a.width) (hb : i < b.width) :
    (a.or b).value i = (a.value i || b.value i) := by
  rw [← getLsbD_bitsOver hi hb false]
  exact BitVec.getLsbD_or

lemma value_xor (hi : i < a.width) (hb : i < b.width) :
    (a.xor b).value i = (a.value i ^^ b.value i) := by
  rw [← getLsbD_bitsOver hi hb false]
  exact BitVec.getLsbD_xor

/-- A fold of an operator that works point by point, at one point. -/
lemma value_foldl {op : Signal → Signal → Signal} {f : Bool → Bool → Bool}
    (hwidth : ∀ a b, (op a b).width = a.width)
    (hop : ∀ a b, i < a.width → i < b.width → (op a b).value i = f (a.value i) (b.value i))
    {operands : List Signal} (hwidths : ∀ s ∈ operands, i < s.width) (ha : i < a.width) :
    (operands.foldl op a).width = a.width ∧
      (operands.foldl op a).value i = (operands.map (·.value i)).foldl f (a.value i) := by
  induction operands generalizing a with
  | nil => exact ⟨rfl, rfl⟩
  | cons s operands ih =>
      have hs := hwidths s (by simp)
      obtain ⟨hw, hv⟩ := @ih (op a s) (fun t ht => hwidths t (by simp [ht])) (by rwa [hwidth])
      refine ⟨hw.trans (hwidth a s), ?_⟩
      rw [List.foldl_cons, hv, hop a s ha hs]
      rfl

/-! ## Majority -/

/-- The lists of the majority count the operands: member `j` is set where more than `j` are. -/
lemma getElem?_foldl_raise (hi : i < width) (operands : List Signal)
    (hwidths : ∀ s ∈ operands, i < s.width) (counts : List (BitVec width)) (before : Nat)
    (h : ∀ (j : Nat) c, counts[j]? = some c → c.getLsbD i = decide (j < before)) :
    let reached := operands.foldl (fun c s => raise c (s.bitsOver width false)) counts
    reached.length = counts.length ∧ ∀ (j : Nat) c, reached[j]? = some c →
      c.getLsbD i = decide (j < before + (operands.map (·.value i)).count true) := by
  induction operands generalizing counts before with
  | nil => exact ⟨rfl, h⟩
  | cons s operands ih =>
      have hs : (s.bitsOver width false).getLsbD i = s.value i :=
        getLsbD_bitsOver hi (hwidths s (by simp)) false
      have step : ∀ (j : Nat) c, (raise counts (s.bitsOver width false))[j]? = some c →
          c.getLsbD i = decide (j < before + (s.value i).toNat) := by
        intro j c hc
        rw [raise, List.getElem?_zipWith_eq_some] at hc
        obtain ⟨here, below, hhere, hbelow, rfl⟩ := hc
        have hprev : below.getLsbD i = decide (j < before + 1) := by
          cases j with
          | zero =>
              cases hbelow
              simp [hi]
          | succ j =>
              rw [h j below hbelow]
              simp
        rw [BitVec.getLsbD_or, BitVec.getLsbD_and, hs, h j here hhere, hprev]
        cases s.value i <;> simp
        omega
      obtain ⟨hlength, hcount⟩ := ih (fun t ht => hwidths t (by simp [ht])) _ _ step
      refine ⟨hlength.trans (by simp [raise]), fun j c hc => ?_⟩
      rw [hcount j c hc, List.map_cons, List.count_cons]
      cases s.value i <;> simp
      omega

lemma value_majority (hi : i < width) (operands : List Signal)
    (hwidths : ∀ s ∈ operands, i < s.width) :
    (majority width operands).value i =
      decide (operands.length < 2 * (operands.map (·.value i)).count true) := by
  have start : ∀ (j : Nat) c,
      (List.replicate (operands.length / 2 + 1) (0 : BitVec width))[j]? = some c →
      c.getLsbD i = decide (j < 0) := by
    intro j c hc
    rw [List.getElem?_replicate] at hc
    split at hc
    · cases hc
      simp
    · cases hc
  obtain ⟨hlength, hcount⟩ := getElem?_foldl_raise hi operands hwidths _ 0 start
  rw [List.length_replicate] at hlength
  rw [majority, atLeast, value]
  simp only
  set reached := operands.foldl (fun c s => raise c (s.bitsOver width false))
    (List.replicate (operands.length / 2 + 1) (0 : BitVec width))
  have hlast : reached[operands.length / 2]? = some (reached.getLastD 0) := by
    rw [List.getLastD_eq_getLast?, List.getLast?_eq_getElem?, hlength]
    simp [hlength]
  rw [hcount _ _ hlast]
  exact decide_eq_decide.2 (by omega)

/-! ## Gates -/

variable {operands : List Signal}

/-- A fold of such an operator over operands of one width, from a constant. -/
lemma foldl_const (op : Signal → Signal → Signal) (f : Bool → Bool → Bool) (start : Bool)
    (hwidth : ∀ a b, (op a b).width = a.width)
    (hop : ∀ i a b, i < a.width → i < b.width → (op a b).value i = f (a.value i) (b.value i))
    (hwidths : ∀ s ∈ operands, s.width = width) :
    (operands.foldl op (const width start)).width = width ∧ ∀ i < width,
      (operands.foldl op (const width start)).value i =
        (operands.map (·.value i)).foldl f start := by
  refine ⟨?_, fun i hi => ?_⟩
  · suffices ∀ a : Signal, (operands.foldl op a).width = a.width from this _
    clear hwidths
    induction operands with
    | nil => exact fun a => rfl
    | cons s operands ih => exact fun a => (ih (op a s)).trans (hwidth a s)
  · have hlt : ∀ s ∈ operands, i < s.width := fun s hs => (hwidths s hs).symm ▸ hi
    obtain ⟨-, hv⟩ := @value_foldl (const width start) i op f hwidth (hop i) operands hlt hi
    rw [hv, value_const hi]

end Signal

namespace Gate

variable {g : Gate} {width : Nat} {operands : List Signal}

/-- Whether a gate shows its first operand, and so needs one. -/
def isUnary : Gate → Bool
  | .buf | .not | .output => true
  | _ => false

lemma value_positive (g : Gate) (xs : List Bool) :
    g.value xs = (g.positive.1.value xs ^^ g.positive.2) := by
  cases g <;> simp [positive, value]

lemma foldl_and (xs : List Bool) (b : Bool) : xs.foldl Bool.and b = (b && xs.all id) := by
  induction xs generalizing b with
  | nil => simp
  | cons x xs ih => simp [ih, Bool.and_assoc]

lemma foldl_or (xs : List Bool) (b : Bool) : xs.foldl Bool.or b = (b || xs.any id) := by
  induction xs generalizing b with
  | nil => simp
  | cons x xs ih => simp [ih, Bool.or_assoc]

lemma positiveSignal_eq (hinput : g ≠ .input) (hneg : g.traits.negative = false)
    (hunary : g.isUnary = true → operands ≠ []) (hwidths : ∀ s ∈ operands, s.width = width) :
    ∃ s, g.positiveSignal width operands = .ok s ∧ s.width = width ∧
      ∀ i < width, s.value i = g.value (operands.map (·.value i)) := by
  have first : g.isUnary = true → ∃ s, operands.head? = some s ∧ s.width = width := by
    intro h
    obtain ⟨s, rest, rfl⟩ := List.exists_cons_of_ne_nil (hunary h)
    exact ⟨s, rfl, hwidths s (by simp)⟩
  cases g with
  | input => exact absurd rfl hinput
  | not | nand | nor | xnor => exact absurd hneg (by decide)
  | zero => exact ⟨_, rfl, rfl, fun i hi => Signal.value_const hi false⟩
  | one => exact ⟨_, rfl, rfl, fun i hi => Signal.value_const hi true⟩
  | buf | output =>
      obtain ⟨s, hs, hw⟩ := first rfl
      obtain ⟨rest, rfl⟩ := List.head?_eq_some_iff.1 hs
      exact ⟨s, rfl, hw, fun i _ => rfl⟩
  | and =>
      obtain ⟨hw, hv⟩ := Signal.foldl_const Signal.and Bool.and true (fun _ _ => rfl)
        (fun _ _ _ ha hb => Signal.value_and ha hb) hwidths
      refine ⟨_, rfl, hw, fun i hi => ?_⟩
      rw [hv i hi]
      simpa [value] using foldl_and (operands.map (·.value i)) true
  | or =>
      obtain ⟨hw, hv⟩ := Signal.foldl_const Signal.or Bool.or false (fun _ _ => rfl)
        (fun _ _ _ ha hb => Signal.value_or ha hb) hwidths
      refine ⟨_, rfl, hw, fun i hi => ?_⟩
      rw [hv i hi]
      simpa [value] using foldl_or (operands.map (·.value i)) false
  | xor =>
      obtain ⟨hw, hv⟩ := Signal.foldl_const Signal.xor Bool.xor false (fun _ _ => rfl)
        (fun _ _ _ ha hb => Signal.value_xor ha hb) hwidths
      exact ⟨_, rfl, hw, hv⟩
  | maj =>
      have hall : operands.all (width ≤ ·.width) = true :=
        List.all_eq_true.2 fun s hs => decide_eq_true (hwidths s hs).ge
      refine ⟨.majority width operands, by simp [positiveSignal, hall], rfl, fun i hi => ?_⟩
      rw [Signal.value_majority hi operands fun s hs => (hwidths s hs).symm ▸ hi, value,
        List.length_map]

/-- At every point, a gate computes the value of the gate there. -/
theorem signal_eq (hinput : g ≠ .input) (hunary : g.isUnary = true → operands ≠ [])
    (hwidths : ∀ s ∈ operands, s.width = width) :
    ∃ s, g.signal width operands = .ok s ∧ s.width = width ∧
      ∀ i < width, s.value i = g.value (operands.map (·.value i)) := by
  obtain ⟨s, hs, hw, hv⟩ := @positiveSignal_eq g.positive.1 width operands
    (by cases g <;> simp_all [positive]) (negative_positive g)
    (fun h => hunary (by cases g <;> simp_all [positive, isUnary])) hwidths
  refine ⟨s.invertIf g.positive.2, by rw [signal, hs]; rfl, by rwa [Signal.width_invertIf], fun i hi => ?_⟩
  rw [Signal.value_invertIf (hw.symm ▸ hi), hv i hi, value_positive g]

/-- What a gate computes, if it computes anything. -/
lemma signal_sound (hwidths : ∀ s ∈ operands, s.width = width) {s : Signal}
    (h : g.signal width operands = .ok s) :
    s.width = width ∧ ∀ i < width, s.value i = g.value (operands.map (·.value i)) := by
  by_cases hinput : g = .input
  · subst hinput
    cases h
  by_cases hunary : g.isUnary = true → operands ≠ []
  · obtain ⟨t, ht, hw, hv⟩ := signal_eq hinput hunary hwidths
    rw [ht] at h
    cases h
    exact ⟨hw, hv⟩
  · obtain ⟨hu, hnil⟩ := Classical.not_imp.1 hunary
    rw [ne_eq, not_not] at hnil
    subst hnil
    cases g <;> first | exact absurd hu (by decide) | cases h

end Gate

/-! ## Bits of words -/

section Words

variable {b w : Nat}

/-- The bits of a list of words, one word after the other. -/
lemma testBit_natOfWords (words : List UInt64) (w : Nat) (hb : b < 64) :
    (natOfWords words).testBit (64 * w + b) = (words.getD w 0).toNat.testBit b := by
  induction words generalizing w with
  | nil => simp [natOfWords]
  | cons x words ih =>
      rw [natOfWords, Nat.testBit_or, Nat.testBit_shiftLeft]
      cases w with
      | zero => simp [Nat.not_le.2 hb]
      | succ w =>
          have high : x.toNat.testBit (64 * (w + 1) + b) = false := by
            refine Nat.testBit_lt_two_pow (x.toNat_lt.trans_le ?_)
            exact Nat.pow_le_pow_right (by decide) (by omega)
          rw [high, List.getD_cons_succ, ← ih w, show 64 * (w + 1) + b - 64 = 64 * w + b by omega,
            Bool.false_or, decide_eq_true (by omega), Bool.true_and]

/-- The words that a number is cut into have its bits. -/
lemma testBit_wordsOfNat {count : Nat} (v : Nat) (hw : w < count) (hb : b < 64) :
    ((wordsOfNat count v).getD w 0).toNat.testBit b = v.testBit (64 * w + b) := by
  induction count generalizing v w with
  | zero => exact absurd hw (Nat.not_lt_zero w)
  | succ count ih =>
      rw [wordsOfNat]
      cases w with
      | zero =>
          rw [List.getD_cons_zero, UInt64.toNat_ofNat', Nat.testBit_mod_two_pow]
          simp [hb]
      | succ w =>
          rw [List.getD_cons_succ, ih _ (Nat.lt_of_succ_lt_succ hw), Nat.testBit_shiftRight,
            show 64 + (64 * w + b) = 64 * (w + 1) + b by omega]

@[simp] lemma length_wordsOfNat (count v : Nat) : (wordsOfNat count v).length = count := by
  induction count generalizing v with
  | zero => rfl
  | succ count ih => rw [wordsOfNat, List.length_cons, ih]

namespace Signal

lemma value_ofWords {words : List UInt64} (hw : w < words.length) (hb : b < 64) :
    (ofWords words).value (64 * w + b) = (words.getD w 0).toNat.testBit b := by
  have hlt : 64 * w + b < 64 * words.length := by omega
  rw [value, ofWords, BitVec.getLsbD_ofNat, decide_eq_true hlt, Bool.true_and,
    testBit_natOfWords words w hb]

lemma testBit_words {s : Signal} (hw : w < s.width / 64) (hb : b < 64) :
    (s.words.getD w 0).toNat.testBit b = s.value (64 * w + b) := by
  rw [words, testBit_wordsOfNat _ hw hb]
  rfl

end Signal

end Words

end Gatework
