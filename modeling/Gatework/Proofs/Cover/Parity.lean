import Mathlib.Combinatorics.Pigeonhole
import Gatework.Proofs.Cover.Irredundant

/-!
# Functions that only wide covers cover

A function alternates if it changes its value with every single variable, as the parity does.  A cube below
such a function mentions all variables, so it covers one assignment only, and a cover needs a cube for each
of the `2 ^ (n - 1)` assignments on which the function holds.

**Main statement.** `Cover.Covers.le_length_of_alternates`.
-/

namespace Gatework

namespace TruthTable

variable {n x y : Nat} {t : TruthTable n}

/-- Every change of a single variable changes the value. -/
def Alternates (t : TruthTable n) : Prop :=
  ∀ x < 2 ^ n, ∀ v < n, t.value (x ^^^ 2 ^ v) = !t.value x

lemma not_not (t : TruthTable n) : t.not.not = t :=
  ext_value fun x hx => by rw [value_not hx, value_not hx, Bool.not_not]

lemma Alternates.not (h : t.Alternates) : t.not.Alternates := fun x hx v hv => by
  rw [value_not (Nat.xor_lt_two_pow hx (two_pow_lt hv)), value_not hx, h x hx v hv]

/-! ## The parity -/

/-- Whether an odd number of the lowest `n` bits of a number is set. -/
def oddBits : (n : Nat) → (x : Nat) → Bool
  | 0, _ => false
  | n + 1, x => oddBits n x ^^ x.testBit n

/-- The exclusive disjunction of all variables. -/
def parity (n : Nat) : TruthTable n := .ofFn n (oddBits n)

lemma oddBits_xor (n x v : Nat) : oddBits n (x ^^^ 2 ^ v) = (oddBits n x ^^ decide (v < n)) := by
  induction n with
  | zero => rfl
  | succ n ih =>
      rw [oddBits, oddBits, ih, Nat.testBit_xor, Nat.testBit_two_pow]
      rcases Nat.lt_trichotomy v n with hlt | rfl | hlt
      · simp [hlt, hlt.ne, Nat.lt_succ_of_lt hlt]
      · simp
      · simp [hlt.ne', Nat.not_lt.2 hlt.le, Nat.not_lt.2 (Nat.succ_le_of_lt hlt)]

lemma alternates_parity (n : Nat) : (parity n).Alternates := fun x hx v hv => by
  rw [parity, value_ofFn _ (Nat.xor_lt_two_pow hx (two_pow_lt hv)), value_ofFn _ hx, oddBits_xor,
    decide_eq_true hv, Bool.xor_true]

/-! ## Assignments on which an alternating function holds -/

/-- Of the assignments `2 * y` and `2 * y + 1`, the one on which an alternating function holds. -/
def point (t : TruthTable n) (y : Nat) : Nat := if t.value (2 * y) then 2 * y else 2 * y + 1

lemma point_div_two (t : TruthTable n) (y : Nat) : t.point y / 2 = y := by
  unfold point
  split <;> omega

lemma point_lt (hn : 0 < n) (t : TruthTable n) (hy : y < 2 ^ (n - 1)) : t.point y < 2 ^ n := by
  have htwo := Nat.two_pow_pred_mul_two hn
  unfold point
  split <;> omega

lemma Alternates.value_point (h : t.Alternates) (hn : 0 < n) (hy : y < 2 ^ (n - 1)) :
    t.value (t.point y) = true := by
  have htwo := Nat.two_pow_pred_mul_two hn
  have hodd : 2 * y ^^^ 2 ^ 0 = 2 * y + 1 := by simp
  unfold point
  split
  · assumption
  · rename_i heven
    rw [← hodd, h _ (by omega) 0 hn, Bool.eq_false_iff.2 heven, Bool.not_false]

end TruthTable

namespace Cover

variable {n : Nat} {t : TruthTable n} {c : Cube} {cover : Cover n}

/-- A cube that covers two assignments does not mention a variable in which they differ. -/
lemma not_mentioned_of_ne {x y v : Nat} (hv : c.mask.testBit v = true → v < Cube.maxVariables)
    (hx : c.value x = true) (hy : c.value y = true) (hne : x.testBit v ≠ y.testBit v) :
    c.mask.testBit v = false := by
  refine Bool.eq_false_iff.2 fun hmask => hne ?_
  rw [Cube.value_eq_true_iff.1 hx v (hv hmask) hmask, Cube.value_eq_true_iff.1 hy v (hv hmask) hmask]

/-- A cube of a cover of an alternating function covers no two assignments. -/
lemma Covers.eq_of_alternates {S : Nat → Prop} (h : cover.Covers t t n S) (alternates : t.Alternates)
    (hn : n ≤ Cube.maxVariables) (hc : c ∈ cover.cubes) {x y : Nat} (hx : x < 2 ^ n) (hy : y < 2 ^ n)
    (hcx : c.value x = true) (hcy : c.value y = true) : x = y := by
  have covered : ∀ z < 2 ^ n, c.value z = true → t.value z = true := fun z hz hcz =>
    h.beneath z hz (by rw [h.cubes z hz]; exact List.any_eq_true.2 ⟨c, hc, hcz⟩)
  refine Nat.eq_of_testBit_eq fun v => by_contra fun hne => ?_
  have hv : v < n := by
    by_contra hge
    have hge := Nat.pow_le_pow_right (n := 2) (by decide) (Nat.not_lt.1 hge)
    rw [Nat.testBit_lt_two_pow (hx.trans_le hge), Nat.testBit_lt_two_pow (hy.trans_le hge)] at hne
    exact hne rfl
  have hmask := not_mentioned_of_ne (fun _ => hv.trans_le hn) hcx hcy hne
  have hflip : setVar x v (!x.testBit v) = x ^^^ 2 ^ v := if_neg (by cases x.testBit v <;> decide)
  have hvalue := covered _ (hflip ▸ setVar_lt hx hv) ((hflip ▸ Cube.value_setVar hmask _).trans hcx)
  rw [alternates x hx v hv, covered x hx hcx] at hvalue
  cases hvalue

/-- A cover of an alternating function has a cube for every second assignment. -/
theorem Covers.le_length_of_alternates {S : Nat → Prop} (h : cover.Covers t t n S)
    (alternates : t.Alternates) (hpos : 0 < n) (hn : n ≤ Cube.maxVariables) :
    2 ^ (n - 1) ≤ cover.cubes.length := by
  have place : ∀ y, ∃ i : Nat, y < 2 ^ (n - 1) → ∃ c : Cube, cover.cubes[i]? = some c ∧
      c.value (t.point y) = true := by
    intro y
    by_cases hy : y < 2 ^ (n - 1)
    · have hlt := t.point_lt hpos hy
      have hvalue := h.above _ hlt (alternates.value_point hpos hy)
      rw [h.cubes _ hlt, List.any_eq_true] at hvalue
      obtain ⟨c, hc, hvalue⟩ := hvalue
      obtain ⟨i, hi⟩ := List.mem_iff_getElem?.1 hc
      exact ⟨i, fun _ => ⟨c, hi, hvalue⟩⟩
    · exact ⟨0, fun hlt => absurd hlt hy⟩
  choose index hindex using place
  by_contra hfew
  -- two of the assignments share a cube
  obtain ⟨y, hy, z, hz, hne, hsame⟩ := Finset.exists_ne_map_eq_of_card_lt_of_maps_to
    (s := Finset.range (2 ^ (n - 1))) (t := Finset.range cover.cubes.length) (f := index)
    (by rw [Finset.card_range, Finset.card_range]; exact Nat.not_le.1 hfew) fun y hy => by
      obtain ⟨c, hc, -⟩ := hindex y (Finset.mem_range.1 hy)
      exact Finset.mem_coe.2 (Finset.mem_range.2 (List.getElem?_eq_some_iff.1 hc).1)
  obtain ⟨c, hc, hcy⟩ := hindex y (Finset.mem_range.1 hy)
  obtain ⟨c', hc', hcz⟩ := hindex z (Finset.mem_range.1 hz)
  rw [hsame] at hc
  cases hc.symm.trans hc'
  have hpoint := h.eq_of_alternates alternates hn (List.mem_of_getElem? hc)
    (t.point_lt hpos (Finset.mem_range.1 hy)) (t.point_lt hpos (Finset.mem_range.1 hz)) hcy hcz
  exact hne (by rw [← t.point_div_two y, ← t.point_div_two z, hpoint])

end Cover

end Gatework
