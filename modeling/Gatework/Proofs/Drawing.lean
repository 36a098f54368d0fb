import Mathlib
import Gatework.Random.Generator

/-!
# What is drawn from a generator

Whatever state a generator is in, an event that has a probability can be drawn, a number drawn below a
positive bound is below it, and a choice among weights falls on one of them.
-/

open Float.Model Float.Model.UnpackedFloat

namespace Gatework

namespace Generator

/-! ## Probabilities -/

lemma lt_iff {x y : Float} : x < y ↔ x.toModel.unpack.lt y.toModel.unpack = true := by
  show Float.lt x y = true ↔ _
  unfold Float.lt
  rw [decide_eq_true_iff]
  rfl

lemma le_iff {x y : Float} : x ≤ y ↔ x.toModel.unpack.le y.toModel.unpack = true := by
  show Float.le x y = true ↔ _
  unfold Float.le
  rw [decide_eq_true_iff]
  rfl

lemma eq_or_lt_of_le {x y : Float} (h : x ≤ y) : (x == y) = true ∨ x < y := by
  have hle := le_iff.1 h
  rw [lt_iff]
  show x.toModel.unpack.beq y.toModel.unpack = true ∨ _
  unfold UnpackedFloat.le at hle
  unfold UnpackedFloat.beq UnpackedFloat.lt
  cases hcompare : x.toModel.unpack.compare y.toModel.unpack with
  | none => rw [hcompare] at hle; cases hle
  | some o =>
      rw [hcompare] at hle
      cases o with
      | lt => exact .inr rfl
      | eq => exact .inl rfl
      | gt => cases hle

/-- What compares is a number. -/
lemma isNaN_of_le {x y : Float} (h : x ≤ y) : y.isNaN = false := by
  have hle := le_iff.1 h
  show y.toModel.unpack.isNaN = false
  cases hy : y.toModel.unpack with
  | notANumber =>
      rw [hy] at hle
      cases hx : x.toModel.unpack <;> rw [hx] at hle <;> cases hle
  | _ => rfl

/-- A number that something happens with. -/
def Probability (rate : Float) : Prop := (rate == 1) = true ∨ 0 ≤ rate ∧ rate < 1

lemma probability_of_le {rate : Float} (h : 0 ≤ rate ∧ rate ≤ 1) : Probability rate :=
  (eq_or_lt_of_le h.2).imp_right fun hlt => ⟨h.1, hlt⟩

/-- Finite positive numbers are compared by their exponents and then by their mantissas. -/
lemma compare_parts_swap (e f : Int) (m n : Nat) : (compare f e).then (compare n m) =
    ((compare e f).then (compare m n)).swap := by
  rw [Ordering.swap_then, ← Std.OrientedOrd.eq_swap, ← Std.OrientedOrd.eq_swap]

/-- A number that is not negative and not above one is a probability. -/
lemma probability_of_not_lt {rate : Float} (number : rate.isNaN = false) (hzero : ¬rate < 0)
    (hone : ¬1 < rate) : Probability rate := by
  have one : (1 : Float).toModel.unpack = .finite .positive (2 ^ 52) (-52) (by decide) := by
    have hbits : (1 : Float).toModel.toBits = 0x3ff0000000000000 := by decide +kernel
    rw [Float.Model.unpack, hbits]
    rfl
  have zero : (0 : Float).toModel.unpack = .zero .positive := rfl
  have number : rate.toModel.unpack.isNaN = false := number
  rw [lt_iff, zero] at hzero
  rw [lt_iff, one] at hone
  show rate.toModel.unpack.beq (1 : Float).toModel.unpack = true ∨ _
  rw [le_iff, lt_iff, zero, one]
  cases hrate : rate.toModel.unpack with
  | notANumber => rw [hrate] at number; cases number
  | zero s => exact .inr ⟨rfl, rfl⟩
  | infinity s =>
      rw [hrate] at hzero hone
      cases s with
      | positive => exact absurd rfl hone
      | negative => exact absurd rfl hzero
  | finite s m e hm =>
      rw [hrate] at hzero hone
      cases s with
      | negative => exact absurd rfl hzero
      | positive =>
          have hswap := compare_parts_swap (-52) e (2 ^ 52) m
          simp only [UnpackedFloat.beq, UnpackedFloat.lt, UnpackedFloat.compare, UnpackedFloat.le] at hone ⊢
          rw [hswap]
          cases hcompare : (compare (-52) e).then (compare (2 ^ 52) m) with
          | lt => exact absurd (by rw [hcompare]; rfl) hone
          | eq => exact .inl rfl
          | gt => exact .inr ⟨rfl, rfl⟩

variable {G : Type} [Generator G] {rate : Float} {n : Nat}

/-- An event that has a probability can be drawn. -/
lemma exists_chance (h : Probability rate) (g : G) : ∃ b g', chance rate g = .ok (b, g') := by
  unfold chance
  split
  · exact ⟨_, _, rfl⟩
  · rename_i hcertain
    rw [if_pos (h.resolve_left hcertain)]
    exact ⟨_, _, rfl⟩

/-- Drawing an event fails in one way only. -/
lemma chance_eq_error {fault : Fault} {g : G} (h : chance rate g = .error fault) : fault = .internal := by
  unfold chance at h
  split at h
  · cases h
  · split at h
    · cases h
    · cases h
      rfl

/-! ## Numbers below a bound -/

lemma drawBelow_lt (hn : 0 < n) (fuel : Nat) (g : G) : (drawBelow n fuel g).1 < n := by
  induction fuel generalizing g with
  | zero => exact hn
  | succ fuel ih =>
      unfold drawBelow
      dsimp only
      split
      · refine Nat.div_lt_of_lt_mul (Nat.mul_lt_mul_of_pos_right ?_ hn)
        exact (next g).1.toNat_lt
      · exact ih _

/-- A number drawn below a positive bound is below it. -/
lemma below_lt (hn : 0 < n) (g : G) : (below n g).1 < n := drawBelow_lt hn maxStates g

/-! ## Weighted choices -/

lemma length_partialSums (sum : Float) (weights : List Float) :
    (partialSums sum weights).1.length = weights.length := by
  induction weights generalizing sum with
  | nil => rfl
  | cons w ws ih => rw [partialSums, List.length_cons, List.length_cons, ih]

/-- A choice among weights falls on one of them. -/
lemma Roulette.spin_lt {weights : List Float} {r : Roulette} (h : of? weights = some r) (g : G) :
    (r.spin g).1 < weights.length := by
  cases weights with
  | nil => cases h
  | cons w ws =>
      have hlength : r.sums.length = ws.length := by
        simp only [of?] at h
        split at h
        · split at h
          · cases h
          · cases h
            exact length_partialSums w ws
        · cases h
      rw [List.length_cons, ← hlength]
      exact Nat.lt_succ_of_le List.countP_le_length

end Generator

end Gatework
