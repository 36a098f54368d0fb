import Gatework.Proofs.Rounding

/-!
# Times

A time is a number that is not negative, and it is infinite for what never arrives.  Maxima and sums of
times are times, and they are finite exactly if all of their parts are, as long as nothing is added that
is so large that the sum overflows.

* `isFinite_add`, `isFinite_sub`: a moderate number can be added and subtracted.
* `isFinite_maximum`: the latest of several times.
-/

open Float.Model Float.Model.UnpackedFloat

namespace Gatework

namespace Cost

open Rounding

/-- A number that is not negative and so small that adding it to a finite number does not overflow. -/
def Moderate (x : Float32) : Prop := 0 ≤ x ∧ x ≤ 1e30

/-- A number taken apart. -/
def parts (x : Float32) : UnpackedFloat := x.toModel.unpack

variable {x y d : Float32}

lemma parts_add (x y : Float32) : parts (x + y) =
    UnpackedFloat.unpack .binary32 (UnpackedFloat.pack .binary32 (add .binary32 (parts x) (parts y))) :=
  rfl

lemma parts_sub (x y : Float32) : parts (x - y) =
    UnpackedFloat.unpack .binary32 (UnpackedFloat.pack .binary32 (sub .binary32 (parts x) (parts y))) :=
  rfl

lemma isFinite_eq (x : Float32) : x.isFinite = (parts x).isFinite := rfl

lemma le_iff : x ≤ y ↔ (parts x).le (parts y) = true := by
  show Float32.le x y = true ↔ _
  unfold Float32.le
  rw [decide_eq_true_iff]
  rfl

lemma lt_iff : x < y ↔ (parts x).lt (parts y) = true := by
  show Float32.lt x y = true ↔ _
  unfold Float32.lt
  rw [decide_eq_true_iff]
  rfl

lemma parts_zero : parts 0 = .zero .positive := by rfl

lemma parts_infinite : parts infinite = .infinity .positive := by rfl

/-- A time is infinite, zero or positive. -/
lemma time_cases (hx : 0 ≤ x) : parts x = .infinity .positive ∨ (∃ s, parts x = .zero s) ∨
    ∃ m e h, parts x = .finite .positive m e h := by
  rw [le_iff, parts_zero] at hx
  cases hparts : parts x with
  | notANumber => rw [hparts] at hx; cases hx
  | infinity s =>
      cases s with
      | negative => rw [hparts] at hx; cases hx
      | positive => exact .inl rfl
  | zero s => exact .inr (.inl ⟨s, rfl⟩)
  | finite s m e h =>
      cases s with
      | negative => rw [hparts] at hx; cases hx
      | positive => exact .inr (.inr ⟨m, e, h, rfl⟩)

/-- What is positive or zero before it is packed is a time. -/
lemma nonneg_of_parts {u : UnpackedFloat} (hu : sign? u = some .positive ∨ ∃ s, u = .zero s)
    (h : parts x = UnpackedFloat.unpack .binary32 (UnpackedFloat.pack .binary32 u)) : 0 ≤ x := by
  have hsign : sign? (parts x) = sign? u := by rw [h, sign?_unpack_pack]
  rw [le_iff, parts_zero]
  rcases hu with hu | ⟨s, rfl⟩
  · cases hparts : parts x with
    | notANumber => rw [hparts, hu] at hsign; cases hsign
    | infinity s => rw [hparts, hu] at hsign; cases hsign; rfl
    | zero s => rfl
    | finite s m e hm => rw [hparts, hu] at hsign; cases hsign; rfl
  · rw [h, unpack_pack_zero]
    rfl

lemma not_isNaN (hx : 0 ≤ x) : x.isNaN = false := by
  show (parts x).isNaN = false
  rcases time_cases hx with h | ⟨s, h⟩ | ⟨m, e, hm, h⟩ <;> rw [h] <;> rfl

lemma isFinite_eq_false_iff (hx : 0 ≤ x) : x.isFinite = false ↔ parts x = .infinity .positive := by
  rw [isFinite_eq]
  rcases time_cases hx with h | ⟨s, h⟩ | ⟨m, e, hm, h⟩ <;> rw [h] <;> simp [UnpackedFloat.isFinite]

lemma nonneg_infinite : 0 ≤ infinite := le_iff.2 rfl

lemma not_isFinite_infinite : infinite.isFinite = false := rfl

/-! ## Comparing times -/

lemma lt_infinite_iff (hx : 0 ≤ x) : x < infinite ↔ x.isFinite = true := by
  rw [lt_iff, isFinite_eq, parts_infinite]
  rcases time_cases hx with h | ⟨s, h⟩ | ⟨m, e, hm, h⟩ <;> rw [h]
  · decide
  · exact ⟨fun _ => rfl, fun _ => rfl⟩
  · exact ⟨fun _ => rfl, fun _ => rfl⟩

lemma le_infinite (hx : x.isFinite = true) : x ≤ infinite := by
  rw [isFinite_eq] at hx
  rw [le_iff, parts_infinite]
  cases hparts : parts x with
  | notANumber => rw [hparts] at hx; cases hx
  | infinity s => rw [hparts] at hx; cases hx
  | zero s => rfl
  | finite s m e hm => rfl

/-- What is in front of a finite time is finite. -/
lemma isFinite_of_le (hx : 0 ≤ x) (hy : y.isFinite = true) (h : x ≤ y) : x.isFinite = true := by
  by_contra hinfinite
  rw [le_iff, (isFinite_eq_false_iff hx).1 (Bool.eq_false_iff.2 hinfinite)] at h
  rw [isFinite_eq] at hy
  cases hparts : parts y with
  | notANumber => rw [hparts] at h; cases h
  | infinity s => rw [hparts] at hy; cases hy
  | zero s => rw [hparts] at h; cases h
  | finite s m e hm => rw [hparts] at h; cases h

lemma le_of_lt (h : x < y) : x ≤ y := by
  rw [lt_iff, UnpackedFloat.lt, beq_iff_eq] at h
  rw [le_iff, UnpackedFloat.le, h]
  rfl

lemma isFinite_of_lt (hx : 0 ≤ x) (hy : y.isFinite = true) (h : x < y) : x.isFinite = true :=
  isFinite_of_le hx hy (le_of_lt h)

/-- Nothing is behind what never arrives. -/
lemma le_of_not_isFinite (hx : 0 ≤ x) (hy : 0 ≤ y) (h : y.isFinite = false) : x ≤ y := by
  rw [le_iff, (isFinite_eq_false_iff hy).1 h]
  rcases time_cases hx with h | ⟨s, h⟩ | ⟨m, e, hm, h⟩ <;> rw [h] <;> rfl

/-- What is finite is in front of what never arrives. -/
lemma lt_of_isFinite (hx : x.isFinite = true) (hy : 0 ≤ y) (h : y.isFinite = false) : x < y := by
  rw [isFinite_eq] at hx
  rw [lt_iff, (isFinite_eq_false_iff hy).1 h]
  cases hparts : parts x with
  | notANumber => rw [hparts] at hx; cases hx
  | infinity s => rw [hparts] at hx; cases hx
  | zero s => rfl
  | finite s m e hm => rfl

/-! ## Bits -/

lemma toNat_unpackExponent (b : BitVec (Format.numBits .binary32)) :
    (unpackExponent b).toNat = b.toNat / 2 ^ 23 % 2 ^ 8 := by
  simp [unpackExponent, Nat.shiftRight_eq_div_pow]

lemma toNat_unpackSign (b : BitVec (Format.numBits .binary32)) :
    (unpackSign b).toNat = b.toNat / 2 ^ 31 % 2 := by
  simp [unpackSign, Nat.shiftRight_eq_div_pow]

/-- The bits of a finite number. -/
lemma bits_of_isFinite (hx : x.isFinite = true) : x.toBits.toNat / 2 ^ 23 % 2 ^ 8 ≠ 255 := by
  intro h
  have hexponent : @unpackExponent .binary32 x.toModel.toBits.toBitVec = -1#8 :=
    BitVec.eq_of_toNat_eq ((toNat_unpackExponent _).trans h)
  rw [isFinite_eq, parts, Float32.Model.unpack, UnpackedFloat.unpack] at hx
  dsimp only at hx
  rw [if_pos hexponent] at hx
  split at hx <;> cases hx

lemma bits_of_infinite (h : parts x = .infinity .positive) :
    x.toBits.toNat / 2 ^ 23 % 2 ^ 8 = 255 ∧ x.toBits.toNat / 2 ^ 31 % 2 = 0 := by
  rw [parts, Float32.Model.unpack, UnpackedFloat.unpack] at h
  dsimp only at h
  split at h
  · rename_i hexponent
    refine ⟨(toNat_unpackExponent _).symm.trans (congrArg BitVec.toNat hexponent), ?_⟩
    split at h
    · injection h with hsign
      have hpositive : @unpackSign .binary32 x.toModel.toBits.toBitVec = 0#1 := by
        by_contra hne
        rw [Sign.ofBitVec, if_neg hne] at hsign
        cases hsign
      exact (toNat_unpackSign _).symm.trans (congrArg BitVec.toNat hpositive)
    · cases h
  · split at h
    · split at h <;> cases h
    · cases h
/-! ## Moderate numbers -/

lemma parts_bound : parts 1e30 = .finite .positive 13234890 76 (by decide) := by
  have hbits : (1e30 : Float32).toModel.toBits = 0x7149f2ca := by decide +kernel
  rw [parts, Float32.Model.unpack, hbits]
  rfl

lemma moderate_zero : Moderate 0 := ⟨le_iff.2 rfl, le_iff.2 (by rw [parts_bound]; rfl)⟩

lemma moderate_slack : Moderate slack := ⟨le_iff.2 rfl, le_iff.2 (by rw [parts_bound]; rfl)⟩

/-- What a moderate number weighs at most. -/
lemma within_of_moderate (h : Moderate d) : Within (2 ^ 249) (parts d) := by
  have hle := le_iff.1 h.2
  rw [parts_bound] at hle
  rcases time_cases h.1 with hd | ⟨s, hd⟩ | ⟨m, e, hm, hd⟩
  · rw [hd] at hle
    cases hle
  · rw [hd]
    trivial
  · obtain ⟨hbits, he, -⟩ := bounds_of_unpack hd
    rw [hd] at hle ⊢
    have hexponent : e ≤ 76 := by
      by_contra hgt
      have hcompare : compare e 76 = .gt := compare_gt_iff_gt.2 (not_le.1 hgt)
      simp [UnpackedFloat.le, UnpackedFloat.compare, hcompare] at hle
    refine ⟨he, by omega, ?_⟩
    calc weight m e ≤ 2 ^ 24 * 2 ^ 225 :=
          Nat.mul_le_mul hbits.le (Nat.pow_le_pow_right (by decide) (by omega))
      _ = 2 ^ 249 := by decide

lemma isFinite_of_moderate (h : Moderate d) : d.isFinite = true :=
  isFinite_of_le h.1 (by rw [isFinite_eq, parts_bound]; rfl) h.2

lemma limit_bound : largest + 2 ^ 249 < limit := by decide

/-- A moderate number can be added to a finite one. -/
lemma isFinite_add_of_isFinite (hx : x.isFinite = true) (hd : Moderate d) :
    (x + d).isFinite = true := by
  rw [isFinite_eq, parts_add]
  exact (packs_add (within_largest hx) (within_of_moderate hd) limit_bound).isFinite

lemma isFinite_sub (hx : x.isFinite = true) (hd : Moderate d) : (x - d).isFinite = true := by
  rw [isFinite_eq, parts_sub]
  exact (packs_sub (within_largest hx) (within_of_moderate hd) limit_bound).isFinite

/-! ## Sums and maxima of times -/

lemma nonneg_add (hx : 0 ≤ x) (hy : 0 ≤ y) : 0 ≤ x + y := by
  refine nonneg_of_parts ?_ (parts_add x y)
  rcases time_cases hx with hx | ⟨s, hx⟩ | ⟨m, e, hm, hx⟩
  · left
    rcases time_cases hy with hy | ⟨t, hy⟩ | ⟨n, f, hn, hy⟩ <;> rw [hx, hy] <;> rfl
  · rcases time_cases hy with hy | ⟨t, hy⟩ | ⟨n, f, hn, hy⟩
    · exact .inl (by rw [hx, hy]; rfl)
    · right
      rw [hx, hy]
      cases s <;> cases t <;> exact ⟨_, rfl⟩
    · exact .inl (by rw [hx, hy]; rfl)
  · left
    rcases time_cases hy with hy | ⟨t, hy⟩ | ⟨n, f, hn, hy⟩
    · rw [hx, hy]
      rfl
    · rw [hx, hy]
      rfl
    · rw [hx, hy]
      refine sign?_normalize ?_
      simp only [Sign.apply, Nat.shiftLeft_eq]
      positivity

/-- A sum of times is infinite if one of them is. -/
lemma isFinite_add_eq_false (hx : 0 ≤ x) (hy : 0 ≤ y) (h : x.isFinite = false) :
    (x + y).isFinite = false := by
  have hsum : add .binary32 (.infinity .positive) (parts y) = .infinity .positive := by
    rcases time_cases hy with hy | ⟨t, hy⟩ | ⟨n, f, hn, hy⟩ <;> rw [hy] <;> rfl
  rw [isFinite_eq, parts_add, (isFinite_eq_false_iff hx).1 h, hsum, UnpackedFloat.pack,
    unpack_packedInfinity]
  rfl

lemma isFinite_add (hx : 0 ≤ x) (hd : Moderate d) : (x + d).isFinite = x.isFinite := by
  cases h : x.isFinite with
  | true => exact isFinite_add_of_isFinite h hd
  | false => exact isFinite_add_eq_false hx hd.1 h

lemma max_eq (x y : Float32) : Cost.max x y = x ∨ Cost.max x y = y := by
  unfold Cost.max
  split
  · exact .inr rfl
  · exact .inl rfl

lemma nonneg_max (hx : 0 ≤ x) (hy : 0 ≤ y) : 0 ≤ Cost.max x y := by
  rcases max_eq x y with h | h <;> rw [h] <;> assumption

/-- The later of two times is finite if both are. -/
lemma isFinite_max (hx : 0 ≤ x) (hy : 0 ≤ y) :
    (Cost.max x y).isFinite = true ↔ x.isFinite = true ∧ y.isFinite = true := by
  refine ⟨fun h => ?_, fun ⟨hfirst, hsecond⟩ => ?_⟩
  · unfold Cost.max at h
    rw [not_isNaN hx, Bool.false_or] at h
    split at h
    · rename_i hle
      exact ⟨isFinite_of_le hx h (of_decide_eq_true hle), h⟩
    · rename_i hlt
      have hlt : ¬x ≤ y := fun hle => hlt (decide_eq_true hle)
      refine ⟨h, by_contra fun hinfinite => hlt ?_⟩
      exact le_of_not_isFinite hx hy (Bool.eq_false_iff.2 hinfinite)
  · rcases max_eq x y with h | h <;> rw [h] <;> assumption

lemma foldl_max_spec {costs : List Float32} (h : ∀ y ∈ costs, 0 ≤ y) (hx : 0 ≤ x) :
    (costs.foldl Cost.max x = x ∨ costs.foldl Cost.max x ∈ costs) ∧
      ((costs.foldl Cost.max x).isFinite = true ↔
        x.isFinite = true ∧ ∀ y ∈ costs, y.isFinite = true) := by
  induction costs generalizing x with
  | nil => simp
  | cons y costs ih =>
      obtain ⟨hy, h⟩ := List.forall_mem_cons.1 h
      obtain ⟨hmem, hfinite⟩ := ih h (nonneg_max hx hy)
      rw [List.foldl_cons, hfinite, isFinite_max hx hy, List.forall_mem_cons, and_assoc]
      refine ⟨?_, Iff.rfl⟩
      rcases hmem with hmem | hmem
      · rw [hmem]
        rcases max_eq x y with heq | heq <;> simp [heq]
      · exact .inr (List.mem_cons_of_mem _ hmem)

/-- The largest of some times is one of them, or zero. -/
lemma maximum_mem {costs : List Float32} (h : ∀ x ∈ costs, 0 ≤ x) :
    maximum costs = 0 ∨ maximum costs ∈ costs := (foldl_max_spec h moderate_zero.1).1

lemma isFinite_maximum {costs : List Float32} (h : ∀ x ∈ costs, 0 ≤ x) :
    (maximum costs).isFinite = true ↔ ∀ x ∈ costs, x.isFinite = true := by
  rw [maximum, (foldl_max_spec h moderate_zero.1).2]
  exact and_iff_right (isFinite_of_moderate moderate_zero)

lemma nonneg_maximum {costs : List Float32} (h : ∀ x ∈ costs, 0 ≤ x) : 0 ≤ maximum costs := by
  rcases maximum_mem h with heq | hmem
  · rw [heq]
    exact moderate_zero.1
  · exact h _ hmem

/-- A finite number lowers what is finite or infinite to something finite. -/
lemma isFinite_min (hy : y.isFinite = true) (hx : x.isFinite = true ∨ x = infinite) :
    (Cost.min x y).isFinite = true := by
  unfold Cost.min
  split
  · exact hy
  · rename_i hlt
    rcases hx with hx | rfl
    · exact hx
    · exact absurd (Bool.or_eq_true_iff.2 (.inr (decide_eq_true (le_infinite hy)))) hlt

end Cost

end Gatework
