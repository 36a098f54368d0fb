import Mathlib
import Gatework.Cost
import Gatework.Power

/-!
# Rounding in single precision

A sum in single precision is computed on mantissas and rounded once.  `weight` is what a mantissa and an
exponent stand for, in units of the smallest positive number, so aligning two numbers changes no weight.
Rounding overflows only if the weight is at least half a unit in the last place beyond the largest number.

**Main statements.** `packs_add`, `packs_sub` and `Packs.isFinite`.
-/

open Float.Model Float.Model.UnpackedFloat

namespace Gatework

namespace Rounding

variable {s s' : Sign} {m m' k : Nat} {e e' : Int} {hm' : 0 < m'} {em : ExtendedMantissa}

/-- The size of a number in units of the smallest positive number, if its exponent is not too small. -/
def weight (m : Nat) (e : Int) : Nat := m * 2 ^ (e + 149).toNat

/-- What rounds to the largest number or below weighs less. -/
def limit : Nat := (2 ^ 25 - 1) * 2 ^ 252

/-! ## Shifting -/

lemma mantissa_shift (em : ExtendedMantissa) (k : Nat) :
    (em >>> k).mantissa = em.mantissa / 2 ^ k := by
  induction k with
  | zero => simp [HShiftRight.hShiftRight, Nat.repeat]
  | succ k ih =>
      show (em >>> k).mantissa / 2 = _
      rw [ih, Nat.div_div_eq_div_mul, pow_succ]

lemma roundBit_shift (em : ExtendedMantissa) (k : Nat) :
    (em >>> (k + 1)).roundBit = (em.mantissa / 2 ^ k % 2 != 0) := by
  show ((em >>> k).mantissa % 2 != 0) = _
  rw [mantissa_shift]

lemma roundedMantissa_le (em : ExtendedMantissa) : em.roundedMantissa ≤ em.mantissa + 1 := by
  obtain ⟨m, round, sticky⟩ := em
  cases round <;> cases sticky <;>
    simp only [ExtendedMantissa.roundedMantissa, ExtendedMantissa.accuracy,
      Accuracy.roundToNearestEven] <;> omega

lemma roundedMantissa_of_roundBit (h : em.roundBit = false) : em.roundedMantissa = em.mantissa := by
  obtain ⟨m, round, sticky⟩ := em
  obtain rfl : round = false := h
  cases sticky <;> rfl

/-- What is left of a mantissa, rounded. -/
lemma roundedMantissa_lt (h : 2 * m < (2 ^ 25 - 1) * 2 ^ k) :
    ((⟨m, false, false⟩ : ExtendedMantissa) >>> k).roundedMantissa < 2 ^ 24 := by
  cases k with
  | zero =>
      show (⟨m, false, false⟩ : ExtendedMantissa).roundedMantissa < _
      rw [roundedMantissa_of_roundBit rfl]
      show m < 2 ^ 24
      omega
  | succ k =>
      have hhalf : m / 2 ^ k < 2 ^ 25 - 1 := by
        rw [Nat.div_lt_iff_lt_mul (by positivity)]
        rw [pow_succ] at h
        omega
      have hmantissa : ((⟨m, false, false⟩ : ExtendedMantissa) >>> (k + 1)).mantissa =
          m / 2 ^ k / 2 := by
        rw [mantissa_shift, pow_succ, Nat.div_div_eq_div_mul]
      by_cases hbit : ((⟨m, false, false⟩ : ExtendedMantissa) >>> (k + 1)).roundBit = false
      · rw [roundedMantissa_of_roundBit hbit, hmantissa]
        omega
      · refine (roundedMantissa_le _).trans_lt ?_
        rw [roundBit_shift] at hbit
        have hodd : m / 2 ^ k % 2 ≠ 0 := by simpa using hbit
        rw [hmantissa]
        omega

/-! ## Exponents -/

lemma log2_lt_of_lt {n : Nat} (hk : 0 < k) (h : n < 2 ^ k) : n.log2 < k := by
  by_cases hn : n = 0
  · simpa [hn] using hk
  · exact (Nat.log2_lt hn).2 h

lemma targetExponent_eq (t : Int) : Format.binary32.targetExponent t = max (t - 24) (-149) := by
  simp only [Format.targetExponent, Format.mantissaBits, Format.minExponent]
  norm_num

/-- The number of bits that a mantissa has too many. -/
def excess (m : Nat) (e : Int) : Nat := (max ((m.log2 : Int) + 1 + e - 24) (-149) - e).toNat

lemma shiftToTargetExponent_eq (m : Nat) (e : Int) :
    shiftToTargetExponent .binary32 m e .exact =
      ((⟨m, false, false⟩ : ExtendedMantissa) >>> excess m e, e + excess m e) := by
  rw [shiftToTargetExponent, targetExponent_eq]
  rfl

lemma log2_add_le_of_weight (hm : 0 < m) (h : weight m e < limit) : (m.log2 : Int) + e ≤ 127 := by
  have hlimit : limit < 2 ^ (25 + 252) := by
    rw [pow_add]
    exact Nat.mul_lt_mul_of_pos_right (by decide) (by positivity)
  have hpow : 2 ^ (m.log2 + (e + 149).toNat) < 2 ^ (25 + 252) := by
    calc 2 ^ (m.log2 + (e + 149).toNat) = 2 ^ m.log2 * 2 ^ (e + 149).toNat := pow_add ..
      _ ≤ weight m e := Nat.mul_le_mul_right _ (Nat.log2_self_le hm.ne')
      _ < 2 ^ (25 + 252) := h.trans hlimit
  have := (Nat.pow_lt_pow_iff_right (by decide)).1 hpow
  omega

/-- Rounding a mantissa to 24 bits may need one bit more, but not where the exponent is the largest. -/
lemma roundedMantissa_bound (hm : 0 < m) (he : -149 ≤ e) (hle : e ≤ 104) (h : weight m e < limit) :
    let r := ((⟨m, false, false⟩ : ExtendedMantissa) >>> excess m e).roundedMantissa
    r ≤ 2 ^ 24 ∧ (e + excess m e = 104 → r < 2 ^ 24) := by
  have hlog := log2_add_le_of_weight hm h
  refine ⟨?_, fun htop => roundedMantissa_lt ?_⟩
  · refine (roundedMantissa_le _).trans ?_
    rw [mantissa_shift]
    have hbits : m < 2 ^ (24 + excess m e) := by
      refine Nat.lt_log2_self.trans_le (Nat.pow_le_pow_right (by decide) ?_)
      simp only [excess]
      omega
    have hdiv : m / 2 ^ excess m e < 2 ^ 24 := by
      rwa [Nat.div_lt_iff_lt_mul (by positivity), ← pow_add]
    show m / 2 ^ excess m e + 1 ≤ 2 ^ 24
    omega
  · have hexp : 253 = excess m e + (e + 149).toNat := by omega
    have hscaled : 2 * m * 2 ^ (e + 149).toNat <
        (2 ^ 25 - 1) * 2 ^ excess m e * 2 ^ (e + 149).toNat := by
      calc 2 * m * 2 ^ (e + 149).toNat = 2 * weight m e := by rw [weight, mul_assoc]
        _ < 2 * limit := by omega
        _ = (2 ^ 25 - 1) * 2 ^ 253 := by rw [limit]; ring
        _ = (2 ^ 25 - 1) * 2 ^ excess m e * 2 ^ (e + 149).toNat := by
          rw [hexp, pow_add, mul_assoc]
    exact Nat.lt_of_mul_lt_mul_right hscaled

/-- A finite number that stays finite when it is packed. -/
def Packs : UnpackedFloat → Prop
  | .zero _ => True
  | .finite _ _ e _ => e ≤ 104
  | _ => False

lemma packs_roundWithAccuracy (hm : 0 < m) (he : -149 ≤ e) (hle : e ≤ 104) (h : weight m e < limit) :
    Packs (roundWithAccuracy .binary32 s m e .exact) := by
  have hlog := log2_add_le_of_weight hm h
  obtain ⟨hr, htop⟩ := roundedMantissa_bound hm he hle h
  simp only [roundWithAccuracy, shiftToTargetExponent_eq]
  set r := ((⟨m, false, false⟩ : ExtendedMantissa) >>> excess m e).roundedMantissa
  split
  · trivial
  · show e + excess m e + excess r (e + excess m e) ≤ 104
    have hbits : r.log2 < 25 := log2_lt_of_lt (by decide) (hr.trans_lt (by decide))
    obtain ⟨t, ht⟩ : ∃ t, t = e + excess m e := ⟨_, rfl⟩
    have hfirst : t ≤ 104 := by
      rw [ht, excess]
      omega
    rw [← ht] at htop ⊢
    rw [excess]
    -- the second shift makes room for the bit that rounding may have added
    by_cases hmax : t = 104
    · have := log2_lt_of_lt (by decide) (htop hmax)
      omega
    · omega

/-! ## Sums -/

/-- Aligning a number changes no weight. -/
lemma weight_decreaseExponent (he : -149 ≤ e) {t : Int} (ht : -149 ≤ t) :
    weight (decreaseExponent m e t).1 (decreaseExponent m e t).2 = weight m e := by
  have hexp : (e + 149).toNat = (e - t).toNat + (e - (e - t).toNat + 149).toNat := by omega
  simp only [decreaseExponent, weight]
  rw [Nat.shiftLeft_eq, mul_assoc, ← pow_add, ← hexp]

lemma packs_round (hm : 0 < m) (he : -149 ≤ e) (hle : e ≤ 104) (h : weight m e < limit) :
    Packs (round .binary32 s m e) := by
  have ht : -149 ≤ Format.binary32.targetExponent (totalExponent m e) := by
    rw [targetExponent_eq]
    omega
  rw [← weight_decreaseExponent he ht] at h
  refine packs_roundWithAccuracy ?_ ?_ ?_ h
  · rw [Nat.shiftLeft_eq]
    positivity
  · omega
  · omega

lemma packs_normalize {n : Int} {zero : Sign} (he : -149 ≤ e) (hle : e ≤ 104)
    (h : weight n.natAbs e < limit) : Packs (normalize .binary32 n e zero) := by
  unfold UnpackedFloat.normalize
  split
  · rename_i hlt
    have hneg := compare_lt_iff_lt.1 hlt
    refine packs_round (by omega) he hle ?_
    rwa [show (-n).toNat = n.natAbs by omega]
  · trivial
  · rename_i hgt
    have hpos := compare_gt_iff_gt.1 hgt
    refine packs_round (by omega) he hle ?_
    rwa [show n.toNat = n.natAbs by omega]

/-- A finite number with exponents in range, of at most the given weight. -/
def Within (bound : Nat) : UnpackedFloat → Prop
  | .zero _ => True
  | .finite _ m e _ => -149 ≤ e ∧ e ≤ 104 ∧ weight m e ≤ bound
  | _ => False

lemma Within.packs {bound : Nat} {u : UnpackedFloat} (h : Within bound u) : Packs u := by
  cases u with
  | notANumber => exact h
  | infinity s => exact h
  | zero s => trivial
  | finite s m e hm => exact h.2.1

/-- Mantissas brought to the smaller one of two exponents. -/
lemma weight_align {f : Int} (he : -149 ≤ e) (hf : -149 ≤ f) (hle : f ≤ e) :
    weight (decreaseExponent m e f).1 f = weight m e := by
  rw [← weight_decreaseExponent he hf]
  congr 1
  simp only [decreaseExponent]
  omega

lemma natAbs_apply (s : Sign) (m : Nat) : (s.apply m).natAbs = m := by
  cases s <;> simp [Sign.apply]

variable {bound bound' : Nat} {u v : UnpackedFloat}

lemma weight_aligned_lt {m₁ m₂ : Nat} {e₁ e₂ : Int} {n : Int}
    (h₁ : -149 ≤ e₁ ∧ e₁ ≤ 104 ∧ weight m₁ e₁ ≤ bound)
    (h₂ : -149 ≤ e₂ ∧ e₂ ≤ 104 ∧ weight m₂ e₂ ≤ bound') (hlimit : bound + bound' < limit)
    (hn : n.natAbs ≤ (decreaseExponent m₁ e₁ (min e₁ e₂)).1 +
      (decreaseExponent m₂ e₂ (min e₁ e₂)).1) : weight n.natAbs (min e₁ e₂) < limit := by
  have hleft := weight_align (m := m₁) h₁.1 (le_min h₁.1 h₂.1) (min_le_left e₁ e₂)
  have hright := weight_align (m := m₂) h₂.1 (le_min h₁.1 h₂.1) (min_le_right e₁ e₂)
  calc weight n.natAbs (min e₁ e₂)
      ≤ weight ((decreaseExponent m₁ e₁ (min e₁ e₂)).1 +
          (decreaseExponent m₂ e₂ (min e₁ e₂)).1) (min e₁ e₂) := Nat.mul_le_mul_right _ hn
    _ = weight m₁ e₁ + weight m₂ e₂ := by
      rw [← hleft, ← hright, weight, weight, weight, add_mul]
    _ < limit := by omega

/-- A sum of numbers that are small enough together does not overflow. -/
lemma packs_add (hu : Within bound u) (hv : Within bound' v) (hlimit : bound + bound' < limit) :
    Packs (add .binary32 u v) := by
  cases u with
  | notANumber => exact hu.elim
  | infinity s => exact hu.elim
  | zero s =>
      cases v with
      | notANumber => exact hv.elim
      | infinity t => exact hv.elim
      | zero t => cases s <;> cases t <;> trivial
      | finite t m e hm => exact hv.packs
  | finite s m e hm =>
      cases v with
      | notANumber => exact hv.elim
      | infinity t => exact hv.elim
      | zero t => exact hu.packs
      | finite t n f hn =>
          refine packs_normalize (le_min hu.1 hv.1) ((min_le_left _ _).trans hu.2.1)
            (weight_aligned_lt hu hv hlimit ?_)
          refine (Int.natAbs_add_le _ _).trans_eq ?_
          rw [natAbs_apply, natAbs_apply]
          rfl

lemma apply_neg (s : Sign) (m : Nat) : (-s).apply m = -s.apply m := by
  cases s
  · exact (Int.neg_neg _).symm
  · rfl

/-- A difference is a sum with the other sign. -/
lemma sub_eq_add (u v : UnpackedFloat) : u.sub .binary32 v = u.add .binary32 v.neg := by
  cases u with
  | notANumber => rfl
  | infinity s => cases v <;> rfl
  | zero s => cases v <;> rfl
  | finite s m e hm =>
      cases v with
      | notANumber => rfl
      | infinity t => rfl
      | zero t => rfl
      | finite t n f hn =>
          simp only [UnpackedFloat.sub, UnpackedFloat.add, UnpackedFloat.neg, apply_neg,
            Int.sub_eq_add_neg]

lemma Within.neg (h : Within bound u) : Within bound u.neg := by
  cases u <;> exact h

lemma packs_sub (hu : Within bound u) (hv : Within bound' v) (hlimit : bound + bound' < limit) :
    Packs (sub .binary32 u v) := by
  rw [sub_eq_add]
  exact packs_add hu hv.neg hlimit

/-! ## Bits -/

variable {spec : Format}

/-- The sign of what is a number. -/
def sign? : UnpackedFloat → Option Sign
  | .notANumber => none
  | .infinity s | .zero s | .finite s _ _ _ => some s

lemma ofBitVec_toBitVec (s : Sign) : Sign.ofBitVec s.toBitVec = s := by
  cases s <;> rfl

lemma unpackSign_packComponents {exponent mantissa} :
    unpackSign (packComponents spec s exponent mantissa) = s.toBitVec := by
  ext i hi
  obtain rfl : i = 0 := by omega
  simp [unpackSign, packComponents, BitVec.getLsbD_eq_getElem, BitVec.getLsbD_append,
    BitVec.getElem_append]

lemma unpack_packComponents {exponent mantissa} :
    let u := UnpackedFloat.unpack spec (packComponents spec s exponent mantissa)
    (exponent = -1#_ → mantissa = 0#_ → u = .infinity s) ∧
      (exponent ≠ -1#_ → sign? u = some s ∧ u.isFinite = true) := by
  simp only [UnpackedFloat.unpack, unpackExponent_packComponents, unpackMantissa_packComponents,
    unpackSign_packComponents, ofBitVec_toBitVec]
  refine ⟨fun hexponent hmantissa => by rw [if_pos hexponent, if_pos hmantissa], fun h => ?_⟩
  rw [if_neg h]
  split
  · split <;> exact ⟨rfl, rfl⟩
  · exact ⟨rfl, rfl⟩

lemma unpack_packedInfinity :
    UnpackedFloat.unpack spec (packedInfinity spec s) = .infinity s := unpack_packComponents.1 rfl rfl

lemma unpack_packedNaN : UnpackedFloat.unpack spec (packedNaN spec) = .notANumber := by
  have hmantissa : (1#_ <<< (spec.mantissaBitsWithoutImplicit - 1) :
      BitVec spec.mantissaBitsWithoutImplicit) ≠ 0#_ := by
    intro h
    have hbits := congrArg BitVec.toNat h
    have hpos := spec.hm
    have hlt : 2 ^ (spec.mantissaBitsWithoutImplicit - 1) < 2 ^ spec.mantissaBitsWithoutImplicit :=
      Nat.pow_lt_pow_right (by decide) (by omega)
    simp only [BitVec.toNat_shiftLeft, BitVec.toNat_ofNat, Nat.shiftLeft_eq] at hbits
    rw [Nat.mod_eq_of_lt (Nat.one_lt_two_pow hpos.ne'), one_mul, Nat.mod_eq_of_lt hlt,
      Nat.zero_mod] at hbits
    exact (Nat.two_pow_pos _).ne' hbits
  simp only [UnpackedFloat.unpack, packedNaN, unpackExponent_packComponents,
    unpackMantissa_packComponents, if_true, if_neg hmantissa]

lemma zero_ne_neg_one : (0 : BitVec spec.exponentBits) ≠ -1#_ := by
  intro h
  have hbits := congrArg BitVec.toNat h
  have hpos := Nat.one_lt_two_pow spec.he.ne'
  simp only [BitVec.neg_one_eq_allOnes, BitVec.toNat_allOnes, BitVec.ofNat_eq_ofNat,
    BitVec.toNat_zero] at hbits
  omega

lemma unpack_pack_zero :
    UnpackedFloat.unpack spec (UnpackedFloat.pack spec (.zero s)) = .zero s := by
  simp only [UnpackedFloat.unpack, UnpackedFloat.pack, packedZero, unpackExponent_packComponents,
    unpackMantissa_packComponents, unpackSign_packComponents, ofBitVec_toBitVec]
  exact (if_neg zero_ne_neg_one).trans ((if_pos rfl).trans (dif_pos rfl))

/-- Rounding keeps the sign. -/
lemma sign?_roundWithAccuracy {a : Accuracy} :
    sign? (roundWithAccuracy spec s m e a) = some s := by
  simp only [roundWithAccuracy]
  split <;> rfl

lemma sign?_normalize {n : Int} {zero : Sign} (hn : 0 < n) :
    sign? (normalize spec n e zero) = some .positive := by
  unfold UnpackedFloat.normalize
  rw [compare_gt_iff_gt.2 hn]
  exact sign?_roundWithAccuracy

/-- Packing keeps the sign, and what overflows becomes infinite. -/
lemma unpack_pack_finite {hm : 0 < m} :
    let u := UnpackedFloat.unpack spec (UnpackedFloat.pack spec (.finite s m e hm))
    sign? u = some s ∧
      ((e + spec.exponentBias + spec.mantissaBitsWithoutImplicit).toNat + 1 < 2 ^ spec.exponentBits →
        u.isFinite = true) := by
  simp only [UnpackedFloat.pack]
  split
  · rename_i hlarge
    rw [unpack_packedInfinity]
    exact ⟨rfl, fun hsmall => absurd hsmall (Nat.not_lt.2 hlarge)⟩
  · rename_i hsmall
    have hexponent : (BitVec.ofNat spec.exponentBits
        (e + spec.exponentBias + spec.mantissaBitsWithoutImplicit).toNat) ≠ -1#_ := by
      intro h
      have hbits := congrArg BitVec.toNat h
      simp only [BitVec.neg_one_eq_allOnes, BitVec.toNat_allOnes, BitVec.toNat_ofNat] at hbits
      rw [Nat.mod_eq_of_lt (by omega)] at hbits
      omega
    split
    · exact ⟨(unpack_packComponents.2 hexponent).1, fun _ => (unpack_packComponents.2 hexponent).2⟩
    · exact ⟨(unpack_packComponents.2 zero_ne_neg_one).1,
        fun _ => (unpack_packComponents.2 zero_ne_neg_one).2⟩

/-- Packing keeps the sign. -/
lemma sign?_unpack_pack (u : UnpackedFloat) :
    sign? (UnpackedFloat.unpack spec (UnpackedFloat.pack spec u)) = sign? u := by
  cases u with
  | notANumber => rw [UnpackedFloat.pack, unpack_packedNaN]
  | infinity s => rw [UnpackedFloat.pack, unpack_packedInfinity]
  | zero s => rw [unpack_pack_zero]
  | finite s m e hm => exact unpack_pack_finite.1

/-- A number that packs stays finite. -/
lemma Packs.isFinite (h : Packs u) :
    (UnpackedFloat.unpack .binary32 (UnpackedFloat.pack .binary32 u)).isFinite = true := by
  cases u with
  | notANumber => exact h.elim
  | infinity s => exact h.elim
  | zero s =>
      rw [unpack_pack_zero]
      rfl
  | finite s m e hm =>
      refine unpack_pack_finite.2 ?_
      have he : e ≤ 104 := h
      simp only [Format.exponentBias]
      norm_num
      omega

/-- A finite number has a mantissa of 24 bits and an exponent in range. -/
lemma bounds_of_unpack {b : BitVec (Format.numBits .binary32)} {hm : 0 < m}
    (h : UnpackedFloat.unpack .binary32 b = .finite s m e hm) :
    m < 2 ^ 24 ∧ -149 ≤ e ∧ e ≤ 104 := by
  have hbias : (Format.binary32.exponentBias : Int) = 127 := rfl
  have hexponent : (unpackExponent b).toNat < 2 ^ 8 := (unpackExponent b).isLt
  have hmantissa : (unpackMantissa b).toNat < 2 ^ 23 := (unpackMantissa b).isLt
  unfold UnpackedFloat.unpack at h
  dsimp only at h
  split at h
  · split at h <;> cases h
  · rename_i hspecial
    have hsmall : (unpackExponent b).toNat ≠ 255 := fun h => hspecial (BitVec.eq_of_toNat_eq h)
    split at h
    · rename_i hzero
      split at h
      · cases h
      · cases h
        rw [hzero, hbias]
        exact ⟨by omega, by simp, by simp⟩
    · rename_i hzero
      have hpos : (unpackExponent b).toNat ≠ 0 := fun h => hzero (BitVec.eq_of_toNat_eq h)
      cases h
      refine ⟨(1#1 ++ unpackMantissa b).isLt, ?_, ?_⟩
      · simp only [hbias]
        omega
      · simp only [hbias]
        omega

/-- The weight of the largest finite number. -/
def largest : Nat := (2 ^ 24 - 1) * 2 ^ 253

lemma within_largest {b : BitVec (Format.numBits .binary32)}
    (h : (UnpackedFloat.unpack .binary32 b).isFinite = true) :
    Within largest (UnpackedFloat.unpack .binary32 b) := by
  cases hu : UnpackedFloat.unpack .binary32 b with
  | notANumber => rw [hu] at h; cases h
  | infinity s => rw [hu] at h; cases h
  | zero s => trivial
  | finite s m e hm =>
      obtain ⟨hbits, he, hle⟩ := bounds_of_unpack hu
      exact ⟨he, hle, Nat.mul_le_mul (by omega) (Nat.pow_le_pow_right (by decide) (by omega))⟩

end Rounding

end Gatework
