import Gatework.Handle
import Mathlib.Data.Nat.Bitwise

/-!
# The parts of a handle

A handle is its tag and its position: both are read off again from the handle of a position that fits
(`tag_ofPosition`, `position_ofPosition`), and a number that carries the tag of a table is the handle of
the position in it (`ofPosition_position`).
-/

namespace Gatework

namespace Handle

variable {kind other : RecordKind} {p q : Nat} {h : Handle}

lemma tag_eq (h : Handle) : h.tag = h.raw.toNat / 2 ^ positionBits := by
  rw [tag, UInt64.toNat_shiftRight, Nat.shiftRight_eq_div_pow]
  rfl

lemma position_eq (h : Handle) : h.position = h.raw.toNat % 2 ^ positionBits := by
  rw [position, UInt64.toNat_and, show positionMask.toNat = 2 ^ positionBits - 1 from rfl,
    Nat.and_two_pow_sub_one_eq_mod]

lemma toNat_ofPosition (h : p < 2 ^ positionBits) :
    (ofPosition kind p).raw.toNat = kind.tag * 2 ^ positionBits + p := by
  have h : p < 2 ^ 56 := h
  have hshift : (UInt64.ofNat kind.tag <<< 56).toNat = kind.tag <<< 56 := by cases kind <;> rfl
  have hp : (UInt64.ofNat p).toNat = p := UInt64.toNat_ofNat_of_lt' (show p < 2 ^ 64 by omega)
  show (UInt64.ofNat kind.tag <<< 56 ||| UInt64.ofNat p).toNat = _
  rw [UInt64.toNat_or, hshift, hp, ← Nat.shiftLeft_add_eq_or_of_lt h, Nat.shiftLeft_eq]
  rfl

lemma tag_pos (kind : RecordKind) : 0 < kind.tag := by cases kind <;> decide

lemma tag_injective (h : kind.tag = other.tag) : kind = other := by
  cases kind <;> cases other <;> first | rfl | cases h

lemma tag_ofPosition (h : p < 2 ^ positionBits) : (ofPosition kind p).tag = kind.tag := by
  rw [tag_eq, toNat_ofPosition h, Nat.mul_comm, Nat.mul_add_div (by decide), Nat.div_eq_of_lt h,
    Nat.add_zero]

lemma position_ofPosition (h : p < 2 ^ positionBits) : (ofPosition kind p).position = p := by
  rw [position_eq, toNat_ofPosition h, Nat.mul_add_mod_self_right, Nat.mod_eq_of_lt h]

/-- No handle of a record is zero. -/
lemma isNull_eq_false (htag : h.tag = kind.tag) : h.isNull = false := by
  refine beq_eq_false_iff_ne.2 fun hzero => ?_
  rw [tag_eq, hzero, UInt64.toNat_zero, Nat.zero_div] at htag
  exact (tag_pos kind).ne htag

lemma belongsTo_iff : h.belongsTo kind = true ↔ h.tag = kind.tag := by
  rw [belongsTo, Bool.and_eq_true, beq_iff_eq]
  exact ⟨And.right, fun htag => ⟨by rw [isNull_eq_false htag]; rfl, htag⟩⟩

lemma belongsTo_ofPosition (h : p < 2 ^ positionBits) : (ofPosition kind p).belongsTo kind = true :=
  belongsTo_iff.2 (tag_ofPosition h)

/-- The tag and the position make the handle. -/
lemma ext_parts {h' : Handle} (htag : h.tag = h'.tag) (hposition : h.position = h'.position) : h = h' := by
  have hraw : h.raw.toNat = h'.raw.toNat := by
    rw [tag_eq, tag_eq] at htag
    rw [position_eq, position_eq] at hposition
    rw [← Nat.div_add_mod h.raw.toNat (2 ^ positionBits), htag, hposition, Nat.div_add_mod]
  cases h
  exact congrArg Handle.mk (UInt64.toNat_inj.1 hraw)

lemma position_lt (h : Handle) : h.position < 2 ^ positionBits := by
  rw [position_eq]
  exact Nat.mod_lt _ (by decide)

/-- A handle into a table is the handle of the position that it names. -/
lemma ofPosition_position (hb : h.belongsTo kind = true) : ofPosition kind h.position = h := by
  refine ext_parts ?_ (position_ofPosition h.position_lt)
  rw [tag_ofPosition h.position_lt, belongsTo_iff.1 hb]

/-- Positions that fit have different handles, and so do tables. -/
lemma ofPosition_inj (hp : p < 2 ^ positionBits) (hq : q < 2 ^ positionBits) :
    ofPosition kind p = ofPosition other q ↔ kind = other ∧ p = q := by
  constructor
  · intro h
    refine ⟨tag_injective ?_, ?_⟩
    · rw [← tag_ofPosition hp, h, tag_ofPosition hq]
    · exact (position_ofPosition hp).symm.trans ((congrArg position h).trans (position_ofPosition hq))
  · rintro ⟨rfl, rfl⟩
    rfl

end Handle

end Gatework
