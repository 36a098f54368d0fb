import Mathlib.Data.Fintype.Perm
import Gatework.Proofs.Npn.Canonical

/-!
# Canonical forms stand for classes

Two functions are equivalent if one becomes the other by permuting inputs, complementing inputs and
complementing the output.  Equivalent functions are transforms of one another
(`TruthTable.Equivalent.exists_transform`), and a canonical form is the least table that a transform leads
to.  So equivalent functions end with one form.

**Main statements.**
* `TruthTable.equivalent_iff_canonical`: equivalence is having one canonical form.
* `TruthTable.canonical?_least`: of all transforms the search takes the least, and reaches by it the
  least table.
-/

namespace Gatework

namespace TruthTable

variable {n : Nat} {f g h : TruthTable n}

/-- One function becomes the other when input `i` is driven by input `π i`, some inputs are
complemented, and maybe the output. -/
def Equivalent (f g : TruthTable n) : Prop :=
  ∃ (π : Equiv.Perm (Fin n)) (flipped : Fin n → Bool) (negated : Bool), ∀ σ τ : Nat → Bool,
    (∀ i : Fin n, τ i = (σ (π i) ^^ flipped i)) →
      g.value (encode n σ) = (f.value (encode n τ) ^^ negated)

lemma Equivalent.symm (h : Equivalent f g) : Equivalent g f := by
  obtain ⟨π, flipped, negated, hvalue⟩ := h
  refine ⟨π.symm, fun i => flipped (π.symm i), negated, fun σ τ hτ => ?_⟩
  rw [hvalue τ σ fun i => ?_, Bool.xor_assoc, Bool.xor_self, Bool.xor_false]
  simp only [hτ, Equiv.symm_apply_apply, Bool.xor_assoc, Bool.xor_self, Bool.xor_false]

lemma Equivalent.trans (h₁ : Equivalent f g) (h₂ : Equivalent g h) : Equivalent f h := by
  obtain ⟨π₁, flipped₁, negated₁, hvalue₁⟩ := h₁
  obtain ⟨π₂, flipped₂, negated₂, hvalue₂⟩ := h₂
  refine ⟨π₁.trans π₂, fun i => flipped₂ (π₁ i) ^^ flipped₁ i, negated₁ ^^ negated₂,
    fun σ τ hτ => ?_⟩
  -- the assignment in between
  let ρ : Nat → Bool := fun i => if hi : i < n then σ (π₂ ⟨i, hi⟩) ^^ flipped₂ ⟨i, hi⟩ else false
  have hρ : ∀ i : Fin n, ρ i = (σ (π₂ i) ^^ flipped₂ i) := fun i => by simp [ρ]
  rw [hvalue₂ σ ρ hρ, hvalue₁ ρ τ fun i => ?_, Bool.xor_assoc]
  rw [hτ, hρ, Equiv.trans_apply, Bool.xor_assoc]

/-- Transforms make equivalent functions. -/
lemma equivalent_onTable {t : Transform} (ht : t.Permutes n) (f : TruthTable n) :
    Equivalent f (t.onTable f) := by
  have lt : ∀ i : Fin n, (i : Nat) < t.perm.length := fun i => ht.length ▸ i.isLt
  let number : Fin n → Fin n := fun i => ⟨t.perm.get ⟨i, lt i⟩, ht.lt_of_mem (List.get_mem _ _)⟩
  have injective : Function.Injective number := fun i j hij => Fin.ext <| Fin.mk.inj_iff.1 <|
    List.nodup_iff_injective_get.1 ht.nodup (Fin.mk.inj_iff.1 hij)
  let π := Equiv.ofBijective number (Finite.injective_iff_bijective.1 injective)
  have hπ : ∀ i : Fin n, t.perm[i.1]? = some (π i).1 := fun i => List.getElem?_eq_getElem (lt i)
  refine ⟨π.symm, fun i => t.mask.testBit (π.symm i), t.negated, fun σ τ hτ => ?_⟩
  rw [Transform.onTable, value_ofFn _ (encode_lt n σ)]
  congr 2
  refine eq_of_testBit (ht.source_lt _) (encode_lt n τ) fun p hp => ?_
  have hposition := hπ (π.symm ⟨p, hp⟩)
  rw [Equiv.apply_symm_apply] at hposition
  rw [ht.testBit_source _ hposition, testBit_encode (π.symm ⟨p, hp⟩).isLt, testBit_encode hp,
    hτ ⟨p, hp⟩]

/-- Equivalent functions are transforms of one another. -/
lemma Equivalent.exists_transform (h : Equivalent f g) :
    ∃ t : Transform, t.Permutes n ∧ t.mask < 2 ^ n ∧ g = t.onTable f := by
  obtain ⟨π, flipped, negated, hvalue⟩ := h
  let mask := encode n fun i => if hi : i < n then flipped (π.symm ⟨i, hi⟩) else false
  let t : Transform := ⟨(List.finRange n).map fun i => (π.symm i).1, mask, negated⟩
  have ht : t.Permutes n := by
    have hperm := (Equiv.Perm.map_finRange_perm π.symm).map Fin.val
    rwa [List.map_map, List.map_coe_finRange_eq_range] at hperm
  refine ⟨t, ht, encode_lt n _, ext_value fun y hy => ?_⟩
  have hcode : encode n (t.source y).testBit = t.source y := encode_testBit (ht.source_lt y)
  rw [Transform.onTable, value_ofFn _ hy, ← hcode, ← hvalue y.testBit, encode_testBit hy]
  intro i
  have hposition : t.perm[(π i).1]? = some i.1 := by simp [t]
  rw [ht.testBit_source y hposition]
  congr 1
  simp [t, mask, testBit_encode (π i).isLt]

end TruthTable

namespace TruthTable

variable {n : Nat} {f g form : TruthTable n} {t : Transform}

/-- No equivalent function is less than a canonical form. -/
lemma le_of_canonical? (h : f.canonical? = some (form, t)) (equivalent : f.Equivalent g) :
    form.toNat ≤ g.toNat := by
  obtain ⟨t', hform, -, -, least⟩ := exists_canonical? (canonical?_reached h).1 f
  cases hform.symm.trans h
  obtain ⟨u, hu, hmask, rfl⟩ := equivalent.exists_transform
  exact Canonical.toNat_le_of_rank (least u hu hmask)

/-- A function is equivalent to its canonical form. -/
lemma equivalent_of_canonical? (h : f.canonical? = some (form, t)) : f.Equivalent form := by
  obtain ⟨-, permutes, rfl⟩ := canonical?_reached h
  exact equivalent_onTable permutes f

/-- Two functions of few variables are equivalent exactly when they have one canonical form. -/
theorem equivalent_iff_canonical (h : f.canonical? = some (form, t)) :
    f.Equivalent g ↔ ∃ t', g.canonical? = some (form, t') := by
  refine ⟨fun equivalent => ?_, fun ⟨t', ht'⟩ => ?_⟩
  · obtain ⟨u, hg, -⟩ := exists_canonical? (canonical?_reached h).1 g
    have hle := le_of_canonical? h (equivalent.trans (equivalent_of_canonical? hg))
    have hge := le_of_canonical? hg (equivalent.symm.trans (equivalent_of_canonical? h))
    have hform : form = u.onTable g :=
      TruthTable.ext (BitVec.eq_of_toNat_eq (Nat.le_antisymm hle hge))
    exact ⟨u, hform ▸ hg⟩
  · exact (equivalent_of_canonical? h).trans (equivalent_of_canonical? ht').symm

/-- A canonical form is its own canonical form. -/
lemma canonical?_canonical (h : f.canonical? = some (form, t)) :
    ∃ t', form.canonical? = some (form, t') :=
  (equivalent_iff_canonical h).1 (equivalent_of_canonical? h)

/-- A function of at most six variables has a canonical form, reached by a transform that permutes the
inputs and complements none beyond them.  Of all such transforms no one comes before it, when they are
compared by the table that they lead to, then by output polarity, input polarities and permutation.
All that transforms make of the function has the same canonical form, and so has the form itself. -/
theorem canonical?_least (hn : n ≤ maxClassVariables) (f : TruthTable n) :
    ∃ form t, f.canonical? = some (form, t) ∧ t.Permutes n ∧ t.mask < 2 ^ n ∧ t.onTable f = form ∧
      (∀ u : Transform, u.Permutes n → u.mask < 2 ^ n →
        Canonical.rank form t ≤ Canonical.rank (u.onTable f) u) ∧
      (∀ u : Transform, u.Permutes n → ∃ t', (u.onTable f).canonical? = some (form, t')) ∧
      ∃ t', form.canonical? = some (form, t') := by
  obtain ⟨t, canonical, permutes, hmask, least⟩ := exists_canonical? hn f
  refine ⟨_, t, canonical, permutes, hmask, rfl, least, fun u hu => ?_, canonical?_canonical canonical⟩
  exact (equivalent_iff_canonical canonical).1 (equivalent_onTable hu f)

/-- The choice between two inputs by a third one. -/
def multiplexer : TruthTable 3 := ofNat 3 0b11001010

/-- The least table for the multiplexer is reached by turning the inputs and complementing two. -/
theorem canonical?_least_multiplexer :
    multiplexer.canonical? = some (ofNat 3 0b00011011, ⟨[2, 0, 1], 0b110, false⟩) ∧
      ∀ u : Transform, u.Permutes 3 → u.mask < 2 ^ 3 →
        Canonical.rank (ofNat 3 0b00011011) ⟨[2, 0, 1], 0b110, false⟩ ≤
          Canonical.rank (u.onTable multiplexer) u := by
  have canonical : multiplexer.canonical? = some (ofNat 3 0b00011011, ⟨[2, 0, 1], 0b110, false⟩) := by
    decide +kernel
  obtain ⟨form, t, found, -, -, -, least, -⟩ := canonical?_least (n := 3) (by decide) multiplexer
  cases canonical.symm.trans found
  exact ⟨canonical, least⟩

end TruthTable

end Gatework
