import Mathlib.Data.Prod.Lex
import Gatework.Proofs.Npn.Polarities

/-!
# Canonical forms are least

The search for a canonical form begins without a candidate and keeps the first one, and then whatever comes
before the best one so far.  Comparing candidates is comparing what the transforms make of the function,
then the transforms (`isLT_order_iff`).  So the search ends with the least of all transforms
(`exists_search`).

* `TruthTable.exists_canonical?`: a function of at most six variables has a canonical form, the least table
  that a transform leads to.
* `TruthTable.canonical?_reached`: canonical forms are reached by transforms.
-/

namespace Gatework

namespace Canonical

variable {n : Nat} {f : TruthTable n}

/-! ## The order of candidates -/

/-- What candidates are compared by: the number of the table first, then the polarity of the output, the
polarities of the inputs and the permutation. -/
def rank (form : TruthTable n) (t : Transform) : Nat ×ₗ Bool ×ₗ Nat ×ₗ List Nat :=
  toLex (form.toNat, toLex (t.negated, toLex (t.mask, t.perm)))

lemma toNat_le_of_rank {g : TruthTable n} {t u : Transform} (h : rank f t ≤ rank g u) :
    f.toNat ≤ g.toNat := by
  rcases Prod.Lex.toLex_le_toLex.1 h with hlt | ⟨heq, -⟩
  · exact Nat.le_of_lt hlt
  · exact Nat.le_of_eq heq

lemma isLT_then_iff {x y : Nat} {o : Ordering} :
    ((compare x y).then o).isLT = true ↔ x < y ∨ x = y ∧ o.isLT = true := by
  rcases Nat.lt_trichotomy x y with h | h | h
  · simp [Nat.compare_eq_lt.2 h, h]
  · simp [h]
  · simp [Nat.compare_eq_gt.2 h, h.ne', Nat.not_lt.2 h.le]

lemma isLT_orderPerm_iff {as bs : List Nat} : (orderPerm as bs).isLT = true ↔ as < bs := by
  induction as generalizing bs with
  | nil => cases bs <;> simp [orderPerm]
  | cons a as ih =>
      cases bs with
      | nil => simp [orderPerm]
      | cons b bs => rw [orderPerm, isLT_then_iff, ih, List.cons_lt_cons_iff]

lemma isLT_order_iff (hn : n ≤ 6) {t u : Transform} :
    ((candidate f t).order (candidate f u)).isLT = true ↔
      rank (t.onTable f) t < rank (u.onTable f) u := by
  have polarity : ∀ p q : Bool, (p.toNat < q.toNat ↔ p < q) ∧ (p.toNat = q.toNat ↔ p = q) := by
    decide
  rw [Candidate.order, ← compare_toNat, candidate, candidate, TruthTable.toNat_word hn,
    TruthTable.toNat_word hn, isLT_then_iff, isLT_then_iff, isLT_then_iff, isLT_orderPerm_iff,
    (polarity _ _).1, (polarity _ _).2, rank, rank, Prod.Lex.toLex_lt_toLex,
    Prod.Lex.toLex_lt_toLex, Prod.Lex.toLex_lt_toLex]

/-! ## The least candidate -/

/-- Of two transforms that are considered the one is kept that makes the lesser candidate. -/
lemma exists_consider (hn : n ≤ 6) (f : TruthTable n) (t u : Transform) :
    ∃ kept ∈ [t, u], consider (some (candidate f t)) (candidate f u) = some (candidate f kept) ∧
      rank (kept.onTable f) kept ≤ rank (t.onTable f) t ∧
      rank (kept.onTable f) kept ≤ rank (u.onTable f) u := by
  unfold consider
  dsimp only
  split
  · rename_i hlt
    exact ⟨u, by simp, rfl, ((isLT_order_iff hn).1 hlt).le, le_refl _⟩
  · rename_i hlt
    exact ⟨t, by simp, rfl, le_refl _, not_lt.1 (mt (isLT_order_iff hn).2 hlt)⟩

/-- When several transforms are considered one after the other, the least is left. -/
lemma exists_foldl_consider (hn : n ≤ 6) (f : TruthTable n) (ts : List Transform) (t : Transform) :
    ∃ kept ∈ t :: ts,
      (ts.map (candidate f)).foldl consider (some (candidate f t)) = some (candidate f kept) ∧
      ∀ u ∈ t :: ts, rank (kept.onTable f) kept ≤ rank (u.onTable f) u := by
  induction ts generalizing t with
  | nil => exact ⟨t, by simp, rfl, by simp⟩
  | cons u ts ih =>
      obtain ⟨first, hfirst, hrun, htu, hut⟩ := exists_consider hn f t u
      obtain ⟨kept, hkept, hfold, least⟩ := ih first
      rw [List.map_cons, List.foldl_cons, hrun]
      have hle := least first List.mem_cons_self
      refine ⟨kept, ?_, hfold, fun v hv => ?_⟩
      · rcases List.mem_cons.1 hkept with rfl | hkept
        · exact List.mem_append_left ts hfirst
        · simp [hkept]
      · rcases List.mem_cons.1 hv with rfl | hv
        · exact hle.trans htu
        · rcases List.mem_cons.1 hv with rfl | hv
          · exact hle.trans hut
          · exact least v (List.mem_cons_of_mem _ hv)

/-- The search ends with the least of all transforms. -/
lemma exists_search (hn : n ≤ 6) (f : TruthTable n) :
    ∃ t : Transform, search n f.word = some (candidate f t) ∧ t.Permutes n ∧ t.mask < 2 ^ n ∧
      ∀ u : Transform, u.Permutes n → u.mask < 2 ^ n →
        rank (t.onTable f) t ≤ rank (u.onTable f) u := by
  obtain ⟨hrun, -, mem_visited⟩ := search_visits hn f
  have hidentity : (⟨List.range n, 0, false⟩ : Transform) ∈ visited n :=
    (mem_visited _).2 ⟨.refl _, Nat.two_pow_pos n⟩
  obtain ⟨t, ts, hvisited⟩ := List.exists_cons_of_ne_nil (List.ne_nil_of_mem hidentity)
  obtain ⟨kept, hkept, hfold, least⟩ := exists_foldl_consider hn f ts t
  rw [← hvisited] at hkept least
  obtain ⟨permutes, hmask⟩ := (mem_visited kept).1 hkept
  rw [hvisited] at hrun
  exact ⟨kept, hrun.trans hfold, permutes, hmask, fun u hu hu' => least u ((mem_visited u).2 ⟨hu, hu'⟩)⟩

end Canonical

namespace TruthTable

variable {n : Nat} {f form : TruthTable n} {t : Transform}

/-- A function of at most six variables has a canonical form, and no transform leads to a lesser one. -/
lemma exists_canonical? (hn : n ≤ maxClassVariables) (f : TruthTable n) :
    ∃ t : Transform, f.canonical? = some (t.onTable f, t) ∧ t.Permutes n ∧ t.mask < 2 ^ n ∧
      ∀ u : Transform, u.Permutes n → u.mask < 2 ^ n →
        Canonical.rank (t.onTable f) t ≤ Canonical.rank (u.onTable f) u := by
  obtain ⟨t, hrun, permutes, hmask, least⟩ := Canonical.exists_search hn f
  refine ⟨t, ?_, permutes, hmask, least⟩
  rw [canonical?, if_pos hn, hrun, Option.map_some, Canonical.candidate, ofWords_word hn]

/-- Only functions of too many variables have no canonical form. -/
lemma canonical?_eq_none_iff : f.canonical? = none ↔ maxClassVariables < n := by
  rcases Nat.lt_or_ge maxClassVariables n with hn | hn
  · simp [canonical?, Nat.not_le.2 hn, hn]
  · obtain ⟨t, hform, -⟩ := exists_canonical? hn f
    simp [hform, hn]

/-- The canonical form of a function is what its transform makes of the function. -/
theorem canonical?_reached (h : f.canonical? = some (form, t)) :
    n ≤ maxClassVariables ∧ t.Permutes n ∧ form = t.onTable f := by
  have hn : n ≤ maxClassVariables := Nat.not_lt.1 fun hlt => by
    rw [canonical?_eq_none_iff.2 hlt] at h
    cases h
  obtain ⟨t', hform, permutes, -⟩ := exists_canonical? hn f
  cases hform.symm.trans h
  exact ⟨hn, permutes, rfl⟩

end TruthTable

end Gatework
