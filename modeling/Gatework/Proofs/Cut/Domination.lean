import Mathlib.Data.List.Perm.Subperm
import Mathlib.Data.Nat.Bitwise
import Gatework.Cut.Enumeration
import Gatework.Proofs.Increasing

/-!
# Cuts that contain other cuts

Most subset tests end with the signatures or the sizes.  `Cut.isSubset_iff` says that this never changes
the answer, as long as the leaves are listed without repetition.

Of the cuts found for an entry those are kept that contain no smaller one.  `exists_minimal` says that
below every cut that was found there is one that is kept, so that dropping the others loses nothing
that a minimal cut needs, and `eq_of_subset_of_mem_minimal` that no two cuts that are kept contain each
other.
-/

namespace Gatework

/-- A list with its repetitions taken out has none. -/
lemma nodup_eraseDups {α : Type} [BEq α] [LawfulBEq α] (xs : List α) : xs.eraseDups.Nodup := by
  induction hn : xs.length using Nat.strong_induction_on generalizing xs with
  | _ n ih =>
      cases xs with
      | nil => simp
      | cons x xs =>
          have hlt : (xs.filter fun y => !y == x).length < n := by
            rw [← hn, List.length_cons]
            exact Nat.lt_succ_of_le (List.length_filter_le _ _)
          rw [List.eraseDups_cons]
          exact List.nodup_cons.2 ⟨by simp [List.mem_eraseDups], ih _ hlt _ rfl⟩

namespace Cut

variable {c d : Cut}

lemma testBit_foldl_signature (leaves : List Nat) (s : UInt64) (i : Nat) :
    (leaves.foldl (fun s leaf => s ||| (1 : UInt64) <<< UInt64.ofNat (leaf % 64)) s).toNat.testBit i =
      (s.toNat.testBit i || leaves.any fun leaf => leaf % 64 == i) := by
  induction leaves generalizing s with
  | nil => simp
  | cons leaf leaves ih =>
      have hlt : leaf % 64 < 64 := Nat.mod_lt _ (by decide)
      have hbit : ((1 : UInt64) <<< UInt64.ofNat (leaf % 64)).toNat = 2 ^ (leaf % 64) := by
        have hpow : 2 ^ (leaf % 64) < 2 ^ 64 := Nat.pow_lt_pow_right (by decide) hlt
        have hshift : (UInt64.ofNat (leaf % 64)).toNat = leaf % 64 := by
          rw [UInt64.toNat_ofNat']
          omega
        rw [UInt64.toNat_shiftLeft, hshift, Nat.mod_eq_of_lt hlt, UInt64.toNat_one, Nat.one_shiftLeft,
          Nat.mod_eq_of_lt hpow]
      rw [List.foldl_cons, ih, UInt64.toNat_or, Nat.testBit_or, hbit, Nat.testBit_two_pow,
        List.any_cons, Bool.or_assoc]
      rfl

/-- Bit `i` of the signature is set exactly if a leaf has the remainder `i`. -/
theorem testBit_signature (c : Cut) (i : Nat) :
    c.signature.toNat.testBit i = true ↔ ∃ leaf ∈ c.leaves, leaf % 64 = i := by
  rw [signature, testBit_foldl_signature]
  simp

/-- The signature of a subset is contained in that of the superset. -/
lemma signature_and_not_eq_zero (h : c.leaves ⊆ d.leaves) : c.signature &&& ~~~d.signature = 0 := by
  refine UInt64.toNat_inj.1 (Nat.eq_of_testBit_eq fun i => ?_)
  rw [UInt64.toNat_and, Nat.testBit_and, UInt64.toNat_zero, Nat.zero_testBit]
  by_cases hc : c.signature.toNat.testBit i = true
  · obtain ⟨leaf, hleaf, hi⟩ := (c.testBit_signature i).1 hc
    have hd : d.signature.toNat.testBit i = true := (d.testBit_signature i).2 ⟨leaf, h hleaf, hi⟩
    have hnot : UInt64.size - 1 - d.signature.toNat = 2 ^ 64 - (d.signature.toNat + 1) := by
      rw [Nat.sub_sub, Nat.add_comm 1]
      rfl
    rw [UInt64.toNat_not, hc, Bool.true_and, hnot,
      Nat.testBit_two_pow_sub_succ d.signature.toNat_lt, hd, Bool.not_true, Bool.and_false]
  · rw [Bool.eq_false_iff.2 hc, Bool.false_and]

/-- The test for subsets is right about leaves that are listed once. -/
theorem isSubset_iff (nodup : c.leaves.Nodup) : c.isSubset d = true ↔ c.leaves ⊆ d.leaves := by
  simp only [isSubset, Bool.and_eq_true, List.all_eq_true, List.contains_iff_mem, beq_iff_eq,
    decide_eq_true_eq]
  refine ⟨fun h => h.2, fun h => ⟨⟨signature_and_not_eq_zero h, ?_⟩, h⟩⟩
  exact (List.subperm_of_subset nodup h).length_le

end Cut

namespace CutSets

variable {cuts : List Cut} {cut other : Cut}

lemma mem_minimal (nodup : ∀ cut ∈ cuts, cut.leaves.Nodup) : cut ∈ minimal cuts ↔ cut ∈ cuts ∧
    ∀ other ∈ cuts, other.leaves ⊆ cut.leaves → cut.size ≤ other.size := by
  rw [minimal, List.mem_filter]
  refine and_congr_right fun _ => ?_
  simp only [Bool.not_eq_true', List.any_eq_false, Bool.and_eq_true, decide_eq_true_eq, not_and']
  refine forall₂_congr fun other hother => ?_
  rw [Cut.isSubset_iff (nodup other hother), Nat.not_lt]

/-- Below every cut there is one that is kept. -/
lemma exists_minimal (nodup : ∀ cut ∈ cuts, cut.leaves.Nodup) (h : cut ∈ cuts) :
    ∃ kept ∈ minimal cuts, kept.leaves ⊆ cut.leaves := by
  induction hsize : cut.size using Nat.strong_induction_on generalizing cut with
  | _ size ih =>
      by_cases hmin : cut ∈ minimal cuts
      · exact ⟨cut, hmin, List.Subset.refl _⟩
      · simp only [mem_minimal nodup, h, true_and, not_forall, Nat.not_le] at hmin
        obtain ⟨other, hother, sub, hlt⟩ := hmin
        obtain ⟨kept, hkept, sub'⟩ := ih _ (hsize ▸ hlt) hother rfl
        exact ⟨kept, hkept, List.Subset.trans sub' sub⟩

/-- Of the cuts of one root that are kept, none contains another one. -/
lemma eq_of_subset_of_mem_minimal {root : Nat} (hroot : ∀ cut ∈ cuts, cut.root = root)
    (sorted : ∀ cut ∈ cuts, cut.leaves.Pairwise (· < ·)) (h : cut ∈ minimal cuts)
    (h' : other ∈ minimal cuts) (sub : cut.leaves ⊆ other.leaves) : cut = other := by
  have nodup : ∀ cut ∈ cuts, cut.leaves.Nodup := fun cut hcut =>
    (sorted cut hcut).imp fun hlt => Nat.ne_of_lt hlt
  obtain ⟨hcut, -⟩ := (mem_minimal nodup).1 h
  obtain ⟨hother, least⟩ := (mem_minimal nodup).1 h'
  have same : cut.leaves.Perm other.leaves :=
    (List.subperm_of_subset (nodup cut hcut) sub).perm_of_length_le (least cut hcut sub)
  have leaves : cut.leaves = other.leaves :=
    Increasing.eq_of_mem_iff (sorted cut hcut) (sorted other hother) fun _ => same.mem_iff
  have root : cut.root = other.root := (hroot cut hcut).trans (hroot other hother).symm
  cases cut
  cases other
  rw [Cut.mk.injEq]
  exact ⟨root, leaves⟩

end CutSets

end Gatework
