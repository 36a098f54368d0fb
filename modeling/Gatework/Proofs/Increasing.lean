import Mathlib.Data.List.Perm.Subperm
import Mathlib.Order.Nat
import Gatework.Increasing

/-!
# Sets as increasing lists

Insertion and union keep lists strictly increasing and have the members that they should have.
-/

namespace Gatework

namespace Increasing

variable {m n : Nat} {xs more : List Nat}

lemma mem_insert : m ∈ insert n xs ↔ m = n ∨ m ∈ xs := by
  induction xs with
  | nil => simp [insert]
  | cons x xs ih =>
      unfold insert
      split
      · simp
      · split
        · rename_i heq
          simp [heq]
        · simp [ih, or_left_comm]

lemma pairwise_insert (h : xs.Pairwise (· < ·)) : (insert n xs).Pairwise (· < ·) := by
  induction xs with
  | nil => simp [insert]
  | cons x xs ih =>
      obtain ⟨hx, hxs⟩ := List.pairwise_cons.1 h
      unfold insert
      split
      · rename_i hlt
        refine List.pairwise_cons.2 ⟨fun y hy => ?_, h⟩
        rcases List.mem_cons.1 hy with rfl | hy
        · exact hlt
        · exact hlt.trans (hx y hy)
      · split
        · exact h
        · rename_i hlt hne
          refine List.pairwise_cons.2 ⟨fun y hy => ?_, ih hxs⟩
          rcases mem_insert.1 hy with rfl | hy
          · omega
          · exact hx y hy

lemma mem_union : m ∈ union xs more ↔ m ∈ xs ∨ m ∈ more := by
  induction more generalizing xs with
  | nil => simp [union]
  | cons x more ih =>
      rw [show union xs (x :: more) = union (insert x xs) more from rfl, ih, mem_insert,
        List.mem_cons]
      tauto

lemma pairwise_union (h : xs.Pairwise (· < ·)) : (union xs more).Pairwise (· < ·) := by
  induction more generalizing xs with
  | nil => exact h
  | cons x more ih => exact ih (pairwise_insert h)

lemma length_le_insert (n : Nat) (xs : List Nat) : xs.length ≤ (insert n xs).length := by
  induction xs with
  | nil => simp
  | cons x xs ih =>
      unfold insert
      split
      · simp
      · split
        · exact le_refl _
        · simpa using ih

lemma length_le_union (xs more : List Nat) : xs.length ≤ (union xs more).length := by
  induction more generalizing xs with
  | nil => exact le_refl _
  | cons x more ih => exact (length_le_insert x xs).trans (ih (insert x xs))

/-- An increasing list is determined by its members. -/
lemma eq_of_mem_iff (h : xs.Pairwise (· < ·)) (h' : more.Pairwise (· < ·))
    (same : ∀ n, n ∈ xs ↔ n ∈ more) : xs = more := by
  refine List.Perm.eq_of_pairwise (fun a b _ _ hab hba => absurd hab hba.asymm) h h' ?_
  refine (List.perm_ext_iff_of_nodup ?_ ?_).2 same
  · exact h.imp fun hlt => Nat.ne_of_lt hlt
  · exact h'.imp fun hlt => Nat.ne_of_lt hlt

lemma mem_ofList : m ∈ ofList xs ↔ m ∈ xs := by
  simp [ofList, mem_union]

lemma nodup_ofList : (ofList xs).Nodup :=
  (pairwise_union List.Pairwise.nil).imp fun h => Nat.ne_of_lt h

/-- A set has no more members than any list of them. -/
lemma length_ofList_le : (ofList xs).length ≤ xs.length :=
  (List.subperm_of_subset nodup_ofList fun _ => mem_ofList.1).length_le

end Increasing

end Gatework
