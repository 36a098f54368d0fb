import Mathlib.Data.Finset.Card
import Mathlib.Data.List.Lex
import Mathlib.Data.List.Permutation
import Mathlib.Data.Nat.Factorial.Basic
import Gatework.Npn.Canonical

/-!
# All permutations in increasing order

A step leads from a list to a larger rearrangement (`next?_perm`, `lt_of_next?`), and no rearrangement lies
in between (`exists_next?_le`).  Behind the pivot everything is non-increasing, so a larger rearrangement
has a larger element in place of the pivot (`exists_exchange_le`).  The step puts the least one there, and
what follows into increasing order, which is the least that can follow (`le_of_perm`).

So steps from the least rearrangement go through all of them, as long as there are steps enough: each one
leaves fewer rearrangements that are larger (`card_later_lt`).

**Main statement.** `mem_all`.
-/

namespace Gatework

namespace Permutation

/-! ## Rearrangements -/

lemma exchange_perm {x y : Nat} {xs ys : List Nat} (h : exchange x xs = some (y, ys)) :
    (y :: ys).Perm (x :: xs) := by
  induction xs generalizing ys with
  | nil => cases h
  | cons z xs ih =>
      rw [exchange] at h
      split at h
      · cases h
        exact .swap ..
      · obtain ⟨⟨w, ws⟩, hrest, hpair⟩ := Option.map_eq_some_iff.1 h
        cases hpair
        exact (List.Perm.swap ..).trans (((ih hrest).cons z).trans (.swap ..))

lemma next?_perm {xs ys : List Nat} (h : next? xs = some ys) : ys.Perm xs := by
  induction xs generalizing ys with
  | nil => cases h
  | cons x xs ih =>
      rw [next?] at h
      split at h
      · rename_i zs hnext
        cases h
        exact (ih hnext).cons x
      · obtain ⟨⟨y, zs⟩, hexchange, rfl⟩ := Option.map_eq_some_iff.1 h
        exact (exchange_perm hexchange).trans (xs.reverse_perm.cons x)

lemma steps_perm {length : Nat} {p q : List Nat} (h : q ∈ steps length p) : q.Perm p := by
  induction length generalizing p with
  | zero => cases h
  | succ length ih =>
      rw [steps, List.mem_cons] at h
      rcases h with rfl | h
      · rfl
      · cases hnext : next? p with
        | none => simp [hnext] at h
        | some p' =>
            rw [hnext] at h
            exact (ih h).trans (next?_perm hnext)

/-! ## The next list -/

lemma exchange_eq_none_iff {x : Nat} {xs : List Nat} : exchange x xs = none ↔ ∀ z ∈ xs, z ≤ x := by
  induction xs with
  | nil => simp [exchange]
  | cons z zs ih =>
      rw [exchange, List.forall_mem_cons, ← ih]
      split
      · rename_i hlt
        simp [Nat.not_le.2 hlt]
      · rename_i hle
        simp [Nat.le_of_not_lt hle]

/-- Exactly the non-increasing lists have no next larger rearrangement. -/
lemma next?_eq_none_iff {p : List Nat} : next? p = none ↔ p.Pairwise (· ≥ ·) := by
  induction p with
  | nil => simp [next?]
  | cons x xs ih =>
      rw [next?, List.pairwise_cons, ← ih]
      cases next? xs with
      | none => simp [exchange_eq_none_iff]
      | some ys => simp

lemma lt_of_exchange {x y : Nat} {xs ys : List Nat} (h : exchange x xs = some (y, ys)) : x < y := by
  induction xs generalizing ys with
  | nil => cases h
  | cons z xs ih =>
      rw [exchange] at h
      split at h
      · cases h
        assumption
      · obtain ⟨⟨w, ws⟩, hrest, hpair⟩ := Option.map_eq_some_iff.1 h
        cases hpair
        exact ih hrest

/-- A step leads to a larger list. -/
lemma lt_of_next? {p q : List Nat} (h : next? p = some q) : p < q := by
  induction p generalizing q with
  | nil => cases h
  | cons x xs ih =>
      rw [next?] at h
      split at h
      · rename_i ys hnext
        cases h
        exact List.cons_lt_cons_iff.2 (.inr ⟨rfl, ih hnext⟩)
      · obtain ⟨⟨y, ys⟩, hexchange, rfl⟩ := Option.map_eq_some_iff.1 h
        exact List.cons_lt_cons_iff.2 (.inl (lt_of_exchange hexchange))

/-- A list in increasing order is the least of its rearrangements. -/
lemma le_of_perm {xs ys : List Nat} (increasing : xs.Pairwise (· ≤ ·)) (h : ys.Perm xs) : xs ≤ ys := by
  induction xs generalizing ys with
  | nil => rw [h.eq_nil]
  | cons x xs ih =>
      obtain ⟨hleast, hxs⟩ := List.pairwise_cons.1 increasing
      cases ys with
      | nil => exact absurd h.symm.eq_nil (List.cons_ne_nil x xs)
      | cons y ys =>
          have hle : x ≤ y := by
            rcases List.mem_cons.1 (h.subset List.mem_cons_self) with rfl | hy
            · exact le_refl _
            · exact hleast y hy
          rcases hle.lt_or_eq with hlt | rfl
          · exact (List.cons_lt_cons_iff.2 (.inl hlt)).le
          · exact List.cons_le_cons x (ih hxs h.cons_inv)

/-- From a list in increasing order the least larger element is taken, and what is left is in increasing
order. -/
lemma exchange_increasing {x z : Nat} {xs zs : List Nat} (increasing : xs.Pairwise (· ≤ ·))
    (h : exchange x xs = some (z, zs)) : (∀ w ∈ xs, x < w → z ≤ w) ∧ zs.Pairwise (· ≤ ·) := by
  induction xs generalizing zs with
  | nil => cases h
  | cons w ws ih =>
      obtain ⟨hleast, hws⟩ := List.pairwise_cons.1 increasing
      rw [exchange] at h
      split at h
      · rename_i hlt
        cases h
        refine ⟨fun v hv _ => ?_, List.pairwise_cons.2 ⟨fun v hv => ?_, hws⟩⟩
        · rcases List.mem_cons.1 hv with rfl | hv
          · exact le_refl _
          · exact hleast v hv
        · exact hlt.le.trans (hleast v hv)
      · rename_i hle
        obtain ⟨⟨z', zs'⟩, hrest, hpair⟩ := Option.map_eq_some_iff.1 h
        cases hpair
        obtain ⟨hz, hzs⟩ := ih hws hrest
        refine ⟨fun v hv hlt => ?_, List.pairwise_cons.2 ⟨fun v hv => ?_, hzs⟩⟩
        · rcases List.mem_cons.1 hv with rfl | hv
          · exact absurd hlt hle
          · exact hz v hv hlt
        · have hv := (exchange_perm hrest).subset (List.mem_cons_of_mem _ hv)
          rcases List.mem_cons.1 hv with rfl | hv
          · exact Nat.le_of_not_lt hle
          · exact hleast v hv

/-- With a non-increasing tail the step puts the least larger element in front and the rest into increasing
order, so no rearrangement with a larger element in front is less. -/
lemma exists_exchange_le {x y : Nat} {xs ys : List Nat} (h : (y :: ys).Perm (x :: xs)) (hlt : x < y)
    (tail : xs.Pairwise (· ≥ ·)) :
    ∃ z zs, exchange x xs.reverse = some (z, zs) ∧ z :: zs ≤ y :: ys := by
  have increasing : xs.reverse.Pairwise (· ≤ ·) := List.pairwise_reverse.2 tail
  have hy : y ∈ xs.reverse := by
    rcases List.mem_cons.1 (h.subset List.mem_cons_self) with rfl | hy
    · exact absurd hlt (lt_irrefl _)
    · exact List.mem_reverse.2 hy
  cases hexchange : exchange x xs.reverse with
  | none => exact absurd hlt (Nat.not_lt.2 (exchange_eq_none_iff.1 hexchange y hy))
  | some pair =>
      obtain ⟨z, zs⟩ := pair
      obtain ⟨hleast, hzs⟩ := exchange_increasing increasing hexchange
      refine ⟨z, zs, rfl, ?_⟩
      rcases (hleast y hy hlt).lt_or_eq with hzy | rfl
      · exact (List.cons_lt_cons_iff.2 (.inl hzy)).le
      · -- the tails are rearrangements of each other
        have hperm : (z :: ys).Perm (z :: zs) :=
          h.trans ((xs.reverse_perm.symm.cons x).trans (exchange_perm hexchange).symm)
        exact List.cons_le_cons z (le_of_perm hzs hperm.cons_inv)

/-- No rearrangement lies between a list and the one that the step leads to. -/
lemma exists_next?_le {p r : List Nat} (h : r.Perm p) (hlt : p < r) : ∃ q, next? p = some q ∧ q ≤ r := by
  induction p generalizing r with
  | nil =>
      obtain rfl := h.eq_nil
      exact absurd hlt (lt_irrefl _)
  | cons x xs ih =>
      cases r with
      | nil => exact absurd h.symm.eq_nil (List.cons_ne_nil x xs)
      | cons y ys =>
          rcases List.cons_lt_cons_iff.1 hlt with hlt | ⟨rfl, hrest⟩
          · cases hnext : next? xs with
            | some zs =>
                refine ⟨x :: zs, by rw [next?, hnext], ?_⟩
                exact (List.cons_lt_cons_iff.2 (.inl hlt)).le
            | none =>
                obtain ⟨z, zs, hexchange, hle⟩ := exists_exchange_le h hlt (next?_eq_none_iff.1 hnext)
                refine ⟨z :: zs, ?_, hle⟩
                rw [next?, hnext, hexchange]
                rfl
          · obtain ⟨q, hq, hle⟩ := ih h.cons_inv hrest
            refine ⟨x :: q, ?_, List.cons_le_cons x hle⟩
            rw [next?, hq]

/-! ## All steps -/

lemma steps_sorted (length : Nat) (p : List Nat) :
    (steps length p).Pairwise (· < ·) ∧ ∀ q ∈ steps length p, p ≤ q := by
  induction length generalizing p with
  | zero => simp [steps]
  | succ length ih =>
      rw [steps]
      cases hnext : next? p with
      | none => simp
      | some p' =>
          obtain ⟨sorted, least⟩ := ih p'
          have hlt := lt_of_next? hnext
          have later : ∀ q ∈ steps length p', p < q := fun q hq => hlt.trans_le (least q hq)
          refine ⟨List.pairwise_cons.2 ⟨later, sorted⟩, fun q hq => ?_⟩
          rcases List.mem_cons.1 hq with rfl | hq
          · exact le_refl _
          · exact (later q hq).le

/-- The larger rearrangements of a list. -/
def later (p : List Nat) : Finset (List Nat) := p.permutations.toFinset.filter (p < ·)

lemma mem_later {p r : List Nat} : r ∈ later p ↔ r.Perm p ∧ p < r := by
  simp [later]

lemma card_later_lt {p q : List Nat} (h : next? p = some q) : (later q).card < (later p).card := by
  refine Finset.card_lt_card ((Finset.ssubset_iff_of_subset fun r hr => ?_).2 ⟨q, ?_, ?_⟩)
  · obtain ⟨hperm, hlt⟩ := mem_later.1 hr
    exact mem_later.2 ⟨hperm.trans (next?_perm h), (lt_of_next? h).trans hlt⟩
  · exact mem_later.2 ⟨next?_perm h, lt_of_next? h⟩
  · intro hq
    exact lt_irrefl _ (mem_later.1 hq).2

lemma card_later_lt_factorial (p : List Nat) : (later p).card < p.length.factorial := by
  have hsubset : later p ⊂ p.permutations.toFinset := by
    refine (Finset.ssubset_iff_of_subset (Finset.filter_subset _ _)).2 ⟨p, by simp, ?_⟩
    intro h
    exact lt_irrefl _ (mem_later.1 h).2
  have hlength := List.toFinset_card_le p.permutations
  rw [List.length_permutations] at hlength
  exact (Finset.card_lt_card hsubset).trans_le hlength

/-- Enough steps from a list lead to every rearrangement that is not less. -/
lemma mem_steps {length : Nat} {p r : List Nat} (enough : (later p).card < length) (h : r.Perm p)
    (hle : p ≤ r) : r ∈ steps length p := by
  induction length generalizing p with
  | zero => exact absurd enough (Nat.not_lt_zero _)
  | succ length ih =>
      rw [steps]
      rcases hle.lt_or_eq with hlt | rfl
      · obtain ⟨q, hnext, hq⟩ := exists_next?_le h hlt
        rw [hnext]
        have hless := (card_later_lt hnext).trans_le (Nat.le_of_lt_succ enough)
        exact List.mem_cons_of_mem p (ih hless (h.trans (next?_perm hnext).symm) hq)
      · exact List.mem_cons_self

lemma count_eq (n : Nat) : count n = n.factorial := by
  induction n with
  | zero => rfl
  | succ n ih => rw [count, ih, Nat.factorial_succ]

/-- There are enough steps for all permutations. -/
lemma card_later_range (n : Nat) : (later (List.range n)).card < count n := by
  have hlt := card_later_lt_factorial (List.range n)
  rwa [List.length_range, ← count_eq] at hlt

/-- All permutations are listed, and nothing else. -/
lemma mem_all {n : Nat} {p : List Nat} : p ∈ all n ↔ p.Perm (List.range n) := by
  refine ⟨steps_perm, fun h => ?_⟩
  exact mem_steps (card_later_range n) h (le_of_perm List.pairwise_le_range h)

end Permutation

end Gatework
