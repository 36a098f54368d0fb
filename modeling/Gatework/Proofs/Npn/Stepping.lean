import Mathlib.Data.List.Sort
import Gatework.Fault
import Gatework.Proofs.Npn.Permutation
import Gatework.Proofs.Runs

/-!
# Stepping through the permutations in place

The step to the next larger rearrangement is a recursion on lists.  Here it is compared with the step on a
list that is changed in place.  That one goes backwards from the end to find the pivot, and again to find
its partner, exchanges the two and turns around what is behind the pivot.  Wherever it reads, the list may
turn out to be too short.

**One step.**  A list that is not non-increasing is taken apart at its pivot (`Pivoted`).  Both steps make the
same of the parts (`Pivoted.next?_eq`, `Pivoted.advance_eq`), so they agree on every list, and the one in
place never leaves the list (`advance_eq`).

**A run.**  Steps in place until there is no larger rearrangement (`Visits`) show the lists that the
searches go through (`visits_all`).

**Main statement.** `advance_exhaustive`.
-/

namespace Gatework

namespace Permutation

/-! ## The step in place -/

/-- The element at a position, which has to lie in the list. -/
def entryAt (p : List Nat) (i : Nat) : Except Fault Nat :=
  match p[i]? with
  | some x => .ok x
  | none => .error .internal

/-- Goes back from a position as long as the element in front of it is not smaller. -/
def pivotFrom (p : List Nat) : (i : Nat) → Except Fault Nat
  | 0 => .ok 0
  | i + 1 => do
      if (← entryAt p (i + 1)) ≤ (← entryAt p i) then pivotFrom p i else return i + 1

/-- Goes back from a position as long as the element at it is not larger than the one at `pivot`.  There
is no position in front of the first one. -/
def partnerFrom (p : List Nat) (pivot : Nat) : (j : Nat) → Except Fault Nat
  | 0 => do
      if (← entryAt p 0) ≤ (← entryAt p pivot) then throw .internal else return 0
  | j + 1 => do
      if (← entryAt p (j + 1)) ≤ (← entryAt p pivot) then partnerFrom p pivot j else return j + 1

/-- Exchanges the elements at two positions. -/
def swap (p : List Nat) (i j : Nat) : Except Fault (List Nat) := do
  let x ← entryAt p i
  let y ← entryAt p j
  return (p.set i y).set j x

/-- Turns around what stands from a position on. -/
def reverseFrom (p : List Nat) (i : Nat) : Except Fault (List Nat) :=
  if i ≤ p.length then .ok (p.take i ++ (p.drop i).reverse) else .error .internal

/-- One step to the next larger rearrangement of a list, and whether there was one. -/
def advance (p : List Nat) : Except Fault (List Nat × Bool) :=
  if p.length < 2 then .ok (p, false)
  else do
    match ← pivotFrom p (p.length - 1) with
    | 0 => return (p, false)
    | pivot + 1 =>
        let partner ← partnerFrom p pivot (p.length - 1)
        let p ← swap p pivot partner
        return (← reverseFrom p (pivot + 1), true)

/-- What stands behind the front of a list is read at positions that are greater by its length. -/
lemma entryAt_append (front tail : List Nat) (k : Nat) :
    entryAt (front ++ tail) (front.length + k) = entryAt tail k := by
  rw [entryAt, List.getElem?_append_right (Nat.le_add_right _ _), Nat.add_sub_cancel_left]
  rfl

lemma entryAt_append_cons (front tail : List Nat) (x : Nat) :
    entryAt (front ++ x :: tail) front.length = .ok x := entryAt_append front (x :: tail) 0

lemma entryAt_eq_getElem {p : List Nat} {k : Nat} (h : k < p.length) : entryAt p k = .ok p[k] := by
  rw [entryAt, List.getElem?_eq_getElem h]

/-! ## Non-increasing lists -/

/-- The first scan passes all elements of a non-increasing tail but the first. -/
lemma pivotFrom_append (front : List Nat) {tail : List Nat} (h : tail.Pairwise (· ≥ ·)) {k : Nat}
    (hk : k < tail.length) :
    pivotFrom (front ++ tail) (front.length + k) = pivotFrom (front ++ tail) front.length := by
  induction k with
  | zero => rfl
  | succ k ih =>
      have hk' := Nat.lt_of_succ_lt hk
      have hle : tail[k + 1] ≤ tail[k] :=
        List.pairwise_iff_getElem.1 h k (k + 1) hk' hk (Nat.lt_succ_self k)
      rw [← Nat.add_assoc, pivotFrom, Nat.add_assoc, entryAt_append, entryAt_append,
        entryAt_eq_getElem hk, entryAt_eq_getElem hk', ok_bind, ok_bind, if_pos hle, ih hk']

lemma advance_of_pairwise {p : List Nat} (h : p.Pairwise (· ≥ ·)) : advance p = .ok (p, false) := by
  rw [advance]
  split
  · rfl
  · have hscan : pivotFrom p (p.length - 1) = .ok 0 := by
      have happend := pivotFrom_append [] h (show p.length - 1 < p.length by omega)
      rwa [List.length_nil, Nat.zero_add] at happend
    rw [hscan]
    rfl

/-! ## The pivot -/

/-- A list taken apart at its pivot `x`, the last element with a larger one behind it, and at the partner `y`
of the pivot, the last element that is larger. -/
structure Pivoted (p front : List Nat) (x : Nat) (larger : List Nat) (y : Nat) (smaller : List Nat) :
    Prop where
  eq : p = front ++ x :: (larger ++ y :: smaller)
  tail : (larger ++ y :: smaller).Pairwise (· ≥ ·)
  lt : x < y
  le : ∀ z ∈ smaller, z ≤ x

/-- The last of the elements that are larger than a number. -/
lemma exists_last_larger {x : Nat} {xs : List Nat} (h : ∃ z ∈ xs, x < z) :
    ∃ larger y smaller, xs = larger ++ y :: smaller ∧ x < y ∧ ∀ z ∈ smaller, z ≤ x := by
  induction xs with
  | nil => simp at h
  | cons w ws ih =>
      by_cases hws : ∃ z ∈ ws, x < z
      · obtain ⟨larger, y, smaller, rfl, hlt, hle⟩ := ih hws
        exact ⟨w :: larger, y, smaller, rfl, hlt, hle⟩
      · have hle : ∀ z ∈ ws, z ≤ x := by
          intro z hz
          exact Nat.le_of_not_lt fun hlt => hws ⟨z, hz, hlt⟩
        obtain ⟨z, hz, hlt⟩ := h
        rcases List.mem_cons.1 hz with rfl | hz
        · exact ⟨[], z, ws, rfl, hlt, hle⟩
        · exact absurd hlt (Nat.not_lt.2 (hle z hz))

/-- A list that is not non-increasing has a pivot. -/
lemma exists_pivoted {p : List Nat} (h : ¬p.Pairwise (· ≥ ·)) :
    ∃ front x larger y smaller, Pivoted p front x larger y smaller := by
  induction p with
  | nil => simp at h
  | cons w ws ih =>
      by_cases hws : ws.Pairwise (· ≥ ·)
      · have hlarger : ∃ z ∈ ws, w < z := by
          by_contra hnone
          refine h (List.pairwise_cons.2 ⟨fun z hz => ?_, hws⟩)
          exact Nat.le_of_not_lt fun hlt => hnone ⟨z, hz, hlt⟩
        obtain ⟨larger, y, smaller, rfl, hlt, hle⟩ := exists_last_larger hlarger
        exact ⟨[], w, larger, y, smaller, rfl, hws, hlt, hle⟩
      · obtain ⟨front, x, larger, y, smaller, rfl, tail, hlt, hle⟩ := ih hws
        exact ⟨w :: front, x, larger, y, smaller, rfl, tail, hlt, hle⟩

lemma exchange_append {x y : Nat} (hlt : x < y) {xs ys : List Nat} (h : ∀ z ∈ xs, z ≤ x) :
    exchange x (xs ++ y :: ys) = some (y, xs ++ x :: ys) := by
  induction xs with
  | nil => rw [List.nil_append, exchange, if_pos hlt, List.nil_append]
  | cons z zs ih =>
      obtain ⟨hz, hzs⟩ := List.forall_mem_cons.1 h
      rw [List.cons_append, exchange, if_neg (Nat.not_lt.2 hz), ih hzs]
      rfl

lemma next?_append {xs ys : List Nat} (front : List Nat) (h : next? xs = some ys) :
    next? (front ++ xs) = some (front ++ ys) := by
  induction front with
  | nil => exact h
  | cons x front ih => rw [List.cons_append, next?, ih, List.cons_append]

/-- The second scan ends at an element that is larger. -/
lemma partnerFrom_of_lt {p : List Nat} {pivot j x y : Nat} (hpivot : entryAt p pivot = .ok x)
    (hhere : entryAt p j = .ok y) (hlt : x < y) : partnerFrom p pivot j = .ok j := by
  cases j with
  | zero | succ j =>
      rw [partnerFrom, hhere, ok_bind, hpivot, ok_bind, if_neg (Nat.not_le.2 hlt)]
      rfl

/-- The second scan passes the elements that are not larger. -/
lemma partnerFrom_append {pivot x y : Nat} {front smaller : List Nat}
    (hpivot : entryAt (front ++ y :: smaller) pivot = .ok x) (hlt : x < y) (hle : ∀ z ∈ smaller, z ≤ x)
    {k : Nat} (hk : k ≤ smaller.length) :
    partnerFrom (front ++ y :: smaller) pivot (front.length + k) = .ok front.length := by
  induction k with
  | zero => exact partnerFrom_of_lt hpivot (entryAt_append_cons front smaller y) hlt
  | succ k ih =>
      have hhere : entryAt (front ++ y :: smaller) (front.length + (k + 1)) = .ok smaller[k] := by
        rw [entryAt_append]
        exact entryAt_eq_getElem (p := y :: smaller) (Nat.succ_lt_succ hk)
      rw [← Nat.add_assoc, partnerFrom, Nat.add_assoc, hhere, ok_bind, hpivot, ok_bind,
        if_pos (hle _ (List.getElem_mem _)), ih (Nat.le_of_succ_le hk)]

section Pivoted

variable {p front larger smaller : List Nat} {x y : Nat}

/-- What the step makes of the parts. -/
lemma Pivoted.next?_eq (h : Pivoted p front x larger y smaller) :
    next? p = some (front ++ y :: (smaller.reverse ++ x :: larger.reverse)) := by
  rw [h.eq]
  refine next?_append front ?_
  have hle : ∀ z ∈ smaller.reverse, z ≤ x := by
    intro z hz
    exact h.le z (List.mem_reverse.1 hz)
  have hreverse : (larger ++ y :: smaller).reverse = smaller.reverse ++ y :: larger.reverse := by simp
  rw [next?, next?_eq_none_iff.2 h.tail, hreverse, exchange_append h.lt hle]
  rfl

lemma Pivoted.entryAt_pivot (h : Pivoted p front x larger y smaller) : entryAt p front.length = .ok x := by
  rw [h.eq, entryAt_append_cons]

/-- The first scan ends right behind the pivot. -/
lemma Pivoted.pivotFrom_eq (h : Pivoted p front x larger y smaller) :
    pivotFrom p (p.length - 1) = .ok (front.length + 1) := by
  have hp : p = (front ++ [x]) ++ (larger ++ y :: smaller) := by simp [h.eq]
  have hlength : (front ++ [x]).length = front.length + 1 := by simp
  have hlast : p.length - 1 = (front ++ [x]).length + (larger.length + smaller.length) := by
    simp only [hp, List.length_append, List.length_cons]
    omega
  have hscan := pivotFrom_append (front ++ [x]) h.tail
    (show larger.length + smaller.length < _ by simp)
  -- the first element of the tail is larger than the pivot
  have hfirst : ∃ z, entryAt p (front.length + 1) = .ok z ∧ x < z := by
    rw [h.eq, entryAt_append]
    cases larger with
    | nil => exact ⟨y, rfl, h.lt⟩
    | cons w ws =>
        have hle : y ≤ w := List.rel_of_pairwise_cons h.tail (by simp)
        exact ⟨w, rfl, h.lt.trans_le hle⟩
  obtain ⟨z, hz, hlt⟩ := hfirst
  rw [← hp, ← hlast, hlength, pivotFrom, hz, h.entryAt_pivot, ok_bind, ok_bind,
    if_neg (Nat.not_le.2 hlt)] at hscan
  exact hscan

/-- The second scan ends at the partner. -/
lemma Pivoted.partnerFrom_eq (h : Pivoted p front x larger y smaller) :
    partnerFrom p front.length (p.length - 1) = .ok (front.length + (larger.length + 1)) := by
  have hp : p = (front ++ x :: larger) ++ y :: smaller := by simp [h.eq]
  have hlength : (front ++ x :: larger).length = front.length + (larger.length + 1) := by simp
  have hlast : p.length - 1 = (front ++ x :: larger).length + smaller.length := by
    simp only [hp, List.length_append, List.length_cons]
    omega
  have hscan := partnerFrom_append (hp ▸ h.entryAt_pivot) h.lt h.le (Nat.le_refl _)
  rwa [← hp, ← hlast, hlength] at hscan

lemma Pivoted.swap_eq (h : Pivoted p front x larger y smaller) :
    swap p front.length (front.length + (larger.length + 1)) =
      .ok (front ++ y :: (larger ++ x :: smaller)) := by
  have hpartner : entryAt p (front.length + (larger.length + 1)) = .ok y := by
    rw [h.eq, entryAt_append]
    exact entryAt_append_cons larger smaller y
  rw [swap, h.entryAt_pivot, ok_bind, hpartner, ok_bind, h.eq]
  have hfirst : (front ++ x :: (larger ++ y :: smaller)).set front.length y =
      front ++ y :: (larger ++ y :: smaller) := by simp
  have hsecond : (front ++ y :: (larger ++ y :: smaller)).set (front.length + (larger.length + 1)) x =
      front ++ y :: (larger ++ x :: smaller) := by simp
  rw [hfirst, hsecond]
  rfl

/-- The step in place makes the same of the parts. -/
lemma Pivoted.advance_eq (h : Pivoted p front x larger y smaller) :
    advance p = .ok (front ++ y :: (smaller.reverse ++ x :: larger.reverse), true) := by
  have hlength : ¬p.length < 2 := by
    simp only [h.eq, List.length_append, List.length_cons]
    omega
  have hreverse : reverseFrom (front ++ y :: (larger ++ x :: smaller)) (front.length + 1) =
      .ok (front ++ y :: (smaller.reverse ++ x :: larger.reverse)) := by
    have hsplit : front ++ y :: (larger ++ x :: smaller) =
        (front ++ [y]) ++ (larger ++ x :: smaller) := by simp
    have hfront : front.length + 1 = (front ++ [y]).length := by simp
    rw [reverseFrom, hsplit, hfront, if_pos (by simp), List.take_left, List.drop_left]
    simp
  rw [advance, if_neg hlength, h.pivotFrom_eq, ok_bind]
  dsimp only
  rw [h.partnerFrom_eq, ok_bind, h.swap_eq, ok_bind, hreverse]
  rfl

end Pivoted

/-- The step in place never leaves the list.  It changes a list into its next larger rearrangement and says
that there was one, or leaves it as it is. -/
lemma advance_eq (p : List Nat) : advance p = .ok ((next? p).getD p, (next? p).isSome) := by
  by_cases h : p.Pairwise (· ≥ ·)
  · rw [advance_of_pairwise h, next?_eq_none_iff.2 h]
    rfl
  · obtain ⟨front, x, larger, y, smaller, hpivoted⟩ := exists_pivoted h
    rw [hpivoted.advance_eq, hpivoted.next?_eq]
    rfl

lemma advance_eq_true_iff {p q : List Nat} : advance p = .ok (q, true) ↔ next? p = some q := by
  rw [advance_eq]
  cases next? p <;> simp

lemma advance_eq_false_iff {p q : List Nat} :
    advance p = .ok (q, false) ↔ q = p ∧ p.Pairwise (· ≥ ·) := by
  rw [advance_eq, ← next?_eq_none_iff]
  cases next? p <;> simp [eq_comm]

/-! ## A whole run -/

/-- Stepping in place from the list `p` until there is no larger rearrangement shows the lists `shown` one
after the other and ends with the list `final`. -/
inductive Visits : (p : List Nat) → (shown : List (List Nat)) → (final : List Nat) → Prop
  | stop {p final : List Nat} (last : advance p = .ok (final, false)) : Visits p [p] final
  | step {p q final : List Nat} {shown : List (List Nat)} (next : advance p = .ok (q, true))
      (rest : Visits q shown final) : Visits p (p :: shown) final

section Visits

variable {p final : List Nat} {shown : List (List Nat)}

/-- A run is determined by the list it starts from. -/
lemma Visits.unique (h : Visits p shown final) {shown' : List (List Nat)} {final' : List Nat}
    (h' : Visits p shown' final') : shown' = shown ∧ final' = final := by
  induction h generalizing shown' with
  | stop last =>
      cases h' with
      | stop last' =>
          cases last.symm.trans last'
          exact ⟨rfl, rfl⟩
      | step next' => cases last.symm.trans next'
  | step next _ ih =>
      cases h' with
      | stop last' => cases next.symm.trans last'
      | step next' rest' =>
          cases next.symm.trans next'
          obtain ⟨rfl, rfl⟩ := ih rest'
          exact ⟨rfl, rfl⟩

/-- A run ends with the rearrangement in non-increasing order. -/
lemma Visits.final_spec (h : Visits p shown final) : final.Perm p ∧ final.Pairwise (· ≥ ·) := by
  induction h with
  | stop last =>
      obtain ⟨rfl, hpairwise⟩ := advance_eq_false_iff.1 last
      exact ⟨.refl _, hpairwise⟩
  | step next _ ih => exact ⟨ih.1.trans (next?_perm (advance_eq_true_iff.1 next)), ih.2⟩

end Visits

/-- Enough steps make a whole run. -/
lemma exists_visits_steps {length : Nat} {p : List Nat} (h : (later p).card < length) :
    ∃ final, Visits p (steps length p) final := by
  induction length generalizing p with
  | zero => exact absurd h (Nat.not_lt_zero _)
  | succ length ih =>
      rw [steps]
      cases hnext : next? p with
      | none => exact ⟨p, .stop (advance_eq_false_iff.2 ⟨rfl, next?_eq_none_iff.1 hnext⟩)⟩
      | some q =>
          obtain ⟨final, run⟩ := ih ((card_later_lt hnext).trans_le (Nat.le_of_lt_succ h))
          exact ⟨final, .step (advance_eq_true_iff.2 hnext) run⟩

/-- The permutation without a next one. -/
lemma pairwise_ge_iff {n : Nat} {p : List Nat} (h : p.Perm (List.range n)) :
    p.Pairwise (· ≥ ·) ↔ p = (List.range n).reverse := by
  have hreverse : (List.range n).reverse.Pairwise (· ≥ ·) :=
    List.pairwise_reverse.2 List.pairwise_le_range
  constructor
  · intro hpairwise
    exact (h.trans (List.reverse_perm _).symm).eq_of_pairwise' hpairwise hreverse
  · rintro rfl
    exact hreverse

/-- The lists that the searches go through are those of a run in place. -/
lemma visits_all (n : Nat) : Visits (List.range n) (all n) (List.range n).reverse := by
  obtain ⟨final, run⟩ := exists_visits_steps (card_later_range n)
  obtain ⟨hperm, hpairwise⟩ := run.final_spec
  rw [(pairwise_ge_iff hperm).1 hpairwise] at run
  exact run

/-- Stepping in place from the increasing list of the numbers below `n` until there is no larger rearrangement
shows every permutation of these numbers once, in strictly increasing order, and ends with the decreasing
list.  These are the lists that the searches go through.  Whatever the list, a step never reads or writes
beyond its ends, and does what the step of the searches does.  A step that says that there is no larger
rearrangement leaves the list as it is, and the only permutation where it says so is the decreasing one. -/
theorem advance_exhaustive (n : Nat) :
    (∀ shown final, Visits (List.range n) shown final ↔
      shown = all n ∧ final = (List.range n).reverse) ∧
      (all n).Pairwise (· < ·) ∧
      (∀ p, (all n).count p = if p.Perm (List.range n) then 1 else 0) ∧
      (∀ p, advance p = .ok ((next? p).getD p, (next? p).isSome)) ∧
      ∀ p q, p.Perm (List.range n) →
        (advance p = .ok (q, false) ↔ q = p ∧ p = (List.range n).reverse) := by
  have increasing := (steps_sorted (count n) (List.range n)).1
  refine ⟨fun shown final => ⟨(visits_all n).unique, ?_⟩, increasing, fun p => ?_, advance_eq,
    fun p q hperm => ?_⟩
  · rintro ⟨rfl, rfl⟩
    exact visits_all n
  · have nodup : (all n).Nodup := increasing.imp ne_of_lt
    rw [nodup.count]
    simp only [mem_all]
  · rw [advance_eq_false_iff, pairwise_ge_iff hperm]

/-- The six permutations of three numbers. -/
theorem advance_exhaustive_three :
    Visits [0, 1, 2] [[0, 1, 2], [0, 2, 1], [1, 0, 2], [1, 2, 0], [2, 0, 1], [2, 1, 0]] [2, 1, 0] ∧
      [2, 1, 0].Perm (List.range 3) ∧ advance [2, 1, 0] = .ok ([2, 1, 0], false) := by
  obtain ⟨run, -, -, -, stops⟩ := advance_exhaustive 3
  have hperm : [2, 1, 0].Perm (List.range 3) := by decide
  exact ⟨(run _ _).2 ⟨rfl, rfl⟩, hperm, (stops _ _ hperm).2 ⟨rfl, rfl⟩⟩

end Permutation

end Gatework
