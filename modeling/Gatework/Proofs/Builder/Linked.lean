import Mathlib.Data.List.Nodup
import Mathlib.Logic.Function.Basic
import Gatework.Builder.Replacement

/-!
# The order of a builder as a doubly linked list

The neighbours of the entries are kept in two arrays, and the ends of the list in two more fields.
Read as functions on `Option Nat`, where `none` stands for the place outside of the list, the four
fields are two functions: `Builder.succ` leads forward, from `none` to the head and from the tail to
`none`, and `Builder.pred` leads back.  `Linked` says that a list of entries is run through by them in
both directions.

* `Linked.insert` and `Linked.erase` are what `linkBetween` and `unlink` do to the list.
* `Linked.chain_eq` reads the list off by following the entries from the first one on.
-/

namespace Gatework

/-- Following `step` from `start` gives the elements of a list one after the other, and then
nothing. -/
def Leads (step : Option Nat → Option Nat) : (start : Option Nat) → List Nat → Prop
  | start, [] => step start = none
  | start, x :: xs => step start = some x ∧ Leads step (some x) xs

namespace Leads

variable {step step' : Option Nat → Option Nat} {start : Option Nat} {xs ys : List Nat} {id : Nat}

/-- Only the steps from the start and from the elements matter. -/
lemma congr (h : Leads step start xs) (hstart : step' start = step start)
    (hsame : ∀ x ∈ xs, step' (some x) = step (some x)) : Leads step' start xs := by
  induction xs generalizing start with
  | nil => exact hstart.trans h
  | cons x xs ih =>
      refine ⟨hstart.trans h.1, ih h.2 (hsame x (by simp)) fun y hy => ?_⟩
      exact hsame y (List.mem_cons_of_mem x hy)

/-- The first part of a list is followed by the second. -/
lemma step_last (h : Leads step start (xs ++ ys)) : step (xs.getLast?.or start) = ys.head? := by
  induction xs generalizing start with
  | nil =>
      cases ys with
      | nil => exact h
      | cons y ys => exact h.1
  | cons x xs ih => simpa [List.getLast?_cons] using ih h.2

/-- What stands at the end, behind `start` and the elements. -/
lemma getLast?_cons_or {x : Nat} : ((x :: xs).getLast?.or start) = xs.getLast?.or (some x) := by
  simp [List.getLast?_cons]

lemma ne_getLast?_or {x : Nat} (apart : ∀ y ∈ x :: (xs ++ ys), start ≠ some y) :
    start ≠ xs.getLast?.or (some x) := by
  cases hl : xs.getLast? with
  | none => simpa using apart x (by simp)
  | some l => simpa using apart l (by simp [List.mem_of_getLast? hl])

/-- A new element between the two parts of a list: the step from the end of the first part leads to
it, and the step from it to the second part. -/
lemma insert (h : Leads step start (xs ++ ys)) (nodup : (xs ++ ys).Nodup)
    (fresh : id ∉ xs ++ ys) (hid : start ≠ some id) (hstart : ∀ x ∈ xs ++ ys, start ≠ some x) :
    Leads (Function.update (Function.update step (some id) ys.head?) (xs.getLast?.or start)
      (some id)) start (xs ++ id :: ys) := by
  induction xs generalizing start with
  | nil =>
      simp only [List.nil_append, List.getLast?_nil, Option.none_or] at *
      have notMem : ∀ x ∈ ys, some x ≠ some id := fun x hx e => fresh (Option.some.inj e ▸ hx)
      have aside : ∀ x ∈ ys, (Function.update (Function.update step (some id) ys.head?) start
          (some id)) (some x) = step (some x) := fun x hx => by
        rw [Function.update_of_ne (hstart x hx).symm, Function.update_of_ne (notMem x hx)]
      refine ⟨Function.update_self .., ?_⟩
      cases ys with
      | nil => simp [Leads, hid.symm]
      | cons y ys =>
          refine ⟨by simp [Function.update_of_ne hid.symm], h.2.congr (aside y (by simp)) ?_⟩
          exact fun x hx => aside x (List.mem_cons_of_mem y hx)
  | cons x xs ih =>
      simp only [List.cons_append, List.nodup_cons, List.mem_cons, not_or] at nodup fresh
      have hne := ne_getLast?_or hstart
      rw [getLast?_cons_or]
      refine ⟨?_, ih h.2 nodup.2 fresh.2 (by simpa using Ne.symm fresh.1) fun y hy e => ?_⟩
      · rw [Function.update_of_ne hne, Function.update_of_ne hid, h.1]
      · exact nodup.1 (Option.some.inj e ▸ hy)

/-- Without an element of the list: the step from what is in front of it leads to what is behind
it. -/
lemma erase (h : Leads step start (xs ++ id :: ys)) (nodup : (xs ++ id :: ys).Nodup)
    (hstart : ∀ x ∈ xs ++ id :: ys, start ≠ some x) :
    Leads (Function.update step (xs.getLast?.or start) ys.head?) start (xs ++ ys) := by
  induction xs generalizing start with
  | nil =>
      simp only [List.nil_append, List.getLast?_nil, Option.none_or] at *
      have aside : ∀ x ∈ ys, Function.update step start ys.head? (some x) = step (some x) :=
        fun x hx => Function.update_of_ne (hstart x (List.mem_cons_of_mem id hx)).symm ..
      cases ys with
      | nil => exact Function.update_self ..
      | cons y ys =>
          refine ⟨Function.update_self .., h.2.2.congr (aside y (by simp)) fun x hx => ?_⟩
          exact aside x (List.mem_cons_of_mem y hx)
  | cons x xs ih =>
      simp only [List.cons_append, List.nodup_cons] at nodup
      have hne := ne_getLast?_or hstart
      rw [getLast?_cons_or]
      refine ⟨?_, ih h.2 nodup.2 fun y hy e => nodup.1 (Option.some.inj e ▸ hy)⟩
      rw [Function.update_of_ne hne, h.1]

end Leads

/-- Two functions that lead through a list, forward and back.  `none` is the place in front of the
first and behind the last element. -/
structure Linked (succ pred : Option Nat → Option Nat) (xs : List Nat) : Prop where
  nodup : xs.Nodup
  forward : Leads succ none xs
  backward : Leads pred none xs.reverse

namespace Linked

variable {succ pred : Option Nat → Option Nat} {xs ys : List Nat} {id : Nat}

/-- The element that follows the first part of a list. -/
lemma succ_getLast? (h : Linked succ pred (xs ++ ys)) : succ xs.getLast? = ys.head? := by
  simpa using h.forward.step_last

/-- The element in front of the second part of a list. -/
lemma pred_head? (h : Linked succ pred (xs ++ ys)) : pred ys.head? = xs.getLast? := by
  have := h.backward
  rw [List.reverse_append] at this
  simpa using this.step_last

/-- The two parts of a list have no element in common. -/
lemma apart (h : Linked succ pred (xs ++ ys)) {x : Nat} (hx : x ∈ xs) : x ∉ ys :=
  fun hy => (List.nodup_append.1 h.nodup).2.2 x hx x hy rfl

/-- An element between two parts of a list is in neither of them. -/
lemma notMem_middle (h : Linked succ pred (xs ++ id :: ys)) : id ∉ xs ++ ys :=
  (List.nodup_cons.1 ((List.perm_middle.nodup_iff).1 h.nodup)).1

/-- Putting a new element between the two parts of a list. -/
theorem insert (h : Linked succ pred (xs ++ ys)) (fresh : id ∉ xs ++ ys) :
    Linked (Function.update (Function.update succ (some id) ys.head?) xs.getLast? (some id))
      (Function.update (Function.update pred (some id) xs.getLast?) ys.head? (some id))
      (xs ++ id :: ys) where
  nodup := (List.perm_middle.nodup_iff).2 (List.nodup_cons.2 ⟨fresh, h.nodup⟩)
  forward := by simpa using h.forward.insert h.nodup fresh (by simp) (by simp)
  backward := by
    have hback := h.backward
    rw [List.reverse_append] at hback
    have fresh' : id ∉ ys.reverse ++ xs.reverse := by simpa [or_comm] using fresh
    have := hback.insert (by rw [← List.reverse_append]; exact List.nodup_reverse.2 h.nodup)
      fresh' (by simp) (by simp)
    simpa using this

/-- Taking an element out of a list. -/
theorem erase (h : Linked succ pred (xs ++ id :: ys)) :
    Linked (Function.update succ xs.getLast? ys.head?)
      (Function.update pred ys.head? xs.getLast?) (xs ++ ys) where
  nodup := (List.nodup_cons.1 ((List.perm_middle.nodup_iff).1 h.nodup)).2
  forward := by simpa using h.forward.erase h.nodup (by simp)
  backward := by
    have hback := h.backward
    have hnodup := List.nodup_reverse.2 h.nodup
    rw [List.reverse_append, List.reverse_cons, List.append_assoc, List.singleton_append]
      at hback hnodup
    simpa using hback.erase hnodup (by simp)

/-- Following the list from its first element on, as far as there are elements, gives the list. -/
lemma chain_eq (h : Leads succ none xs) (length : Nat) (enough : xs.length ≤ length) :
    Builder.chain (fun x => succ (some x)) length (succ none) = xs := by
  suffices ∀ start, Leads succ start xs →
      Builder.chain (fun x => succ (some x)) length (succ start) = xs from this none h
  clear h
  intro start h
  induction xs generalizing start length with
  | nil =>
      rw [show succ start = none from h]
      cases length <;> rfl
  | cons x xs ih =>
      obtain ⟨length, rfl⟩ : ∃ n, length = n + 1 := ⟨length - 1, by simp at enough; omega⟩
      rw [h.1, Builder.chain, ih length (by simpa using enough) (some x) h.2]

end Linked

namespace Builder

/-- The entry behind an entry, and the first entry behind `none`. -/
def succ (b : Builder) : Option Nat → Option Nat
  | none => b.head
  | some id => b.next? id

/-- The entry in front of an entry, and the last entry in front of `none`. -/
def pred (b : Builder) : Option Nat → Option Nat
  | none => b.tail
  | some id => b.prev? id

variable {b : Builder} {id : Nat} {front behind : Option Nat}

/-- An array with one place set, read as a function. -/
lemma getD_setIfInBounds {α : Type} {xs : Array α} {i j : Nat} {x d : α} (h : i < xs.size) :
    (xs.setIfInBounds i x).getD j d = if j = i then x else xs.getD j d := by
  by_cases e : i = j
  · subst e
    simp [h]
  · simp [e, Ne.symm e]

lemma succ_linkBetween (hid : id < b.nexts.size) (hfront : ∀ p ∈ front, p < b.nexts.size) :
    (b.linkBetween front id behind).succ =
      Function.update (Function.update b.succ (some id) behind) front (some id) := by
  funext x
  cases x with
  | none => cases front <;> simp [succ, linkBetween]
  | some j =>
      cases front with
      | none => simp [succ, next?, linkBetween, Function.update_apply, getD_setIfInBounds hid]
      | some p =>
          have hp : p < (b.nexts.setIfInBounds id behind).size := by simpa using hfront p rfl
          simp [succ, next?, linkBetween, Function.update_apply, getD_setIfInBounds hid,
            getD_setIfInBounds hp]

lemma pred_linkBetween (hid : id < b.prevs.size) (hbehind : ∀ n ∈ behind, n < b.prevs.size) :
    (b.linkBetween front id behind).pred =
      Function.update (Function.update b.pred (some id) front) behind (some id) := by
  funext x
  cases x with
  | none => cases behind <;> simp [pred, linkBetween]
  | some j =>
      cases behind with
      | none => simp [pred, prev?, linkBetween, Function.update_apply, getD_setIfInBounds hid]
      | some n =>
          have hn : n < (b.prevs.setIfInBounds id front).size := by simpa using hbehind n rfl
          simp [pred, prev?, linkBetween, Function.update_apply, getD_setIfInBounds hid,
            getD_setIfInBounds hn]

lemma succ_unlink (hfront : ∀ p ∈ b.prev? id, p < b.nexts.size) :
    (b.unlink id).succ = Function.update b.succ (b.prev? id) (b.next? id) := by
  funext x
  cases hp : b.prev? id with
  | none => cases x <;> simp [succ, next?, unlink, hp]
  | some p =>
      have := hfront p hp
      cases x <;>
        simp [succ, next?, unlink, hp, Function.update_apply, getD_setIfInBounds this]

lemma pred_unlink (hbehind : ∀ n ∈ b.next? id, n < b.prevs.size) :
    (b.unlink id).pred = Function.update b.pred (b.next? id) (b.prev? id) := by
  funext x
  cases hn : b.next? id with
  | none => cases x <;> simp [pred, prev?, unlink, hn]
  | some n =>
      have := hbehind n hn
      cases x <;>
        simp [pred, prev?, unlink, hn, Function.update_apply, getD_setIfInBounds this]

end Builder

end Gatework
