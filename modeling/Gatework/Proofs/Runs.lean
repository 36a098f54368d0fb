import Mathlib.Data.List.Forall2
import Mathlib.Order.Nat

/-!
# Runs that give a result

Loops that may fail: what holds at the end of a run that succeeded, and when a run succeeds.  An
invariant is stated about the elements gone through so far, so that it can speak about the whole list
at the end.
-/

namespace Gatework

variable {ε α β σ : Type}

/-- A sequence succeeds exactly if both of its parts do. -/
lemma bind_eq_ok_iff {x : Except ε α} {f : α → Except ε β} {r : β} :
    (x >>= f) = .ok r ↔ ∃ a, x = .ok a ∧ f a = .ok r := by
  cases x with
  | error e => simp [bind, Except.bind]
  | ok a => simp [bind, Except.bind]

/-- A sequence whose first part succeeds goes on with the second. -/
@[simp] lemma ok_bind {a : α} {f : α → Except ε β} : ((.ok a : Except ε α) >>= f) = f a := rfl

/-- The same for steps that also change a state. -/
lemma state_bind_eq_ok_iff {x : StateT σ (Except ε) α} {f : α → StateT σ (Except ε) β} {s : σ}
    {r : β × σ} : (x >>= f) s = .ok r ↔ ∃ a s', x s = .ok (a, s') ∧ f a s' = .ok r := by
  show (x s >>= fun p => f p.1 p.2) = _ ↔ _
  rw [bind_eq_ok_iff]
  exact ⟨fun ⟨⟨a, s'⟩, h⟩ => ⟨a, s', h⟩, fun ⟨a, s', h⟩ => ⟨⟨a, s'⟩, h⟩⟩

lemma map_eq_ok_iff {x : Except ε α} {f : α → β} {r : β} :
    x.map f = .ok r ↔ ∃ a, x = .ok a ∧ f a = r := by
  cases x with
  | error e => simp [Except.map]
  | ok a => simp [Except.map]

/-- A condition that is checked first has to be met. -/
lemma guard_eq_ok_iff {p : Prop} [Decidable p] {e : ε} {rest : Except ε β} {r : β} :
    (if p then (throw e : Except ε α) >>= fun _ => rest else rest) = .ok r ↔ ¬p ∧ rest = .ok r := by
  by_cases h : p
  · simp [h, throw, throwThe, MonadExceptOf.throw, bind, Except.bind]
  · simp [h]

lemma mapM_eq_ok {f : α → Except ε β} {g : α → β} {xs : List α}
    (h : ∀ x ∈ xs, f x = .ok (g x)) : xs.mapM f = .ok (xs.map g) := by
  induction xs with
  | nil => rfl
  | cons x xs ih =>
      rw [List.mapM_cons, h x (by simp), ih fun y hy => h y (by simp [hy])]
      rfl

/-- Where every element gives a result, the list does, and it consists of these results. -/
lemma exists_mapM_eq_ok {f : α → Except ε β} {P : α → β → Prop} {xs : List α}
    (h : ∀ x ∈ xs, ∃ y, f x = .ok y ∧ P x y) :
    ∃ ys, xs.mapM f = .ok ys ∧ List.Forall₂ P xs ys := by
  induction xs with
  | nil => exact ⟨[], rfl, .nil⟩
  | cons x xs ih =>
      obtain ⟨y, hy, hP⟩ := h x (by simp)
      obtain ⟨ys, hys, hPs⟩ := ih fun x hx => h x (by simp [hx])
      refine ⟨y :: ys, ?_, .cons hP hPs⟩
      rw [List.mapM_cons, hy, hys]
      rfl

lemma forall₂_of_mapM_eq_ok {f : α → Except ε β} {xs : List α} {ys : List β}
    (h : xs.mapM f = .ok ys) : List.Forall₂ (fun x y => f x = .ok y) xs ys := by
  induction xs generalizing ys with
  | nil =>
      cases h
      exact .nil
  | cons x xs ih =>
      rw [List.mapM_cons, bind_eq_ok_iff] at h
      obtain ⟨y, hy, h⟩ := h
      obtain ⟨ys, hys, h⟩ := bind_eq_ok_iff.1 h
      cases h
      exact .cons hy (ih hys)

/-- A list gives the results that its elements give. -/
lemma mapM_eq_ok_iff {f : α → Except ε β} {xs : List α} {ys : List β} :
    xs.mapM f = .ok ys ↔ List.Forall₂ (fun x y => f x = .ok y) xs ys := by
  refine ⟨forall₂_of_mapM_eq_ok, fun h => ?_⟩
  induction h with
  | nil => rfl
  | @cons x y xs ys hx _ ih =>
      rw [List.mapM_cons, hx, ih]
      rfl

/-- What is found for some element. -/
lemma exists_of_forall₂_right {P : α → β → Prop} {xs : List α} {ys : List β}
    (h : List.Forall₂ P xs ys) : ∀ y ∈ ys, ∃ x ∈ xs, P x y := by
  induction h with
  | nil => simp
  | @cons x y xs ys hxy _ ih =>
      refine List.forall_mem_cons.2 ⟨⟨x, by simp, hxy⟩, fun z hz => ?_⟩
      obtain ⟨w, hw, h⟩ := ih z hz
      exact ⟨w, by simp [hw], h⟩

lemma forM_eq_ok_iff {f : α → Except ε Unit} {xs : List α} :
    xs.forM f = .ok () ↔ ∀ x ∈ xs, f x = .ok () := by
  induction xs with
  | nil => simp [List.forM, pure, Except.pure]
  | cons x xs ih =>
      show (f x >>= fun _ => xs.forM f) = _ ↔ _
      rw [bind_eq_ok_iff, List.forall_mem_cons, ← ih]
      exact ⟨fun ⟨_, hx, hxs⟩ => ⟨hx, hxs⟩, fun ⟨hx, hxs⟩ => ⟨(), hx, hxs⟩⟩

/-- A loop whose steps keep an invariant or end with some fault does one or the other. -/
lemma foldlM_eq_ok_or_error {f : σ → α → Except ε σ} {xs : List α} {s : σ}
    (P : List α → σ → Prop) (fault : ε → Prop) (start : P [] s)
    (step : ∀ done x rest s, xs = done ++ x :: rest → P done s →
      (∃ s', f s x = .ok s' ∧ P (done ++ [x]) s') ∨ ∃ e, f s x = .error e ∧ fault e) :
    (∃ s', xs.foldlM f s = .ok s' ∧ P xs s') ∨ ∃ e, xs.foldlM f s = .error e ∧ fault e := by
  suffices ∀ (done rest : List α) (s : σ), xs = done ++ rest → P done s →
      (∃ s', rest.foldlM f s = .ok s' ∧ P xs s') ∨ ∃ e, rest.foldlM f s = .error e ∧ fault e from
    this [] xs s rfl start
  intro done rest
  induction rest generalizing done with
  | nil =>
      rintro s hxs hP
      rw [List.append_nil] at hxs
      exact .inl ⟨s, rfl, hxs ▸ hP⟩
  | cons x rest ih =>
      intro s hxs hP
      rcases step done x rest s hxs hP with ⟨s', hs', hP'⟩ | ⟨e, he, hfault⟩
      · have rest := ih (done ++ [x]) s' (by simpa using hxs) hP'
        rwa [List.foldlM_cons, hs', ok_bind]
      · refine .inr ⟨e, ?_, hfault⟩
        rw [List.foldlM_cons, he]
        rfl

/-- A loop succeeds if every step from a state with the invariant does and keeps it. -/
lemma exists_foldlM_eq_ok {f : σ → α → Except ε σ} {xs : List α} {s : σ}
    (P : List α → σ → Prop) (start : P [] s)
    (step : ∀ done x rest s, xs = done ++ x :: rest → P done s →
      ∃ s', f s x = .ok s' ∧ P (done ++ [x]) s') :
    ∃ s', xs.foldlM f s = .ok s' ∧ P xs s' := by
  refine (foldlM_eq_ok_or_error P (fun _ => False) start fun done x rest s hxs hP => ?_).resolve_right ?_
  · exact .inl (step done x rest s hxs hP)
  · rintro ⟨-, -, hfalse⟩
    exact hfalse

/-- What every successful step keeps holds at the end of a loop that succeeded. -/
lemma foldlM_invariant {f : σ → α → Except ε σ} {xs : List α} {s s' : σ} (P : σ → Prop)
    (start : P s) (step : ∀ x ∈ xs, ∀ s s', P s → f s x = .ok s' → P s')
    (h : xs.foldlM f s = .ok s') : P s' := by
  induction xs generalizing s with
  | nil =>
      cases h
      exact start
  | cons x xs ih =>
      rw [List.foldlM_cons, bind_eq_ok_iff] at h
      obtain ⟨t, ht, h⟩ := h
      exact ih (step x (by simp) s t start ht) (fun y hy => step y (by simp [hy])) h

/-- The same for an invariant about the elements gone through so far. -/
lemma foldlM_invariant_along {f : σ → α → Except ε σ} {xs : List α} {s s' : σ}
    (P : List α → σ → Prop) (start : P [] s)
    (step : ∀ done x rest s s', xs = done ++ x :: rest → P done s → f s x = .ok s' →
      P (done ++ [x]) s')
    (h : xs.foldlM f s = .ok s') : P xs s' := by
  suffices ∀ (done rest : List α) (s : σ), xs = done ++ rest → P done s →
      rest.foldlM f s = .ok s' → P xs s' from this [] xs s rfl start h
  intro done rest
  induction rest generalizing done with
  | nil =>
      rintro s hxs hP h
      rw [List.append_nil] at hxs
      cases h
      exact hxs ▸ hP
  | cons x rest ih =>
      intro s hxs hP h
      rw [List.foldlM_cons, bind_eq_ok_iff] at h
      obtain ⟨t, ht, h⟩ := h
      exact ih (done ++ [x]) t (by simpa using hxs) (step done x rest s t hxs hP ht) h

/-- A loop that also changes a state is a loop over its result together with the state. -/
lemma state_foldlM_eq {f : β → α → StateT σ (Except ε) β} {xs : List α} {r : β} {s : σ} :
    xs.foldlM f r s = xs.foldlM (fun (p : β × σ) x => f p.1 x p.2) (r, s) := by
  induction xs generalizing r s with
  | nil => rfl
  | cons x xs ih =>
      rw [List.foldlM_cons, List.foldlM_cons]
      show (f r x s >>= fun p => xs.foldlM f p.1 p.2) = _
      exact congrArg _ (funext fun p => ih)

end Gatework
