import Mathlib.Logic.Relation
import Mathlib.Order.Nat
import Mathlib.Tactic.Tauto
import Gatework.Reach

/-!
# Exploration finds everything reachable

`Frontier` is the invariant of the exploration: the marked vertices are the visited ones, and what a
visited vertex leads to has been visited or is waiting.  When nothing waits any more, the visited
vertices are closed.  In the other direction, what is visited inherits every property that a vertex
passes on to the vertices it leads to (`forall_mem_explore`), so there is a path to it from a root.
-/

namespace Gatework

namespace Reach

variable {next : Nat → List Nat} {marks : Array Bool} {stack visited : List Nat} {size : Nat}

/-- What has been visited is marked, and whatever it leads to is visited or waits. -/
structure Frontier (next : Nat → List Nat) (size : Nat) (marks : Array Bool)
    (stack visited : List Nat) : Prop where
  marks_size : marks.size = size
  marked_iff : ∀ v, marks[v]? = some true ↔ v ∈ visited
  waiting : ∀ v ∈ visited, ∀ w ∈ next v, w < size → w ∈ visited ∨ w ∈ stack

/-- A vertex that is visited for the first time. -/
lemma Frontier.visit {v : Nat} (h : Frontier next size marks (v :: stack) visited)
    (hv : v < marks.size) :
    Frontier next size (marks.set v true) ((next v).reverse ++ stack) (v :: visited) where
  marks_size := by simpa using h.marks_size
  marked_iff w := by
    rw [Array.getElem?_set hv, List.mem_cons, ← h.marked_iff]
    split
    · rename_i heq
      simp [heq]
    · rename_i hne
      simp [Ne.symm hne]
  waiting u hu w hw hlt := by
    rcases List.mem_cons.1 hu with rfl | hu
    · simp [hw]
    · have := h.waiting u hu w hw hlt
      simp only [List.mem_cons, List.mem_append] at this ⊢
      tauto

/-- A vertex that need not be visited. -/
lemma Frontier.skip {v : Nat} (h : Frontier next size marks (v :: stack) visited)
    (hv : size ≤ v ∨ v ∈ visited) : Frontier next size marks stack visited where
  marks_size := h.marks_size
  marked_iff := h.marked_iff
  waiting u hu w hw hlt := by
    rcases h.waiting u hu w hw hlt with hmem | hmem
    · exact .inl hmem
    · rcases List.mem_cons.1 hmem with rfl | hmem
      · exact .inl (hv.resolve_left (Nat.not_le.2 hlt))
      · exact .inr hmem

/-- The exploration keeps what was visited and ends with a closed set that has everything that was
waiting. -/
lemma explore_spec (h : Frontier next size marks stack visited) :
    (∀ v ∈ visited, v ∈ explore next marks stack visited) ∧
      (∀ v ∈ stack, v < size → v ∈ explore next marks stack visited) ∧
      ∀ v ∈ explore next marks stack visited, ∀ w ∈ next v, w < size →
        w ∈ explore next marks stack visited := by
  fun_induction explore next marks stack visited with
  | case1 marks visited =>
      refine ⟨fun _ => id, by simp, fun v hv w hw hlt => ?_⟩
      exact (h.waiting v hv w hw hlt).resolve_right (by simp)
  | case2 marks visited v stack hv unmarked ih =>
      obtain ⟨old, waiting, closed⟩ := ih (h.visit hv)
      refine ⟨fun w hw => old w (by simp [hw]), fun w hw hlt => ?_, closed⟩
      rcases List.mem_cons.1 hw with rfl | hw
      · exact old w (by simp)
      · exact waiting w (by simp [hw]) hlt
  | case3 marks visited v stack hv marked ih =>
      have hmem : v ∈ visited := by
        rw [← h.marked_iff, Array.getElem?_eq_getElem hv]
        simpa using marked
      obtain ⟨old, waiting, closed⟩ := ih (h.skip (.inr hmem))
      refine ⟨old, fun w hw hlt => ?_, closed⟩
      rcases List.mem_cons.1 hw with rfl | hw
      · exact old w hmem
      · exact waiting w hw hlt
  | case4 marks visited v stack hv ih =>
      have hle : size ≤ v := h.marks_size ▸ Nat.not_lt.1 hv
      obtain ⟨old, waiting, closed⟩ := ih (h.skip (.inl hle))
      refine ⟨old, fun w hw hlt => ?_, closed⟩
      rcases List.mem_cons.1 hw with rfl | hw
      · exact absurd hlt (Nat.not_lt.2 hle)
      · exact waiting w hw hlt

/-- A property that a vertex passes on to what it leads to holds of all that is visited, if it holds
of what was visited before and of what waits. -/
lemma forall_mem_explore {P : Nat → Prop} (passes : ∀ v, P v → ∀ w ∈ next v, P w)
    (hvisited : ∀ v ∈ visited, P v) (hstack : ∀ v ∈ stack, P v) :
    ∀ v ∈ explore next marks stack visited, P v := by
  fun_induction explore next marks stack visited with
  | case1 marks visited => exact hvisited
  | case2 marks visited v stack hv unmarked ih =>
      obtain ⟨hfirst, hstack⟩ := List.forall_mem_cons.1 hstack
      refine ih (List.forall_mem_cons.2 ⟨hfirst, hvisited⟩) fun w hw => ?_
      rcases List.mem_append.1 hw with hw | hw
      · exact passes v hfirst w (List.mem_reverse.1 hw)
      · exact hstack w hw
  | case3 marks visited v stack hv marked ih =>
      exact ih hvisited (List.forall_mem_cons.1 hstack).2
  | case4 marks visited v stack hv ih => exact ih hvisited (List.forall_mem_cons.1 hstack).2

end Reach

variable {next : Nat → List Nat} {size : Nat} {roots : List Nat}

lemma reachable_spec : (∀ v ∈ roots, v < size → v ∈ reachable next size roots) ∧
    ∀ v ∈ reachable next size roots, ∀ w ∈ next v, w < size → w ∈ reachable next size roots := by
  have start : Reach.Frontier next size (Array.replicate size false) roots.reverse [] := by
    refine ⟨by simp, fun v => ?_, by simp⟩
    simp [Array.getElem?_replicate]
  obtain ⟨-, waiting, closed⟩ := Reach.explore_spec start
  simp only [reachable, List.mem_reverse] at waiting closed ⊢
  exact ⟨waiting, closed⟩

/-- The roots are reachable. -/
lemma mem_reachable_of_root {v : Nat} (hv : v ∈ roots) (hlt : v < size) :
    v ∈ reachable next size roots := reachable_spec.1 v hv hlt

/-- What a reachable vertex leads to is reachable. -/
lemma mem_reachable_of_next {v w : Nat} (hv : v ∈ reachable next size roots) (hw : w ∈ next v)
    (hlt : w < size) : w ∈ reachable next size roots := reachable_spec.2 v hv w hw hlt

/-- There is a path from a root to everything that is visited. -/
lemma exists_path_of_mem_reachable {v : Nat} (hv : v ∈ reachable next size roots) :
    ∃ root ∈ roots, Relation.ReflTransGen (fun x y => y ∈ next x) root v := by
  let P (v : Nat) : Prop := ∃ root ∈ roots, Relation.ReflTransGen (fun x y => y ∈ next x) root v
  refine Reach.forall_mem_explore (P := P) ?_ (by simp) ?_ v (List.mem_reverse.1 hv)
  · rintro x ⟨root, hroot, path⟩ y hy
    exact ⟨root, hroot, path.tail hy⟩
  · intro root hroot
    exact ⟨root, List.mem_reverse.1 hroot, .refl⟩

end Gatework
