/-!
# Reachability

Depth-first exploration of a finite graph whose vertices are numbers.  Of the vertices waiting to be
visited, the one added last is visited first; every vertex is visited once.
-/

namespace Gatework

namespace Reach

/-- Marking an unmarked vertex leaves fewer unmarked ones. -/
theorem count_false_set_lt (marks : Array Bool) (v : Nat) (h : v < marks.size)
    (unmarked : marks[v] = false) : (marks.set v true).count false < marks.count false := by
  have positive : 0 < marks.count false :=
    Array.count_pos_iff.2 (unmarked ▸ Array.getElem_mem h)
  rw [Array.count_set h, unmarked, if_pos (by decide), if_neg (by decide)]
  omega

/-- Visits everything reachable from the vertices on the stack that is not marked yet, and returns
it in front of `visited`, the latest visit first.  Numbers beyond the marks are no vertices. -/
def explore (next : Nat → List Nat) (marks : Array Bool) (stack visited : List Nat) : List Nat :=
  match stack with
  | [] => visited
  | v :: stack =>
      if h : v < marks.size then
        if unmarked : marks[v] = false then
          explore next (marks.set v true) ((next v).reverse ++ stack) (v :: visited)
        else explore next marks stack visited
      else explore next marks stack visited
termination_by (marks.count false, stack.length)
decreasing_by
  · exact Prod.Lex.left _ _ (count_false_set_lt marks v h unmarked)
  · exact Prod.Lex.right _ (Nat.lt_succ_self _)
  · exact Prod.Lex.right _ (Nat.lt_succ_self _)

end Reach

/-- The vertices below `size` that are reachable from the roots, in the order of the visits.  The
last root is visited first. -/
def reachable (next : Nat → List Nat) (size : Nat) (roots : List Nat) : List Nat :=
  (Reach.explore next (Array.replicate size false) roots.reverse []).reverse

end Gatework
