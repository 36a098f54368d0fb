import Gatework.Cell
import Gatework.Cut.Enumeration
import Gatework.Fault

/-!
# Reconvergence-driven cuts

One cut for a set of roots, grown from the roots downwards.  As long as the cut stays small enough,
the leaf whose drivers add the fewest new entries is replaced by its drivers; paths that meet again
are thereby closed before the cut grows.  Constants never become leaves.
-/

namespace Gatework

namespace Reconvergence

/-- The entries that expanding a leaf would add, one for each link; none if the leaf is an input or
a constant and cannot be expanded. -/
def expansion? (cells : Array Cell) (visited : List Nat) (leaf : Nat) : Option (List Nat) :=
  match cells[leaf]? with
  | none => none
  | some c =>
      if c.isInput || c.isConst then none
      else some (c.drivers.filter fun d =>
        !visited.contains d && !(cells[d]?).any Cell.isConst)

/-- The first leaf whose expansion adds the fewest entries, with what it adds. -/
def cheapest? (cells : Array Cell) (visited leaves : List Nat) : Option (Nat × List Nat) :=
  leaves.foldl (fun best leaf =>
    match expansion? cells visited leaf, best with
    | none, best => best
    | some added, none => some (leaf, added)
    | some added, some (other, least) =>
        if added.length < least.length then some (leaf, added) else some (other, least)) none

/-- Expands leaves until none can be expanded within `size`.  Every entry becomes a leaf at most
once, so the entries and the roots bound the number of steps. -/
def grow (cells : Array Cell) (size : Nat) :
    (fuel : Nat) → (visited leaves : List Nat) → List Nat
  | 0, _, leaves => leaves
  | fuel + 1, visited, leaves =>
      match cheapest? cells visited leaves with
      | none => leaves
      | some (leaf, added) =>
          if size < added.length + leaves.length - 1 then leaves
          else
            let fresh := added.eraseDups
            grow cells size fuel (visited ++ fresh) (leaves.erase leaf ++ fresh)

end Reconvergence

/-- The leaves of the reconvergence cut of a list of roots, in increasing order. -/
def reconvergenceLeaves (cells : Array Cell) (roots : List Nat) (size : Nat) :
    Except Fault (List Nat) :=
  if size < roots.length then .error (.tooManyRoots roots.length size)
  else if roots.all (· < cells.size) then
    let leaves := Reconvergence.grow cells size (cells.size + roots.length + 1) roots roots
    .ok (Increasing.ofList (if leaves.isEmpty then roots else leaves))
  else .error .internal

/-- The reconvergence cut of one root. -/
def reconvergenceCut (cells : Array Cell) (root size : Nat) : Except Fault Cut := do
  return .of root (← reconvergenceLeaves cells [root] size)

end Gatework
