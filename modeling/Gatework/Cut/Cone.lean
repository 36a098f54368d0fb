import Gatework.Builder.Growth
import Gatework.Cut.Enumeration

/-!
# Cones

The cone of a cut is the part of the network between the leaves and the root, taken out as a subnet
of its own: its inputs are the leaves in order and its only output shows the root.
-/

namespace Gatework

/-- The cone of a cut and, for each of its entries, the entry it was copied from. -/
structure Cone where
  net : Subnet
  sources : List Nat

namespace Cone

/-- The entries copied so far: where each one went, and the sources of the copies in order. -/
structure Copies where
  places : Std.HashMap Nat Link := ∅
  sources : List Nat := []

/-- A link between copied entries.  The port is that of the link. -/
def relink (copies : Copies) (l : Link) : Except Fault Link :=
  match copies.places[l.entry]? with
  | some place =>
      .ok { entry := place.entry, port := l.port, inverted := place.inverted ^^ l.inverted }
  | none => .error .internal

/-- Copies an entry and, before it, everything it reads that has no copy yet, first operands first.
No path through a network is longer than its number of cells, which is what `fuel` has to
exceed. -/
def copy (store : Store) (cells : Array Cell) (root : Nat) :
    (fuel : Nat) → Copies → (entry : Nat) → Build Copies
  | 0, _, _ => throw .internal
  | fuel + 1, copies, entry =>
      if copies.places.contains entry then return copies
      else
        match cells[entry]? with
        | none => throw .internal
        | some c =>
            if c.isInput then throw (.inputNotLeaf entry root)
            else do
              let copies ← c.drivers.foldlM (copy store cells root fuel) copies
              let links ← (c.links.mapM (relink copies) : Except Fault (List Link))
              let place ← match c.kind.symbol with
                | .gate g => Builder.addCell (.gate g) links
                | .cell => Builder.addOfType store c.kind.type links
              return {
                places := copies.places.insert entry place
                sources := copies.sources ++ [entry] }

/-- Copies a leaf as an input. -/
def copyLeaf (copies : Copies) (leaf : Nat) : Build Copies := do
  let place ← Builder.addInput
  return { places := copies.places.insert leaf place, sources := copies.sources ++ [leaf] }

/-- Copies the leaves as inputs, then the root with all between, and shows the root. -/
def build (store : Store) (cells : Array Cell) (cut : Cut) : Build (List Nat) := do
  let copies ← cut.leaves.foldlM copyLeaf {}
  let copies ← copy store cells cut.root (cells.size + 1) copies cut.root
  match copies.places[cut.root]? with
  | some place => discard (Builder.addOutput place)
  | none => throw .internal
  return copies.sources ++ [cut.root]

/-- The cone of a cut. -/
def extract (store : Store) (cells : Array Cell) (cut : Cut) : Except Fault Cone := do
  let (sources, b) ← (build store cells cut).run (.empty {})
  return { net := ← b.finish, sources }

end Cone

end Gatework
