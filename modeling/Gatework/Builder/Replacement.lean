import Gatework.Builder.Growth

/-!
# Replacing a cone

`Builder.replace` puts a subnet with one output in the place of the cone above a set of leaves.  The
root keeps its number: it becomes the last cell of the subnet, or a buffer when the output does not
show that cell directly.  The other cells of the subnet are put right in front of the root, and the
cells of the old cone that nothing uses any more are taken out.

`Builder.predict` says what a replacement would change without carrying it out.  It counts the
references that the new cells add and those that the old cone gives up.
-/

namespace Gatework

/-- A subnet to be put in the place of a cone, with the entries that its inputs stand for and the
entry that its output stands for. -/
structure Replacement where
  net : Subnet
  leaves : List Nat
  root : Nat

/-- The predicted change of a replacement: in the number of living cells and in the depth of the
root. -/
structure Effect where
  size : Int
  depth : Int
deriving DecidableEq, Repr

namespace Replacement

/-- What the output of the replacing subnet shows. -/
def shown (r : Replacement) : Except Fault Link :=
  match r.net.outputLink? 0 with
  | some l => .ok l
  | none => .error .internal

/-- Whether the output shows the last inner cell directly, so that the root can become that cell. -/
def isInPlace (r : Replacement) (shown : Link) : Bool :=
  !shown.inverted && shown.port == 0 && decide (r.net.numInputs ≤ shown.entry) &&
    shown.entry + 1 == r.net.outputStart

/-- The inner cells of the replacing subnet with their positions. -/
def innerCells (r : Replacement) : List (Cell × Nat) :=
  (r.net.cells.toList.zipIdx.take r.net.outputStart).drop r.net.numInputs

end Replacement

namespace Builder

/-- A replacement needs a subnet with one output, as many leaves as it has inputs, a living inner
cell as root, and living leaves other than the root. -/
def checkReplacement (b : Builder) (r : Replacement) : Except Fault Unit := do
  if r.net.numOutputs ≠ 1 then throw .severalOutputs
  if r.net.numInputs ≠ r.leaves.length then
    throw (.wrongLeafCount r.net.numInputs r.leaves.length)
  if !b.isAlive r.root then throw (.rootRemoved r.root)
  if (b.cells[r.root]?).any Cell.isTerminal then throw (.rootIsTerminal r.root)
  if r.leaves.contains r.root then throw (.rootIsLeaf r.root)
  match r.leaves.find? fun leaf => !b.isAlive leaf with
  | some leaf => throw (.leafRemoved leaf)
  | none => return ()

/-! ## Carrying out a replacement -/

/-- Creates a cell right in front of `root`, and returns its number. -/
def splice (b : Builder) (root : Nat) (c : Cell) : Nat × Builder :=
  let (id, b) := b.create c
  (id, (b.linkBetween (b.prev? root) id (some root)).offer id c)

/-- Whether an entry is a living inner cell that nothing reads. -/
def isIdle (b : Builder) (id : Nat) : Bool :=
  b.isAlive id && b.isUnused id && !(b.cells[id]?).any Cell.isTerminal

/-- Takes an entry out. -/
def remove (b : Builder) (id : Nat) : Builder :=
  let b := (b.withdraw id).unlink id
  { b with
    living := b.living.setIfInBounds id false
    readers := dropReaders b.readers id (b.driversOf id) }

/-- Taking out a living entry leaves fewer of them. -/
theorem count_living_remove_lt {b : Builder} {id : Nat} (h : b.isAlive id) :
    (b.remove id).living.count true < b.living.count true := by
  have same : ((b.withdraw id).unlink id).living = b.living := by
    unfold withdraw
    split
    · split <;> rfl
    · rfl
  obtain ⟨inside, alive⟩ : ∃ inside : id < b.living.size, b.living[id] = true := by
    by_cases inside : id < b.living.size
    · exact ⟨inside, by simpa [isAlive, inside] using h⟩
    · simp [isAlive, inside] at h
  have positive : 0 < b.living.count true :=
    Array.count_pos_iff.2 (alive ▸ Array.getElem_mem inside)
  simp only [remove, same, Array.setIfInBounds, inside, dif_pos]
  rw [Array.count_set inside, alive, if_pos (by decide), if_neg (by decide)]
  omega

/-- Takes out the waiting entries that are idle, and whatever becomes idle by it.  The entry that
started to wait last comes first. -/
def collect (b : Builder) (waiting : List Nat) : Builder :=
  match waiting with
  | [] => b
  | id :: waiting =>
      if _h : b.isIdle id then
        collect (b.remove id) ((b.driversOf id).reverse ++ waiting)
      else collect b waiting
termination_by (b.living.count true, waiting.length)
decreasing_by
  · exact Prod.Lex.left _ _ (count_living_remove_lt (by simp_all [isIdle]))
  · exact Prod.Lex.right _ (Nat.lt_succ_self _)

/-- Makes `root` another cell, which is offered for reuse in the place of the old one. -/
def exchange (b : Builder) (root : Nat) (c : Cell) : Builder :=
  let old := b.driversOf root
  let b := b.withdraw root
  { b with
    cells := b.cells.setIfInBounds root c
    readers := dropReaders (addReaders b.readers root c.drivers) root old }.offer root c

/-- Makes `root` another cell, and takes out what it alone used. -/
def rewriteCell (b : Builder) (root : Nat) (c : Cell) : Builder :=
  (b.exchange root c).collect (b.driversOf root).reverse

/-- Copies one inner cell of the replacing subnet in front of the root.  The cell that the root
itself becomes is not copied but returned. -/
def replaceCell (r : Replacement) (rootPosition : Option Nat)
    (state : Builder × Array Link × Option Cell) (cell : Cell × Nat) :
    Except Fault (Builder × Array Link × Option Cell) := do
  let (b, places, rootCell) := state
  let links ← cell.1.links.mapM (relink places)
  let c : Cell := { cell.1 with links }
  if rootPosition = some cell.2 then return (b, places.push (.of 0), some c)
  else
    let (id, b) := b.splice r.root c
    return (b, places.push (.of id), rootCell)

/-- Replaces the cone of a root by a subnet, and brings the depths up to date. -/
def replace (b : Builder) (r : Replacement) : Except Fault Builder := do
  b.checkReplacement r
  let shown ← r.shown
  let rootPosition := if r.isInPlace shown then some shown.entry else none
  let places := (r.leaves.map Link.of).toArray
  let (b, places, rootCell) ← r.innerCells.foldlM (replaceCell r rootPosition) (b, places, none)
  match rootCell with
  | some c => (b.rewriteCell r.root c).updateDepths r.root
  | none => do
      let l ← relink places shown
      (b.rewriteCell r.root ⟨.ofGate .buf, [l]⟩).updateDepths r.root

/-! ## Predicting a replacement -/

/-- The depths of the entries of the replacing subnet over the depths of the leaves. -/
def replacementDepths (b : Builder) (r : Replacement) : Array Nat :=
  let start := (r.leaves.map b.depth).toArray
  (r.net.cells.toList.drop r.net.numInputs).foldl
    (fun ds c => ds.push (c.depth fun i => ds.getD i 0)) start

/-- The leaves that the new cells read, one for each link. -/
def leafUses (r : Replacement) (shown : Link) : List Nat :=
  let links := r.innerCells.flatMap (·.1.links) ++ if r.isInPlace shown then [] else [shown]
  links.filterMap fun l => if l.entry < r.net.numInputs then r.leaves[l.entry]? else none

/-- The inner cells that stay alive when the waiting entries have lost the references listed in
`released` and the leaves have won those in `gained`. -/
def survivors (b : Builder) (gained : List Nat) (living waiting released : List Nat) : List Nat :=
  match waiting with
  | [] => living
  | id :: waiting =>
      if _h : id ∈ living then
        if b.references id + gained.count id ≤ released.count id then
          survivors b gained (living.erase id) ((b.driversOf id).reverse ++ waiting)
            (b.driversOf id ++ released)
        else survivors b gained living waiting released
      else survivors b gained living waiting released
termination_by (living.length, waiting.length)
decreasing_by
  · refine Prod.Lex.left _ _ ?_
    have positive : 0 < living.length := List.length_pos_of_mem _h
    rw [List.length_erase_of_mem _h]
    omega
  · exact Prod.Lex.right _ (Nat.lt_succ_self _)
  · exact Prod.Lex.right _ (Nat.lt_succ_self _)

/-- What a replacement would change. -/
def predict (b : Builder) (r : Replacement) : Except Fault Effect := do
  b.checkReplacement r
  let shown ← r.shown
  let added : Int := r.net.cellCount - (r.isInPlace shown).toNat
  let old := b.driversOf r.root
  let left := b.survivors (leafUses r shown) b.inner old.reverse old
  let removed : Int := b.inner.length - left.length
  let newDepth : Int := (b.replacementDepths r).getD shown.entry 0
  return { size := added - removed, depth := newDepth - b.depth r.root }

end Builder

end Gatework
