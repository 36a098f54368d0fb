import Std.Data.HashMap.Basic
import Gatework.Fault
import Gatework.Reach
import Gatework.Subnet.Basic

/-!
# Builders

A builder is a network under construction.  Its entries are numbered in the order of creation and
keep their numbers for good.  The topological order is kept apart, as a doubly linked list through
the entries, so that cells can be put in front of an older one or taken out again without
renumbering.  The inputs are the first entries of the list and the outputs the last ones.

An entry that is taken out keeps its own place in the list: it remembers the entry that followed it
at that moment, so that a walk through the order can step past it.

With every entry the builder keeps the entries that read it, one for each link, so that an entry
that nothing reads any more is found at once, and its logic depth: a replacement may close a loop of
buffers, and then the cells alone do not say how deep the loop is.

A builder with the option `share` finds a living cell with the same meaning through `table`, which
maps a cell with its operands in normal order to an entry.
-/

namespace Gatework

/-- What a builder does when a cell is added. -/
structure BuilderOptions where
  /-- Simplify constant operands, repeated operands and buffers. -/
  fold : Bool := false
  /-- Reuse a living cell of the same kind with the same operands. -/
  share : Bool := false
deriving DecidableEq, Repr

/-- Both simplifications. -/
def BuilderOptions.simplifying : BuilderOptions := ⟨true, true⟩

/-- The cell with its operands sorted, if their order does not matter. -/
def Cell.normal (c : Cell) : Cell :=
  if c.kind.commutative then
    { c with links := c.links.mergeSort fun a b => (a.order b).isLE }
  else c

/-- A network under construction. -/
structure Builder where
  options : BuilderOptions
  /-- Every entry ever created, by number. -/
  cells : Array Cell := #[]
  /-- The logic depth of every entry, by number. -/
  depths : Array Nat := #[]
  /-- The entries that read each entry, one for each link. -/
  readers : Array (List Nat) := #[]
  /-- Whether each entry is still there. -/
  living : Array Bool := #[]
  /-- The entry in front of each entry in topological order. -/
  prevs : Array (Option Nat) := #[]
  /-- The entry behind each entry in topological order. -/
  nexts : Array (Option Nat) := #[]
  head : Option Nat := none
  tail : Option Nat := none
  lastInput : Option Nat := none
  firstOutput : Option Nat := none
  numInputs : Nat := 0
  numOutputs : Nat := 0
  table : Std.HashMap Cell Nat := ∅

namespace Builder

/-- The builder without entries. -/
def empty (options : BuilderOptions := {}) : Builder := { options }

/-- The number of entries ever created, which bounds their numbers. -/
def size (b : Builder) : Nat := b.cells.size

/-- Whether an entry exists and was not taken out. -/
def isAlive (b : Builder) (id : Nat) : Bool := b.living.getD id false

/-! ## The order -/

/-- The first living entry. -/
def first? (b : Builder) : Option Nat := b.head

/-- The entry that follows `id`; for an entry that was taken out, the one that followed it then. -/
def next? (b : Builder) (id : Nat) : Option Nat := b.nexts.getD id none

/-- The entry in front of `id`. -/
def prev? (b : Builder) (id : Nat) : Option Nat := b.prevs.getD id none

/-- The entries from `start` on, each with the one that `follow` gives behind it, up to `length` of
them. -/
def chain (follow : Nat → Option Nat) : (length : Nat) → (start : Option Nat) → List Nat
  | 0, _ => []
  | _ + 1, none => []
  | length + 1, some id => id :: chain follow length (follow id)

/-- The living entries in topological order. -/
def order (b : Builder) : List Nat := chain b.next? b.size b.first?

/-- The cells of the entries for which a test holds. -/
def entriesWith (b : Builder) (test : Cell → Bool) : List Nat :=
  b.order.filter fun id => (b.cells[id]?).any test

/-- The primary inputs in order. -/
def inputs (b : Builder) : List Nat := b.entriesWith Cell.isInput

/-- The living entries that are neither inputs nor outputs, in topological order. -/
def inner (b : Builder) : List Nat := b.entriesWith (!·.isTerminal)

/-- The primary outputs in order. -/
def outputs (b : Builder) : List Nat := b.entriesWith Cell.isOutput

/-- Puts `id` between two neighbours; at the end of the list where there is none. -/
def linkBetween (b : Builder) (before : Option Nat) (id : Nat) (behind : Option Nat) : Builder :=
  let prevs := b.prevs.setIfInBounds id before
  let nexts := b.nexts.setIfInBounds id behind
  { b with
    prevs := behind.elim prevs fun n => prevs.setIfInBounds n (some id)
    nexts := before.elim nexts fun p => nexts.setIfInBounds p (some id)
    head := if before.isNone then some id else b.head
    tail := if behind.isNone then some id else b.tail }

/-- Joins the neighbours of `id`, whose own place is left as it is. -/
def unlink (b : Builder) (id : Nat) : Builder :=
  let before := b.prev? id
  let behind := b.next? id
  { b with
    prevs := behind.elim b.prevs fun n => b.prevs.setIfInBounds n before
    nexts := before.elim b.nexts fun p => b.nexts.setIfInBounds p behind
    head := if before.isNone then behind else b.head
    tail := if behind.isNone then before else b.tail }

/-! ## Readers -/

/-- The entries read by an entry, one for each link. -/
def driversOf (b : Builder) (id : Nat) : List Nat := (b.cells[id]?).elim [] Cell.drivers

/-- The entries that read `id`, one for each link. -/
def fanouts (b : Builder) (id : Nat) : List Nat := b.readers.getD id []

/-- The number of links that read `id`. -/
def references (b : Builder) (id : Nat) : Nat := (b.fanouts id).length

/-- Whether no living entry reads `id`. -/
def isUnused (b : Builder) (id : Nat) : Bool := (b.fanouts id).isEmpty

/-- Notes that `user` reads the listed entries. -/
def addReaders (readers : Array (List Nat)) (user : Nat) (drivers : List Nat) :
    Array (List Nat) :=
  drivers.foldl (fun readers d => readers.modify d (· ++ [user])) readers

/-- Takes out the first link of a reader.  The last of all takes its place. -/
def swapErase (user : Nat) : List Nat → List Nat
  | [] => []
  | reader :: readers =>
      if reader = user then (readers.getLast?).elim [] (· :: readers.dropLast)
      else reader :: swapErase user readers

/-- Notes that `user` no longer reads the listed entries. -/
def dropReaders (readers : Array (List Nat)) (user : Nat) (drivers : List Nat) :
    Array (List Nat) :=
  drivers.foldl (fun readers d => readers.modify d (swapErase user)) readers

/-- The number of living entries that are neither inputs nor outputs. -/
def cellCount (b : Builder) : Nat := b.inner.length

/-! ## Depths -/

/-- Computes the depths of the entries in a queue anew.  The readers of an entry whose depth has changed
join the queue, and so do those of `root` in any case.  At most `steps` entries are taken. -/
def drainQueue (b : Builder) (root : Nat) :
    (steps : Nat) → (queue : List Nat) → Array Nat → Except Fault (Array Nat)
  | _, [], depths => .ok depths
  | 0, _ :: _, _ => .error .endless
  | steps + 1, id :: queue, depths =>
      match b.cells[id]? with
      | none => .error .internal
      | some c =>
          let depth := c.depth fun i => depths.getD i 0
          if depth ≠ depths.getD id 0 ∨ id = root then
            b.drainQueue root steps (queue ++ b.fanouts id) (depths.setIfInBounds id depth)
          else b.drainQueue root steps queue depths

/-- The number of links between living entries. -/
def linkCount (b : Builder) : Nat := (b.order.flatMap b.fanouts).length

/-- Brings the depths up to date after a change of `root`.  An entry joins the queue at most once for
every path that leads to it, and there are no more paths from the root than sets of links.  A loop that
is more than a circle of buffers has no depth and keeps the queue busy for ever. -/
def updateDepths (b : Builder) (root : Nat) : Except Fault Builder := do
  let depths ← b.drainQueue root (2 ^ b.linkCount) [root] b.depths
  return { b with depths }

/-- The logic depth of an entry. -/
def depth (b : Builder) (id : Nat) : Nat := b.depths.getD id 0

/-- The greatest depth over the outputs. -/
def maxDepth (b : Builder) : Nat := (b.outputs.map b.depth).foldl max 0

/-! ## Sharing -/

/-- Offers an entry for reuse, unless an earlier one of the same meaning is offered. -/
def offer (b : Builder) (id : Nat) (c : Cell) : Builder :=
  if b.options.share then { b with table := b.table.insertIfNew c.normal id } else b

/-- No longer offers an entry for reuse. -/
def withdraw (b : Builder) (id : Nat) : Builder :=
  match b.cells[id]? with
  | some c =>
      if b.options.share && b.table[c.normal]? == some id then
        { b with table := b.table.erase c.normal }
      else b
  | none => b

/-! ## Finishing -/

/-- The inner cells that an output depends on, in topological order. -/
def needed (b : Builder) : List Nat :=
  let reached := reachable b.driversOf b.size b.outputs
  b.inner.filter reached.contains

/-- Copies entry `id` to the end of a list of finished cells; `places` holds the new number of
every entry that was copied before. -/
def copyEntry (b : Builder) (state : Array (Option Nat) × Array Cell) (id : Nat) :
    Except Fault (Array (Option Nat) × Array Cell) :=
  match b.cells[id]? with
  | none => .error .internal
  | some c => do
      let links ← c.links.mapM fun l =>
        match state.1.getD l.entry none with
        | some place => .ok { l with entry := place }
        | none => .error (.droppedDriver id)
      return (state.1.setIfInBounds id (some state.2.size), state.2.push { c with links })

/-- The finished network: the inputs, the inner cells that an output depends on, and the outputs,
each in topological order. -/
def finish (b : Builder) : Except Fault Subnet := do
  let (_, cells) ← (b.inputs ++ b.needed ++ b.outputs).foldlM b.copyEntry
    (Array.replicate b.size none, #[])
  match Subnet.ofCells cells b.numInputs b.numOutputs with
  | .ok net => .ok net
  | .error v => .error (.brokenSubnet v)

end Builder

end Gatework
