import Gatework.Cell
import Gatework.Fault
import Gatework.Increasing

/-!
# Cuts and their enumeration

A cut of an entry is a set of leaves such that every path from the entry down to an input passes
through a leaf.  The leaves are kept as a strictly increasing list.

The cuts of a cell are the unions of one cut of each of its drivers, as far as they are small
enough, together with the cut that consists of the cell itself.  A cut that contains another one is
dropped.  The cuts of all entries are computed in topological order and kept side by side, so that
after a change only the entries above it need to be computed again.
-/

namespace Gatework

/-- A root with the leaves that separate it from the inputs. -/
structure Cut where
  root : Nat
  leaves : List Nat
deriving DecidableEq, Repr

namespace Cut

/-- The cut with the given leaves, sorted and without repetition. -/
def of (root : Nat) (leaves : List Nat) : Cut := ⟨root, Increasing.ofList leaves⟩

/-- The cut whose only leaf is the root. -/
def trivial (root : Nat) : Cut := ⟨root, [root]⟩

/-- Whether the root is the only leaf. -/
def isTrivial (c : Cut) : Bool := c.leaves == [c.root]

/-- The number of leaves. -/
def size (c : Cut) : Nat := c.leaves.length

/-- One bit for every remainder of a leaf modulo 64.  The signature of a subset is contained in that
of the superset. -/
def signature (c : Cut) : UInt64 :=
  c.leaves.foldl (fun s leaf => s ||| (1 : UInt64) <<< UInt64.ofNat (leaf % 64)) 0

/-- Whether every leaf of `c` is a leaf of `d`.  Most pairs are told apart by their signatures or
sizes, without a look at the leaves. -/
def isSubset (c d : Cut) : Bool :=
  c.signature &&& ~~~d.signature == 0 && decide (c.size ≤ d.size) &&
    c.leaves.all d.leaves.contains

end Cut

/-! ## Enumeration -/

/-- Bounds on the cuts that are kept. -/
structure CutOptions where
  /-- The most leaves of a cut. -/
  size : Nat := 4
  /-- The most cuts of an entry besides the trivial one; all are kept if there is no bound. -/
  limit : Option Nat := none
deriving DecidableEq, Repr

/-- The cuts of every entry of a network. -/
structure CutSets where
  options : CutOptions
  cuts : Array (List Cut)

namespace CutSets

/-- The cuts of an entry, the trivial one first. -/
def get (sets : CutSets) (entry : Nat) : Except Fault (List Cut) :=
  match sets.cuts[entry]? with
  | some cuts => .ok cuts
  | none => .error .internal

/-- Adds one driver: all small enough unions of a partial leaf list with a cut of the driver, each
once, in the order of their discovery. -/
def extend (size : Nat) (partials : List (List Nat)) (driver : List Cut) : List (List Nat) :=
  ((partials.flatMap fun leaves => driver.map fun cut => Increasing.union leaves cut.leaves).filter
    fun leaves => decide (leaves.length ≤ size)).eraseDups

/-- The cuts that contain no smaller one. -/
def minimal (cuts : List Cut) : List Cut :=
  cuts.filter fun cut => !cuts.any fun other =>
    decide (other.size < cut.size) && other.isSubset cut

/-- The cuts of a cell over the cuts of its drivers. -/
def compute (sets : CutSets) (entry : Nat) (c : Cell) : Except Fault (List Cut) :=
  if c.isTerminal || c.isConst then .ok [.trivial entry]
  else do
    let drivers ← c.drivers.mapM sets.get
    let leafLists := drivers.foldl (extend sets.options.size) [[]]
    let found := minimal ((leafLists.filter (!·.isEmpty)).map (Cut.mk entry))
    let kept := match sets.options.limit with
      | some limit => found.take limit
      | none => found
    return .trivial entry :: kept

/-- Computes the cuts of one entry from the current cuts of its drivers. -/
def recompute (sets : CutSets) (cells : Array Cell) (entry : Nat) : Except Fault CutSets := do
  let cuts := sets.cuts ++ Array.replicate (cells.size - sets.cuts.size) []
  let sets := { sets with cuts }
  match cells[entry]? with
  | none => .error .internal
  | some c =>
      let found ← sets.compute entry c
      return { sets with cuts := sets.cuts.setIfInBounds entry found }

/-- The cuts of all entries of a network, computed in the given order. -/
def enumerate (options : CutOptions) (cells : Array Cell) (order : List Nat) :
    Except Fault CutSets :=
  if options.size = 0 then .error .cutSizeZero
  else
    order.foldlM (fun sets entry => sets.recompute cells entry)
      { options, cuts := Array.replicate cells.size [] }

end CutSets

end Gatework
