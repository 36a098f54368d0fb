import Gatework.Cut.Enumeration
import Gatework.Evaluation
import Gatework.Library.Match

/-!
# Mapping problems

A network is mapped onto a library by choosing for every entry how it is realised: by a library cell
on the leaves of one of its cuts, by a constant, or by one of the leaves itself.  A mapping problem
holds all these candidates.  Inputs, outputs and constants leave no choice.
-/

namespace Gatework

/-- How an entry of the network is realised. -/
inductive Realization where
  | input
  | output (l : Link)
  | zero
  | one
  /-- The entry has the value of another one. -/
  | wire (leaf : Nat)
  /-- A cell of the library; the pins are links to entries of the network. -/
  | cell (cell : Nat) (pins : List Link)
deriving DecidableEq, Repr

/-- The entries that a realisation reads. -/
def Realization.leaves : Realization → List Nat
  | input | zero | one => []
  | output l => [l.entry]
  | wire leaf => [leaf]
  | cell _ pins => pins.map (·.entry)

/-- A realisation of an entry and the number of the cut that it comes from. -/
structure Candidate where
  cut : Nat
  realization : Realization
deriving DecidableEq, Repr

/-- What a mapping may use. -/
structure MapOptions where
  cuts : CutOptions := {}
  /-- The length of the simulation where activity matters. -/
  ticks : Nat := 4096
  seed : UInt64 := 0

/-- A network with everything that its entries may be realised by. -/
structure Problem where
  store : Store
  net : Subnet
  library : Library
  options : MapOptions
  /-- The candidates of every entry; there are none where there is no choice. -/
  candidates : Array (List Candidate)
  /-- The number of links that read each entry. -/
  fanout : Array Nat

/-- The realisation of an entry that leaves no choice. -/
def Cell.realization? (c : Cell) : Option Realization :=
  match c.kind.symbol with
  | .gate .input => some .input
  | .gate .output => c.links.head?.map .output
  | .gate .zero => some .zero
  | .gate .one => some .one
  | _ => none

namespace Problem

/-- The number of links that read each entry of a network. -/
def countFanout (net : Subnet) : Array Nat :=
  net.cells.foldl
    (fun counts c => c.drivers.foldl (fun counts d => counts.modify d (· + 1)) counts)
    (Array.replicate net.size 0)

/-- The realisations of a function of leaves that depends on all of them. -/
def realizations (library : Library) (leaves : List Nat) (f : TruthTable leaves.length) :
    List Realization :=
  if f.isZero then [.zero]
  else if f.isOne then [.one]
  else if f.any = (TruthTable.var 1 0).any then (leaves.take 1).map .wire
  else
    (library.matchesOf f).map fun m =>
      .cell m.cell (m.pins.map fun pin => (Link.of (leaves.getD pin.leaf 0)).invertIf pin.inverted)

/-- The realisations of a function of leaves. -/
def realizationsOn (library : Library) (leaves : List Nat) (f : TruthTable leaves.length) :
    List Realization :=
  let support := f.support
  let needed := support.map fun v => leaves.getD v 0
  match (f.project support).any.as? needed.length with
  | some g => realizations library needed g
  | none => []

/-- The candidates of an entry, cut by cut. -/
def candidatesOf (store : Store) (net : Subnet) (library : Library) (cuts : List Cut) :
    Except Fault (List Candidate) := do
  let found ← cuts.zipIdx.mapM fun (cut, i) =>
    if cut.isTrivial then .ok []
    else do
      let f ← store.tabulateCone net.cells cut.root cut.leaves
      return (realizationsOn library cut.leaves f).map (Candidate.mk i)
  return found.flatten

/-- The problem of mapping a network. -/
def of (store : Store) (net : Subnet) (library : Library) (options : MapOptions) :
    Except Fault Problem := do
  let sets ← CutSets.enumerate options.cuts net.cells (List.range net.size)
  let candidates ← net.cells.zipIdx.mapM fun (c, i) =>
    if c.isTerminal || c.isConst then .ok []
    else do candidatesOf store net library (← sets.get i)
  return { store, net, library, options, candidates, fanout := countFanout net }

/-- The candidates of an entry. -/
def candidatesAt (p : Problem) (entry : Nat) : List Candidate := p.candidates.getD entry []

/-- The realisation of an entry that leaves no choice. -/
def fixed? (p : Problem) (entry : Nat) : Option Realization :=
  (p.net.cells[entry]?).bind Cell.realization?

/-! ## Costs -/

/-- The delay of the inverter, zero if there is none. -/
def inverterDelay (p : Problem) : Float32 := p.library.inverterCell?.elim 0 LibraryCell.maxDelay

/-- The area of the inverter, zero if there is none. -/
def inverterArea (p : Problem) : Float32 := p.library.inverterCell?.elim 0 (·.costs.area)

/-- The costs of a cell of the library. -/
def costsOf (p : Problem) (cell : Nat) : CellCosts :=
  (p.library.cells[cell]?).elim ⟨0, [], [], []⟩ (·.costs)

/-- The arrival of a link, behind an inverter if it is complemented. -/
def linkArrival (p : Problem) (arrival : Array Float32) (l : Link) : Float32 :=
  arrival.getD l.entry 0 + (if l.inverted then p.inverterDelay else 0)

/-- The arrival of a realisation, given the arrivals of the entries it reads. -/
def arrival (p : Problem) (arrivals : Array Float32) : Realization → Float32
  | .input | .zero | .one => 0
  | .output l => p.linkArrival arrivals l
  | .wire leaf => arrivals.getD leaf 0
  | .cell c pins =>
      Cost.maximum ((pins.zip (p.costsOf c).delay).map fun (pin, delay) =>
        p.linkArrival arrivals pin + delay)

/-- The area of a cell and of the inverters on its pins. -/
def area (p : Problem) : Realization → Float32
  | .cell c pins =>
      (p.costsOf c).area + (UInt64.ofNat (pins.countP (·.inverted))).toFloat32 * p.inverterArea
  | .output l => if l.inverted then p.inverterArea else 0
  | _ => 0

/-- The flow of an entry divided among the links that read it. -/
def share (p : Problem) (flow : Array Float32) (entry : Nat) : Float32 :=
  flow.getD entry 0 / (UInt64.ofNat (max (p.fanout.getD entry 0) 1)).toFloat32

/-- The area of a realisation with its share of the area of everything below. -/
def areaFlow (p : Problem) (flow : Array Float32) (r : Realization) : Float32 :=
  match r with
  | .input | .zero | .one => 0
  | .output l => flow.getD l.entry 0 + p.area r
  | .wire leaf => p.share flow leaf
  | .cell _ pins => p.area r + Cost.sum (pins.map fun pin => p.share flow pin.entry)

end Problem

end Gatework
