import Gatework.Builder.Growth
import Gatework.Cost
import Gatework.Mapping.Selection
import Gatework.Reach
import Gatework.Store

/-!
# Mapped networks

From a choice for every entry the mapped network is built: starting from the outputs, the entries
that are needed are found, and each is realised as chosen.  All complemented readers of an entry share
one inverter.  The inputs and outputs of the network stay the same.
-/

namespace Gatework

/-- Why a network could not be mapped. -/
inductive MapError where
  /-- A needed entry has no candidate. -/
  | noAdmissibleCut (entry : Nat)
  /-- A complemented link needs an inverter and the library has none. -/
  | missingInverter (entry : Nat)
deriving DecidableEq, Repr

/-- The wording of an error. -/
def MapError.message : MapError → String
  | noAdmissibleCut entry => s!"no admissible cut for entry {entry}"
  | missingInverter entry => s!"entry {entry} needs an inverter but the library has none"

namespace MappedNetwork

/-- A choice for every entry. -/
abbrev Choice := Array (Option Realization)

/-- The entries that the outputs need, in the order in which they are found, or the first without
choice. -/
def neededEntries (net : Subnet) (choice : Choice) : Except MapError (List Nat) :=
  let reached := reachable (fun v => (choice.getD v none).elim [] Realization.leaves) net.size
    net.outputs
  match reached.find? fun v => (choice.getD v none).isNone with
  | some entry => .error (.noAdmissibleCut entry)
  | none => .ok reached

/-- Why building stops. -/
inductive Stop where
  | fault (f : Fault)
  | error (e : MapError)

/-- The links of the entries realised so far, and of their complements as far as there are any. -/
structure Places where
  direct : Array Link
  inverted : Array (Option Link)

/-- Steps that build a mapped network. -/
abbrev Construction := StateT (Builder × Places) (Except Stop)

/-- A step of a builder. -/
def onBuilder {α : Type} (step : Build α) : Construction α := fun (b, places) =>
  match step.run b with
  | .ok (a, b) => .ok (a, b, places)
  | .error f => .error (.fault f)

/-- Adds a cell of the library. -/
def addCell (store : Store) (library : Library) (cell : Nat) (links : List Link) :
    Construction Link :=
  match library.cells[cell]? with
  | some c => onBuilder (Builder.addOfType store c.type links)
  | none => throw (.fault .internal)

/-- The link in the mapped network for a link that `reader` has, through an inverter if it is
complemented. -/
def signal (store : Store) (library : Library) (reader : Nat) (l : Link) : Construction Link := do
  let (_, places) ← get
  let direct := places.direct.getD l.entry (.of 0)
  if !l.inverted then return direct
  else
    match places.inverted.getD l.entry none with
    | some shared => return shared
    | none =>
        match library.inverter with
        | none => throw (.error (.missingInverter reader))
        | some inverter => do
            let shared ← addCell store library inverter [direct]
            modify fun (b, places) =>
              (b, { places with inverted := places.inverted.setIfInBounds l.entry (some shared) })
            return shared

/-- Realises an entry; an output has no link. -/
def realize (store : Store) (library : Library) (entry : Nat) : Realization →
    Construction (Option Link)
  | .input => some <$> onBuilder Builder.addInput
  | .output l => do
      let driver ← signal store library entry l
      discard (onBuilder (Builder.addOutput driver))
      return none
  | .zero => some <$> onBuilder (Builder.addConst false)
  | .one => some <$> onBuilder (Builder.addConst true)
  | .wire leaf => return some ((← get).2.direct.getD leaf (.of 0))
  | .cell c pins => do
      let links ← pins.mapM (signal store library entry)
      some <$> addCell store library c links

/-- Realises an entry that has a choice and remembers its link. -/
def place (store : Store) (library : Library) (choice : Choice) (entry : Nat) :
    Construction Unit := do
  match choice.getD entry none with
  | none => throw (.error (.noAdmissibleCut entry))
  | some r =>
      match ← realize store library entry r with
      | none => return ()
      | some l => modify fun (b, places) =>
          (b, { places with direct := places.direct.setIfInBounds entry l })

/-- The entries to realise: those needed, and all inputs. -/
def realized (net : Subnet) (needed : List Nat) : List Nat :=
  let marks := needed.foldl (fun marks v => marks.setIfInBounds v true)
    (Array.replicate net.size false)
  (List.range net.size).filter fun v =>
    marks.getD v false || (net.cells[v]?).any Cell.isInput

/-- Builds the network of a choice. -/
def build (store : Store) (net : Subnet) (library : Library) (choice : Choice) :
    Except Stop Subnet := do
  match neededEntries net choice with
  | .error e => throw (.error e)
  | .ok needed =>
      let places : Places := ⟨Array.replicate net.size (.of 0), Array.replicate net.size none⟩
      let (_, b, _) ← ((realized net needed).forM (place store library choice)).run
        (.empty {}, places)
      match b.finish with
      | .ok mapped => return mapped
      | .error f => throw (.fault f)

/-- The mapped network of a choice, or why there is none. -/
def ofChoice (store : Store) (net : Subnet) (library : Library) (choice : Choice) :
    Except Fault (Except MapError Subnet) :=
  match build store net library choice with
  | .ok mapped => .ok (.ok mapped)
  | .error (.error e) => .ok (.error e)
  | .error (.fault f) => .error f

end MappedNetwork

/-! ## Summaries

The number of cells, their area and the latest arrival of an output, read off the costs that the cell
types have in the store.  Cells without costs are free.
-/

/-- What a mapped network costs. -/
structure MapSummary where
  cells : Nat
  area : Float32
  delay : Float32

namespace Store

/-- The costs of a cell's type. -/
def costsOf? (s : Store) (c : Cell) : Option CellCosts := (s.types[c.kind.type]?).bind (·.costs)

/-- Appends the arrival of the next cell. -/
def nextArrival (s : Store) (arrivals : Array Float32) (c : Cell) : Array Float32 :=
  let delays := (s.costsOf? c).elim [] (·.delay)
  arrivals.push (Cost.maximum (c.drivers.zipIdx.map fun (d, pin) =>
    arrivals.getD d 0 + delays.getD pin 0))

/-- The summary of a network. -/
def summarize (s : Store) (net : Subnet) : MapSummary :=
  let arrivals := net.cells.foldl s.nextArrival #[]
  let inner := net.cells.toList.filter (!·.isTerminal)
  { cells := inner.length
    area := inner.foldl (fun area c => area + (s.costsOf? c).elim 0 (·.area)) 0
    delay := Cost.maximum (net.outputs.map fun o => arrivals.getD o 0) }

end Store

end Gatework
