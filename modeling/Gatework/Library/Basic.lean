import Gatework.Cost
import Gatework.Gzip.Member
import Gatework.Library.Description
import Gatework.Npn.Catalogue
import Gatework.Synthesis.SumOfProducts

/-!
# Cell libraries

A library is a list of cells that networks are mapped onto.  Loading a library registers every cell
as a composite of the store, implemented by a sum of products of its function.  Cells are loaded one
after the other: those before a flawed one stay in the store.

A library lists its cells by the class of their functions, as a catalogue does its networks, because only
cells of the class of a function can implement it.
-/

namespace Gatework

/-- The class of a function of at most six variables: its canonical form, as it is stored. -/
def TruthTable.class? {n : Nat} (f : TruthTable n) : Option WordTable :=
  f.canonical?.map fun (form, _) => .ofTable form

/-- A cell of a library. -/
structure LibraryCell where
  name : String
  /-- The position of the cell type in the store. -/
  type : Nat
  /-- The position of the implementation in the store. -/
  implementation : Nat
  inputs : Nat
  function : TruthTable inputs
  costs : CellCosts

/-- The longest delay over the pins. -/
def LibraryCell.maxDelay (c : LibraryCell) : Float32 := Cost.maximum c.costs.delay

/-- A list of cells. -/
structure Library where
  cells : Array LibraryCell := #[]
  /-- The number of the cheapest cell that complements its input. -/
  inverter : Option Nat := none
  /-- The numbers of the cells of each class, in increasing order of the classes. -/
  classes : List (WordTable × List Nat) := []

namespace Library

/-- The cell that complements its input. -/
def inverterCell? (l : Library) : Option LibraryCell := l.inverter.bind (l.cells[·]?)

/-- Whether a cell complements its only input. -/
def isInverter (c : LibraryCell) : Bool := c.inputs == 1 && c.function.toNat == 1

/-- Appends a cell.  A later inverter counts only if it is smaller. -/
def push (l : Library) (c : LibraryCell) : Library where
  cells := l.cells.push c
  inverter :=
    if isInverter c && l.inverterCell?.all fun i => decide (c.costs.area < i.costs.area) then
      some l.cells.size
    else l.inverter
  classes :=
    match c.function.class? with
    | some key => Catalogue.alterClass key (· ++ [l.cells.size]) l.classes
    | none => l.classes

/-- The numbers of the cells of a class, in the order of the cells. -/
def cellsOf (l : Library) (key : WordTable) : List Nat :=
  ((l.classes.find? (·.1 == key)).map (·.2)).getD []

/-- The widest cells that implement a library cell. -/
def implementationArity : Nat := 65535

/-- What is wrong with a described cell where it is to be loaded. -/
def flaw? (store : Store) (d : CellDescription) : Option CellFlaw :=
  (d.flaw? maxClassVariables).or <|
    if (store.findType? d.name).isSome then some .nameTaken else none

/-- Loads a cell that has no flaw. -/
def register (l : Library) (store : Store) (d : CellDescription)
    (function : TruthTable d.inputs.length) : Except Fault (Store × Library) := do
  let net ← SumOfProducts.synthesize (.of function none) implementationArity
  let (store, implementation) := store.addSubnet net
  let (store, type) := store.addComposite d.name implementation net (some d.costs)
  return (store, l.push {
    name := d.name
    type
    implementation
    inputs := d.inputs.length
    function
    costs := d.costs })

/-- Loads cells one after the other, up to the first that has a flaw. -/
def registerAll (store : Store) (l : Library) :
    List CellDescription → Except Fault (Store × Except LoadError Library)
  | [] => .ok (store, .ok l)
  | d :: ds =>
      match flaw? store d, TruthTable.ofHex? d.inputs.length d.table with
      | none, some function => do
          let (store, l) ← l.register store d function
          registerAll store l ds
      | flaw, _ =>
          let flaw := flaw.getD (.badTable d.table)
          .ok (store, .error (.malformed (.libraryCell d.name flaw)))

/-- The cells that a file describes, which may be compressed. -/
def describe (file : List UInt8) : Except LoadError (List CellDescription) := do
  (CellDescription.listOfBytes (← Gzip.expand file)).mapError .json

/-- The library in a file, whose cells are added to the store. -/
def ofBytes (store : Store) (file : List UInt8) :
    Except Fault (Store × Except LoadError Library) :=
  match describe file with
  | .ok cells => registerAll store {} cells
  | .error e => .ok (store, .error e)

end Library

end Gatework
