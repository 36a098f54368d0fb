import Gatework.Arena
import Gatework.Fault
import Gatework.Subnet.Basic

/-!
# The store of a session

A store holds the cell types, the subnets and the texts of a session.  Its three tables only grow,
so a position handed out once names the same record for good.  The built-in gates are the first
cell types of every store, in the order of `Gate.all`; a composite is registered later and is
implemented by a subnet that is in the store already.
-/

namespace Gatework

/-- The costs of a library cell; delays and powers are listed per input pin. -/
structure CellCosts where
  area : Float32
  delay : List Float32
  risePower : List Float32
  fallPower : List Float32

/-- A kind of cell that networks may use. -/
structure CellType where
  name : String
  symbol : Symbol
  minInputs : Nat
  maxInputs : Nat
  numPorts : Nat
  traits : Traits
  /-- The position of the subnet that a composite stands for, if it has one. -/
  implementation : Option Nat := none
  costs : Option CellCosts := none

/-- The number of values of a pin count. -/
def Store.pinLimit : Nat := valuesOf 16

namespace CellType

/-- The type of a built-in gate. -/
def ofGate (g : Gate) : CellType where
  name := g.name
  symbol := .gate g
  minInputs := g.arity.1
  maxInputs := g.arity.2
  numPorts := g.ports
  traits := g.traits

/-- The type of the cells that the subnet `net`, which is at position `implementation`, stands for. -/
def ofSubnet (name : String) (implementation : Nat) (net : Subnet) (costs : Option CellCosts) :
    CellType where
  name := name
  symbol := .cell
  minInputs := net.numInputs % Store.pinLimit
  maxInputs := net.numInputs % Store.pinLimit
  numPorts := net.numOutputs % Store.pinLimit
  traits := { combinational := true }
  implementation := some implementation
  costs := costs

/-- Whether a cell of the type may have this many operands. -/
def accepts (t : CellType) (arity : Nat) : Bool := t.minInputs ≤ arity && arity ≤ t.maxInputs

/-- The kind of the cells of a type registered at `position`. -/
def kindAt (t : CellType) (position : Nat) : CellKind := ⟨t.symbol, position⟩

end CellType

/-- Names of records of a table, each with the position of a record of that name. -/
structure NameIndex {α : Type} (name : α → String) (table : Arena α) where
  entries : List (String × Nat)
  listed : ∀ n (i : Nat), (n, i) ∈ entries → table[i]?.map name = some n

namespace NameIndex

variable {α : Type} {name : α → String} {table : Arena α}

/-- The position that is listed first under a name. -/
def find? (index : NameIndex name table) (n : String) : Option Nat := index.entries.lookup n

/-- The names of the records of a table, in order. -/
def ofTable (name : α → String) (table : Arena α) : NameIndex name table where
  entries := (table.toList.map name).zipIdx
  listed n i h := by
    rw [← Arena.getElem?_toList, ← List.getElem?_map]
    exact List.mem_zipIdx_iff_getElem?.1 h

/-- The same names when a record was added to the table. -/
def grow (index : NameIndex name table) (x : α) : NameIndex name (table.push x) where
  entries := index.entries
  listed n i h := by
    obtain ⟨y, hy, hname⟩ := Option.map_eq_some_iff.1 (index.listed n i h)
    rw [Arena.getElem?_push_lt (Arena.lt_size_of_getElem? hy), hy, ← hname]
    rfl

/-- The names when a record was added to the table and is listed behind the others. -/
def insert (index : NameIndex name table) (x : α) : NameIndex name (table.push x) where
  entries := index.entries ++ [(name x, table.size)]
  listed n i h := by
    rcases List.mem_append.1 h with h | h
    · exact (index.grow x).listed n i h
    · cases List.mem_singleton.1 h
      rw [Arena.getElem?_push_size, Option.map_some]

/-- The record at the position that is listed under a name has the name. -/
theorem name_of_find? {index : NameIndex name table} {n : String} {i : Nat}
    (h : index.find? n = some i) : table[i]?.map name = some n := by
  obtain ⟨before, after, split, -⟩ := List.lookup_eq_some_iff.1 h
  exact index.listed n i (by simp [split])

/-- A name that was listed before keeps its position. -/
theorem find?_insert (index : NameIndex name table) (x : α) (n : String) :
    (index.insert x).find? n = (index.find? n).or (if n = name x then some table.size else none) := by
  show (index.entries ++ [(name x, table.size)]).lookup n = _
  rw [List.lookup_append, List.lookup_cons, List.lookup_nil]
  by_cases h : n = name x
  · rw [if_pos h, beq_iff_eq.2 h]
    rfl
  · rw [if_neg h, beq_eq_false_iff_ne.2 h]
    rfl

end NameIndex

/-- The records of a session.  Every interned text is found in an index, and so is the first type
registered under a name. -/
structure Store where
  types : Arena CellType
  subnets : Arena Subnet
  texts : Arena String
  textIndex : NameIndex id texts
  typeIndex : NameIndex CellType.name types

namespace Store

/-- A store without records. -/
def bare : Store where
  types := .empty
  subnets := .empty
  texts := .empty
  textIndex := .ofTable id _
  typeIndex := .ofTable CellType.name _

/-- The store that knows the built-in gates and nothing else. -/
def empty : Store where
  types := .ofPage (Gate.all.map CellType.ofGate).toArray (by decide)
  subnets := .empty
  texts := .ofPage (Gate.all.map Gate.name).toArray (by decide)
  textIndex := .ofTable id _
  typeIndex := .ofTable CellType.name _

/-- The first types of a store are the gates. -/
theorem types_empty (i : Nat) : empty.types[i]? = (Gate.all.map CellType.ofGate)[i]? := by
  rw [empty, Arena.getElem?_ofPage, List.getElem?_toArray]

/-- The number of records in a table. -/
def count (s : Store) : RecordKind → Nat
  | .cellType => s.types.size
  | .subnet => s.subnets.size
  | .text => s.texts.size

/-! ## Adding records -/

/-- Adds a subnet and returns its position. -/
def addSubnet (s : Store) (net : Subnet) : Store × Nat :=
  ({ s with subnets := s.subnets.push net }, s.subnets.size)

/-- Adds a text that is not looked up later, and returns its position. -/
def addText (s : Store) (text : String) : Store × Nat :=
  ({ s with texts := s.texts.push text, textIndex := s.textIndex.grow text }, s.texts.size)

/-- Adds a cell type that is not looked up later, and returns its position. -/
def addUnnamed (s : Store) (type : CellType) : Store × Nat :=
  ({ s with types := s.types.push type, typeIndex := s.typeIndex.grow type }, s.types.size)

/-- The position of a text, which is added unless it has been interned already. -/
def intern (s : Store) (text : String) : Store × Nat :=
  match s.textIndex.find? text with
  | some i => (s, i)
  | none =>
      ({ s with texts := s.texts.push text, textIndex := s.textIndex.insert text }, s.texts.size)

/-- Registers a cell type, which is found by its name unless another one is, and returns its position. -/
def registerType (s : Store) (type : CellType) : Store × Nat :=
  ({ s with types := s.types.push type, typeIndex := s.typeIndex.insert type }, s.types.size)

@[simp] theorem types_registerType (s : Store) (type : CellType) :
    (s.registerType type).1.types = s.types.push type := rfl

@[simp] theorem subnets_registerType (s : Store) (type : CellType) :
    (s.registerType type).1.subnets = s.subnets := rfl

@[simp] theorem registerType_position (s : Store) (type : CellType) :
    (s.registerType type).2 = s.types.size := rfl

/-- Registers a cell type whose name is interned. -/
def addType (s : Store) (type : CellType) : Store × Nat :=
  (s.intern type.name).1.registerType type

/-- The first cell type registered under a name. -/
def findType? (s : Store) (name : String) : Option Nat := s.typeIndex.find? name

/-- Registers the subnet `net`, which is at position `implementation`, as a type of cells. -/
def addComposite (s : Store) (name : String) (implementation : Nat) (net : Subnet)
    (costs : Option CellCosts) : Store × Nat :=
  s.addType (.ofSubnet name implementation net costs)

/-- Registers a type of cells with one output that has no implementation. -/
def addBlackBox (s : Store) (name : String) (inputs : Nat) : Store × Nat :=
  s.addType {
    name
    symbol := .cell
    minInputs := inputs
    maxInputs := inputs
    numPorts := 1
    traits := Symbol.cell.traits }

/-- The name of the type of a cell. -/
def kindName (s : Store) (kind : CellKind) : String := (s.types[kind.type]?).elim "" (·.name)

/-! ## Records -/

/-- A record of any table. -/
inductive Record where
  | cellType (type : CellType)
  | subnet (net : Subnet)
  | text (text : String)

/-- The table that a record belongs to. -/
def Record.kind : Record → RecordKind
  | cellType _ => .cellType
  | subnet _ => .subnet
  | text _ => .text

/-- The record at a position of a table. -/
def record? (s : Store) (kind : RecordKind) (i : Nat) : Option Record :=
  match kind with
  | .cellType => s.types[i]?.map .cellType
  | .subnet => s.subnets[i]?.map .subnet
  | .text => s.texts[i]?.map .text

/-- Adds a record to its table, where it is found by its position only, and returns the position. -/
def add (s : Store) : Record → Store × Nat
  | .cellType type => s.addUnnamed type
  | .subnet net => s.addSubnet net
  | .text text => s.addText text

/-! ## Handles -/

/-- The handle of the record at a position, which has to fit in a handle. -/
def handleAt (kind : RecordKind) (position : Nat) : Except Fault Handle :=
  if position < 2 ^ Handle.positionBits then .ok (.ofPosition kind position)
  else .error (.noHandle kind position)

/-- The handle of a built-in gate's cell type, the same in every store. -/
def gateHandle : Symbol → Except Fault Handle
  | .gate g => handleAt .cellType g.position
  | .cell => .error .noBuiltinType

/-- Whether a number is the handle of a record in the table `kind`. -/
def resolves (s : Store) (kind : RecordKind) (h : Handle) : Bool :=
  h.belongsTo kind && (s.record? kind h.position).isSome

/-- Takes a number for a handle into `kind`; zero and the tag of `kind` are accepted. -/
def checkTag (kind : RecordKind) (h : Handle) : Except Fault Handle :=
  if h.isNull || h.tag == kind.tag then .ok h else .error (.wrongTag h kind)

/-- The record of a table that a handle names. -/
def fetch {α : Type} (kind : RecordKind) (table : Arena α) (h : Handle) : Except Fault α :=
  if h.isNull then .error (.nullHandle kind)
  else if h.tag != kind.tag then .error (.foreignHandle h kind)
  else
    match table[h.position]? with
    | some x => .ok x
    | none => .error (.danglingHandle kind h table.size)

/-- The record that a handle into `kind` names. -/
def get (s : Store) (kind : RecordKind) (h : Handle) : Except Fault Record :=
  match kind with
  | .cellType => (fetch .cellType s.types h).map .cellType
  | .subnet => (fetch .subnet s.subnets h).map .subnet
  | .text => (fetch .text s.texts h).map .text

/-! ## Requests -/

/-- A request to store something. -/
inductive Call where
  /-- Stores a record as it is. -/
  | allocate (record : Record)
  | intern (text : String)
  /-- Registers a type of cells under the text that a handle names. -/
  | register (name : Handle) (type : CellType)
  /-- Registers the subnet that a handle names as a type of cells. -/
  | composite (name : String) (implementation : Handle) (costs : Option CellCosts)

/-- The table into which the handle that a call returns leads. -/
def Call.kind : Call → RecordKind
  | allocate record => record.kind
  | intern _ => .text
  | register .. | composite .. => .cellType

/-- Returns the handle of what was put at a position, in place of the position. -/
def withHandle (kind : RecordKind) (placed : Store × Nat) : Except Fault (Store × Handle) :=
  (handleAt kind placed.2).map fun h => (placed.1, h)

/-- The store after a call, and the handle of what was stored. -/
def call (s : Store) : Call → Except Fault (Store × Handle)
  | .allocate record => withHandle record.kind (s.add record)
  | .intern text => withHandle .text (s.intern text)
  | .register name type => do
      let text ← fetch .text s.texts name
      withHandle .cellType (s.registerType { type with name := text })
  | .composite name implementation costs => do
      let net ← fetch .subnet s.subnets implementation
      let (named, _) ← withHandle .text (s.intern name)
      withHandle .cellType
        (named.registerType (.ofSubnet name implementation.position net costs))

/-! ## Text form -/

/-- The line of one entry in the text form of a network. -/
def renderCell (s : Store) (i : Nat) (c : Cell) : String :=
  "  %" ++ toString i ++ " = " ++ s.kindName c.kind ++ Link.operandsText c.links ++ "\n"

/-- The text form of a network: one line per entry, in order. -/
def render (s : Store) (net : Subnet) : String :=
  "subnet \x7b\n" ++ String.join (net.cells.toList.zipIdx.map fun (c, i) => s.renderCell i c) ++
    "\x7d\n"

end Store

end Gatework
