import Gatework.Builder.Basic
import Gatework.Store

/-!
# Adding to a builder

`Builder.addCell` adds a cell and returns a link with the value that was asked for, which need not be a
new entry: with the option `fold` constant and repeated operands are simplified away, and with the
option `share` a living cell of the same kind with the same operands is reused.  Trees of an
associative gate and instances of whole subnets are built on top of it.
-/

namespace Gatework

/-- Construction steps: they change a builder, return a value, or break a contract. -/
abbrev Build := StateT Builder (Except Fault)

namespace Builder

/-- Creates an entry that has no place in the order yet, and returns its number. -/
def create (b : Builder) (c : Cell) : Nat × Builder :=
  let id := b.size
  (id, { b with
    cells := b.cells.push c
    depths := b.depths.push (c.depth b.depth)
    readers := (addReaders b.readers id c.drivers).push []
    living := b.living.push true
    prevs := b.prevs.push none
    nexts := b.nexts.push none })

/-- Adds a primary input behind the other inputs. -/
def addInput : Build Link := fun b =>
  let (id, b) := b.create .input
  let behind := b.lastInput.elim b.head b.next?
  let b := b.linkBetween b.lastInput id behind
  .ok (.of id, { b with lastInput := some id, numInputs := b.numInputs + 1 })

/-- Adds several primary inputs. -/
def addInputs (count : Nat) : Build (List Link) := (List.replicate count ()).mapM fun _ => addInput

/-- A link has to name a living entry that is not an output. -/
def checkDriver (b : Builder) (l : Link) : Except Fault Unit :=
  match b.cells[l.entry]? with
  | none => .error (.unknownDriver l.entry)
  | some c =>
      if !b.isAlive l.entry then .error (.removedDriver l.entry)
      else if c.isOutput then .error (.outputDriver l.entry)
      else .ok ()

/-- Adds a primary output that shows a link, behind the other outputs, and returns its number. -/
def addOutput (l : Link) : Build Nat := fun b => do
  b.checkDriver l
  let (id, b) := b.create (.output l)
  let b := b.linkBetween b.tail id none
  return (id, { b with
    firstOutput := b.firstOutput.or (some id), numOutputs := b.numOutputs + 1 })

/-- Adds a cell behind the other inner cells, and returns its number. -/
def append (b : Builder) (c : Cell) : Nat × Builder :=
  let (id, b) := b.create c
  let before := b.firstOutput.elim b.tail b.prev?
  (id, (b.linkBetween before id b.firstOutput).offer id c)

/-- A link to a cell: to the one offered for reuse, or to a new one. -/
def place (b : Builder) (c : Cell) : Link × Builder :=
  match if b.options.share then b.table[c.normal]? else none with
  | some id => (.of id, b)
  | none =>
      let (id, b) := b.append c
      (.of id, b)

/-! ## Folding -/

/-- What is left of a cell after folding. -/
inductive Folded where
  /-- The value of an operand. -/
  | link (l : Link)
  /-- A constant. -/
  | constant (value : Bool)
  /-- A cell with fewer operands, read with or without a complement. -/
  | cell (links : List Link) (inverted : Bool)

/-- The value of a link to a constant. -/
def constantValue? (b : Builder) (l : Link) : Option Bool :=
  match (b.cells[l.entry]?).map Cell.kind with
  | some ⟨.gate .zero, _⟩ => some l.inverted
  | some ⟨.gate .one, _⟩ => some (!l.inverted)
  | _ => none

/-- Folds the operands of a conjunction or disjunction that `absorbing` decides.  `kept` are the
operands kept so far; the result is `none` when the absorbing value is reached. -/
def foldLattice (b : Builder) (absorbing : Bool) :
    (kept : List Link) → List Link → Option (List Link)
  | kept, [] => some kept
  | kept, l :: ls =>
      match b.constantValue? l with
      | some value =>
          if value = absorbing then none else b.foldLattice absorbing kept ls
      | none =>
          if kept.contains l.invert then none
          else if kept.contains l then b.foldLattice absorbing kept ls
          else b.foldLattice absorbing (kept ++ [l]) ls

/-- Folds the operands of an exclusive disjunction: constants and pairs of equal operands go into
the parity. -/
def foldParity (b : Builder) : (kept : List Link) → (parity : Bool) → List Link → List Link × Bool
  | kept, parity, [] => (kept, parity)
  | kept, parity, l :: ls =>
      match b.constantValue? l with
      | some value => b.foldParity kept (parity ^^ value) ls
      | none =>
          match kept.find? fun k => k.positive = l.positive with
          | some k => b.foldParity (kept.erase k) (parity ^^ (k.inverted ^^ l.inverted)) ls
          | none => b.foldParity (kept ++ [l]) parity ls

/-- Simplifies a gate by its constant and repeated operands. -/
def foldCell (b : Builder) (symbol : Symbol) (links : List Link) : Folded :=
  match symbol, links with
  | .gate .buf, l :: _ => .link l
  | .gate .and, links => lattice false links
  | .gate .or, links => lattice true links
  | .gate .xor, links =>
      match b.foldParity [] false links with
      | ([], parity) => .constant parity
      | ([l], parity) => .link (l.invertIf parity)
      | (kept, parity) => .cell kept parity
  | _, links => .cell links false
where
  /-- Folds a conjunction or disjunction. -/
  lattice (absorbing : Bool) (links : List Link) : Folded :=
    match b.foldLattice absorbing [] links with
    | none => .constant absorbing
    | some [] => .constant (!absorbing)
    | some [l] => .link l
    | some kept => .cell kept false

/-! ## Adding cells -/

/-- Adds a cell whose kind is not negative.  Folding a buffer takes its operand, which has to be there. -/
def addPositive (kind : CellKind) (links : List Link) : Build Link := fun b => do
  links.forM b.checkDriver
  if b.options.fold ∧ kind.symbol = .gate .buf ∧ links = [] then throw .internal
  else
    match if b.options.fold then b.foldCell kind.symbol links else .cell links false with
    | .link l => return (l, b)
    | .constant value => return b.place ⟨.ofGate (.ofBool value), []⟩
    | .cell links inverted =>
        let (l, b) := b.place ⟨kind, links⟩
        return (l.invertIf inverted, b)

/-- Adds a built-in gate.  The complement of a negative gate goes onto the returned link. -/
def addCell (symbol : Symbol) (links : List Link) : Build Link :=
  match symbol with
  | .cell | .gate .input | .gate .output => throw (.notAddable symbol.name)
  | .gate g =>
      if g.arity.1 ≤ links.length ∧ links.length ≤ g.arity.2 then
        return (← addPositive (.ofGate g.positive.1) links).invertIf g.positive.2
      else throw (.badArity g.name links.length)

/-- Adds a cell of the type registered at a position of the store. -/
def addOfType (store : Store) (type : Nat) (links : List Link) : Build Link :=
  match store.types[type]? with
  | none => throw .internal
  | some t =>
      match t.symbol with
      | .gate g => addCell (.gate g) links
      | .cell =>
          if t.accepts links.length then addPositive (t.kindAt type) links
          else throw (.badArity t.name links.length)

/-- Adds a constant. -/
def addConst (value : Bool) : Build Link := addPositive (.ofGate (.ofBool value)) []

/-! ## Trees -/

/-- Cuts a list into pieces of `size + 1` elements; the last one may be shorter. -/
def pieces {α : Type} (size : Nat) (xs : List α) : List (List α) :=
  match xs with
  | [] => []
  | x :: xs => (x :: xs.take size) :: pieces size (xs.drop size)
termination_by xs.length
decreasing_by simp only [List.length_cons, List.length_drop]; omega

/-- Joins each group of operands by a gate; a single operand stands for itself. -/
def joinGroups (symbol : Symbol) (groups : List (List Link)) : Build (List Link) :=
  groups.mapM fun group =>
    match group with
    | [l] => return l
    | group => addCell symbol group

/-- Joins operands level by level until one link is left.  Each level is shorter than the one
before it, so the number of operands bounds the number of levels. -/
def joinLevels (symbol : Symbol) (width : Nat) : (levels : Nat) → List Link → Build Link
  | _, [l] => return l
  | 0, _ => throw .internal
  | levels + 1, operands => do
      joinLevels symbol width levels (← joinGroups symbol (pieces (width - 1) operands))

/-- A balanced tree of an associative gate with at most `max 2 maxArity` operands per cell. -/
def addTree (symbol : Symbol) (links : List Link) (maxArity : Nat) : Build Link :=
  if symbol.traits.regroupable then
    let width := max maxArity 2
    match links with
    | [] => addConst (symbol = .gate .and)
    | [l] => return l
    | links =>
        if links.length ≤ width then addCell symbol links
        else joinLevels symbol width links.length links
  else throw (.notRegroupable symbol.name)

/-! ## Instances of subnets -/

/-- The value of a link inside a copied network, whose entries are at `places`. -/
def relink (places : Array Link) (l : Link) : Except Fault Link :=
  match places[l.entry]? with
  | none => .error .internal
  | some place => .ok {
      entry := place.entry
      port := if l.port ≠ 0 then l.port else place.port
      inverted := place.inverted ^^ l.inverted }

/-- Copies one cell of a network: an input is the next of `links`, an output adds nothing and shows
a value, any other cell is added. -/
def addInstanceCell (links : Array Link) (state : Array Link × List Link) (c : Cell) :
    Build (Array Link × List Link) := do
  let (places, shown) := state
  if c.isInput then
    match links[places.size]? with
    | some l => return (places.push l, shown)
    | none => throw .internal
  else if c.isOutput then
    match c.links with
    | l :: _ => return (places.push (.of 0), shown ++ [← relink places l])
    | [] => throw .internal
  else
    let operands ← (c.links.mapM (relink places) : Except Fault (List Link))
    return (places.push (← addPositive c.kind operands), shown)

/-- Adds a copy of a subnet whose inputs are the given links, and returns the links that its outputs
show. -/
def addInstance (net : Subnet) (links : List Link) : Build (List Link) := do
  if links.length = net.numInputs then
    let (_, shown) ← net.cells.toList.foldlM (addInstanceCell links.toArray) (#[], [])
    return shown
  else throw (.wrongInstance net.numInputs links.length)

/-! ## Copies -/

/-- Adds one cell of a finished network as it is. -/
def copyCell (c : Cell) : Build Unit :=
  if c.isInput then discard addInput
  else if c.isOutput then
    match c.links with
    | l :: _ => discard (addOutput l)
    | [] => throw .internal
  else modify fun b => (b.append c).2

/-- A builder with the entries of a subnet, under the same numbers. -/
def ofSubnet (net : Subnet) : Except Fault Builder := do
  let (_, b) ← (net.cells.toList.forM copyCell).run (.empty {})
  return b

end Builder

/-- Runs a construction from an empty builder and finishes the result. -/
def Build.toSubnet (build : Build Unit) (options : BuilderOptions) : Except Fault Subnet := do
  let (_, b) ← build.run (.empty options)
  b.finish

end Gatework
