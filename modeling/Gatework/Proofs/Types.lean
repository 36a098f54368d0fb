import Gatework.Proofs.Meaning

/-!
# The cell types of a store

The built-in gates are the first types of every store that calls lead to, so the kind of a built-in gate
is the same in all of them (`Extends.type_of_gate`).  Behind them stand the types that were registered,
of whatever symbol.  A store admits a cell if it has the type that the cell names, the cell carries the
symbol of this type, and the type takes as many operands as the cell has; such a cell is known from the
position of its type and its links, which is what a network in text or binary form relies on.
-/

namespace Gatework

lemma Gate.position_lt (g : Gate) : g.position < Gate.all.length := by cases g <;> decide

namespace Store

/-- A cell is of a type that the store has, and the type takes as many operands as the cell has. -/
structure Admits (store : Store) (c : Cell) (type : CellType) : Prop where
  listed : store.types[c.kind.type]? = some type
  symbol : type.symbol = c.kind.symbol
  arity : type.accepts c.links.length = true

/-- All cells of a network are of types that the store has. -/
def Hosts (store : Store) (net : Subnet) : Prop := ∀ c ∈ net.cells, ∃ type, store.Admits c type

/-- The cells of a network carry the symbols of their types. -/
def Conforms (store : Store) (net : Subnet) : Prop :=
  ∀ c ∈ net.cells, ∃ type, store.types[c.kind.type]? = some type ∧ type.symbol = c.kind.symbol

/-- A composite is implemented by a network with an input for every operand and at least one output.  The
network need not be one that can be evaluated. -/
def Implemented (store : Store) (c : Cell) : Prop :=
  c.kind.symbol = .cell → ∃ i net, store.implementation? c.kind.type = some i ∧
    store.subnets[i]? = some net ∧ net.numInputs = c.links.length ∧ 0 < net.numOutputs

variable {store store' : Store} {type : CellType} {t : Nat} {c : Cell} {net : Subnet}

/-- A cell has the kind of the cells of its type. -/
lemma Admits.kind (h : store.Admits c type) : type.kindAt c.kind.type = c.kind := by
  rw [CellType.kindAt, h.symbol]

/-- A cell of a type of the store, with a number of operands that the type takes. -/
lemma admits_kindAt (h : store.types[t]? = some type) {links : List Link}
    (arity : type.accepts links.length = true) : store.Admits ⟨type.kindAt t, links⟩ type :=
  ⟨h, rfl, arity⟩

/-- The cells of a type are printed under its name. -/
lemma kindName_kindAt (h : store.types[t]? = some type) :
    store.kindName (type.kindAt t) = type.name := by
  simp only [kindName, CellType.kindAt, h, Option.elim_some]

/-! ## The gates -/

/-- The types in front are the gates. -/
lemma Extends.type_of_lt (gates : Store.empty.Extends store) (ht : t < Gate.all.length) :
    store.types[t]? = some (CellType.ofGate Gate.all[t]) := by
  refine gates.types t _ ?_
  rw [types_empty, List.getElem?_map, List.getElem?_eq_getElem ht]
  rfl

/-- Every gate has its own type. -/
lemma Extends.type_of_gate (gates : Store.empty.Extends store) (g : Gate) :
    store.types[g.position]? = some (CellType.ofGate g) := by
  obtain ⟨hlt, hg⟩ := List.getElem?_eq_some_iff.1 (Gate.all_getElem?_position g)
  rw [gates.type_of_lt hlt, hg]

/-- The types of the first store are the gates. -/
lemma exists_gate_of_mem (h : type ∈ Store.empty.types) : ∃ g ∈ Gate.all, CellType.ofGate g = type := by
  obtain ⟨i, hi⟩ := h
  rw [types_empty] at hi
  exact List.mem_map.1 (List.mem_of_getElem? hi)

lemma Extends.admits_gate (gates : Store.empty.Extends store) (g : Gate) {links : List Link}
    (arity : (CellType.ofGate g).accepts links.length = true) :
    store.Admits ⟨.ofGate g, links⟩ (CellType.ofGate g) :=
  ⟨gates.type_of_gate g, rfl, arity⟩

/-- A network of gates is at home in every store if it is so in one. -/
lemma Hosts.of_gates (hosts : store.Hosts net) (gates : Store.empty.Extends store)
    (built : ∀ c ∈ net.cells, ∃ g, c.kind = .ofGate g) {other : Store}
    (gates' : Store.empty.Extends other) : other.Hosts net := by
  intro c hc
  obtain ⟨g, hg⟩ := built c hc
  obtain ⟨type, admits⟩ := hosts c hc
  have htype : store.types[c.kind.type]? = other.types[c.kind.type]? := by
    rw [hg]
    exact (gates.type_of_gate g).trans (gates'.type_of_gate g).symm
  exact ⟨type, htype ▸ admits.listed, admits.symbol, admits.arity⟩

/-! ## Crossed wires -/

/-- A network without entries. -/
def hollow : Subnet := ⟨#[], 0, 0, rfl⟩

/-- Two wires that cross. -/
def crossing : Subnet where
  cells := #[.input, .input, .output (.of 1), .output (.of 0)]
  numInputs := 2
  numOutputs := 2
  valid := by decide

/-- A type of buffers that is not the built-in one. -/
def repeater : CellType where
  name := "repeater"
  symbol := .gate .buf
  minInputs := 1
  maxInputs := 1
  numPorts := 1
  traits := Gate.buf.traits

/-- A store with the crossing and the repeater as types of cells. -/
def crossingStore : Store :=
  (((Store.empty.addSubnet crossing).1.addComposite "cross" 0 crossing none).1.addType repeater).1

/-- A crossing as one cell, one of its ports repeated and the other one complemented. -/
def crossed : Subnet where
  cells := #[.input, .input, ⟨⟨.cell, 13⟩, [.of 1, (Link.of 0).invert]⟩,
    ⟨⟨.gate .buf, 14⟩, [{ entry := 2, port := 1 }]⟩, .output (.of 3), .output (Link.of 2).invert]
  numInputs := 2
  numOutputs := 2
  valid := by decide

lemma gates_crossingStore : Store.empty.Extends crossingStore :=
  ((Extends.addSubnet _ _).trans (.addType _ _)).trans (.addType _ _)

lemma type_crossingStore : crossingStore.types[13]? = some {
    name := "cross"
    symbol := .cell
    minInputs := 2
    maxInputs := 2
    numPorts := 2
    traits := { combinational := true }
    implementation := some 0 } := by
  rw [crossingStore, types_addType, addComposite, types_addType]
  rfl

lemma type_repeater : crossingStore.types[14]? = some repeater := by
  rw [crossingStore, types_addType, addComposite, types_addType]
  rfl

/-- A type of constants whose cells may have an operand. -/
def tie : CellType where
  name := "tie"
  symbol := .gate .zero
  minInputs := 0
  maxInputs := 1
  numPorts := 1
  traits := Gate.zero.traits

/-- A type of buffers whose cells may have no operand. -/
def stub : CellType where
  name := "stub"
  symbol := .gate .buf
  minInputs := 0
  maxInputs := 1
  numPorts := 1
  traits := Gate.buf.traits

/-- A type of cells that nothing implements. -/
def box : CellType where
  name := "box"
  symbol := .cell
  minInputs := 2
  maxInputs := 2
  numPorts := 1
  traits := { combinational := true }

/-- A cell that nothing implements. -/
def boxed : Subnet where
  cells := #[.input, .input, ⟨box.kindAt 13, [.of 0, .of 1]⟩, .output (.of 2)]
  numInputs := 2
  numOutputs := 1
  valid := by decide

/-- A store with this cell as the implementation of another type. -/
def veiledStore : Store :=
  (((Store.empty.addType box).1.addSubnet boxed).1.addComposite "veil" 0 boxed none).1

/-- A cell that is implemented by a cell that is not. -/
def veiled : Subnet where
  cells := #[.input, .input, ⟨⟨.cell, 14⟩, [.of 0, .of 1]⟩, .output (.of 2)]
  numInputs := 2
  numOutputs := 1
  valid := by decide

/-- A conjunction of an input with a constant that reads another input. -/
def tied : Subnet where
  cells := #[.input, .input, ⟨tie.kindAt 13, [.of 0]⟩, ⟨.ofGate .and, [.of 2, .of 1]⟩,
    .output (.of 3)]
  numInputs := 2
  numOutputs := 1
  valid := by decide

/-- A conjunction of an input with a buffer that reads nothing. -/
def stubbed : Subnet where
  cells := #[.input, ⟨stub.kindAt 13, []⟩, ⟨.ofGate .and, [.of 0, .of 1]⟩, .output (.of 2)]
  numInputs := 1
  numOutputs := 1
  valid := by decide

lemma hosts_crossing : Store.empty.Hosts crossing := by
  intro c hc
  have hcells : c = .input ∨ c = .input ∨ c = .output (.of 1) ∨ c = .output (.of 0) := by
    simpa [crossing] using hc
  have gates := Extends.refl Store.empty
  rcases hcells with rfl | rfl | rfl | rfl
  · exact ⟨_, gates.admits_gate .input rfl⟩
  · exact ⟨_, gates.admits_gate .input rfl⟩
  · exact ⟨_, gates.admits_gate .output rfl⟩
  · exact ⟨_, gates.admits_gate .output rfl⟩

lemma hosts_crossed : crossingStore.Hosts crossed := by
  intro c hc
  have hcells : c = .input ∨ c = .input ∨
      c = ⟨⟨.cell, 13⟩, [.of 1, (Link.of 0).invert]⟩ ∨
      c = ⟨⟨.gate .buf, 14⟩, [{ entry := 2, port := 1 }]⟩ ∨
      c = .output (.of 3) ∨ c = .output (Link.of 2).invert := by
    simpa [crossed] using hc
  rcases hcells with rfl | rfl | rfl | rfl | rfl | rfl
  · exact ⟨_, gates_crossingStore.admits_gate .input rfl⟩
  · exact ⟨_, gates_crossingStore.admits_gate .input rfl⟩
  · exact ⟨_, type_crossingStore, rfl, rfl⟩
  · exact ⟨_, type_repeater, rfl, rfl⟩
  · exact ⟨_, gates_crossingStore.admits_gate .output rfl⟩
  · exact ⟨_, gates_crossingStore.admits_gate .output rfl⟩

lemma type_veiledStore : veiledStore.types[14]? = some (.ofSubnet "veil" 0 boxed none) := by
  rw [veiledStore, addComposite, types_addType]
  rfl

lemma cells_veiled : ∀ c ∈ veiled.cells, c = .input ∨ c = ⟨⟨.cell, 14⟩, [.of 0, .of 1]⟩ ∨
    c = .output (.of 2) := by
  simp [veiled]

lemma hosts_veiled : veiledStore.Hosts veiled := by
  have gates : Store.empty.Extends veiledStore :=
    ((Extends.addType _ _).trans (.addSubnet _ _)).trans (.addType _ _)
  intro c hc
  rcases cells_veiled c hc with rfl | rfl | rfl
  · exact ⟨_, gates.admits_gate .input rfl⟩
  · exact ⟨_, type_veiledStore, rfl, rfl⟩
  · exact ⟨_, gates.admits_gate .output rfl⟩

lemma implemented_veiled : ∀ c ∈ veiled.cells,
    (∀ l ∈ c.links, l.port = 0) ∧ veiledStore.Implemented c := by
  intro c hc
  rcases cells_veiled c hc with rfl | rfl | rfl
  · exact ⟨List.forall_mem_nil _, by rintro ⟨⟩⟩
  · refine ⟨by decide, fun _ => ⟨0, boxed, ?_, ?_, rfl, Nat.one_pos⟩⟩
    · rw [implementation?, type_veiledStore]
      rfl
    · rw [veiledStore, addComposite, subnets_addType]
      rfl
  · exact ⟨by decide, by rintro ⟨⟩⟩

lemma hosts_tied : (Store.empty.addType tie).1.Hosts tied := by
  intro c hc
  have hcells : c = .input ∨ c = .input ∨ c = ⟨tie.kindAt 13, [.of 0]⟩ ∨
      c = ⟨.ofGate .and, [.of 2, .of 1]⟩ ∨ c = .output (.of 3) := by
    simpa [tied] using hc
  have gates := Extends.addType Store.empty tie
  rcases hcells with rfl | rfl | rfl | rfl | rfl
  · exact ⟨_, gates.admits_gate .input rfl⟩
  · exact ⟨_, gates.admits_gate .input rfl⟩
  · exact ⟨tie, getElem?_addType _ tie, rfl, rfl⟩
  · exact ⟨_, gates.admits_gate .and rfl⟩
  · exact ⟨_, gates.admits_gate .output rfl⟩

lemma hosts_stubbed : (Store.empty.addType stub).1.Hosts stubbed := by
  intro c hc
  have hcells : c = .input ∨ c = ⟨stub.kindAt 13, []⟩ ∨ c = ⟨.ofGate .and, [.of 0, .of 1]⟩ ∨
      c = .output (.of 2) := by
    simpa [stubbed] using hc
  have gates := Extends.addType Store.empty stub
  rcases hcells with rfl | rfl | rfl | rfl
  · exact ⟨_, gates.admits_gate .input rfl⟩
  · exact ⟨stub, getElem?_addType _ stub, rfl, rfl⟩
  · exact ⟨_, gates.admits_gate .and rfl⟩
  · exact ⟨_, gates.admits_gate .output rfl⟩

end Store

end Gatework
