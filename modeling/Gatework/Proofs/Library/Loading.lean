import Mathlib.Tactic.IntervalCases
import Gatework.Library.Basic
import Gatework.Proofs.Npn.Transform
import Gatework.Proofs.Synthesis.SumOfProducts

/-!
# Loaded cells are composites that compute their functions

Loading a cell synthesizes its function, stores the network and registers a composite that is
implemented by it.  The network consists of gates only (`exists_implementation`), so the composite can be
evaluated wherever the store grows to.  What every registration keeps is true of a loaded library
(`ofBytes_keeps`).

**Main statement.** `Library.installed_ofBytes`.
-/

namespace Gatework

/-- A cell complements its only input. -/
def LibraryCell.Complements (c : LibraryCell) : Prop :=
  c.inputs = 1 ∧ ∀ σ, c.function.value (encode c.inputs σ) = !σ 0

/-- A cell of a library is a composite of the store with as many inputs as the cell, and the network
that implements it computes the function of the cell. -/
structure LibraryCell.Installed (store : Store) (c : LibraryCell) : Prop where
  type : ∃ t, store.types[c.type]? = some t ∧ t.symbol = .cell ∧
    t.implementation = some c.implementation ∧
    ∀ arity, t.accepts arity = true ↔ arity = c.inputs
  implementation : ∃ net, store.subnets[c.implementation]? = some net ∧
    net.numInputs = c.inputs ∧ net.numOutputs = 1 ∧ store.NetBelow c.implementation net ∧
    ∀ m σ, net.outputValues m σ = [c.function.value (encode c.inputs σ)]

/-- All cells of a library are installed, and its inverter complements its input. -/
structure Library.Installed (store : Store) (l : Library) : Prop where
  cells : ∀ c ∈ l.cells, c.Installed store
  inverter : ∀ i, l.inverter = some i → ∃ c, l.cells[i]? = some c ∧ Library.isInverter c = true

namespace LibraryCell

variable {store store' : Store} {c : LibraryCell} {links : List Link}

lemma Installed.extends (h : c.Installed store) (grows : store.Extends store') :
    c.Installed store' where
  type := by
    obtain ⟨t, htype, rest⟩ := h.type
    exact ⟨t, grows.types _ t htype, rest⟩
  implementation := by
    obtain ⟨net, hnet, hin, hout, below, values⟩ := h.implementation
    exact ⟨net, grows.subnets _ net hnet, hin, hout, grows.netBelow below, values⟩

lemma Installed.implementation?_eq (h : c.Installed store) :
    store.implementation? c.type = some c.implementation := by
  obtain ⟨t, htype, -, himpl, -⟩ := h.type
  simp [Store.implementation?, htype, himpl]

/-- A cell of the type of an installed cell shows the function of its operands. -/
lemma Installed.ports_eq (h : c.Installed store) (operands : List Bool) :
    store.ports c.type operands =
      [c.function.value (encode c.inputs fun j => operands.getD j false)] := by
  obtain ⟨net, hnet, -, -, -, values⟩ := h.implementation
  have hlt := Arena.lt_size_of_getElem? hnet
  rw [Store.ports, Store.portsBelow_eq h.implementation?_eq hlt hnet, values]

/-- A cell of the type of an installed cell with enough operands can be evaluated. -/
lemma Installed.regular (h : c.Installed store) (hlength : links.length = c.inputs)
    (ports : ∀ l ∈ links, l.port = 0) : store.Regular True ⟨⟨.cell, c.type⟩, links⟩ := by
  obtain ⟨net, hnet, hin, hout, below, -⟩ := h.implementation
  refine ⟨ports, fun _ => (Store.evaluableBelow_composite rfl).2 ?_, fun _ hconst => nomatch hconst⟩
  exact ⟨c.implementation, net, h.implementation?_eq, hnet, hin.trans hlength.symm,
    hout.symm ▸ Nat.one_pos, Arena.lt_size_of_getElem? hnet, below⟩

/-- An inverter is told by its function. -/
lemma isInverter_iff : Library.isInverter c = true ↔ c.Complements := by
  obtain ⟨name, type, implementation, inputs, function, costs⟩ := c
  simp only [Library.isInverter, Bool.and_eq_true, beq_iff_eq]
  refine and_congr_right fun hinputs => ?_
  subst hinputs
  constructor
  · intro hone σ
    have hvalue : function.value (encode 1 σ) = (1 : Nat).testBit (encode 1 σ) :=
      congrArg (Nat.testBit · (encode 1 σ)) hone
    have hbit : σ 0 = (encode 1 σ).testBit 0 := (testBit_encode Nat.one_pos).symm
    have hlt : encode 1 σ < 2 := encode_lt 1 σ
    rw [hvalue, hbit]
    interval_cases encode 1 σ <;> rfl
  · intro hvalue
    have hfunction : function = ⟨1⟩ := TruthTable.ext_value fun x hx => by
      rw [← encode_testBit hx, hvalue, encode_testBit hx]
      interval_cases x <;> rfl
    rw [hfunction]
    rfl

end LibraryCell

namespace Library

variable {store store' : Store} {l l' : Library} {d : CellDescription} {c : LibraryCell}

lemma Installed.extends (h : l.Installed store) (grows : store.Extends store') :
    l.Installed store' :=
  ⟨fun c hc => (h.cells c hc).extends grows, h.inverter⟩

lemma installed_empty (store : Store) : Installed store {} :=
  ⟨fun c hc => by simp at hc, fun i hi => by cases hi⟩

lemma Installed.push (h : l.Installed store) (hc : c.Installed store) : (l.push c).Installed store where
  cells e he := by
    rcases Array.mem_push.1 he with he | rfl
    · exact h.cells e he
    · exact hc
  inverter i hi := by
    have old : l.inverter = some i → ∃ e, (l.push c).cells[i]? = some e ∧ isInverter e = true := by
      intro hi
      obtain ⟨e, he, inverts⟩ := h.inverter i hi
      have hlt := (Array.getElem?_eq_some_iff.1 he).1
      exact ⟨e, by rw [Library.push, Array.getElem?_push_lt hlt, ← he, Array.getElem?_eq_getElem hlt],
        inverts⟩
    simp only [Library.push] at hi
    split at hi
    · rename_i hinverter
      cases hi
      exact ⟨c, by simp [Library.push], (Bool.and_eq_true_iff.1 hinverter).1⟩
    · exact old hi

/-- The implementation of a function of few variables consists of gates, so it can be evaluated in every
store. -/
lemma exists_implementation {n : Nat} (hn : n ≤ maxClassVariables) (f : TruthTable n) :
    ∃ net, SumOfProducts.synthesize (.of f none) implementationArity = .ok net ∧
      net.numInputs = n ∧ net.numOutputs = 1 ∧
      (∀ m σ, net.outputValues m σ = [f.value (encode n σ)]) ∧
      ∀ (store : Store) limit, store.NetBelow limit net := by
  have hvariables : n ≤ Cube.maxVariables := hn.trans (by decide)
  have harity : 2 ^ n ≤ maxArity + 1 := (Nat.pow_le_pow_right (by decide) hn).trans (by decide)
  have made := fun m => @SumOfProducts.exists_synthesize n implementationArity .bare m hvariables
    (.inr harity) _ (Requirement.consistent_of f none)
  obtain ⟨net, g, hnet, meets, hin, hout, -, regular⟩ := made fun _ _ => []
  obtain rfl := meets.eq
  refine ⟨net, hnet, hin, hout, fun m σ => ?_, fun store limit => ?_⟩
  · obtain ⟨net', g', hnet', meets', -, -, values, -⟩ := made m
    obtain rfl := meets'.eq
    cases hnet.symm.trans hnet'
    exact values σ
  · have grows : Store.bare.Extends store := ⟨fun i t h => (nomatch h), fun i e h => (nomatch h)⟩
    intro j e he hinput
    obtain ⟨below, range⟩ := grows.netBelow (Store.evaluable_of_regular regular) j e he hinput
    exact ⟨below.mono (Nat.zero_le _), range⟩

/-- A cell that is registered is installed, and nothing else changes. -/
lemma installed_register {function : TruthTable d.inputs.length} (h : l.Installed store)
    (hn : d.inputs.length ≤ maxClassVariables)
    (hregister : l.register store d function = .ok (store', l')) :
    store.Extends store' ∧ l'.Installed store' := by
  obtain ⟨net, hnet, hin, hout, values, below⟩ := exists_implementation hn function
  rw [register, hnet, ok_bind] at hregister
  cases hregister
  have stored := Store.Extends.addSubnet store net
  have typed := Store.Extends.addType (store.addSubnet net).1 {
    name := d.name
    symbol := .cell
    minInputs := net.numInputs % Store.pinLimit
    maxInputs := net.numInputs % Store.pinLimit
    numPorts := net.numOutputs % Store.pinLimit
    traits := { combinational := true }
    implementation := some store.subnets.size
    costs := some d.costs }
  refine ⟨stored.trans typed, (h.extends (stored.trans typed)).push ⟨?_, ?_⟩⟩
  · have hmod : net.numInputs % Store.pinLimit = d.inputs.length := by
      rw [hin]
      exact Nat.mod_eq_of_lt (hn.trans_lt (by decide))
    refine ⟨_, Store.getElem?_addType .., rfl, rfl, fun arity => ?_⟩
    simp only [CellType.accepts, hmod, Bool.and_eq_true, decide_eq_true_eq]
    omega
  · exact ⟨net, typed.subnets _ net (by simp [Store.addSubnet]), hin, hout, below _ _, values⟩

/-- A registration appends a cell. -/
lemma exists_push_of_register {function : TruthTable d.inputs.length}
    (h : l.register store d function = .ok (store', l')) :
    ∃ c : LibraryCell, c.inputs = d.inputs.length ∧ c.costs = d.costs ∧ l' = l.push c := by
  obtain ⟨net, -, h⟩ := bind_eq_ok_iff.1 h
  cases h
  exact ⟨_, rfl, rfl, rfl⟩

/-- What every registration keeps holds of the cells that are loaded, also of those in front of a cell
with a flaw. -/
lemma registerAll_keeps {P : Store → Library → Prop}
    (step : ∀ {s l d f s' l'}, flaw? s d = none → P s l → register l s d f = .ok (s', l') → P s' l')
    {ds : List CellDescription} {result : Except LoadError Library} (h : P store l)
    (hload : registerAll store l ds = .ok (store', result)) :
    ∃ l', P store' l' ∧ ∀ library, result = .ok library → library = l' := by
  induction ds generalizing store l with
  | nil =>
      cases hload
      refine ⟨l, h, ?_⟩
      rintro _ ⟨⟩
      rfl
  | cons d ds ih =>
      rw [registerAll] at hload
      split at hload
      · rename_i function hflaw htable
        obtain ⟨⟨store₁, l₁⟩, hregister, hload⟩ := bind_eq_ok_iff.1 hload
        exact ih (step hflaw h hregister) hload
      · cases hload
        exact ⟨l, h, nofun⟩

/-- What holds without cells and is kept by every registration holds of a library that is read from a
file. -/
lemma ofBytes_keeps {P : Store → Library → Prop}
    (step : ∀ {s l d f s' l'}, flaw? s d = none → P s l → register l s d f = .ok (s', l') → P s' l')
    {file : List UInt8} (start : P store {}) (h : ofBytes store file = .ok (store', .ok l)) :
    P store' l := by
  unfold ofBytes at h
  split at h
  · obtain ⟨l', hl', heq⟩ := registerAll_keeps step start h
    exact heq l rfl ▸ hl'
  · cases h

lemma length_inputs_of_flaw? (h : flaw? store d = none) : d.inputs.length ≤ maxClassVariables := by
  by_contra hlt
  rw [flaw?, CellDescription.flaw?, if_pos (Nat.not_le.1 hlt)] at h
  cases h

/-- A library that is read from a file is installed. -/
theorem installed_ofBytes {file : List UInt8}
    (h : ofBytes store file = .ok (store', .ok l)) : l.Installed store' :=
  ofBytes_keeps (fun hflaw h hregister =>
    (installed_register h (length_inputs_of_flaw? hflaw) hregister).2) (installed_empty store) h

/-! ## Delays -/

/-- A cell without flaws has a delay for each pin. -/
lemma length_delay_of_flaw? (h : flaw? store d = none) : d.costs.delay.length = d.inputs.length := by
  by_contra hlength
  simp only [flaw?, CellDescription.flaw?, if_neg hlength] at h
  split at h
  · cases h
  · split at h
    · cases h
    · cases h

/-- The cells of a library that is read from a file have a delay for each pin. -/
theorem length_delay_ofBytes {file : List UInt8}
    (h : ofBytes store file = .ok (store', .ok l)) : ∀ c ∈ l.cells, c.costs.delay.length = c.inputs := by
  refine ofBytes_keeps (P := fun _ l => ∀ c ∈ l.cells, c.costs.delay.length = c.inputs)
    (fun hflaw h hregister => ?_) (by simp) h
  obtain ⟨e, hinputs, hcosts, rfl⟩ := exists_push_of_register hregister
  intro c hc
  rcases Array.mem_push.1 hc with hc | rfl
  · exact h c hc
  · rw [hinputs, hcosts]
    exact length_delay_of_flaw? hflaw

/-! ## Libraries of one cell -/

/-- What describes a single cell. -/
lemma describe_single {file : List UInt8} {name table : String} {inputs : List String} {area : Float32}
    {delay rise fall : List Float32} (hread : (describe file).map (·.map fun d =>
      ((d.name, d.inputs, d.table), [[d.costs.area], d.costs.delay, d.costs.risePower, d.costs.fallPower])) =
        .ok [((name, inputs, table), [[area], delay, rise, fall])]) :
    describe file = .ok [⟨name, inputs, table, ⟨area, delay, rise, fall⟩⟩] := by
  obtain ⟨ds, hdescribe, hds⟩ := map_eq_ok_iff.1 hread
  obtain ⟨⟨name, inputs, table, area, delay, rise, fall⟩, rfl, hd⟩ :=
    List.map_eq_singleton_iff.1 hds
  simp only [Prod.mk.injEq, List.cons.injEq, and_true] at hd
  obtain ⟨⟨rfl, rfl, rfl⟩, rfl, rfl, rfl, rfl⟩ := hd
  exact hdescribe

/-- An empty store loads a single cell, whose type comes behind the gates. -/
lemma exists_single {file : List UInt8} {d : CellDescription} {f : TruthTable d.inputs.length}
    (hdescribe : describe file = .ok [d]) (flawless : flaw? .empty d = none)
    (table : TruthTable.ofHex? d.inputs.length d.table = some f) : ∃ store, ofBytes .empty file =
      .ok (store, .ok (.push {} ⟨d.name, 13, 0, d.inputs.length, f, d.costs⟩)) := by
  obtain ⟨net, hnet, -⟩ := exists_implementation (length_inputs_of_flaw? flawless) f
  have htype : ((Store.empty.addSubnet net).1.addComposite d.name (Store.empty.addSubnet net).2 net
      (some d.costs)).2 = 13 := by
    rw [Store.addComposite, Store.addType, Store.registerType_position, Store.types_intern]
    rfl
  rw [ofBytes, hdescribe]
  simp only [registerAll, flawless, table, register, hnet, ok_bind, htype]
  exact ⟨_, rfl⟩

end Library

namespace Store

/-- A library with an inverter only: its name, its inputs, its function, its area and its delays. -/
def inverterFile : List UInt8 :=
  "[[[\"inv\",[\"a\"],\"1\",1,[1]]]]".toList.map fun c => .ofNat c.toNat

/-- A library with a difference only: its first input, but not the second one. -/
def differenceFile : List UInt8 :=
  "[[[\"diff2\",[\"a\",\"b\"],\"2\",2,[1,1]]]]".toList.map fun c => .ofNat c.toNat

/-- The difference, as the first cell that an empty store loads. -/
def difference : LibraryCell := ⟨"diff2", 13, 0, 2, ⟨0b0010⟩, ⟨2, [1, 1], [], []⟩⟩

def differences : Library := .push {} difference

lemma describe_inverterFile :
    Library.describe inverterFile = .ok [⟨"inv", ["a"], "1", ⟨1, [1], [], []⟩⟩] :=
  Library.describe_single (by decide +kernel)

lemma describe_differenceFile :
    Library.describe differenceFile = .ok [⟨"diff2", ["a", "b"], "2", ⟨2, [1, 1], [], []⟩⟩] :=
  Library.describe_single (by decide +kernel)

/-- The difference is loaded. -/
lemma exists_differences :
    ∃ store, Library.ofBytes .empty differenceFile = .ok (store, .ok differences) :=
  Library.exists_single describe_differenceFile (by decide +kernel) (by cbv)

end Store

end Gatework
