import Gatework.Proofs.Simulation

/-!
# Evaluating what was decoded

Reading a network checks the number of operands of every cell and the order of the entries.  It does not
check that a link reads a port that its driver has, the pin counts of a composite are cut to sixteen bits, and
a type that was registered under the symbol of a buffer may take no operand.  So what is read can be
evaluated exactly where these gaps do not matter.

* `Layered.tabulate_iff`: over a layered store, a network has tables exactly if it is wired with all of
  its parts.
* `Coherent.wired_iff`: a network of cells that the store has types for is wired if the links read ports
  that are there, and the implementations are there and have few enough inputs.

**Main statement.** `Session.Reached.decoded_evaluates`.
-/

namespace Gatework

lemma Gate.isUnary_iff {g : Gate} : g.isUnary = true ↔ g = .buf ∨ g = .not ∨ g = .output := by
  cases g <;> simp [isUnary]

/-- A simulation needs a signal for every input. -/
lemma Subnet.length_of_simulate {net : Subnet} {composite : CompositeMeaning} {width : Nat}
    {stimulus : List Signal} {values : Array Ports}
    (h : net.simulate composite width stimulus = .ok values) : stimulus.length = net.numInputs := by
  unfold simulate at h
  split at h
  · assumption
  · cases h

namespace Store

/-- A network is simulated over the composites of a store. -/
def Simulates (store : Store) (width : Nat) (net : Subnet) : Prop :=
  ∃ stimulus values, net.simulate (store.meaning width) width stimulus = .ok values

variable {store : Store} {net : Subnet} {width : Nat} {c : Cell}

/-- What the evaluation of a cell shows about it: its links can be read, and the implementation of a
composite is simulated, with as many inputs as the cell has links. -/
structure Shows (store : Store) (width : Nat) (cells : Array Cell) (c : Cell) : Prop where
  ports : store.InRange cells c
  operands : ∀ g, c.kind.symbol = .gate g → g.isUnary = true → c.links ≠ []
  implemented : c.kind.symbol = .cell → ∃ i part, store.implementation? c.kind.type = some i ∧
    store.subnets[i]? = some part ∧ part.numInputs = c.links.length ∧ store.Simulates width part

/-- The entries in front were evaluated, and have as many ports as their cells. -/
structure Traced (store : Store) (width : Nat) (net : Subnet) (values : Array Ports) : Prop where
  count : ∀ (j : Nat) ports, values[j]? = some ports → ∀ d, net.cells[j]? = some d →
    ports.length = store.numPorts d.kind
  shows : ∀ j < values.size, ∀ d, net.cells[j]? = some d → d.isInput = false →
    store.Shows width net.cells d

lemma isInput_of_composite (hkind : c.kind.symbol = .cell) : c.isInput = false := by
  simp [Cell.isInput, hkind]

lemma exists_of_meaning_eq_ok {t : Nat} {operands : List Signal} {ports : Ports}
    (h : store.meaning width t operands = .ok ports) :
    ∃ i part, store.implementation? t = some i ∧ store.subnets[i]? = some part := by
  rw [meaning, meaningBelow] at h
  split at h
  · cases h
  rename_i type htype
  split at h
  · cases h
  rename_i i himpl
  split at h
  case isFalse => cases h
  split at h
  · cases h
  rename_i part hpart
  exact ⟨i, part, (implementation?_of_type htype).trans himpl, hpart⟩

/-- A gate that shows its first operand is not evaluated without one. -/
lemma ne_nil_of_signal_eq_ok {g : Gate} {operands : List Signal} {s : Signal}
    (h : g.signal width operands = .ok s) (hunary : g.isUnary = true) : operands ≠ [] := by
  rintro rfl
  obtain ⟨t, ht, -⟩ := map_eq_ok_iff.1 h
  rcases Gate.isUnary_iff.1 hunary with rfl | rfl | rfl <;> cases ht

/-- The ports that are read are there. -/
lemma inRange_of_mapM {values : Array Ports} {operands : List Signal}
    (count : ∀ (j : Nat) ports, values[j]? = some ports → ∀ d, net.cells[j]? = some d →
      ports.length = store.numPorts d.kind)
    (h : c.links.mapM (readEntry values) = .ok operands) : store.InRange net.cells c := by
  intro l hl d hd
  obtain ⟨s, -, hs⟩ := exists_of_forall₂_right (forall₂_of_mapM_eq_ok h).flip l hl
  unfold readEntry at hs
  split at hs
  · rename_i ports hports
    rw [← count _ ports hports d hd]
    unfold Ports.read at hs
    split at hs
    · rename_i t ht
      exact (List.getElem?_eq_some_iff.1 ht).1
    · cases hs
  · cases hs

namespace Layered

variable (layered : store.Layered)
include layered

/-- What is evaluated has its ports, and a composite is evaluated by simulating its implementation. -/
lemma shows_of_evaluate {operands : List Signal} {ports : Ports}
    (inRange : store.InRange net.cells c) (hlength : operands.length = c.links.length)
    (h : c.evaluate (store.meaning width) width operands = .ok ports) :
    ports.length = store.numPorts c.kind ∧ store.Shows width net.cells c := by
  cases hkind : c.kind.symbol with
  | gate g =>
      simp only [Cell.evaluate, hkind] at h
      obtain ⟨s, hs, rfl⟩ := map_eq_ok_iff.1 h
      refine ⟨by simp [numPorts, hkind], inRange, fun g' hg hunary => ?_, fun ht => ?_⟩
      · cases hkind.symm.trans hg
        have hne := ne_nil_of_signal_eq_ok hs hunary
        exact List.ne_nil_of_length_pos (hlength ▸ List.length_pos_of_ne_nil hne)
      · cases hkind.symm.trans ht
  | cell =>
      simp only [Cell.evaluate, hkind] at h
      obtain ⟨i, part, himpl, hpart⟩ := exists_of_meaning_eq_ok h
      rw [layered.meaning_eq himpl hpart] at h
      obtain ⟨values, hvalues, h⟩ := bind_eq_ok_iff.1 h
      refine ⟨?_, inRange, fun g hg => ?_, fun _ => ?_⟩
      · rw [numPorts_composite hkind, himpl, Option.bind_some, hpart, Option.elim_some,
          ← (forall₂_of_mapM_eq_ok h).length_eq, Subnet.outputs, List.length_range']
      · cases hkind.symm.trans hg
      · exact ⟨i, part, himpl, hpart, (Subnet.length_of_simulate hvalues).symm.trans hlength,
          operands, values, hvalues⟩

/-- One cell more. -/
lemma traced_next {values values' : Array Ports} {stimulus : Array Signal}
    (h : store.Traced width net values) (hc : net.cells[values.size]? = some c)
    (hnext : evaluateNext (store.meaning width) width stimulus values c = .ok values') :
    store.Traced width net values' := by
  -- the new ports belong to the cell, and the old ones to the cells in front
  have push : ∀ ports : Ports, ports.length = store.numPorts c.kind →
      (c.isInput = false → store.Shows width net.cells c) →
      store.Traced width net (values.push ports) := by
    refine fun ports hports shows => ⟨fun j p hp d hd => ?_, fun j hj d hd hinput => ?_⟩
    · rw [Array.getElem?_push] at hp
      split at hp
      · rename_i hj
        cases hp
        cases (hj ▸ hd).symm.trans hc
        exact hports
      · exact h.count j p hp d hd
    · rw [Array.size_push] at hj
      rcases Nat.lt_succ_iff_lt_or_eq.1 hj with hj | rfl
      · exact h.shows j hj d hd hinput
      · cases hd.symm.trans hc
        exact shows hinput
  unfold evaluateNext at hnext
  split at hnext
  · rename_i hinput
    split at hnext
    · cases hnext
      refine push _ ?_ fun h => absurd hinput (by simp [h])
      rw [Store.numPorts_of_isInput hinput]
      rfl
    · cases hnext
  · obtain ⟨operands, hoperands, hnext⟩ := bind_eq_ok_iff.1 hnext
    obtain ⟨ports, hports, hnext⟩ := bind_eq_ok_iff.1 hnext
    cases hnext
    have inRange := inRange_of_mapM h.count hoperands
    have hlength := (forall₂_of_mapM_eq_ok hoperands).length_eq.symm
    obtain ⟨hcount, shows⟩ := layered.shows_of_evaluate inRange hlength hports
    exact push ports hcount fun _ => shows

/-- In a network that is simulated, every cell shows that it can be evaluated. -/
lemma shows_of_simulates (h : store.Simulates width net) (hc : c ∈ net.cells)
    (hinput : c.isInput = false) : store.Shows width net.cells c := by
  obtain ⟨stimulus, values, hvalues⟩ := h
  have hsize := Subnet.size_simulate hvalues
  unfold Subnet.simulate at hvalues
  split at hvalues
  case isFalse => cases hvalues
  have traced := (foldlM_invariant_along (fun done values => values.size = done.length ∧
    store.Traced width net values) ⟨rfl, by simp, by simp⟩ (by
      rintro done d rest before next hcells ⟨hsize, traced⟩ hnext
      have hd : net.cells[before.size]? = some d := by
        rw [← Array.getElem?_toList, hcells, hsize]
        simp
      exact ⟨by rw [Subnet.size_evaluateNext hnext, hsize]; simp,
        layered.traced_next traced hd hnext⟩) hvalues).2
  obtain ⟨j, hj, rfl⟩ := Array.mem_iff_getElem.1 hc
  exact traced.shows j (hsize ▸ hj) _ (Array.getElem?_eq_getElem hj) hinput

/-- A network that is simulated is wired. -/
theorem wired_of_simulates (h : store.Simulates width net) : store.Wired net where
  ports c hc hinput := (layered.shows_of_simulates h hc hinput).ports
  operands c hc g hkind hunary := by
    refine (layered.shows_of_simulates h hc ?_).operands g hkind hunary
    rw [Cell.isInput, hkind]
    rcases Gate.isUnary_iff.1 hunary with rfl | rfl | rfl <;> rfl
  implemented c hc hkind := by
    obtain ⟨i, part, himpl, hpart, hin, -⟩ :=
      (layered.shows_of_simulates h hc (isInput_of_composite hkind)).implemented hkind
    exact ⟨i, part, himpl, hpart, hin⟩

/-- With a network, its parts at any depth are simulated. -/
theorem simulates_within (h : store.Simulates width net) {part : Subnet}
    (within : store.Within part net) : store.Simulates width part := by
  induction within using Relation.ReflTransGen.head_induction_on with
  | refl => exact h
  | head isPart _ ih =>
      obtain ⟨c, hc, i, hkind, himpl, hpart⟩ := isPart
      obtain ⟨i', part', himpl', hpart', -, simulates⟩ :=
        (layered.shows_of_simulates ih hc (isInput_of_composite hkind)).implemented hkind
      cases himpl.symm.trans himpl'
      cases hpart.symm.trans hpart'
      exact simulates

/-- A network has tables exactly if it has few enough inputs and is wired with all of its parts. -/
theorem tabulate_iff :
    (∃ tables, store.tabulate net = .ok tables ∧ tables.length = net.numOutputs) ↔
      net.numInputs ≤ maxEvaluatedVariables ∧ ∀ part, store.Within part net → store.Wired part := by
  constructor
  · rintro ⟨tables, h, -⟩
    simp only [tabulate] at h
    split at h
    · cases h
    · rename_i hn
      obtain ⟨values, hvalues, -⟩ := bind_eq_ok_iff.1 h
      have simulates : store.Simulates (64 * wordCount net.numInputs) net :=
        ⟨_, values, simulate_assignments store net ▸ hvalues⟩
      exact ⟨Nat.not_lt.1 hn, fun part within =>
        layered.wired_of_simulates (layered.simulates_within simulates within)⟩
  · rintro ⟨hn, wired⟩
    obtain ⟨values, hvalues, hports⟩ := layered.exists_simulate wired length_assignments
      (signalsAt_assignments (Nat.two_pow_pos _)).width_eq
    exact exists_tabulate_of_simulate hn (hvalues ▸ simulate_assignments store net) hports

end Layered

/-! ## Networks that the store has types for -/

/-- What reading a network leaves open: the links read ports that are there, a cell that shows its operand
has one if its type is not the built-in one, every composite has an implementation, and the
implementations do not have more inputs than a pin count can tell. -/
structure Supplied (store : Store) (net : Subnet) : Prop where
  ports : ∀ c ∈ net.cells, c.isInput = false → store.InRange net.cells c
  operands : ∀ c ∈ net.cells, ∀ g, c.kind.symbol = .gate g → g.isUnary = true → c.kind ≠ .ofGate g →
    c.links ≠ []
  implemented : ∀ c ∈ net.cells, c.kind.symbol = .cell → (store.implementation? c.kind.type).isSome
  pins : ∀ part, store.IsPart part net → part.numInputs < pinLimit

/-- A composite has as many operands as its implementation has inputs, as far as a pin count can tell. -/
lemma Coherent.length_composite (coherent : store.Coherent) (takes : store.Takes c.kind c.links.length)
    (hkind : c.kind.symbol = .cell) {i : Nat} {part : Subnet}
    (himpl : store.implementation? c.kind.type = some i) (hpart : store.subnets[i]? = some part) :
    c.links.length = part.numInputs % pinLimit := by
  obtain ⟨type, htype, -, least | ⟨-, regroupable⟩, most⟩ := takes
  · obtain ⟨hleast, hmost⟩ := coherent.pins _ i type part htype
      ((implementation?_of_type htype).symm.trans himpl) hpart
    exact le_antisymm (hmost ▸ most) (hleast ▸ least)
  · rw [hkind] at regroupable
    cases regroupable

/-- For a network that the store has types for this is all that is missing. -/
theorem Coherent.wired_iff (coherent : store.Coherent) (houses : store.Houses net) :
    store.Wired net ↔ store.Supplied net := by
  constructor
  · intro wired
    refine ⟨wired.ports, fun c hc g hkind hunary _ => wired.operands c hc g hkind hunary,
      fun c hc hkind => ?_, ?_⟩
    · obtain ⟨i, -, himpl, -⟩ := wired.implemented c hc hkind
      exact Option.isSome_iff_exists.2 ⟨i, himpl⟩
    · rintro part ⟨c, hc, i, hkind, himpl, hpart⟩
      obtain ⟨i', part', himpl', hpart', hin⟩ := wired.implemented c hc hkind
      cases himpl.symm.trans himpl'
      cases hpart.symm.trans hpart'
      rw [hin, coherent.length_composite (houses c hc) hkind himpl hpart]
      exact Nat.mod_lt _ (by decide)
  · intro supplied
    refine ⟨supplied.ports, fun c hc g hkind hunary => ?_, fun c hc hkind => ?_⟩
    · by_cases hgate : c.kind = .ofGate g
      · have takes := houses c hc
        rw [hgate, coherent.gates.takes_gate_iff] at takes
        have one : g.arity.1 = 1 := by
          rcases Gate.isUnary_iff.1 hunary with rfl | rfl | rfl <;> rfl
        exact List.ne_nil_of_length_pos (Nat.one_pos.trans_le (one.symm.trans_le takes.1))
      · exact supplied.operands c hc g hkind hunary hgate
    · obtain ⟨i, himpl⟩ := Option.isSome_iff_exists.1 (supplied.implemented c hc hkind)
      have hpart := Arena.getElem?_eq_getElem (coherent.layered.stored _ i himpl)
      refine ⟨i, _, himpl, hpart, ?_⟩
      have hlt := supplied.pins _ ⟨c, hc, i, hkind, himpl, hpart⟩
      rw [coherent.length_composite (houses c hc) hkind himpl hpart, Nat.mod_eq_of_lt hlt]

/-- The parts of a network are stored, so the store has types for them too. -/
lemma Coherent.houses_within (coherent : store.Coherent) (houses : store.Houses net) {part : Subnet}
    (within : store.Within part net) : store.Houses part := by
  rcases within.cases_head with rfl | ⟨whole, ⟨_, _, _, _, _, hpart⟩, -⟩
  · exact houses
  · exact coherent.houses part (Arena.mem_of_getElem? hpart)

/-- What is decoded is made over the store and added to it. -/
lemma makes_of_decoded {store' : Store}
    (decoded : (∃ text, store.loadText text = (store', .ok net)) ∨
      ∃ bytes, store.loadBytes bytes = (store', .ok net)) :
    store.Makes net ∧ store' = (store.addSubnet net).1 := by
  rcases decoded with ⟨text, h⟩ | ⟨bytes, h⟩
  · unfold loadText at h
    split at h
    · rename_i hread
      cases h
      exact ⟨.text hread, rfl⟩
    · cases h
  · unfold loadBytes at h
    split at h
    · rename_i hread
      cases h
      unfold readBytes at hread
      split at hread
      · exact ⟨.image hread, rfl⟩
      · cases hread
    · cases h

end Store

namespace Session

open Store

variable {s : Session}

/-- A network that was decoded in a session, from a text or from bytes, has a table for every output
exactly if it has few enough inputs and these four things hold of it and of its parts: every link reads a
port that its driver has, no cell of a type that was registered under the symbol of a buffer, a complement
or an output is without operands, every composite has an implementation, and no implementation has more
inputs than a pin count can tell. -/
theorem Reached.decoded_evaluates (h : s.Reached) {store : Store} {net : Subnet}
    (decoded : (∃ text, s.store.loadText text = (store, .ok net)) ∨
      ∃ bytes, s.store.loadBytes bytes = (store, .ok net)) :
    (∃ tables, store.tabulate net = .ok tables ∧ tables.length = net.numOutputs) ↔
      net.numInputs ≤ maxEvaluatedVariables ∧
        ∀ part, store.Within part net → store.Supplied part := by
  obtain ⟨made, rfl⟩ := makes_of_decoded decoded
  have after : (s.withStore (s.store.addSubnet net).1).Reached := h.tail (.network made)
  have coherent : (s.store.addSubnet net).1.Coherent := after.sound.store
  have houses : (s.store.addSubnet net).1.Houses net :=
    coherent.houses net (by simp [Store.addSubnet])
  rw [coherent.layered.tabulate_iff]
  refine and_congr_right fun _ => forall_congr' fun part => imp_congr_right fun within => ?_
  exact coherent.wired_iff (coherent.houses_within houses within)

/-- The crossing is read as a cell, and its wires are evaluated. -/
theorem Reached.decoded_evaluates_crossed :
    crossingStore.loadText (crossingStore.render crossed) = (crossedWires.store, .ok crossed) ∧
      ∃ tables, crossedWires.store.tabulate crossed = .ok tables ∧ tables.length = 2 := by
  have decoded : crossingStore.loadText (crossingStore.render crossed) =
      (crossedWires.store, .ok crossed) := by
    have legible : ∀ c ∈ crossed.cells, crossingStore.Legible c := fun c hc =>
      ⟨hosts_crossed c hc, spells_crossed c hc⟩
    rw [loadText, read_render legible (by decide)]
    rfl
  refine ⟨decoded, (reached_crossing.decoded_evaluates (.inl ⟨_, decoded⟩)).2
    ⟨by decide, fun part within => ?_⟩⟩
  have coherent := reached_crossedWires.sound.store
  have houses : crossedWires.store.Houses crossed :=
    coherent.houses crossed (by simp [subnets_crossedWires])
  exact (coherent.wired_iff (coherent.houses_within houses within)).1 (wired_within_crossed within)

/-! ## A port that is not there -/

/-- A buffer that reads the second port of an input. -/
def skewed : Subnet where
  cells := #[.input, ⟨.ofGate .buf, [{ entry := 0, port := 1 }]⟩, .output (.of 0)]
  numInputs := 1
  numOutputs := 1
  valid := by decide

lemma mem_skewed {c : Cell} (hc : c ∈ skewed.cells) :
    c = .input ∨ c = ⟨.ofGate .buf, [{ entry := 0, port := 1 }]⟩ ∨ c = .output (.of 0) := by
  simpa [skewed] using hc

lemma legible_skewed : ∀ c ∈ skewed.cells, Store.empty.Legible c := by
  intro c hc
  rcases mem_skewed hc with rfl | rfl | rfl
  · exact ⟨⟨_, (Extends.refl _).admits_gate .input rfl⟩, spells_gate .input⟩
  · exact ⟨⟨_, (Extends.refl _).admits_gate .buf rfl⟩, spells_gate .buf⟩
  · exact ⟨⟨_, (Extends.refl _).admits_gate .output rfl⟩, spells_gate .output⟩

/-- Reading a text does not see to it that the ports are there: this network has one input and no
composites, and still it has no tables. -/
theorem tabulate_skewed_fails :
    start.Reached ∧
      start.store.loadText "subnet \x7b\n  %0 = in\n  %1 = buf(%0.1)\n  %2 = out(%0)\n\x7d\n" =
        ((start.store.addSubnet skewed).1, .ok skewed) ∧
      skewed.numInputs ≤ maxEvaluatedVariables ∧ (∀ c ∈ skewed.cells, c.kind.symbol ≠ .cell) ∧
      (start.store.addSubnet skewed).1.tabulate skewed = .error .internal := by
  refine ⟨.refl, ?_, by decide, fun c hc => ?_, by cbv⟩
  · have text : Store.empty.render skewed =
        "subnet \x7b\n  %0 = in\n  %1 = buf(%0.1)\n  %2 = out(%0)\n\x7d\n" := by decide +kernel
    rw [← text, show start.store = Store.empty from rfl, loadText,
      read_render legible_skewed (by decide)]
  · rcases mem_skewed hc with rfl | rfl | rfl <;> simp [Cell.input, Cell.output]

end Session

end Gatework
