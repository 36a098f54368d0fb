import Gatework.Proofs.Session.Run

/-!
# Simulation computes the values bit by bit

A simulation works on words: every input is given as a list of words, and every bit position of these is
one assignment of the inputs.  A network is `Wired` if every link reads a port that its driver has and
every composite is implemented by a network with as many inputs as the cell has links.  If this holds of
a network and of its parts at any depth, a simulation comes to a result.

* `Layered.exists_simulate`: simulating a wired network succeeds, and every entry has its ports.

**Main statement.** `Store.Layered.simulate_pointwise`: the bits of the words that a simulation gives for
an entry are the values of the entry for the corresponding bits of the stimulus, and the tables of the
outputs list their values.
-/

namespace Gatework

namespace Store

/-! ## Wired networks -/

/-- Every link of a network reads a port that its driver has, a gate that shows its first operand has
one, and every composite is implemented by a network with as many inputs as the cell has links. -/
structure Wired (store : Store) (net : Subnet) : Prop where
  ports : ∀ c ∈ net.cells, c.isInput = false → store.InRange net.cells c
  operands : ∀ c ∈ net.cells, ∀ g, c.kind.symbol = .gate g → g.isUnary = true → c.links ≠ []
  implemented : ∀ c ∈ net.cells, c.kind.symbol = .cell → ∃ i part,
    store.implementation? c.kind.type = some i ∧ store.subnets[i]? = some part ∧
      part.numInputs = c.links.length

variable {store : Store} {net : Subnet} {width : Nat}

lemma numPorts_of_part {kind : CellKind} (hkind : kind.symbol = .cell) {i : Nat} {part : Subnet}
    (himpl : store.implementation? kind.type = some i) (hpart : store.subnets[i]? = some part) :
    store.numPorts kind = part.numOutputs := by
  simp [numPorts_composite hkind, himpl, hpart]

namespace Layered

variable (layered : store.Layered)
include layered

/-- The simulation of a network that is wired with all of its parts succeeds, and every entry has its
ports. -/
theorem exists_simulate (wired : ∀ part, store.Within part net → store.Wired part)
    {stimulus : List Signal} (hlength : stimulus.length = net.numInputs)
    (hwidths : ∀ s ∈ stimulus, s.width = width) :
    ∃ values, net.simulate (store.meaning width) width stimulus = .ok values ∧
      ∀ (j : Nat) c, net.cells[j]? = some c →
        ∃ ports, values[j]? = some ports ∧ ports.length = store.numPorts c.kind := by
  induction net using layered.wellFounded.induction generalizing stimulus with
  | _ net ih =>
      have here := wired net .refl
      refine Subnet.exists_simulate_of_cells (store.meaning_sound width)
        (fun j c hc hinput => ⟨?_, here.ports c (Array.mem_of_getElem? hc) hinput⟩) hlength hwidths
      have hmem := Array.mem_of_getElem? hc
      cases hkind : c.kind.symbol with
      | gate g => exact Cell.evaluates_gate hkind hinput (here.operands c hmem g hkind)
      | cell =>
          intro operands hoperands hwidths
          obtain ⟨i, part, himpl, hpart, hin⟩ := here.implemented c hmem hkind
          have isPart : store.IsPart part net := ⟨c, hmem, i, hkind, himpl, hpart⟩
          obtain ⟨values, hvalues, hports⟩ := ih part isPart
            (fun deeper within => wired deeper (within.tail isPart)) (hoperands.trans hin.symm) hwidths
          obtain ⟨signals, hsignals, hcount⟩ := Subnet.exists_outputSignals hports
          refine ⟨signals, ?_, ?_⟩
          · simp only [Cell.evaluate, hkind, layered.meaning_eq himpl hpart, hvalues, ok_bind, hsignals]
          · rw [hcount, numPorts_of_part hkind himpl hpart]

/-- An entry of a wired network has as many values as ports. -/
lemma length_values (wired : store.Wired net) (σ : Nat → Bool) {j : Nat} {c : Cell}
    (hc : net.cells[j]? = some c) :
    (net.values store.ports σ j).length = store.numPorts c.kind := by
  by_cases hj : j < net.numInputs
  · rw [Subnet.values_of_lt hj, numPorts_of_isInput ((net.obeys hc).isInput_iff.2 hj)]
    rfl
  rw [Subnet.values_of_le (Nat.not_lt.1 hj) hc, Cell.portsIn, Cell.ports]
  cases hkind : c.kind.symbol with
  | gate g => rw [numPorts_gate hkind]; rfl
  | cell =>
      obtain ⟨i, part, himpl, hpart, -⟩ := wired.implemented c (Array.mem_of_getElem? hc) hkind
      simp [layered.ports_eq himpl hpart, numPorts_of_part hkind himpl hpart, Subnet.outputValues,
        Subnet.outputs]

/-- What a simulation gives at a point are the values of the network there. -/
lemma value_simulate (wired : store.Wired net) {stimulus : List Signal} {values : Array Ports}
    {σ : Nat → Bool} {p : Nat}
    (hstimulus : SignalsAt width p stimulus ((List.range net.numInputs).map σ))
    (hports : ∀ (j : Nat) c, net.cells[j]? = some c →
      ∃ ports, values[j]? = some ports ∧ ports.length = store.numPorts c.kind)
    (hvalues : net.simulate (store.meaning width) width stimulus = .ok values)
    {j : Nat} {ports : Ports} (hj : values[j]? = some ports) :
    (∀ s ∈ ports, s.width = width) ∧
      (p < width → ports.map (·.value p) = net.values store.ports σ j) := by
  have evaluated := Subnet.simulate_sound (store.meaning_sound width) hstimulus hvalues
  have here := evaluated.at_entry j ports hj
  obtain ⟨c, hc⟩ := Subnet.exists_cell ((Array.getElem?_eq_some_iff.1 hj).1.trans_le evaluated.le)
  obtain ⟨_, hj', hcount⟩ := hports j c hc
  cases hj.symm.trans hj'
  refine ⟨here.width_eq, fun hp => (here.value hp).eq_of_length ?_⟩
  rw [List.length_map, hcount, layered.length_values wired σ hc]

end Layered

/-- Simulation is evaluation bit by bit.  Over a network that is wired with all of its parts, a simulation
of any number of words, which is one if there are no inputs, gives every entry as many words on each of
its ports, and every bit of these is the value of the port for the assignment in the same bit of the
inputs; and the tables over few enough inputs list the values of the outputs, the first input being the
lowest digit of the row.  A composite has the values of the outputs of its implementation. -/
theorem Layered.simulate_pointwise (layered : store.Layered)
    (wired : ∀ part, store.Within part net → store.Wired part) :
    (∀ (count : Nat) (stimulus : List (List UInt64)), stimulus.length = net.numInputs →
      (∀ ws ∈ stimulus, ws.length = count) → (net.numInputs = 0 → count = 1) →
      ∃ values, store.simulate net (stimulus.map .ofWords) = .ok values ∧ values.size = net.size ∧
        ∀ (j : Nat) ports, values[j]? = some ports → (∀ s ∈ ports, s.words.length = count) ∧
          ∀ w < count, ∀ b < 64, ports.map (fun s => (s.words.getD w 0).toNat.testBit b) =
            net.values store.ports (assignmentAt stimulus w b) j) ∧
      (net.numInputs ≤ maxEvaluatedVariables →
        ∃ tables, store.tabulate net = .ok tables ∧ tables.length = net.numOutputs ∧
          ∀ x < 2 ^ net.numInputs,
            tables.map (·.value x) = net.outputValues store.ports x.testBit) ∧
      ∀ (t i : Nat) part, store.implementation? t = some i → store.subnets[i]? = some part →
        ∀ operands, store.ports t operands =
          part.outputValues store.ports fun j => operands.getD j false := by
  refine ⟨fun count stimulus hlength hwords hone => ?_, fun hn => ?_,
    fun t i part himpl hpart operands => layered.ports_eq himpl hpart operands⟩
  · have hwidth : ((stimulus.map Signal.ofWords).head?).elim 64 (·.width) = 64 * count := by
      cases stimulus with
      | nil => rw [hone hlength.symm]; rfl
      | cons ws rest =>
          show 64 * ws.length = 64 * count
          rw [hwords ws (List.mem_cons_self ..)]
    have hwidths : ∀ s ∈ stimulus.map Signal.ofWords, s.width = 64 * count := by
      intro s hs
      obtain ⟨ws, hws, rfl⟩ := List.mem_map.1 hs
      rw [Signal.ofWords, hwords ws hws]
    obtain ⟨values, hvalues, hports⟩ :=
      layered.exists_simulate wired ((List.length_map _).trans hlength) hwidths
    refine ⟨values, by rw [simulate, hwidth, hvalues], Subnet.size_simulate hvalues, ?_⟩
    intro j ports hj
    -- nothing is said about a point beyond the width, so any values will do for the inputs there
    have nowhere : SignalsAt (64 * count) (64 * count) (stimulus.map .ofWords)
        ((List.range net.numInputs).map fun _ => false) :=
      ⟨hwidths, fun h => absurd h (lt_irrefl _)⟩
    have width_eq := (layered.value_simulate (wired net .refl) nowhere hports hvalues hj).1
    have hcount : ∀ s ∈ ports, s.width / 64 = count := fun s hs => by
      rw [width_eq s hs, Nat.mul_div_cancel_left count (by decide)]
    refine ⟨fun s hs => by rw [Signal.words, length_wordsOfNat, hcount s hs], fun w hw b hb => ?_⟩
    have point := (layered.value_simulate (wired net .refl)
      (signalsAt_ofWords hlength hwords hw hb) hports hvalues hj).2 (by omega)
    rw [← point]
    exact List.map_congr_left fun s hs => Signal.testBit_words ((hcount s hs).symm ▸ hw) hb
  · obtain ⟨values, hvalues, hports⟩ := layered.exists_simulate wired length_assignments
      (signalsAt_assignments (Nat.two_pow_pos _)).width_eq
    obtain ⟨tables, run, hlen⟩ := exists_tabulate_of_simulate hn
      (hvalues ▸ simulate_assignments store net) hports
    exact ⟨tables, run, hlen, fun x hx => tabulate_sound run hx⟩

/-! ## Crossed wires -/

lemma implementation_crossedWires : Session.crossedWires.store.implementation? 13 = some 0 :=
  implementation?_of_type type_crossingStore

lemma mem_crossing {c : Cell} (hc : c ∈ crossing.cells) :
    c = .input ∨ c = .output (.of 1) ∨ c = .output (.of 0) := by
  simpa [crossing] using hc

lemma mem_crossed {c : Cell} (hc : c ∈ crossed.cells) :
    c = .input ∨ c = ⟨⟨.cell, 13⟩, [.of 1, (Link.of 0).invert]⟩ ∨
      c = ⟨⟨.gate .buf, 14⟩, [{ entry := 2, port := 1 }]⟩ ∨ c = .output (.of 3) ∨
        c = .output (Link.of 2).invert := by
  simpa [crossed] using hc

lemma getElem?_crossedWires : Session.crossedWires.store.subnets[0]? = some crossing := by
  rw [Session.subnets_crossedWires]
  rfl

/-- The crossing has no parts, and it is the only part of the network that uses it. -/
lemma within_crossed {part : Subnet} (h : Session.crossedWires.store.Within part crossed) :
    part = crossed ∨ part = crossing := by
  have only : ∀ mid, Session.crossedWires.store.IsPart mid crossed → mid = crossing := by
    rintro mid ⟨c, hc, i, hkind, himpl, hmid⟩
    rcases mem_crossed hc with rfl | rfl | rfl | rfl | rfl <;> cases hkind
    cases implementation_crossedWires.symm.trans himpl
    exact Option.some.inj (hmid.symm.trans getElem?_crossedWires)
  have none : ∀ mid, ¬ Session.crossedWires.store.IsPart mid crossing := by
    rintro mid ⟨c, hc, i, hkind, -⟩
    rcases mem_crossing hc with rfl | rfl | rfl <;> cases hkind
  rcases h.cases_tail with rfl | ⟨mid, within, hmid⟩
  · exact .inl rfl
  · cases only mid hmid
    rcases within.cases_tail with rfl | ⟨deeper, -, hdeeper⟩
    · exact .inr rfl
    · exact absurd hdeeper (none deeper)

lemma wired_crossing : Session.crossedWires.store.Wired crossing where
  ports c hc _ l hl d hd := by
    rcases mem_crossing hc with rfl | rfl | rfl
    · cases hl
    · cases List.mem_singleton.1 hl
      cases hd
      exact Nat.one_pos
    · cases List.mem_singleton.1 hl
      cases hd
      exact Nat.one_pos
  operands c hc g hkind hunary := by
    rcases mem_crossing hc with rfl | rfl | rfl <;> cases hkind
    · cases hunary
    · exact List.cons_ne_nil _ _
    · exact List.cons_ne_nil _ _
  implemented c hc hkind := by
    rcases mem_crossing hc with rfl | rfl | rfl <;> cases hkind

lemma wired_crossed : Session.crossedWires.store.Wired crossed where
  ports c hc _ l hl d hd := by
    have two : Session.crossedWires.store.numPorts ⟨.cell, 13⟩ = 2 :=
      numPorts_of_part rfl implementation_crossedWires getElem?_crossedWires
    rcases mem_crossed hc with rfl | rfl | rfl | rfl | rfl
    · cases hl
    · rcases List.mem_pair.1 hl with rfl | rfl
      · cases hd
        exact Nat.one_pos
      · cases hd
        exact Nat.one_pos
    · cases List.mem_singleton.1 hl
      cases hd
      exact Nat.one_lt_two.trans_eq two.symm
    · cases List.mem_singleton.1 hl
      cases hd
      exact Nat.one_pos
    · cases List.mem_singleton.1 hl
      cases hd
      exact Nat.two_pos.trans_eq two.symm
  operands c hc g hkind hunary := by
    rcases mem_crossed hc with rfl | rfl | rfl | rfl | rfl <;> cases hkind
    · cases hunary
    · exact List.cons_ne_nil _ _
    · exact List.cons_ne_nil _ _
    · exact List.cons_ne_nil _ _
  implemented c hc hkind := by
    rcases mem_crossed hc with rfl | rfl | rfl | rfl | rfl <;> cases hkind
    exact ⟨0, crossing, implementation_crossedWires, getElem?_crossedWires, rfl⟩

lemma wired_within_crossed {part : Subnet} (h : Session.crossedWires.store.Within part crossed) :
    Session.crossedWires.store.Wired part := by
  rcases within_crossed h with rfl | rfl
  · exact wired_crossed
  · exact wired_crossing

lemma outputValues_crossing (m : Meaning) (σ : Nat → Bool) :
    crossing.outputValues m σ = [σ 1, σ 0] := by
  have first : crossing.values m σ 2 = [σ 1] := by
    rw [Subnet.values_of_output (c := .output (.of 1)) rfl rfl rfl]
    simp [Link.read, Link.of, Subnet.values_of_lt (show 1 < crossing.numInputs by decide)]
  have second : crossing.values m σ 3 = [σ 0] := by
    rw [Subnet.values_of_output (c := .output (.of 0)) rfl rfl rfl]
    simp [Link.read, Link.of, Subnet.values_of_lt (show 0 < crossing.numInputs by decide)]
  rw [Subnet.outputValues, show crossing.outputs = [2, 3] from rfl]
  simp [first, second]

/-- The cell in which the wires cross. -/
lemma values_crossed (σ : Nat → Bool) :
    crossed.values Session.crossedWires.store.ports σ 2 = [!σ 0, σ 1] := by
  have layered := Session.reached_crossedWires.sound.store.layered
  rw [Subnet.values_of_le (c := ⟨⟨.cell, 13⟩, [.of 1, (Link.of 0).invert]⟩)
    (show crossed.numInputs ≤ 2 by decide) rfl, Cell.portsIn, Cell.ports]
  simp only
  rw [layered.ports_eq implementation_crossedWires getElem?_crossedWires, outputValues_crossing]
  simp [Link.read, Link.of, Link.invert, Link.invertIf,
    Subnet.values_of_lt (show 0 < crossed.numInputs by decide),
    Subnet.values_of_lt (show 1 < crossed.numInputs by decide)]

/-- Two words for each of two wires that are crossed inside of a cell, one of them repeated behind it. -/
theorem Layered.simulate_pointwise_crossed :
    ∃ values, Session.crossedWires.store.simulate crossed
        ([[3, 5], [6, 9]].map Signal.ofWords) = .ok values ∧
      ∀ ports, values[3]? = some ports → ∀ w < 2, ∀ b < 64,
        ports.map (fun s => (s.words.getD w 0).toNat.testBit b) =
          [assignmentAt [[3, 5], [6, 9]] w b 1] := by
  have layered := Session.reached_crossedWires.sound.store.layered
  obtain ⟨simulated, -⟩ := layered.simulate_pointwise fun _ => wired_within_crossed
  obtain ⟨values, hvalues, -, points⟩ := simulated 2 [[3, 5], [6, 9]] rfl (by decide) nofun
  refine ⟨values, hvalues, fun ports hports w hw b hb => ?_⟩
  rw [(points 3 ports hports).2 w hw b hb]
  rw [Subnet.values_of_le (c := ⟨⟨.gate .buf, 14⟩, [{ entry := 2, port := 1 }]⟩)
    (show crossed.numInputs ≤ 3 by decide) rfl]
  simp [Cell.portsIn, Cell.ports, Gate.value, Link.read, values_crossed]

end Store

end Gatework
