import Gatework.Proofs.Meaning
import Gatework.Proofs.Runs
import Gatework.Proofs.TruthTable.Agreement

/-!
# Evaluation computes the values

The evaluators work on signals, that is on all points at once, and may fail.  `PortsAt` relates the
ports that they compute to the values of the network at one point.

* `Subnet.simulate_sound` and `Store.meaning_sound`: what an evaluation that succeeds computes are the
  values of the network.  Both are proved together, by induction on the positions of the
  implementations.
* `Subnet.exists_simulate` and `Store.meaning_total`: the evaluation of an evaluable network succeeds.
* `Store.tabulate_sound` and `Store.exists_tabulate`: the tables of the outputs.
* `Store.tabulate_stored`: the words of the tables are those of the outputs, with the bits behind the
  assignments cleared.
-/

namespace Gatework

/-- The signals on some ports have the right width and show, at point `i`, the first of the values. -/
structure PortsAt (width i : Nat) (ports : Ports) (values : List Bool) : Prop where
  width_eq : ∀ s ∈ ports, s.width = width
  value : i < width → ports.map (·.value i) <+: values

/-- The signals of some operands have the right width and show, at point `i`, the values. -/
structure SignalsAt (width i : Nat) (signals : List Signal) (values : List Bool) : Prop where
  width_eq : ∀ s ∈ signals, s.width = width
  value : i < width → signals.map (·.value i) = values

section

variable {width i : Nat} {ports : Ports} {values : List Bool} {signals : List Signal}

lemma SignalsAt.portsAt (h : SignalsAt width i signals values) : PortsAt width i signals values :=
  ⟨h.width_eq, fun hi => (h.value hi).symm ▸ List.prefix_rfl⟩

/-- What a link reads from the ports of its driver. -/
lemma PortsAt.read {l : Link} {s : Signal} (h : PortsAt width i ports values)
    (hs : ports.read l = .ok s) :
    s.width = width ∧ (i < width → s.value i = (values.getD l.port.toNat false ^^ l.inverted)) := by
  unfold Ports.read at hs
  split at hs
  · rename_i t ht
    cases hs
    have hw := h.width_eq t (List.mem_of_getElem? ht)
    refine ⟨by simpa using hw, fun hi => ?_⟩
    have hvalue : (ports.map (·.value i))[l.port.toNat]? = some (t.value i) := by simp [ht]
    obtain ⟨rest, rfl⟩ := h.value hi
    rw [Signal.value_invertIf (hw.symm ▸ hi), List.getD_eq_getElem?_getD,
      List.getElem?_append_left (List.getElem?_eq_some_iff.1 hvalue).1, hvalue]
    rfl
  · cases hs

lemma exists_read {l : Link} (h : l.port.toNat < ports.length) : ∃ s, ports.read l = .ok s := by
  unfold Ports.read
  rw [List.getElem?_eq_getElem h]
  exact ⟨_, rfl⟩

end

/-- The composites compute what they mean, wherever they compute anything. -/
def CompositeMeaning.Sound (composite : CompositeMeaning) (width : Nat) (m : Meaning) : Prop :=
  ∀ t operands ports, composite t operands = .ok ports → ∀ i values,
    SignalsAt width i operands values → PortsAt width i ports (m t values)

section

variable {composite : CompositeMeaning} {width i : Nat} {m : Meaning} {c : Cell}

/-- A cell computes what it means. -/
lemma Cell.evaluate_sound (sound : composite.Sound width m) {operands : List Signal}
    {values : List Bool} {ports : Ports} (hop : SignalsAt width i operands values)
    (h : c.evaluate composite width operands = .ok ports) :
    PortsAt width i ports (c.ports m values) := by
  cases hkind : c.kind.symbol with
  | gate g =>
      simp only [Cell.evaluate, hkind] at h
      simp only [Cell.ports, hkind]
      obtain ⟨s, hs, rfl⟩ := map_eq_ok_iff.1 h
      obtain ⟨hw, hv⟩ := Gate.signal_sound hop.width_eq hs
      refine SignalsAt.portsAt ⟨by simpa using hw, fun hi => ?_⟩
      rw [List.map_singleton, hv i hi, hop.value hi]
  | cell =>
      simp only [Cell.evaluate, hkind] at h
      simp only [Cell.ports, hkind]
      exact sound c.kind.type operands ports h i values hop

/-- The operands of a cell, read by any means that is right about the entries that it finds. -/
lemma signalsAt_of_mapM {read : Link → Except Fault Signal} {v : Valuation} {links : List Link}
    {operands : List Signal} (h : links.mapM read = .ok operands)
    (hread : ∀ l ∈ links, ∀ s, read l = .ok s → s.width = width ∧ (i < width → s.value i = l.read v)) :
    SignalsAt width i operands (links.map (Link.read v)) := by
  have all := forall₂_of_mapM_eq_ok h
  clear h
  induction all with
  | nil => exact ⟨by simp, by simp⟩
  | @cons l s links operands hs _ ih =>
      obtain ⟨hw, hv⟩ := hread l (by simp) s hs
      have rest := ih fun l hl => hread l (by simp [hl])
      refine ⟨List.forall_mem_cons.2 ⟨hw, rest.width_eq⟩, fun hi => ?_⟩
      rw [List.map_cons, List.map_cons, hv hi, rest.value hi]

end

namespace Subnet

variable {composite : CompositeMeaning} {width i : Nat} {m : Meaning} {net : Subnet}
  {stimulus : List Signal} {σ : Nat → Bool}

/-- The first entries of a network have been evaluated. -/
structure EvaluatedUpTo (net : Subnet) (m : Meaning) (σ : Nat → Bool) (width i : Nat)
    (values : Array Ports) : Prop where
  le : values.size ≤ net.size
  at_entry : ∀ (j : Nat) ports, values[j]? = some ports → PortsAt width i ports (net.values m σ j)

lemma EvaluatedUpTo.read {values : Array Ports} (h : EvaluatedUpTo net m σ width i values)
    {l : Link} {s : Signal} (hs : readEntry values l = .ok s) :
    s.width = width ∧ (i < width → s.value i = l.read (net.values m σ)) := by
  unfold readEntry at hs
  split at hs
  · rename_i ports hports
    exact (h.at_entry l.entry ports hports).read hs
  · cases hs

lemma EvaluatedUpTo.push {values : Array Ports} (h : EvaluatedUpTo net m σ width i values)
    (hlt : values.size < net.size) {ports : Ports}
    (hports : PortsAt width i ports (net.values m σ values.size)) :
    EvaluatedUpTo net m σ width i (values.push ports) where
  le := by simpa using Nat.succ_le_of_lt hlt
  at_entry j p hp := by
    rw [Array.getElem?_push] at hp
    split at hp
    · rename_i hj
      cases hp
      exact hj ▸ hports
    · exact h.at_entry j p hp

/-- One cell more. -/
lemma EvaluatedUpTo.next {values values' : Array Ports} (sound : composite.Sound width m)
    (hstimulus : SignalsAt width i stimulus ((List.range net.numInputs).map σ))
    (h : EvaluatedUpTo net m σ width i values) {c : Cell} (hc : net.cells[values.size]? = some c)
    (hnext : evaluateNext composite width stimulus.toArray values c = .ok values') :
    EvaluatedUpTo net m σ width i values' := by
  have hlt : values.size < net.size := (Array.getElem?_eq_some_iff.1 hc).1
  unfold evaluateNext at hnext
  split at hnext
  · rename_i hinput
    have hpos : values.size < net.numInputs := (net.obeys hc).isInput_iff.1 hinput
    split at hnext
    · rename_i s hs
      cases hnext
      rw [List.getElem?_toArray] at hs
      have hwidth := hstimulus.width_eq s (List.mem_of_getElem? hs)
      refine h.push hlt (SignalsAt.portsAt ⟨by simpa using hwidth, fun hi => ?_⟩)
      have : (stimulus.map (·.value i))[values.size]? = some (s.value i) := by simp [hs]
      rw [hstimulus.value hi] at this
      rw [values_of_lt hpos]
      rw [List.getElem?_map, List.getElem?_range hpos] at this
      rw [List.map_singleton, ← Option.some.inj this]
    · cases hnext
  · rename_i hinput
    have hpos := numInputs_le hc (Bool.eq_false_iff.2 hinput)
    obtain ⟨operands, hoperands, hnext⟩ := bind_eq_ok_iff.1 hnext
    obtain ⟨ports, hports, hnext⟩ := bind_eq_ok_iff.1 hnext
    cases hnext
    refine h.push hlt ?_
    rw [values_of_le hpos hc]
    exact Cell.evaluate_sound sound (signalsAt_of_mapM hoperands fun l _ s => h.read) hports

lemma size_evaluateNext {values values' : Array Ports} {signals : Array Signal} {c : Cell}
    (h : evaluateNext composite width signals values c = .ok values') :
    values'.size = values.size + 1 := by
  unfold evaluateNext at h
  split at h
  · split at h
    · cases h
      simp
    · cases h
  · obtain ⟨operands, -, h⟩ := bind_eq_ok_iff.1 h
    obtain ⟨ports, -, h⟩ := bind_eq_ok_iff.1 h
    cases h
    simp

/-- What a simulation computes are the values of the network. -/
theorem simulate_sound (sound : composite.Sound width m) {values : Array Ports}
    (hstimulus : SignalsAt width i stimulus ((List.range net.numInputs).map σ))
    (h : net.simulate composite width stimulus = .ok values) :
    EvaluatedUpTo net m σ width i values := by
  unfold simulate at h
  split at h
  · refine (foldlM_invariant_along (fun done values => values.size = done.length ∧
      EvaluatedUpTo net m σ width i values) ⟨rfl, by simp, by simp⟩ ?_ h).2
    rintro done c rest before next hcells ⟨hsize, hbefore⟩ hnext
    have hc : net.cells[before.size]? = some c := by
      rw [← Array.getElem?_toList, hcells, hsize]
      simp
    exact ⟨by rw [size_evaluateNext hnext, hsize]; simp, hbefore.next sound hstimulus hc hnext⟩
  · cases h

/-- A simulation gives ports to every entry. -/
lemma size_simulate {values : Array Ports}
    (h : net.simulate composite width stimulus = .ok values) : values.size = net.size := by
  unfold simulate at h
  split at h
  · have hsize : values.size = net.cells.toList.length := by
      refine foldlM_invariant_along (fun done values => values.size = done.length) rfl ?_ h
      rintro done c rest before next - hsize hnext
      rw [size_evaluateNext hnext, hsize, List.length_append, List.length_singleton]
    rw [hsize, Array.length_toList, Subnet.size]
  · cases h

/-- What the outputs show. -/
lemma outputSignals_sound {values : Array Ports} {signals : List Signal}
    (h : EvaluatedUpTo net m σ width i values) (hs : net.outputSignals values = .ok signals) :
    SignalsAt width i signals (net.outputValues m σ) := by
  have hs : (net.outputs.map Link.of).mapM (readEntry values) = .ok signals := by
    rw [List.mapM_map]
    exact hs
  have read := signalsAt_of_mapM hs fun l _ s => h.read
  have same : (net.outputs.map Link.of).map (Link.read (net.values m σ)) =
      net.outputValues m σ := by
    rw [List.map_map, outputValues]
    refine List.map_congr_left fun o _ => ?_
    cases hv : net.values m σ o <;> simp [Link.read, Link.of, hv]
  rwa [same] at read

end Subnet

namespace Store

variable {store : Store} {width limit : Nat}

/-- The composites of a store compute what they mean. -/
theorem meaningBelow_sound (store : Store) (width limit : Nat) :
    (store.meaningBelow width limit).Sound width (store.portsBelow limit) := by
  induction limit using Nat.strong_induction_on with
  | _ limit ih =>
      intro t operands ports h i values hop
      rw [meaningBelow] at h
      split at h
      · cases h
      rename_i type htype
      split at h
      · cases h
      rename_i position himpl
      split at h
      case isFalse => cases h
      rename_i hlt
      split at h
      · cases h
      rename_i net hnet
      obtain ⟨vs, hvs, h⟩ := bind_eq_ok_iff.1 h
      have himpl' : store.implementation? t = some position := by
        rw [implementation?, htype]
        exact himpl
      rw [portsBelow_eq himpl' hlt hnet]
      refine (Subnet.outputSignals_sound (Subnet.simulate_sound (ih position hlt) ?_ hvs) h).portsAt
      refine ⟨hop.width_eq, fun hi => ?_⟩
      have hlength : net.numInputs = values.length := by
        rw [← hop.value hi, List.length_map]
        unfold Subnet.simulate at hvs
        split at hvs
        · rename_i hlen
          exact hlen.symm
        · cases hvs
      rw [hop.value hi, hlength]
      exact List.ext_getElem (by simp) fun j hj _ => by simp [List.getD_eq_getElem?_getD, hj]

lemma meaning_sound (store : Store) (width : Nat) :
    (store.meaning width).Sound width store.ports := store.meaningBelow_sound width _

/-! ## Tables -/

section Assignments

variable {n x : Nat}

@[simp] lemma length_assignments : (assignments n).length = n := by simp [assignments]

/-- The words of a table as a signal are the table, with zeros behind it. -/
lemma width_ofWords_words (t : TruthTable n) : (Signal.ofWords t.words).width = 64 * wordCount n :=
  congrArg (64 * ·) (length_wordsOfNat _ _)

lemma value_ofWords_words (t : TruthTable n) (hx : x < 2 ^ n) :
    (Signal.ofWords t.words).value x = t.value x := by
  have hword : x / 64 < t.words.length :=
    (WordTable.div_lt_wordCount hx).trans_eq (length_wordsOfNat _ _).symm
  rw [← WordTable.bit_ofTable, WordTable.bit, WordTable.ofTable,
    ← Signal.value_ofWords hword (Nat.mod_lt _ (by decide)), Nat.div_add_mod]

lemma signalsAt_assignments (hx : x < 2 ^ n) :
    SignalsAt (64 * wordCount n) x (assignments n) ((List.range n).map x.testBit) where
  width_eq s hs := by
    obtain ⟨v, -, rfl⟩ := List.mem_map.1 hs
    exact width_ofWords_words _
  value _ := by
    rw [assignments, List.map_map]
    refine List.map_congr_left fun v _ => ?_
    rw [Function.comp_apply, value_ofWords_words _ hx, TruthTable.value_var hx v]

/-- The table that the words of a signal form has the values of the signal. -/
lemma value_ofWords {s : Signal} (hs : s.width = 64 * wordCount n) (hx : x < 2 ^ n) :
    (TruthTable.ofWords n s.words).value x = s.value x := by
  have hword : x / 64 < s.width / 64 := by
    rw [hs, Nat.mul_div_cancel_left _ (by decide)]
    exact WordTable.div_lt_wordCount hx
  rw [TruthTable.value_ofWords hx, Signal.testBit_words hword (Nat.mod_lt _ (by decide)),
    Nat.div_add_mod]

end Assignments

/-- A simulation over all assignments has as many words as a table. -/
lemma simulate_assignments (store : Store) (net : Subnet) :
    store.simulate net (assignments net.numInputs) =
      net.simulate (store.meaning (64 * wordCount net.numInputs)) (64 * wordCount net.numInputs)
        (assignments net.numInputs) := by
  have hwidth : ((assignments net.numInputs).head?).elim 64 (·.width) = 64 * wordCount net.numInputs := by
    cases h : (assignments net.numInputs).head? with
    | none =>
        rw [List.head?_eq_none_iff, ← List.length_eq_zero_iff, length_assignments] at h
        rw [h]
        rfl
    | some s =>
        exact (signalsAt_assignments (Nat.two_pow_pos _)).width_eq s (List.mem_of_head? h)
  rw [simulate, hwidth]

/-- The tables of the outputs hold the values of the outputs. -/
theorem tabulate_sound {net : Subnet} {tables : List (TruthTable net.numInputs)}
    (h : store.tabulate net = .ok tables) {x : Nat} (hx : x < 2 ^ net.numInputs) :
    tables.map (·.value x) = net.outputValues store.ports x.testBit := by
  simp only [tabulate] at h
  split at h
  · cases h
  · obtain ⟨values, hvalues, h⟩ := bind_eq_ok_iff.1 h
    obtain ⟨signals, hsignals, h⟩ := bind_eq_ok_iff.1 h
    cases h
    rw [simulate_assignments] at hvalues
    have evaluated := Subnet.simulate_sound (store.meaning_sound _) (signalsAt_assignments hx) hvalues
    have outputs := Subnet.outputSignals_sound evaluated hsignals
    rw [← outputs.value (WordTable.lt_wordCount_bits hx), List.map_map]
    exact List.map_congr_left fun s hs => value_ofWords (outputs.width_eq s hs) hx

/-- The words of the tables are what the words of the outputs form if all assignments are simulated. -/
theorem tabulate_stored {net : Subnet} {tables : List (TruthTable net.numInputs)}
    (h : store.tabulate net = .ok tables) :
    ∃ values signals, store.simulate net (assignments net.numInputs) = .ok values ∧
      net.outputSignals values = .ok signals ∧
      signals.mapM (fun s => WordTable.ofWords net.numInputs s.words) =
        .ok (tables.map WordTable.ofTable) := by
  simp only [tabulate] at h
  split at h
  · cases h
  rename_i hn
  obtain ⟨values, hvalues, h⟩ := bind_eq_ok_iff.1 h
  obtain ⟨signals, hsignals, h⟩ := bind_eq_ok_iff.1 h
  cases h
  refine ⟨values, signals, hvalues, hsignals, ?_⟩
  rw [simulate_assignments] at hvalues
  have evaluated := Subnet.simulate_sound (store.meaning_sound _)
    (signalsAt_assignments (Nat.two_pow_pos _)) hvalues
  have outputs := Subnet.outputSignals_sound evaluated hsignals
  rw [List.map_map]
  refine mapM_eq_ok fun s hs => WordTable.ofWords_ofTable ?_ ?_
  · exact (Nat.not_lt.1 hn).trans_lt (by decide)
  · rw [Signal.words, length_wordsOfNat, outputs.width_eq s hs, Nat.mul_div_cancel_left _ (by decide)]

/-! ## Words -/

/-- The assignment that one bit of one word of every input makes up. -/
def assignmentAt (stimulus : List (List UInt64)) (word bit : Nat) (input : Nat) : Bool :=
  ((stimulus.getD input []).getD word 0).toNat.testBit bit

lemma signalsAt_ofWords {net : Subnet} {stimulus : List (List UInt64)} {count w b : Nat}
    (hlength : stimulus.length = net.numInputs) (hwords : ∀ ws ∈ stimulus, ws.length = count)
    (hw : w < count) (hb : b < 64) :
    SignalsAt (64 * count) (64 * w + b) (stimulus.map .ofWords)
      ((List.range net.numInputs).map (assignmentAt stimulus w b)) where
  width_eq s hs := by
    obtain ⟨ws, hws, rfl⟩ := List.mem_map.1 hs
    rw [Signal.ofWords, hwords ws hws]
  value _ := by
    refine List.ext_getElem (by simp [hlength]) fun i hi _ => ?_
    have hi : i < stimulus.length := by simpa using hi
    have hws := hwords _ (List.getElem_mem hi)
    simp [assignmentAt, hi, Signal.value_ofWords (hws.symm ▸ hw) hb]

/-! ## Success -/

end Store

/-- The composites of a store with implementations below `limit` give as many ports as they have. -/
def CompositeMeaning.Total (composite : CompositeMeaning) (store : Store) (width limit : Nat) : Prop :=
  ∀ c operands, c.kind.symbol = .cell → store.EvaluableBelow limit c →
    operands.length = c.links.length → (∀ s ∈ operands, s.width = width) →
    ∃ ports, composite c.kind.type operands = .ok ports ∧ ports.length = store.numPorts c.kind

section

variable {composite : CompositeMeaning} {store : Store} {width limit : Nat}

/-- Wherever its operands have the right number and width, a cell gives as many ports as it has. -/
def Cell.Evaluates (composite : CompositeMeaning) (store : Store) (width : Nat) (c : Cell) : Prop :=
  ∀ operands, operands.length = c.links.length → (∀ s ∈ operands, s.width = width) →
    ∃ ports, c.evaluate composite width operands = .ok ports ∧ ports.length = store.numPorts c.kind

lemma Cell.evaluates_gate {c : Cell} {g : Gate} (hkind : c.kind.symbol = .gate g)
    (hinput : c.isInput = false) (hunary : g.isUnary = true → c.links ≠ []) :
    c.Evaluates composite store width := by
  intro operands hlength hwidths
  have hg : g ≠ .input := by
    rintro rfl
    simp [Cell.isInput, hkind] at hinput
  have hunary : g.isUnary = true → operands ≠ [] := fun hu =>
    List.ne_nil_of_length_pos (hlength ▸ List.length_pos_of_ne_nil (hunary hu))
  obtain ⟨s, hs, -⟩ := Gate.signal_eq hg hunary hwidths
  refine ⟨[s], ?_, (Store.numPorts_gate hkind).symm⟩
  simp only [Cell.evaluate, hkind, hs]
  rfl

lemma Cell.exists_evaluate (total : composite.Total store width limit) {c : Cell}
    (hinput : c.isInput = false) (hc : store.EvaluableBelow limit c) :
    c.Evaluates composite store width := by
  cases hkind : c.kind.symbol with
  | gate g => exact Cell.evaluates_gate hkind hinput ((Store.evaluableBelow_gate hkind).1 hc)
  | cell =>
      intro operands hlength hwidths
      obtain ⟨ports, hports, hlen⟩ := total c operands hkind hc hlength hwidths
      exact ⟨ports, by simp only [Cell.evaluate, hkind, hports], hlen⟩

namespace Subnet

variable {m : Meaning} {net : Subnet} {stimulus : List Signal} {σ : Nat → Bool} {c : Cell}

/-- A cell that evaluates can be evaluated when everything in front of it is. -/
lemma exists_evaluateNext (hlength : stimulus.length = net.numInputs) {values : Array Ports}
    (hevaluated : EvaluatedUpTo net m σ width 0 values)
    (hports : ∀ j < values.size, ∀ d, net.cells[j]? = some d →
      ∃ ports, values[j]? = some ports ∧ ports.length = store.numPorts d.kind)
    (hc : net.cells[values.size]? = some c)
    (hcell : c.isInput = false → c.Evaluates composite store width ∧ store.InRange net.cells c) :
    ∃ ports, evaluateNext composite width stimulus.toArray values c = .ok (values.push ports) ∧
      ports.length = store.numPorts c.kind := by
  unfold evaluateNext
  by_cases hinput : c.isInput = true
  · have hlt : values.size < stimulus.length := hlength ▸ (net.obeys hc).isInput_iff.1 hinput
    rw [if_pos hinput, List.getElem?_toArray, List.getElem?_eq_getElem hlt]
    refine ⟨_, rfl, ?_⟩
    exact (Store.numPorts_of_isInput hinput).symm
  · rw [if_neg hinput]
    obtain ⟨hcell, hrange⟩ := hcell (Bool.eq_false_iff.2 hinput)
    obtain ⟨operands, hoperands, hall⟩ :=
      @exists_mapM_eq_ok _ _ _ (readEntry values) (fun _ _ => True) c.links (by
        intro l hl
        have hlt := (net.obeys hc).lt_of_reads l.entry (List.mem_map_of_mem hl)
        obtain ⟨d, hd⟩ := exists_cell (hlt.trans_le hevaluated.le)
        obtain ⟨ports, hp, hlen⟩ := hports l.entry hlt d hd
        obtain ⟨s, hs⟩ := exists_read (hlen ▸ hrange l hl d hd)
        exact ⟨s, by simp only [readEntry, hp, hs], trivial⟩)
    have hsignals := signalsAt_of_mapM hoperands fun l _ s => hevaluated.read
    obtain ⟨ports, hports, hlen⟩ := hcell operands hall.length_eq.symm hsignals.width_eq
    exact ⟨ports, by rw [hoperands, ok_bind, hports]; rfl, hlen⟩

/-- The simulation of a network whose cells evaluate succeeds, and every entry has its ports. -/
theorem exists_simulate_of_cells (sound : composite.Sound width m)
    (evaluates : ∀ (j : Nat) c, net.cells[j]? = some c → c.isInput = false →
      c.Evaluates composite store width ∧ store.InRange net.cells c)
    (hlength : stimulus.length = net.numInputs) (hwidths : ∀ s ∈ stimulus, s.width = width) :
    ∃ values, net.simulate composite width stimulus = .ok values ∧
      ∀ (j : Nat) c, net.cells[j]? = some c →
        ∃ ports, values[j]? = some ports ∧ ports.length = store.numPorts c.kind := by
  let σ : Nat → Bool := fun j => (stimulus.map (·.value 0)).getD j false
  have hstimulus : SignalsAt width 0 stimulus ((List.range net.numInputs).map σ) := by
    refine ⟨hwidths, fun _ => List.ext_getElem (by simp [hlength]) fun j hj _ => ?_⟩
    have hj : j < stimulus.length := by simpa using hj
    simp [σ, hj]
  rw [simulate, if_pos hlength]
  obtain ⟨values, hvalues, -, -, hports⟩ := @exists_foldlM_eq_ok _ _ _
    (evaluateNext composite width stimulus.toArray) net.cells.toList #[]
    (fun done values => values.size = done.length ∧ EvaluatedUpTo net m σ width 0 values ∧
      ∀ j < done.length, ∀ c, net.cells[j]? = some c →
        ∃ ports, values[j]? = some ports ∧ ports.length = store.numPorts c.kind)
    ⟨rfl, ⟨by simp, by simp⟩, by simp⟩ (by
      rintro done c rest values hcells ⟨hsize, hevaluated, hports⟩
      have hc : net.cells[values.size]? = some c := by
        rw [← Array.getElem?_toList, hcells, hsize]
        simp
      obtain ⟨ports, hnext, hlen⟩ := exists_evaluateNext hlength hevaluated
        (hsize ▸ hports) hc (evaluates _ c hc)
      refine ⟨_, hnext, by simp [hsize], hevaluated.next sound hstimulus hc hnext, ?_⟩
      intro j hj e he
      rw [Array.getElem?_push]
      split
      · rename_i hj
        rw [hj, hc] at he
        cases he
        exact ⟨ports, rfl, hlen⟩
      · rename_i hne
        refine hports j ?_ e he
        rw [List.length_append, List.length_singleton] at hj
        omega)
  refine ⟨values, hvalues, fun j c hc => hports j ?_ c hc⟩
  simpa using (Array.getElem?_eq_some_iff.1 hc).1

/-- The simulation of an evaluable network succeeds. -/
theorem exists_simulate (sound : composite.Sound width m)
    (total : composite.Total store width limit) (hnet : store.NetBelow limit net)
    (hlength : stimulus.length = net.numInputs) (hwidths : ∀ s ∈ stimulus, s.width = width) :
    ∃ values, net.simulate composite width stimulus = .ok values ∧
      ∀ (j : Nat) c, net.cells[j]? = some c →
        ∃ ports, values[j]? = some ports ∧ ports.length = store.numPorts c.kind :=
  exists_simulate_of_cells sound (fun j c hc hinput =>
    ⟨Cell.exists_evaluate total hinput (hnet j c hc hinput).1, (hnet j c hc hinput).2⟩) hlength hwidths

/-- The outputs of a simulated network can be read. -/
lemma exists_outputSignals {values : Array Ports}
    (hports : ∀ (j : Nat) c, net.cells[j]? = some c →
      ∃ ports, values[j]? = some ports ∧ ports.length = store.numPorts c.kind) :
    ∃ signals, net.outputSignals values = .ok signals ∧ signals.length = net.numOutputs := by
  obtain ⟨signals, hsignals, hall⟩ :=
    @exists_mapM_eq_ok _ _ _ (fun o => readEntry values (.of o)) (fun _ _ => True) net.outputs (by
      intro o ho
      have hsize := net.numInputs_add_numOutputs_le
      obtain ⟨hle, hlt⟩ := List.mem_range'_1.1 ho
      obtain ⟨c, hc⟩ : ∃ c, net.cells[o]? = some c :=
        exists_cell (by rw [outputStart] at hlt; omega)
      have hout : c.kind.symbol = .gate .output := beq_iff_eq.1 ((net.obeys hc).isOutput_iff.2 hle)
      obtain ⟨ports, hp, hlen⟩ := hports o c hc
      obtain ⟨s, hs⟩ := @exists_read ports (.of o) (by rw [hlen, Store.numPorts_gate hout]; exact Nat.one_pos)
      exact ⟨s, by simp only [readEntry, Link.of, hp]; exact hs, trivial⟩)
  exact ⟨signals, hsignals, by rw [← hall.length_eq, outputs, List.length_range']⟩

end Subnet

namespace Store

/-- Composites that can be evaluated are. -/
theorem meaningBelow_total (store : Store) (width limit : Nat) :
    (store.meaningBelow width limit).Total store width limit := by
  induction limit using Nat.strong_induction_on with
  | _ limit ih =>
      intro c operands hkind hc hlength hwidths
      obtain ⟨i, net, himpl, hnet, hin, -, hi, hbelow⟩ := (evaluableBelow_composite hkind).1 hc
      obtain ⟨type, htype, himpl'⟩ := Option.bind_eq_some_iff.1 himpl
      obtain ⟨values, hvalues, hports⟩ := Subnet.exists_simulate (store.meaningBelow_sound width i)
        (ih i hi) hbelow (hlength.trans hin.symm) hwidths
      obtain ⟨signals, hsignals, hlen⟩ := Subnet.exists_outputSignals hports
      refine ⟨signals, ?_, ?_⟩
      · rw [meaningBelow]
        simp only [htype, himpl', dif_pos hi, hnet, hvalues, ok_bind, hsignals]
      · rw [hlen, numPorts_composite hkind, himpl]
        simp [hnet]

lemma meaning_total (store : Store) (width : Nat) :
    (store.meaning width).Total store width store.subnets.size := store.meaningBelow_total width _

/-- A simulation over all assignments gives the tables. -/
lemma exists_tabulate_of_simulate {net : Subnet} {values : Array Ports}
    (hn : net.numInputs ≤ maxEvaluatedVariables)
    (hvalues : store.simulate net (assignments net.numInputs) = .ok values)
    (hports : ∀ (j : Nat) c, net.cells[j]? = some c →
      ∃ ports, values[j]? = some ports ∧ ports.length = store.numPorts c.kind) :
    ∃ tables, store.tabulate net = .ok tables ∧ tables.length = net.numOutputs := by
  obtain ⟨signals, hsignals, hlen⟩ := Subnet.exists_outputSignals hports
  refine ⟨signals.map fun s => .ofWords net.numInputs s.words, ?_, by simpa using hlen⟩
  simp only [tabulate, if_neg (Nat.not_lt.2 hn), hvalues, ok_bind, hsignals]
  rfl

/-- An evaluable network of few enough inputs has tables. -/
theorem exists_tabulate {net : Subnet} (hnet : store.Evaluable net)
    (hn : net.numInputs ≤ maxEvaluatedVariables) :
    ∃ tables, store.tabulate net = .ok tables ∧ tables.length = net.numOutputs := by
  obtain ⟨values, hvalues, hports⟩ := Subnet.exists_simulate (store.meaning_sound _)
    (store.meaning_total _) hnet length_assignments (signalsAt_assignments (Nat.two_pow_pos _)).width_eq
  exact exists_tabulate_of_simulate hn (hvalues ▸ simulate_assignments store net) hports

end Store

end

end Gatework
