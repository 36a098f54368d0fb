import Gatework.Proofs.Mapping.Preservation

/-!
# Mapping shows first ports

Cuts, candidates and mapped networks are about entries, not about ports.  Inside of the network that
cannot be confused: the function of a cut only exists if no leaf is read at another port.  But an output
has no cut, and its mapped copy shows the first port of its driver, whatever port the output reads.

`Subnet.showFirstPorts` is the network whose outputs are redirected in this way, and mapping a network is
as good as mapping that one: what may be chosen for the one suits the other
(`Problem.Admits.realizedBy_showFirstPorts`), and the network of a choice is the same
(`MappedNetwork.ofChoice_showFirstPorts`).

**Main statement.** `Store.addMapped_shows_first_ports`.
-/

namespace Gatework

/-- The link to the first port of the same entry. -/
def Link.atFirstPort (l : Link) : Link := { l with port := 0 }

namespace Cell

/-- An output that shows the first port of its driver; other cells stay as they are. -/
def showFirstPort (c : Cell) : Cell :=
  if c.isOutput then { c with links := c.links.map Link.atFirstPort } else c

variable {c : Cell}

@[simp] lemma kind_showFirstPort : c.showFirstPort.kind = c.kind := by
  unfold showFirstPort
  split <;> rfl

@[simp] lemma isInput_showFirstPort : c.showFirstPort.isInput = c.isInput := by simp [isInput]

@[simp] lemma isOutput_showFirstPort : c.showFirstPort.isOutput = c.isOutput := by simp [isOutput]

@[simp] lemma drivers_showFirstPort : c.showFirstPort.drivers = c.drivers := by
  unfold showFirstPort
  split
  · simp [drivers, Link.atFirstPort]
  · rfl

lemma showFirstPort_of_inner (h : c.isOutput = false) : c.showFirstPort = c := by
  simp [showFirstPort, h]

lemma links_showFirstPort (h : c.isOutput = true) :
    c.showFirstPort.links = c.links.map Link.atFirstPort := by
  simp [showFirstPort, h]

lemma port_showFirstPort (h : c.showFirstPort.isOutput = true) :
    ∀ l ∈ c.showFirstPort.links, l.port = 0 := by
  rw [links_showFirstPort (isOutput_showFirstPort ▸ h)]
  intro l hl
  obtain ⟨l, -, rfl⟩ := List.mem_map.1 hl
  rfl

end Cell

/-- The value of a realisation depends only on the values of the entries that it reads. -/
lemma Realization.value?_congr {library : Library} {v w : Nat → Bool} (r : Realization)
    (h : ∀ leaf ∈ r.leaves, v leaf = w leaf) : r.value? library v = r.value? library w := by
  cases r with
  | input | output l | zero | one => rfl
  | wire leaf => exact congrArg some (h leaf (List.mem_singleton_self leaf))
  | cell c pins =>
      have same : pins.map (Link.valueOn v) = pins.map (Link.valueOn w) :=
        List.map_congr_left fun l hl => by
          rw [Link.valueOn, Link.valueOn, h l.entry (List.mem_map_of_mem hl)]
      rw [value?, value?, same]

namespace Subnet

/-- The network whose outputs show the first ports of their drivers. -/
def showFirstPorts (net : Subnet) : Subnet where
  cells := net.cells.map Cell.showFirstPort
  numInputs := net.numInputs
  numOutputs := net.numOutputs
  valid := by
    have hterminals := net.numInputs_add_numOutputs_le
    refine violation?_eq_none_iff.2 ⟨by rwa [Array.size_map], fun i c hc => ?_⟩
    rw [Array.getElem?_map, Option.map_eq_some_iff] at hc
    obtain ⟨c, hc, rfl⟩ := hc
    have obeys := net.obeys hc
    rw [outputStart, Subnet.size] at obeys
    refine ⟨by simpa [Cell.isInput_showFirstPort] using obeys.isInput_iff,
      by simpa [Cell.isOutput_showFirstPort] using obeys.isOutput_iff,
      by simpa [Cell.drivers_showFirstPort] using obeys.lt_of_reads, fun d hd e he => ?_⟩
    rw [Array.getElem?_map, Option.map_eq_some_iff] at he
    obtain ⟨e, he, rfl⟩ := he
    simpa using obeys.isDriver_of_reads d (by simpa using hd) e he

variable {net : Subnet} {m : Meaning} {σ : Nat → Bool} {store : Store} {library : Library}
  {entry : Nat} {c : Cell} {l : Link} {r : Realization}

@[simp] lemma size_showFirstPorts : net.showFirstPorts.size = net.size := by
  simp [Subnet.size, showFirstPorts]

@[simp] lemma outputStart_showFirstPorts : net.showFirstPorts.outputStart = net.outputStart := by
  rw [outputStart, size_showFirstPorts]
  rfl

@[simp] lemma outputs_showFirstPorts : net.showFirstPorts.outputs = net.outputs := by
  rw [outputs, outputStart_showFirstPorts]
  rfl

lemma getElem?_showFirstPorts (net : Subnet) (entry : Nat) :
    net.showFirstPorts.cells[entry]? = (net.cells[entry]?).map Cell.showFirstPort :=
  Array.getElem?_map

lemma isBelow_showFirstPorts {d : Nat} : net.showFirstPorts.IsBelow d entry ↔ net.IsBelow d entry := by
  rw [IsBelow, IsBelow, outputStart_showFirstPorts]

/-! ## Values -/

/-- In front of the outputs nothing changes. -/
lemma values_showFirstPorts (h : entry < net.outputStart) :
    net.showFirstPorts.values m σ entry = net.values m σ entry := by
  induction entry using Nat.strong_induction_on with
  | _ entry ih =>
      by_cases hin : entry < net.numInputs
      · have hin' : entry < net.showFirstPorts.numInputs := hin
        rw [values_of_lt hin, values_of_lt hin']
      · have hsize := net.outputStart_add_numOutputs
        obtain ⟨c, hc⟩ := net.exists_cell (i := entry) (by omega)
        have hout : c.isOutput = false :=
          Bool.eq_false_iff.2 fun hout => Nat.not_le.2 h ((net.obeys hc).isOutput_iff.1 hout)
        have hc' : net.showFirstPorts.cells[entry]? = some c := by
          rw [getElem?_showFirstPorts, hc, Option.map_some, Cell.showFirstPort_of_inner hout]
        have hin' : net.showFirstPorts.numInputs ≤ entry := Nat.not_lt.1 hin
        rw [values_of_le (Nat.not_lt.1 hin) hc, values_of_le hin' hc']
        refine Cell.portsIn_congr fun d hd => ?_
        have below := isBelow_of_mem_drivers hc hd
        exact ih d below.1 below.2

lemma first_showFirstPorts (h : entry < net.outputStart) :
    net.showFirstPorts.first m σ entry = net.first m σ entry := by
  rw [first, first, values_showFirstPorts h]

/-- An output shows what a link to the first port of its driver reads. -/
lemma first_output_showFirstPorts (hc : net.cells[entry]? = some c) (hout : c.isOutput = true)
    (hl : l ∈ c.links.head?) :
    net.showFirstPorts.first m σ entry = l.atFirstPort.read (net.values m σ) := by
  obtain ⟨rest, hlinks⟩ := List.head?_eq_some_iff.1 hl
  have hc' : net.showFirstPorts.cells[entry]? = some c.showFirstPort := by
    rw [getElem?_showFirstPorts, hc, Option.map_some]
  have hlinks' : c.showFirstPort.links = l.atFirstPort :: rest.map Link.atFirstPort := by
    rw [Cell.links_showFirstPort hout, hlinks, List.map_cons]
  have below := isBelow_of_mem_drivers hc (List.mem_map_of_mem (hlinks ▸ List.mem_cons_self))
  have same : net.showFirstPorts.values m σ l.atFirstPort.entry = net.values m σ l.atFirstPort.entry :=
    values_showFirstPorts below.2
  rw [first, values_of_output hc' (by simpa using hout) hlinks', List.headD_cons, Link.read, Link.read,
    same]

/-- An output without a link shows nothing that is set. -/
lemma first_of_links_eq_nil (hc : net.cells[entry]? = some c) (hout : c.isOutput = true)
    (hlinks : c.links = []) : net.first m σ entry = false := by
  have hkind : c.kind.symbol = .gate .output := beq_iff_eq.1 hout
  have hin := net.numInputs_le_outputStart.trans ((net.obeys hc).isOutput_iff.1 hout)
  rw [first, values_of_le hin hc, Cell.portsIn, Cell.ports, hkind, hlinks]
  rfl

/-- The outputs show the same values exactly if each of them reads a port that has the value of the first
one. -/
lemma outputValues_showFirstPorts_eq_iff :
    net.showFirstPorts.outputValues m σ = net.outputValues m σ ↔
      ∀ c ∈ net.cells, c.isOutput = true → ∀ l ∈ c.links.head?,
        l.atFirstPort.read (net.values m σ) = l.read (net.values m σ) := by
  have shown : ∀ {entry c l}, net.cells[entry]? = some c → c.isOutput = true → l ∈ c.links.head? →
      net.first m σ entry = l.read (net.values m σ) := by
    intro entry c l hc hout hl
    obtain ⟨rest, hlinks⟩ := List.head?_eq_some_iff.1 hl
    rw [first, values_of_output hc hout hlinks, List.headD_cons]
  rw [outputValues_eq, outputValues_eq, outputs_showFirstPorts, List.map_inj_left, ← net.filter_outputs]
  constructor
  · intro h c hmem hout l hl
    obtain ⟨entry, hc⟩ := Array.getElem?_of_mem hmem
    have hstart := (net.obeys hc).isOutput_iff.1 hout
    have same := h entry (List.mem_filter.2 ⟨List.mem_range.2 (lt_size hc), decide_eq_true hstart⟩)
    rwa [first_output_showFirstPorts hc hout hl, shown hc hout hl] at same
  · intro h entry hmem
    obtain ⟨hlt, hstart⟩ := List.mem_filter.1 hmem
    obtain ⟨c, hc⟩ := exists_cell (List.mem_range.1 hlt)
    have hout := (net.obeys hc).isOutput_iff.2 (of_decide_eq_true hstart)
    cases hlinks : c.links with
    | nil =>
        have hc' : net.showFirstPorts.cells[entry]? = some c.showFirstPort := by
          rw [getElem?_showFirstPorts, hc, Option.map_some]
        rw [first_of_links_eq_nil hc hout hlinks, first_of_links_eq_nil hc' (by simpa using hout)
          (by rw [Cell.links_showFirstPort hout, hlinks, List.map_nil])]
    | cons l rest =>
        have hl : l ∈ c.links.head? := by rw [hlinks]; rfl
        rw [first_output_showFirstPorts hc hout hl, shown hc hout hl]
        exact h c (Array.mem_of_getElem? hc) hout l hl

/-! ## Realisations -/

/-- What suits an inner entry suits it still. -/
lemma RealizedBy.showFirstPorts (h : net.RealizedBy store library entry r)
    (inner : entry < net.outputStart) : net.showFirstPorts.RealizedBy store library entry r := by
  cases h with
  | input hin => exact .input hin
  | output start below value => exact absurd inner (Nat.not_lt.2 start)
  | inner hin hout below value =>
      refine .inner hin (by rwa [outputStart_showFirstPorts])
        (fun leaf hleaf => isBelow_showFirstPorts.2 (below leaf hleaf)) fun σ => ?_
      rw [first_showFirstPorts hout, ← value σ]
      exact r.value?_congr fun leaf hleaf => first_showFirstPorts (below leaf hleaf).2

/-- What an entry is bound to suits it in the network that shows first ports, also the link of an output
as it is, since a realisation does not look at ports. -/
lemma realizedBy_showFirstPorts_of_fixed (hc : net.cells[entry]? = some c) (hr : c.realization? = some r) :
    net.showFirstPorts.RealizedBy store library entry r := by
  have hc' : net.showFirstPorts.cells[entry]? = some c.showFirstPort := by
    rw [getElem?_showFirstPorts, hc, Option.map_some]
  have suits : ∀ {r}, c.showFirstPort.realization? = some r →
      net.showFirstPorts.RealizedBy store library entry r :=
    realizedBy_of_fixed Cell.port_showFirstPort hc'
  cases hout : c.isOutput with
  | false => exact suits (by rwa [Cell.showFirstPort_of_inner hout])
  | true =>
      have hkind : c.kind.symbol = .gate .output := beq_iff_eq.1 hout
      rw [Cell.realization?, hkind] at hr
      obtain ⟨l, hl, rfl⟩ := Option.map_eq_some_iff.1 hr
      have hfirst : c.showFirstPort.realization? = some (.output l.atFirstPort) := by
        rw [Cell.realization?, Cell.kind_showFirstPort, hkind]
        simp [Cell.links_showFirstPort hout, hl]
      cases suits hfirst with
      | output start below value => exact .output start below value
      | inner hin hout' below value => cases value fun _ => false

end Subnet

/-- What is chosen for a network suits the one that shows first ports. -/
lemma Problem.Admits.realizedBy_showFirstPorts {p : Problem} {choice : MappedNetwork.Choice}
    {store : Store} {net : Subnet} {library : Library} {options : MapOptions} (admits : p.Admits choice)
    (h : Problem.of store net library options = .ok p) {entry : Nat} (hentry : entry < net.size)
    {r : Realization} (hr : choice.getD entry none = some r) :
    net.showFirstPorts.RealizedBy store library entry r := by
  have hadmits := admits entry (net_of h ▸ hentry)
  unfold AdmitsAt at hadmits
  split at hadmits
  · rename_i r' hfixed
    cases hr.symm.trans hadmits
    obtain ⟨c, hc, hreal⟩ := Option.bind_eq_some_iff.1 hfixed
    rw [net_of h] at hc
    exact Subnet.realizedBy_showFirstPorts_of_fixed hc hreal
  · obtain ⟨candidate, hmem, rfl⟩ := hadmits r hr
    obtain ⟨c, -, hc, hterm, -⟩ := exists_cuts_of_mem h hmem
    exact (realizedBy_of_mem h hmem).showFirstPorts ((Subnet.isTerminal_eq_false_iff hc).1 hterm).2

namespace MappedNetwork

variable {store : Store} {net : Subnet} {library : Library} {choice : Choice}

lemma realized_showFirstPorts (needed : List Nat) :
    realized net.showFirstPorts needed = realized net needed := by
  have input : ∀ v : Nat,
      (net.showFirstPorts.cells[v]?).any Cell.isInput = (net.cells[v]?).any Cell.isInput := by
    intro v
    rw [Subnet.getElem?_showFirstPorts]
    cases net.cells[v]? <;> simp
  simp only [realized, Subnet.size_showFirstPorts, input]

/-- Ports do not matter for the network of a choice. -/
lemma ofChoice_showFirstPorts :
    ofChoice store net.showFirstPorts library choice = ofChoice store net library choice := by
  simp only [ofChoice, build, neededEntries, realized_showFirstPorts, Subnet.size_showFirstPorts,
    Subnet.outputs_showFirstPorts]

end MappedNetwork

variable {store store' : Store} {net mapped : Subnet} {library : Library} {options : MapOptions}
  {strategy : Strategy}

/-- Whatever is chosen among the candidates, the mapped network agrees with the original one as far as
first ports are shown. -/
lemma Problem.Admits.exists_ofChoice_showFirstPorts {p : Problem} {choice : MappedNetwork.Choice}
    (admits : p.Admits choice) (installed : library.Installed store)
    (h : Problem.of store net library options = .ok p) :
    ∃ result, MappedNetwork.ofChoice store net library choice = .ok result ∧
      ∀ mapped, result = .ok mapped → Subnet.Agrees store mapped net.showFirstPorts := by
  rw [← MappedNetwork.ofChoice_showFirstPorts]
  refine MappedNetwork.exists_ofChoice installed (fun _ hentry => admits.input h hentry)
    fun _ hentry _ hr => ?_
  exact admits.realizedBy_showFirstPorts h (Subnet.size_showFirstPorts ▸ hentry) hr

namespace Store

/-- Mapping shows the first ports of what drives the outputs, for every network and every strategy: the
mapped network has as many inputs and outputs as the original one, and each of its outputs has the value
of the first port of its driver.  So it computes the function of the network for those assignments for
which every output reads a port with the value of the first one, and for no others.  If there is no mapped
network the store stays as it is.  If the composites can be evaluated and only outputs read other ports,
mapping does not fail otherwise, unless the strategy itself does. -/
theorem addMapped_shows_first_ports {start loadedStore : Store} {file : List UInt8}
    (loaded : Library.ofBytes start file = .ok (loadedStore, .ok library))
    (grows : loadedStore.Extends store) (net : Subnet) (options : MapOptions) :
    (∀ strategy store' position,
      store.addMapped net library strategy options = .ok (store', .ok position) →
        ∃ mapped, store.addSubnet mapped = (store', position) ∧ store'.Evaluable mapped ∧
          mapped.numInputs = net.numInputs ∧ mapped.numOutputs = net.numOutputs ∧
          ∀ σ, mapped.outputValues store'.ports σ = net.showFirstPorts.outputValues store.ports σ ∧
            (mapped.outputValues store'.ports σ = net.outputValues store.ports σ ↔
              ∀ c ∈ net.cells, c.isOutput = true → ∀ l ∈ c.links.head?,
                l.atFirstPort.read (net.values store.ports σ) = l.read (net.values store.ports σ))) ∧
    (∀ strategy store' e,
      store.addMapped net library strategy options = .ok (store', .error e) → store' = store) ∧
    (net.InnerAtFirstPorts → (∀ c ∈ net.cells, c.kind.symbol = .cell →
        store.EvaluableBelow store.subnets.size c) →
      1 ≤ options.cuts.size → options.cuts.size ≤ 16 →
      ∃ p, Problem.of store net library options = .ok p ∧
        ∀ strategy s, Strategy.select strategy p = .ok s →
          ∃ outcome, store.addMapped net library strategy options = .ok outcome) := by
  have installed : library.Installed store := (Library.installed_ofBytes loaded).extends grows
  refine ⟨fun strategy store' position h => ?_, fun _ _ _ => addMapped_eq_ok_error,
    fun inner evaluable least most => ?_⟩
  · obtain ⟨p, s, mapped, hp, hs, hresult, hstore⟩ := addMapped_eq_ok_ok h
    obtain ⟨_, hresult', agrees⟩ :=
      (Strategy.admits_select hs).exists_ofChoice_showFirstPorts installed hp
    cases hresult.symm.trans hresult'
    have agrees := agrees mapped rfl
    obtain ⟨stored, values⟩ := agrees.addSubnet
    rw [hstore] at stored values
    refine ⟨mapped, hstore, stored, agrees.numInputs, agrees.numOutputs, fun σ => ⟨values σ, ?_⟩⟩
    rw [values σ]
    exact Subnet.outputValues_showFirstPorts_eq_iff
  · obtain ⟨p, hp⟩ := Problem.exists_of_inner inner evaluable most library least
    refine ⟨p, hp, fun strategy s hs => ?_⟩
    obtain ⟨result, hresult, -⟩ :=
      (Strategy.admits_select hs).exists_ofChoice_showFirstPorts installed hp
    exact exists_addMapped hp hs hresult

/-! ## A signal and its complement -/

/-- A signal and its complement. -/
def phases : Subnet where
  cells := #[.input, .output (.of 0), .output (Link.of 0).invert]
  numInputs := 1
  numOutputs := 2
  valid := by decide

/-- A store that knows a signal and its complement as a type of cells. -/
def phaseStore : Store := ((empty.addSubnet phases).1.addComposite "phases" 0 phases none).1

/-- The two ports of such a cell as outputs. -/
def bothPhases : Subnet where
  cells := #[.input, ⟨⟨.cell, 13⟩, [.of 0]⟩, .output (.of 1), .output { entry := 1, port := 1 }]
  numInputs := 1
  numOutputs := 2
  valid := by decide

/-- The input as both outputs. -/
def samePhase : Subnet where
  cells := #[.input, .output (.of 0), .output (.of 0)]
  numInputs := 1
  numOutputs := 2
  valid := by decide

/-- A library without cells. -/
def emptyFile : List UInt8 := "[[]]".toList.map fun c => .ofNat c.toNat

/-- The first port of the cell is its input, which leaves one candidate. -/
lemma exists_problem_bothPhases : ∃ p, Problem.of phaseStore bothPhases {} {} = .ok p ∧
    p.candidates = #[[], [⟨1, .wire 0⟩], [], []] := by
  have hrun : (Problem.of phaseStore bothPhases {} {}).map (·.candidates) =
      .ok #[[], [⟨1, .wire 0⟩], [], []] := by cbv
  exact map_eq_ok_iff.1 hrun

lemma choice_leastArea_bothPhases {p : Problem} (hnet : p.net = bothPhases)
    (hcandidates : p.candidates = #[[], [⟨1, .wire 0⟩], [], []]) :
    (Selection.leastArea p).choice = #[some .input, some (.wire 0), some (.output (.of 1)),
      some (.output { entry := 1, port := 1 })] := by
  obtain ⟨store, net, library, options, candidates, fanout⟩ := p
  subst hnet hcandidates
  rfl

lemma addMapped_bothPhases : phaseStore.addMapped bothPhases {} .simpleArea {} =
    .ok ((phaseStore.addSubnet samePhase).1, .ok (phaseStore.addSubnet samePhase).2) := by
  obtain ⟨p, hp, hcandidates⟩ := exists_problem_bothPhases
  have hchoice := choice_leastArea_bothPhases (Problem.net_of hp) hcandidates
  have hselect : Strategy.simpleArea.select p = .ok (Selection.leastArea p) := rfl
  have hmapped : MappedNetwork.ofChoice phaseStore bothPhases {} (Selection.leastArea p).choice =
      .ok (.ok samePhase) := by
    rw [hchoice]
    cbv
  exact addMapped_eq_ok_iff.2 ⟨p, _, _, hp, hselect, hmapped, rfl⟩

/-- The second output of the mapped network shows the first port. -/
theorem addMapped_shows_first_ports_bothPhases :
    Library.ofBytes phaseStore emptyFile = .ok (phaseStore, .ok {}) ∧
      phaseStore.addMapped bothPhases {} .simpleArea {} =
        .ok ((phaseStore.addSubnet samePhase).1, .ok (phaseStore.addSubnet samePhase).2) ∧
      ∀ σ, samePhase.outputValues (phaseStore.addSubnet samePhase).1.ports σ =
        bothPhases.showFirstPorts.outputValues phaseStore.ports σ := by
  have loaded : Library.ofBytes phaseStore emptyFile = .ok (phaseStore, .ok {}) := by cbv
  refine ⟨loaded, addMapped_bothPhases, fun σ => ?_⟩
  obtain ⟨shows, -⟩ := addMapped_shows_first_ports loaded (.refl phaseStore) bothPhases {}
  obtain ⟨mapped, hadd, -, -, -, values⟩ := shows _ _ _ addMapped_bothPhases
  obtain rfl : mapped = samePhase := Arena.eq_of_push_eq (congrArg (fun r => r.1.subnets) hadd)
  exact (values σ).1

/-- A network that shows both ports of a cell is mapped to one that shows the first port twice. -/
theorem addMapped_changes_second_port :
    phaseStore.addMapped bothPhases {} .simpleArea {} =
        .ok ((phaseStore.addSubnet samePhase).1, .ok (phaseStore.addSubnet samePhase).2) ∧
      (phaseStore.tabulate bothPhases).map (·.map (·.toNat)) = .ok [2, 1] ∧
      ((phaseStore.addSubnet samePhase).1.tabulate samePhase).map (·.map (·.toNat)) = .ok [2, 2] :=
  ⟨addMapped_bothPhases, by cbv, by cbv⟩

end Store

end Gatework
