import Gatework.Proofs.Mapping.Network
import Gatework.Proofs.Mapping.Strategy

/-!
# Mapping keeps the function of a network

A strategy only chooses among the candidates (`Strategy.admits_select`), every candidate has the value of
its entry (`Problem.Admits.realizedBy`), and the network of such a choice agrees with the original one
(`MappedNetwork.exists_ofChoice`).  So the costs, the activities and the random numbers that a strategy
looks at decide which network comes out, but not what it computes.

**Main statement.** `Store.addMapped_keeps_function`.
-/

namespace Gatework

variable {store store' : Store} {net mapped : Subnet} {library : Library} {options : MapOptions}
  {strategy : Strategy}

/-- Whatever is chosen among the candidates, the mapped network agrees with the original one. -/
theorem Problem.Admits.exists_ofChoice {p : Problem} {choice : MappedNetwork.Choice}
    (admits : p.Admits choice) (installed : library.Installed store) (mappable : store.Mappable net)
    (h : Problem.of store net library options = .ok p) :
    ∃ result, MappedNetwork.ofChoice store net library choice = .ok result ∧
      ∀ mapped, result = .ok mapped → Subnet.Agrees store mapped net :=
  MappedNetwork.exists_ofChoice installed (fun _ hentry => admits.input h hentry)
    fun _ hentry _ hr => admits.realizedBy h mappable hentry hr

/-- A network that agrees with another one can be evaluated where it is stored, and computes there what the
other one did before. -/
lemma Subnet.Agrees.addSubnet (agrees : Subnet.Agrees store mapped net) :
    (store.addSubnet mapped).1.Evaluable mapped ∧
      ∀ σ, mapped.outputValues (store.addSubnet mapped).1.ports σ = net.outputValues store.ports σ := by
  have evaluable := Store.evaluable_of_regular agrees.regular
  have grows := Store.Extends.addSubnet store mapped
  exact ⟨grows.evaluable evaluable,
    fun σ => (grows.outputValues_eq evaluable σ).trans (agrees.values σ)⟩

namespace Store

/-- What mapping does: it states the problem, selects, builds the network, and stores it if there is one. -/
lemma addMapped_eq_ok_iff {outcome : Except MapError Nat} :
    store.addMapped net library strategy options = .ok (store', outcome) ↔
      ∃ p s result, Problem.of store net library options = .ok p ∧ strategy.select p = .ok s ∧
        MappedNetwork.ofChoice store net library s.choice = .ok result ∧
        match result with
        | .ok mapped => ((store.addSubnet mapped).1, .ok (store.addSubnet mapped).2) = (store', outcome)
        | .error e => (store, .error e) = (store', outcome) := by
  constructor
  · intro h
    obtain ⟨result, hmap, h⟩ := bind_eq_ok_iff.1 h
    obtain ⟨p, hp, hmap⟩ := bind_eq_ok_iff.1 hmap
    obtain ⟨s, hs, hresult⟩ := bind_eq_ok_iff.1 hmap
    refine ⟨p, s, result, hp, hs, hresult, ?_⟩
    cases result with
    | ok mapped => exact Except.ok.inj h
    | error e => exact Except.ok.inj h
  · rintro ⟨p, s, result, hp, hs, hresult, h⟩
    have hmap : store.map net library strategy options = .ok result :=
      bind_eq_ok_iff.2 ⟨p, hp, bind_eq_ok_iff.2 ⟨s, hs, hresult⟩⟩
    refine bind_eq_ok_iff.2 ⟨result, hmap, ?_⟩
    cases result with
    | ok mapped => exact congrArg Except.ok h
    | error e => exact congrArg Except.ok h

/-- The network that mapping stores is the one that was built for the selection. -/
lemma addMapped_eq_ok_ok {position : Nat}
    (h : store.addMapped net library strategy options = .ok (store', .ok position)) :
    ∃ p s mapped, Problem.of store net library options = .ok p ∧ strategy.select p = .ok s ∧
      MappedNetwork.ofChoice store net library s.choice = .ok (.ok mapped) ∧
      store.addSubnet mapped = (store', position) := by
  obtain ⟨p, s, result, hp, hs, hresult, h⟩ := addMapped_eq_ok_iff.1 h
  cases result with
  | error e => cases h
  | ok mapped =>
      cases h
      exact ⟨p, s, mapped, hp, hs, hresult, rfl⟩

/-- Where there is no mapped network the store stays as it is. -/
lemma addMapped_eq_ok_error {e : MapError}
    (h : store.addMapped net library strategy options = .ok (store', .error e)) : store' = store := by
  obtain ⟨-, -, result, -, -, -, h⟩ := addMapped_eq_ok_iff.1 h
  cases result with
  | error e =>
      cases h
      rfl
  | ok mapped => cases h

/-- What was built for a selection is the outcome of mapping. -/
lemma exists_addMapped {p : Problem} {s : Selection} {result : Except MapError Subnet}
    (hp : Problem.of store net library options = .ok p) (hs : strategy.select p = .ok s)
    (hresult : MappedNetwork.ofChoice store net library s.choice = .ok result) :
    ∃ outcome, store.addMapped net library strategy options = .ok outcome := by
  cases result with
  | error e => exact ⟨_, addMapped_eq_ok_iff.2 ⟨p, s, _, hp, hs, hresult, rfl⟩⟩
  | ok mapped => exact ⟨_, addMapped_eq_ok_iff.2 ⟨p, s, _, hp, hs, hresult, rfl⟩⟩

/-- Mapping onto a loaded library keeps the function of a network, whatever strategy is used: the mapped
network is added to the store, has as many inputs and outputs as the original one and for every assignment
the same values at the outputs; and if there is no mapped network the store stays as it is.  The same
holds of the network of any choice among the candidates.  If the composites can be evaluated, mapping does
not fail otherwise, unless the strategy itself does. -/
theorem addMapped_keeps_function {start loadedStore : Store} {file : List UInt8}
    (loaded : Library.ofBytes start file = .ok (loadedStore, .ok library))
    (grows : loadedStore.Extends store) (mappable : store.Mappable net)
    (least : 1 ≤ options.cuts.size) (most : options.cuts.size ≤ 16) :
    (∀ strategy store' position,
      store.addMapped net library strategy options = .ok (store', .ok position) →
        ∃ mapped, store.addSubnet mapped = (store', position) ∧ store'.Evaluable mapped ∧
          mapped.numInputs = net.numInputs ∧ mapped.numOutputs = net.numOutputs ∧
          ∀ σ, mapped.outputValues store'.ports σ = net.outputValues store.ports σ) ∧
    (∀ strategy store' e,
      store.addMapped net library strategy options = .ok (store', .error e) → store' = store) ∧
    (∀ p choice, Problem.of store net library options = .ok p → p.Admits choice →
      ∃ result, MappedNetwork.ofChoice store net library choice = .ok result ∧
        ∀ mapped, result = .ok mapped → Subnet.Agrees store mapped net) ∧
    ((∀ c ∈ net.cells, c.kind.symbol = .cell → store.EvaluableBelow store.subnets.size c) →
      ∃ p, Problem.of store net library options = .ok p ∧
        ∀ strategy s, Strategy.select strategy p = .ok s →
          ∃ outcome, store.addMapped net library strategy options = .ok outcome) := by
  have installed : library.Installed store := (Library.installed_ofBytes loaded).extends grows
  refine ⟨fun strategy store' position h => ?_, fun _ _ _ => addMapped_eq_ok_error,
    fun p choice h admits => admits.exists_ofChoice installed mappable h, fun evaluable => ?_⟩
  · obtain ⟨p, s, mapped, hp, hs, hresult, hstore⟩ := addMapped_eq_ok_ok h
    obtain ⟨_, hresult', agrees⟩ :=
      (Strategy.admits_select hs).exists_ofChoice installed mappable hp
    cases hresult.symm.trans hresult'
    obtain ⟨stored, values⟩ := (agrees mapped rfl).addSubnet
    rw [hstore] at stored values
    exact ⟨mapped, hstore, stored, (agrees mapped rfl).numInputs, (agrees mapped rfl).numOutputs, values⟩
  · obtain ⟨p, hp⟩ := Problem.exists_of mappable.port evaluable most library least
    refine ⟨p, hp, fun strategy s hs => ?_⟩
    obtain ⟨result, hresult, -⟩ :=
      (Strategy.admits_select hs).exists_ofChoice installed mappable hp
    exact exists_addMapped hp hs hresult

/-- The first of three bits, but neither of the others. -/
def remainder : Subnet where
  cells := #[.input, .input, .input, ⟨.ofGate .and, [.of 0, (Link.of 1).invert]⟩,
    ⟨.ofGate .and, [(Link.of 2).invert, .of 3]⟩, .output (.of 4)]
  numInputs := 3
  numOutputs := 1
  valid := by decide

lemma mappable_remainder (store : Store) : store.Mappable remainder where
  port := by decide
  implemented c hc hkind := by
    simp only [remainder, List.mem_toArray, List.mem_cons, List.not_mem_nil, or_false] at hc
    rcases hc with rfl | rfl | rfl | rfl | rfl | rfl <;> cases hkind

/-- Both gates are differences, the second one with its operands swapped. -/
def remainderProblem (store : Store) : Problem where
  store := store
  net := remainder
  library := differences
  options := {}
  candidates := #[[], [], [], [⟨1, .cell 0 [.of 0, .of 1]⟩], [⟨1, .cell 0 [.of 3, .of 2]⟩], []]
  fanout := #[1, 1, 1, 1, 1, 0]

lemma of_remainder (store : Store) :
    Problem.of store remainder differences {} = .ok (remainderProblem store) := by cbv

def remainderChoice : MappedNetwork.Choice := #[some .input, some .input, some .input,
  some (.cell 0 [.of 0, .of 1]), some (.cell 0 [.of 3, .of 2]), some (.output (.of 4))]

lemma choice_earliest_remainder (store : Store) :
    (Selection.earliest (remainderProblem store)).choice = remainderChoice := by
  -- costs do not depend on the store
  rw [show Selection.earliest (remainderProblem store) = Selection.earliest (remainderProblem .empty)
    from rfl]
  decide +kernel

/-- Two differences, to which the remainder is mapped, compute the remainder. -/
theorem addMapped_keeps_function_remainder : ∃ store mapped,
    Library.ofBytes .empty differenceFile = .ok (store, .ok differences) ∧ store.Mappable remainder ∧
      (Selection.earliest (remainderProblem store)).choice = remainderChoice ∧
      MappedNetwork.ofChoice store remainder differences remainderChoice = .ok (.ok mapped) ∧
      store.addMapped remainder differences .minDelay {} =
        .ok ((store.addSubnet mapped).1, .ok (store.addSubnet mapped).2) ∧
      ∀ σ, mapped.outputValues (store.addSubnet mapped).1.ports σ =
        remainder.outputValues store.ports σ := by
  obtain ⟨store, loaded⟩ := exists_differences
  have mappable := mappable_remainder store
  have choice := choice_earliest_remainder store
  have admits := Selection.admits_earliest (remainderProblem store)
  rw [choice] at admits
  have hneeded : MappedNetwork.neededEntries remainder remainderChoice = .ok [5, 4, 2, 3, 1, 0] := by cbv
  have plain : ∀ e < 6, ∀ r ∈ remainderChoice.getD e none, ∀ l ∈ r.links, l.inverted = false := by
    decide
  have served : ∀ e < remainder.size, e ∈ [5, 4, 2, 3, 1, 0] →
      MappedNetwork.ServedAt differences remainderChoice e := by
    intro e he _ r hr l hl hinverted
    rw [plain e he r hr l hl] at hinverted
    cases hinverted
  obtain ⟨result, hresult, -, hok, -⟩ := MappedNetwork.ofChoice_spec
    (Library.installed_ofBytes loaded) (fun _ he => admits.input (of_remainder store) he)
    fun _ he _ hr => admits.realizedBy (of_remainder store) mappable he hr
  obtain ⟨mapped, rfl⟩ := hok.2 ⟨_, hneeded, served⟩
  have hselect : Strategy.minDelay.select (remainderProblem store) =
      .ok (Selection.earliest (remainderProblem store)) := rfl
  have hmap : store.addMapped remainder differences .minDelay {} =
      .ok ((store.addSubnet mapped).1, .ok (store.addSubnet mapped).2) :=
    addMapped_eq_ok_iff.2 ⟨_, _, _, of_remainder store, hselect, choice ▸ hresult, rfl⟩
  have size : 1 ≤ ({} : MapOptions).cuts.size ∧ ({} : MapOptions).cuts.size ≤ 16 := by decide
  obtain ⟨keeps, -⟩ := addMapped_keeps_function loaded (.refl store) mappable size.1 size.2
  obtain ⟨mapped', hadd, -, -, -, values⟩ := keeps _ _ _ hmap
  obtain rfl : mapped' = mapped := by
    exact Arena.eq_of_push_eq (congrArg (fun r => r.1.subnets) hadd)
  exact ⟨store, mapped', loaded, mappable, choice, hresult, hmap, values⟩

end Store

end Gatework
