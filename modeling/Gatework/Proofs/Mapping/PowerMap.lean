import Gatework.Proofs.Mapping.Completeness

/-!
# Which networks have an activity

A simulation for activity needs one word of every signal for each 64 ticks.  Where there are inputs, as many
are drawn for each; without inputs a network is simulated over a single word, and counting on behind it
fails.  The selection for low power needs an activity, and nothing else in it can fail.

**Main statement.** `Store.Evaluable.activity_total`.
-/

namespace Gatework

namespace Store

variable {store : Store} {net : Subnet} {library : Library} {options : MapOptions} {ticks : Nat}
  {probabilities : List Float}

/-- Mapping for low power has an outcome where there is an activity. -/
lemma exists_addMapped_powerMap (installed : library.Installed store) (evaluable : store.Evaluable net)
    (port : ∀ c ∈ net.cells, ∀ l ∈ c.links, l.port = 0) (least : 1 ≤ options.cuts.size)
    (most : options.cuts.size ≤ 16) {activity : Activity}
    (h : store.simulatedActivity net options.ticks options.seed [] = .ok activity) :
    ∃ store' outcome, store.addMapped net library .powerMap options = .ok (store', outcome) := by
  obtain ⟨p, hp⟩ := Problem.exists_of port (fun c hc hkind => evaluable.composite hc hkind) most library
    least
  obtain ⟨hstore, hnet, -, hoptions⟩ := Problem.stated_of hp
  obtain ⟨s, hs⟩ : ∃ s, Selection.leastPower p = .ok s :=
    ⟨_, bind_eq_ok_iff.2 ⟨activity, by rw [hstore, hnet, hoptions, h], rfl⟩⟩
  have hselect : Strategy.powerMap.select p = .ok s := hs
  obtain ⟨result, hresult, -⟩ := (Strategy.admits_select hselect).exists_ofChoice installed
    (evaluable.mappable port) hp
  obtain ⟨⟨store', outcome⟩, run⟩ := exists_addMapped hp hselect hresult
  exact ⟨store', outcome, run⟩

/-- Without an activity it fails in the same way. -/
lemma addMapped_powerMap_eq_error {p : Problem} (hp : Problem.of store net library options = .ok p)
    {fault : Fault} (h : store.simulatedActivity net options.ticks options.seed [] = .error fault) :
    store.addMapped net library .powerMap options = .error fault := by
  obtain ⟨hstore, hnet, -, hoptions⟩ := Problem.stated_of hp
  have hselect : Strategy.powerMap.select p = .error fault := by
    show Selection.leastPower p = _
    rw [Selection.leastPower, hstore, hnet, hoptions, h]
    rfl
  rw [addMapped, map, hp, ok_bind, hselect]
  rfl

/-- An evaluable network has an activity, of all of its entries, over any number of ticks from two on, for
any seed and any probabilities of the inputs, if the simulation fills the ticks: if there are inputs, or at
most 64 ticks, or no entries at all; and otherwise counting fails.  Where its links read first ports, the
same holds of mapping for low power onto a loaded library. -/
theorem Evaluable.activity_total (evaluable : store.Evaluable net) :
    (∀ ticks, 2 ≤ ticks → ∀ seed probabilities, ProperProbabilities probabilities net.numInputs →
      (Fills net ticks → ∃ activity, store.simulatedActivity net ticks seed probabilities = .ok activity ∧
        activity.size = net.size) ∧
      (¬Fills net ticks →
        store.simulatedActivity net ticks seed probabilities = .error .internal)) ∧
    ∀ start loadedStore file library options,
      Library.ofBytes start file = .ok (loadedStore, .ok library) → loadedStore.Extends store →
      (∀ c ∈ net.cells, ∀ l ∈ c.links, l.port = 0) → 1 ≤ options.cuts.size → options.cuts.size ≤ 16 →
      2 ≤ options.ticks →
      (Fills net options.ticks →
        ∃ store' outcome, store.addMapped net library .powerMap options = .ok (store', outcome)) ∧
      (¬Fills net options.ticks →
        store.addMapped net library .powerMap options = .error .internal) := by
  refine ⟨fun ticks hticks seed probabilities proper =>
    evaluable.simulable.simulatedActivity_cases hticks proper seed, ?_⟩
  intro start loadedStore file library options loaded grows port least most hticks
  obtain ⟨total, fails⟩ := evaluable.simulable.simulatedActivity_cases hticks
    (properProbabilities_nil net.numInputs) options.seed
  constructor
  · intro fills
    obtain ⟨activity, hactivity, -⟩ := total fills
    exact exists_addMapped_powerMap ((Library.installed_ofBytes loaded).extends grows) evaluable port least
      most hactivity
  · intro short
    obtain ⟨p, hp⟩ := Problem.exists_of port (fun c hc hkind => evaluable.composite hc hkind) most library
      least
    exact addMapped_powerMap_eq_error hp (fails short)

/-! ## A constant -/

/-- An output that is always one. -/
def steady : Subnet where
  cells := #[⟨.ofGate .one, []⟩, .output (.of 0)]
  numInputs := 0
  numOutputs := 1
  valid := by decide

lemma ports_steady : ∀ c ∈ steady.cells, ∀ l ∈ c.links, l.port = 0 := by decide

lemma evaluable_steady (store : Store) : store.Evaluable steady := by
  refine evaluable_of_port_zero (fun c hc hinput => ?_) ports_steady
  simp only [steady, List.mem_toArray, List.mem_cons, List.not_mem_nil, or_false] at hc
  rcases hc with rfl | rfl
  · exact (evaluableBelow_gate rfl).2 (by decide)
  · exact (evaluableBelow_gate rfl).2 (by decide)

/-- One word of a constant is counted, and mapped for low power. -/
theorem Evaluable.activity_total_steady : ∃ store,
    Library.ofBytes .empty conjunctionFile = .ok (store, .ok conjunctions) ∧ Fills steady 64 ∧
      (∃ activity, store.simulatedActivity steady 64 0 [] = .ok activity ∧ activity.size = 2) ∧
      ∃ store' outcome,
        store.addMapped steady conjunctions .powerMap { ticks := 64 } = .ok (store', outcome) := by
  obtain ⟨store, loaded⟩ := exists_conjunctions
  have fills : Fills steady 64 := .inr (.inl (by decide))
  obtain ⟨counted, mapped⟩ := (evaluable_steady store).activity_total
  exact ⟨store, loaded, fills, (counted 64 (by decide) 0 [] (properProbabilities_nil 0)).1 fills,
    (mapped .empty store conjunctionFile conjunctions { ticks := 64 } loaded (.refl store) ports_steady
      (by decide) (by decide) (by decide)).1 fills⟩

/-- More ticks of a constant than fit into a word cannot be counted, so that by default it cannot be mapped
for low power either. -/
theorem activity_fails_steady : ∃ store,
    Library.ofBytes .empty conjunctionFile = .ok (store, .ok conjunctions) ∧ store.Evaluable steady ∧
      (∀ c ∈ steady.cells, ∀ l ∈ c.links, l.port = 0) ∧
      store.simulatedActivity steady 128 0 [] = .error .internal ∧
      store.addMapped steady conjunctions .powerMap {} = .error .internal := by
  obtain ⟨store, loaded⟩ := exists_conjunctions
  have evaluable := evaluable_steady store
  have proper := properProbabilities_nil steady.numInputs
  have short : ∀ ticks, 64 < ticks → ¬Fills steady ticks := by
    rintro ticks hticks (h | h | h)
    · cases h
    · omega
    · cases h
  have activity : ∀ ticks, 64 < ticks → store.simulatedActivity steady ticks 0 [] = .error .internal :=
    fun ticks hticks =>
      (evaluable.simulable.simulatedActivity_cases (by omega) proper 0).2 (short ticks hticks)
  obtain ⟨p, hp⟩ : ∃ p, Problem.of store steady conjunctions {} = .ok p :=
    Problem.exists_of ports_steady (fun c hc hkind => evaluable.composite hc hkind) (by decide)
      conjunctions (by decide)
  exact ⟨store, loaded, evaluable, ports_steady, activity 128 (by decide),
    addMapped_powerMap_eq_error hp (activity 4096 (by decide))⟩

end Store

end Gatework
