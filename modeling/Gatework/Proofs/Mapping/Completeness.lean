import Gatework.Proofs.Activity
import Gatework.Proofs.Mapping.Evolution
import Gatework.Proofs.Mapping.Recovery

/-!
# Which networks can be mapped

Whether a network can be mapped is a question of the library and the cuts only: it can if some choice among
the candidates covers the outputs and the library has the inverters that complemented outputs need.  Every
strategy finds such a choice if there is one (`Strategy.exists_select`), with one exception.  The selection
with the least area flow takes candidates without regard to whether what they read can be realised, and an
entry that cannot be realised costs it nothing, so it is only certain to cover the outputs of a problem
without gaps (`Problem.Gapless`).

**Main statement.** `Store.addMapped_complete`.
-/

namespace Gatework

open MappedNetwork

namespace Problem

variable {p : Problem} {choice : Choice} {e : Nat}

/-- What the outputs may need, whatever is chosen among the candidates. -/
inductive MayNeed (p : Problem) : Nat → Prop
  | output {o : Nat} (h : o ∈ p.net.outputs) : MayNeed p o
  | read {e leaf : Nat} {r : Realization} (h : MayNeed p e) (hr : p.AdmitsAt e (some r))
      (hleaf : leaf ∈ r.leaves) : MayNeed p leaf

/-- Everything that the outputs may need can be realised. -/
def Gapless (p : Problem) : Prop := ∀ e, p.MayNeed e → ∃ r, p.AdmitsAt e (some r)

/-- What a choice needs is among what may be needed. -/
lemma Admits.mayNeed (admits : p.Admits choice) (sound : p.Sound) (h : Needs p.net choice e) :
    p.MayNeed e := by
  have below := admits.readsBelow sound
  induction h with
  | output ho => exact .output ho
  | read he hr hleaf ih => exact .read ih (hr ▸ admits _ (he.lt_size below)) hleaf

end Problem

namespace Selection

variable {p : Problem} {σ : Type} {pick : σ → Nat → Array Float32 → Option Candidate × σ}

/-- Without gaps every pass covers the outputs that takes a candidate wherever there is one. -/
lemma covers_forward_of_gapless (sound : p.Sound) (gapless : p.Gapless) (picks : Picks p pick)
    (takes : ∀ memory e arrivals, p.candidatesAt e ≠ [] → ∃ c, (pick memory e arrivals).1 = some c)
    (memory : σ) : Covers p.net (forward p pick memory).choice := by
  have admits := admits_forward picks memory
  intro e needs
  have he := needs.lt_size (admits.readsBelow sound)
  obtain ⟨r, hr⟩ := gapless e (admits.mayNeed sound needs)
  obtain ⟨memory', arrivals, -, hchoice, -⟩ := (passed_forward p pick memory).entry e he
  rw [hchoice, taken]
  rw [Problem.AdmitsAt] at hr
  cases hfixed : p.fixed? e with
  | some r' => exact ⟨r', rfl⟩
  | none =>
      rw [hfixed] at hr
      obtain ⟨c, hc, -⟩ := hr r rfl
      obtain ⟨c', hpick⟩ := takes memory' e arrivals (List.ne_nil_of_mem hc)
      rw [hpick]
      exact ⟨_, rfl⟩

/-- Without gaps the selection with the least area flow covers the outputs. -/
theorem covers_leastArea (sound : p.Sound) (gapless : p.Gapless) : Covers p.net (leastArea p).choice :=
  covers_forward_of_gapless sound gapless (fun _ _ _ _ hc => firstBest?_mem hc)
    (fun _ _ _ hne => exists_firstBest? _ _ hne) _

end Selection

/-- Mutations have a probability. -/
def Strategy.Proper : Strategy → Prop
  | .genetic options => 0 ≤ options.mutationRate ∧ options.mutationRate ≤ 1
  | _ => True

/-- A strategy is bound to find a choice that covers the outputs if there is one. -/
def Strategy.Thorough (p : Problem) : Strategy → Prop
  | .simpleArea => p.Gapless
  | _ => True

/-- Every strategy makes a selection, and covers the outputs if it can be done. -/
theorem Strategy.exists_select {p : Problem} {strategy : Strategy} (timed : p.library.Timed)
    (sound : p.Sound) (evaluable : p.store.Evaluable p.net) (inputs : 1 ≤ p.net.numInputs)
    (ticks : 2 ≤ p.options.ticks) (proper : strategy.Proper) :
    ∃ s, strategy.select p = .ok s ∧ (strategy.Thorough p →
      ∀ choice, p.Admits choice → Covers p.net choice → Covers p.net s.choice) := by
  have earliest : ∀ choice, p.Admits choice → Covers p.net choice →
      Covers p.net (Selection.earliest p).choice := fun _ admits covers =>
    Selection.covers_earliest timed sound admits covers
  cases strategy with
  | minDelay => exact ⟨_, rfl, fun _ => earliest⟩
  | simpleArea =>
      exact ⟨_, rfl, fun gapless _ _ _ => Selection.covers_leastArea sound gapless⟩
  | areaRecovery =>
      exact ⟨_, rfl, fun _ choice admits covers =>
        Selection.covers_areaRecovery timed sound (earliest choice admits covers)⟩
  | powerMap =>
      obtain ⟨activity, hactivity⟩ := Store.exists_simulatedActivity evaluable inputs ticks p.options.seed
      obtain ⟨s, hs⟩ : ∃ s, Selection.leastPower p = .ok s :=
        ⟨_, bind_eq_ok_iff.2 ⟨activity, hactivity, rfl⟩⟩
      exact ⟨s, hs, fun _ choice admits covers =>
        Selection.covers_leastPower timed sound (earliest choice admits covers) hs⟩
  | genetic options =>
      obtain ⟨s, hs, covers⟩ := Selection.exists_evolved timed sound proper
      exact ⟨s, hs, fun _ choice admits hcovers => covers (earliest choice admits hcovers)⟩

namespace Store

variable {store : Store} {net : Subnet} {library : Library} {options : MapOptions}

lemma Evaluable.composite (evaluable : store.Evaluable net) {c : Cell} (hc : c ∈ net.cells)
    (hkind : c.kind.symbol = .cell) : store.EvaluableBelow store.subnets.size c := by
  obtain ⟨j, hj⟩ := Array.mem_iff_getElem?.1 hc
  exact (evaluable j c hj (by simp [Cell.isInput, hkind])).1

/-- An evaluable network whose links read first ports can be mapped as far as the composites go. -/
lemma Evaluable.mappable (evaluable : store.Evaluable net)
    (port : ∀ c ∈ net.cells, ∀ l ∈ c.links, l.port = 0) : store.Mappable net where
  port := port
  implemented c hc hkind := by
    obtain ⟨i, impl, himpl, hnet, hin, hout, -, -⟩ :=
      (evaluableBelow_composite hkind).1 (evaluable.composite hc hkind)
    exact ⟨i, impl, himpl, hnet, hin, hout⟩

/-- Mapping onto a loaded library always has an outcome.  A strategy that is thorough maps the network
exactly if the network of some choice among the candidates can be built, and reports that an entry is
missing exactly if no such choice covers the outputs. -/
theorem addMapped_complete {start loadedStore : Store} {file : List UInt8}
    (loaded : Library.ofBytes start file = .ok (loadedStore, .ok library))
    (grows : loadedStore.Extends store) (evaluable : store.Evaluable net)
    (port : ∀ c ∈ net.cells, ∀ l ∈ c.links, l.port = 0) (inputs : 1 ≤ net.numInputs)
    (least : 1 ≤ options.cuts.size) (most : options.cuts.size ≤ 16) (ticks : 2 ≤ options.ticks)
    (delays : ∀ c ∈ library.cells, ∀ d ∈ c.costs.delay, Cost.Moderate d) :
    ∃ p, Problem.of store net library options = .ok p ∧ ∀ strategy : Strategy, strategy.Proper →
      ∃ store' outcome, store.addMapped net library strategy options = .ok (store', outcome) ∧
        (strategy.Thorough p →
          ((∃ position, outcome = .ok position) ↔ ∃ choice mapped, p.Admits choice ∧
            MappedNetwork.ofChoice store net library choice = .ok (.ok mapped)) ∧
          ((∃ entry, outcome = .error (.noAdmissibleCut entry)) ↔
            ∀ choice, p.Admits choice → ¬Covers net choice)) := by
  have installed : library.Installed store := (Library.installed_ofBytes loaded).extends grows
  have mappable := evaluable.mappable port
  obtain ⟨p, hp⟩ := Problem.exists_of port (fun c hc hkind => evaluable.composite hc hkind) most library
    least
  obtain ⟨hstore, hnet, hlibrary, hoptions⟩ := Problem.stated_of hp
  have timed : p.library.Timed := fun c hc => by
    rw [hlibrary] at hc
    exact ⟨Library.length_delay_ofBytes loaded c hc, delays c hc⟩
  refine ⟨p, hp, fun strategy proper => ?_⟩
  obtain ⟨s, hs, finds⟩ := Strategy.exists_select timed (Problem.sound_of hp mappable)
    (hnet ▸ hstore ▸ evaluable) (hnet ▸ inputs) (hoptions ▸ ticks) proper
  have admits := Strategy.admits_select hs
  obtain ⟨result, hresult, hok, hmissed⟩ := admits.ofChoice_spec installed mappable hp
  rw [hnet] at finds
  have built : strategy.Thorough p → ((∃ mapped, result = .ok mapped) ↔
      ∃ choice mapped, p.Admits choice ∧
        MappedNetwork.ofChoice store net library choice = .ok (.ok mapped)) := by
    intro thorough
    constructor
    · rintro ⟨mapped, rfl⟩
      exact ⟨s.choice, mapped, admits, hresult⟩
    · rintro ⟨choice, mapped, hadmits, hchoice⟩
      obtain ⟨_, hresult', hok', -⟩ := hadmits.ofChoice_spec installed mappable hp
      cases hchoice.symm.trans hresult'
      obtain ⟨covers, served⟩ := hok'.1 ⟨mapped, rfl⟩
      exact hok.2 ⟨finds thorough choice hadmits covers, served⟩
  have missed : strategy.Thorough p → ((∃ entry, result = .error (.noAdmissibleCut entry)) ↔
      ∀ choice, p.Admits choice → ¬Covers net choice) := by
    intro thorough
    rw [hmissed]
    exact ⟨fun uncovered choice hadmits covers => uncovered (finds thorough choice hadmits covers),
      fun h => h s.choice admits⟩
  cases result with
  | ok mapped =>
      refine ⟨_, _, addMapped_eq_ok_iff.2 ⟨p, s, _, hp, hs, hresult, rfl⟩, fun thorough => ⟨?_, ?_⟩⟩
      · exact ⟨fun _ => (built thorough).1 ⟨mapped, rfl⟩, fun _ => ⟨_, rfl⟩⟩
      · rw [← missed thorough]
        exact ⟨nofun, nofun⟩
  | error e =>
      refine ⟨_, _, addMapped_eq_ok_iff.2 ⟨p, s, _, hp, hs, hresult, rfl⟩, fun thorough => ⟨?_, ?_⟩⟩
      · rw [← built thorough]
        exact ⟨nofun, nofun⟩
      · rw [← missed thorough]
        simp only [Except.error.injEq]

/-! ## A gap -/

/-- A library with a conjunction only: its name, its inputs, its function, its area and its delays. -/
def conjunctionFile : List UInt8 :=
  "[[[\"and2\",[\"a\",\"b\"],\"8\",3,[1,1]]]]".toList.map fun c => .ofNat c.toNat

/-- The earliest selection reads the first conjunction. -/
lemma choice_earliest_gapped (store : Store) : (Selection.earliest (gappedProblem store)).choice =
    #[some .input, some .input, some .input, some (.cell 0 [.of 1, .of 2]), none,
      some (.cell 0 [.of 0, .of 3]), some (.output (.of 5))] := by
  -- costs do not depend on the store
  rw [show Selection.earliest (gappedProblem store) = Selection.earliest (gappedProblem .empty) from rfl]
  decide +kernel

/-- The selection with the least area flow reads the equivalence, which costs nothing. -/
lemma choice_leastArea_gapped (store : Store) : (Selection.leastArea (gappedProblem store)).choice =
    #[some .input, some .input, some .input, some (.cell 0 [.of 1, .of 2]), none,
      some (.cell 0 [.of 0, .of 4]), some (.output (.of 5))] := by
  rw [show Selection.leastArea (gappedProblem store) = Selection.leastArea (gappedProblem .empty) from rfl]
  decide +kernel

lemma ports_gapped : ∀ c ∈ gapped.cells, ∀ l ∈ c.links, l.port = 0 := by decide

lemma evaluable_gapped (store : Store) : store.Evaluable gapped := by
  refine evaluable_of_port_zero (fun c hc hinput => ?_) ports_gapped
  simp only [gapped, List.mem_toArray, List.mem_cons, List.not_mem_nil, or_false] at hc
  rcases hc with rfl | rfl | rfl | rfl | rfl | rfl | rfl
  iterate 3 cases hinput
  all_goals exact (evaluableBelow_gate rfl).2 (by decide)

/-- The conjunction is loaded. -/
lemma exists_conjunctions :
    ∃ store, Library.ofBytes .empty conjunctionFile = .ok (store, .ok conjunctions) := by
  have hdescribe : Library.describe conjunctionFile =
      .ok [⟨"and2", ["a", "b"], "8", ⟨3, [1, 1], [], []⟩⟩] :=
    Library.describe_single (by decide +kernel)
  exact Library.exists_single hdescribe (by decide +kernel) (by cbv)

/-- The earliest selection can be built. -/
lemma exists_ofChoice_gapped {store : Store}
    (loaded : Library.ofBytes .empty conjunctionFile = .ok (store, .ok conjunctions)) :
    ∃ mapped, MappedNetwork.ofChoice store gapped conjunctions
      (Selection.earliest (gappedProblem store)).choice = .ok (.ok mapped) := by
  have mappable := (evaluable_gapped store).mappable ports_gapped
  have admits := Selection.admits_earliest (gappedProblem store)
  have needed := neededEntries_spec
    (admits.readsBelow (Problem.sound_of (of_gapped store) mappable))
  have hneeded : neededEntries gapped (Selection.earliest (gappedProblem store)).choice =
      .ok [6, 5, 3, 2, 1, 0] := by
    rw [choice_earliest_gapped]
    cbv
  have served : (gappedProblem store).Served := by
    have plain : ∀ c ∈ gapped.cells,
        (c.realization?.elim [] Realization.links).all (!·.inverted) = true := by decide
    intro entry _ r hr l hl hinverted
    obtain ⟨c, hc, hreal⟩ := Option.bind_eq_some_iff.1 hr
    have hplain := plain c (Array.mem_of_getElem? hc)
    rw [hreal] at hplain
    have hl' := List.all_eq_true.1 hplain l hl
    rw [hinverted] at hl'
    cases hl'
  obtain ⟨result, hresult, hok, -⟩ :=
    admits.ofChoice_spec (Library.installed_ofBytes loaded) mappable (of_gapped store)
  rw [show (gappedProblem store).net = gapped from rfl, hneeded] at needed
  obtain ⟨mapped, rfl⟩ := hok.2 ⟨needed.1, served⟩
  exact ⟨mapped, hresult⟩

/-- Every strategy that is thorough maps the network to two conjunctions. -/
theorem addMapped_complete_gapped : ∃ store,
    Library.ofBytes .empty conjunctionFile = .ok (store, .ok conjunctions) ∧
      ∀ strategy : Strategy, strategy.Proper → strategy.Thorough (gappedProblem store) →
        ∃ store' position, store.addMapped gapped conjunctions strategy {} = .ok (store', .ok position) := by
  obtain ⟨store, loaded⟩ := exists_conjunctions
  obtain ⟨mapped, hmapped⟩ := exists_ofChoice_gapped loaded
  have delays : ∀ c ∈ conjunctions.cells, ∀ d ∈ c.costs.delay, Cost.Moderate d := by
    intro c hc d hd
    obtain rfl : c = conjunction := by simpa [conjunctions, Library.push] using hc
    obtain rfl : d = 1 := by simpa [conjunction] using hd
    exact ⟨by decide +kernel, by decide +kernel⟩
  have bounds : 1 ≤ ({} : MapOptions).cuts.size ∧ ({} : MapOptions).cuts.size ≤ 16 ∧
      2 ≤ ({} : MapOptions).ticks := by decide
  obtain ⟨p, hp, complete⟩ := addMapped_complete loaded (.refl store) (evaluable_gapped store) ports_gapped
    (by decide) bounds.1 bounds.2.1 bounds.2.2 delays
  cases hp.symm.trans (of_gapped store)
  refine ⟨store, loaded, fun strategy proper thorough => ?_⟩
  obtain ⟨store', outcome, hrun, h⟩ := complete strategy proper
  obtain ⟨position, rfl⟩ :=
    (h thorough).1.2 ⟨_, mapped, Selection.admits_earliest (gappedProblem store), hmapped⟩
  exact ⟨store', position, hrun⟩

/-- The selection for the least area flow misses the equivalence, although the network can be mapped. -/
theorem addMapped_simpleArea_gapped : ∃ store,
    Library.ofBytes .empty conjunctionFile = .ok (store, .ok conjunctions) ∧ store.Evaluable gapped ∧
      (∀ c ∈ gapped.cells, ∀ l ∈ c.links, l.port = 0) ∧ 1 ≤ gapped.numInputs ∧
      (∃ store' position, store.addMapped gapped conjunctions .minDelay {} = .ok (store', .ok position)) ∧
      store.addMapped gapped conjunctions .simpleArea {} = .ok (store, .error (.noAdmissibleCut 4)) := by
  obtain ⟨store, loaded⟩ := exists_conjunctions
  obtain ⟨mapped, hmapped⟩ := exists_ofChoice_gapped loaded
  have hmissed : neededEntries gapped (Selection.leastArea (gappedProblem store)).choice =
      .error (.noAdmissibleCut 4) := by
    rw [choice_leastArea_gapped]
    cbv
  have hbuild : MappedNetwork.ofChoice store gapped conjunctions
      (Selection.leastArea (gappedProblem store)).choice = .ok (.error (.noAdmissibleCut 4)) := by
    rw [MappedNetwork.ofChoice, build, hmissed]
    rfl
  exact ⟨store, loaded, evaluable_gapped store, ports_gapped, by decide,
    ⟨_, _, addMapped_eq_ok_iff.2 ⟨_, _, _, of_gapped store, rfl, hmapped, rfl⟩⟩,
    addMapped_eq_ok_iff.2 ⟨_, _, _, of_gapped store, rfl, hbuild, rfl⟩⟩

end Store

end Gatework
