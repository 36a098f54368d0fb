import Gatework.Activity.Simulated
import Gatework.Proofs.Drawing
import Gatework.Proofs.Evaluation

/-!
# Simulations for activity

Drawing the inputs cannot fail if they have probabilities.  A simulation has as many words as were drawn for
each input, and a single one if there are no inputs; counting takes as many words as hold the ticks.  The two
agree where there is an input, or where one word is enough.

* `Simulable`: every simulation comes to a result, and every entry has a port.
* `Simulable.exists_observed`: the words from which the changes of every entry are counted show the values of
  the network.
* `Simulable.simulatedActivity_cases`: whether there is an activity.
-/

namespace Gatework

/-- Probabilities that may be given for the inputs: none at all, or one for each. -/
structure ProperProbabilities (given : List Float) (inputs : Nat) : Prop where
  length : given = [] ∨ given.length = inputs
  bounds : ∀ p ∈ given, 0 ≤ p ∧ p ≤ 1

lemma properProbabilities_nil (inputs : Nat) : ProperProbabilities [] inputs := ⟨.inl rfl, nofun⟩

namespace Simulation

/-! ## Drawing the inputs -/

variable {p : Float} {inputs ticks : Nat} {probabilities : List Float}

lemma exists_drawWord (h : 0 ≤ p ∧ p ≤ 1) (g : Xoshiro) : ∃ w g', drawWord p g = .ok (w, g') := by
  unfold drawWord
  split
  · exact ⟨_, _, rfl⟩
  · obtain ⟨⟨w, g'⟩, hdrawn, -⟩ := @exists_foldlM_eq_ok _ _ _
      (fun (x : UInt64 × Xoshiro) i => Generator.chance p x.2 >>= fun r =>
        .ok (if r.1 then x.1 ||| 1 <<< UInt64.ofNat i else x.1, r.2))
      (List.range 64) (0, g) (fun _ _ => True) trivial (by
        rintro - i - ⟨w, g⟩ - -
        obtain ⟨b, g', hchance⟩ := Generator.exists_chance (Generator.probability_of_le h) g
        exact ⟨_, by rw [hchance, ok_bind], trivial⟩)
    exact ⟨w, g', hdrawn⟩

lemma exists_drawWords (h : 0 ≤ p ∧ p ≤ 1) (count : Nat) (g : Xoshiro) :
    ∃ ws g', drawWords p count g = .ok (ws, g') ∧ ws.length = count := by
  induction count generalizing g with
  | zero => exact ⟨[], g, rfl, rfl⟩
  | succ count ih =>
      obtain ⟨w, g', hw⟩ := exists_drawWord h g
      obtain ⟨ws, g'', hws, hlength⟩ := ih g'
      refine ⟨w :: ws, g'', ?_, by rw [List.length_cons, hlength]⟩
      simp only [drawWords, hw, ok_bind, hws]
      rfl

lemma exists_drawStimulus (words : Nat) {ps : List Float} (h : ∀ p ∈ ps, 0 ≤ p ∧ p ≤ 1) (g : Xoshiro) :
    ∃ drawn : List (List UInt64), drawStimulus words ps g = .ok (drawn.map .ofWords) ∧
      drawn.length = ps.length ∧
      ∀ ws ∈ drawn, ws.length = words := by
  induction ps generalizing g with
  | nil => exact ⟨[], rfl, rfl, nofun⟩
  | cons p ps ih =>
      obtain ⟨hp, hrest⟩ := List.forall_mem_cons.1 h
      obtain ⟨ws, g', hws, hcount⟩ := exists_drawWords hp words g
      obtain ⟨drawn, hdrawn, hlength, hcounts⟩ := ih hrest g'
      refine ⟨ws :: drawn, ?_, by simp [hlength], List.forall_mem_cons.2 ⟨hcount, hcounts⟩⟩
      simp only [drawStimulus, hws, ok_bind, hdrawn]
      rfl

lemma exists_inputProbability (proper : ProperProbabilities probabilities inputs) {i : Nat}
    (hi : i < inputs) : ∃ p, inputProbability probabilities i = .ok p ∧ 0 ≤ p ∧ p ≤ 1 := by
  unfold inputProbability
  rcases proper.length with rfl | hlength
  · exact ⟨0.5, rfl, by decide +kernel, by decide +kernel⟩
  · have hlt : i < probabilities.length := hlength ▸ hi
    rw [if_neg (by simpa using List.ne_nil_of_length_pos (Nat.zero_lt_of_lt hlt)),
      List.getElem?_eq_getElem hlt]
    exact ⟨_, rfl, proper.bounds _ (List.getElem_mem hlt)⟩

/-- As many words are drawn for every input as hold the ticks. -/
theorem exists_stimulus (proper : ProperProbabilities probabilities inputs) (ticks : Nat) (seed : UInt64) :
    ∃ drawn : List (List UInt64), stimulus inputs ticks seed probabilities = .ok (drawn.map .ofWords) ∧
      drawn.length = inputs ∧ ∀ ws ∈ drawn, ws.length = wordsFor ticks := by
  have hchecked : checkProbabilities probabilities inputs = .ok () := by
    rcases proper.length with rfl | hlength
    · rfl
    · simp [checkProbabilities, hlength]
  obtain ⟨ps, hps, all⟩ := exists_mapM_eq_ok fun i hi =>
    exists_inputProbability proper (List.mem_range.1 hi)
  have bounds : ∀ p ∈ ps, 0 ≤ p ∧ p ≤ 1 := by
    intro p hp
    obtain ⟨_, -, h⟩ := exists_of_forall₂_right all p hp
    exact h
  obtain ⟨drawn, hdrawn, hlength, hcounts⟩ := exists_drawStimulus (wordsFor ticks) bounds (.ofSeed seed)
  refine ⟨drawn, ?_, ?_, hcounts⟩
  · simp only [stimulus, hchecked, ok_bind, hps, hdrawn]
  · rw [hlength, ← all.length_eq, List.length_range]

end Simulation

namespace Store

variable {store : Store} {net : Subnet} {width : Nat}

/-! ## Simulating -/

/-- Every simulation of a network comes to a result, and every entry has a port. -/
def Simulable (store : Store) (net : Subnet) : Prop :=
  ∀ (width : Nat) (stimulus : List Signal), stimulus.length = net.numInputs →
    (∀ s ∈ stimulus, s.width = width) →
    ∃ values, net.simulate (store.meaning width) width stimulus = .ok values ∧ ∀ ports ∈ values, ports ≠ []

lemma simulable_of {store : Store} {net : Subnet} (positive : ∀ c ∈ net.cells, 0 < store.numPorts c.kind)
    (simulate : ∀ (width : Nat) (stimulus : List Signal), stimulus.length = net.numInputs →
      (∀ s ∈ stimulus, s.width = width) →
      ∃ values, net.simulate (store.meaning width) width stimulus = .ok values ∧
        ∀ (j : Nat) c, net.cells[j]? = some c →
          ∃ ports, values[j]? = some ports ∧ ports.length = store.numPorts c.kind) :
    store.Simulable net := by
  intro width stimulus hlength hwidths
  obtain ⟨values, hvalues, hports⟩ := simulate width stimulus hlength hwidths
  refine ⟨values, hvalues, fun ports hmem => ?_⟩
  obtain ⟨j, hj⟩ := Array.mem_iff_getElem?.1 hmem
  obtain ⟨c, hc⟩ : ∃ c, net.cells[j]? = some c :=
    Subnet.exists_cell (Subnet.size_simulate hvalues ▸ (Array.getElem?_eq_some_iff.1 hj).1)
  obtain ⟨_, hj', hcount⟩ := hports j c hc
  cases hj.symm.trans hj'
  exact List.ne_nil_of_length_pos (hcount ▸ positive c (Array.mem_of_getElem? hc))

lemma Evaluable.simulable (evaluable : store.Evaluable net) : store.Simulable net := by
  refine simulable_of (fun c hmem => ?_) fun width stimulus hlength hwidths =>
    Subnet.exists_simulate (store.meaning_sound width) (store.meaning_total width) evaluable hlength hwidths
  obtain ⟨j, hj⟩ := Array.mem_iff_getElem?.1 hmem
  by_cases hinput : c.isInput = true
  · rw [numPorts_of_isInput hinput]
    exact Nat.one_pos
  · exact (evaluable j c hj (Bool.eq_false_iff.2 hinput)).1.numPorts_pos

/-- The value of an entry at a tick, where the inputs have the bits of their words one tick after the
other. -/
def valueAt (store : Store) (net : Subnet) (drawn : List (List UInt64)) (e t : Nat) : Bool :=
  (net.values store.ports (assignmentAt drawn (t / 64) (t % 64)) e).headD false

/-- What is counted for an activity: `drawn` are the words of the inputs, and `words` those on the first port
of every entry, whose bits are the values of the entry one tick after the other. -/
structure Observed (store : Store) (net : Subnet) (ticks : Nat) (seed : UInt64) (probabilities : List Float)
    (drawn : List (List UInt64)) (words : Array (List UInt64)) : Prop where
  stimulus : Simulation.stimulus net.numInputs ticks seed probabilities = .ok (drawn.map .ofWords)
  drawn_length : drawn.length = net.numInputs
  drawn_count : ∀ ws ∈ drawn, ws.length = Simulation.wordsFor ticks
  activity : store.simulatedActivity net ticks seed probabilities =
    .ok (Simulation.activity ticks (words.map (Simulation.countToggles ticks)))
  size : words.size = net.size
  length : ∀ (e : Nat) ws, words[e]? = some ws → ws.length = Simulation.wordsFor ticks
  value : ∀ (e : Nat) ws, words[e]? = some ws → ∀ t < ticks, (ws.getD (t / 64) 0).toNat.testBit (t % 64) =
    store.valueAt net drawn e t

variable {ticks count : Nat} {probabilities : List Float} {values : Array Ports}

/-- The words of the signal on the first port. -/
def firstWords (ports : Ports) : List UInt64 := (ports.head?).elim [] Signal.words

lemma length_words {s : Signal} (h : s.width = 64 * count) : s.words.length = count := by
  rw [Signal.words, length_wordsOfNat, h, Nat.mul_div_cancel_left count (by decide)]

/-- Every entry has a signal on its first port that has the given width. -/
def ShowsFirst (values : Array Ports) (width : Nat) : Prop :=
  ∀ (e : Nat) ports, values[e]? = some ports → ∃ s rest, ports = s :: rest ∧ s.width = width

lemma ShowsFirst.mapM_observed (shows : ShowsFirst values (64 * count)) :
    values.mapM (Simulation.observed count) = .ok (values.map firstWords) := by
  rw [Array.mapM_eq_mapM_toList, mapM_eq_ok fun ports hmem => ?_, ← Array.toList_map]
  · rfl
  · obtain ⟨e, he⟩ := Array.mem_iff_getElem?.1 (Array.mem_toList_iff.1 hmem)
    obtain ⟨s, rest, rfl, hs⟩ := shows e ports he
    show (if 64 * count ≤ s.width then _ else _) = _
    rw [if_pos hs.ge, List.take_of_length_le (length_words hs).le]
    rfl

lemma ShowsFirst.entry (shows : ShowsFirst values width) {e : Nat} {ws : List UInt64}
    (h : (values.map firstWords)[e]? = some ws) :
    ∃ s rest, values[e]? = some (s :: rest) ∧ s.width = width ∧ ws = s.words := by
  rw [Array.getElem?_map] at h
  obtain ⟨ports, hports, rfl⟩ := Option.map_eq_some_iff.1 h
  obtain ⟨s, rest, rfl, hs⟩ := shows e ports hports
  exact ⟨s, rest, hports, hs, rfl⟩

/-- The signal on the first port of an entry, at a point. -/
lemma first_of_portsAt {p : Nat} {s : Signal} {rest : Ports} {values : List Bool}
    (h : PortsAt width p (s :: rest) values) (hp : p < width) : s.value p = values.headD false := by
  obtain ⟨more, rfl⟩ := h.value hp
  rfl

/-- Where there is an input, or one word is enough, all ticks of all entries are observed. -/
theorem Simulable.exists_observed (simulable : store.Simulable net) (hticks : 2 ≤ ticks)
    (proper : ProperProbabilities probabilities net.numInputs)
    (covered : net.numInputs = 0 → ticks ≤ 64) (seed : UInt64) :
    ∃ drawn words, store.Observed net ticks seed probabilities drawn words := by
  obtain ⟨count, hcount⟩ : ∃ count, count = Simulation.wordsFor ticks := ⟨_, rfl⟩
  obtain ⟨drawn, hdrawn, hlength, hcounts⟩ := Simulation.exists_stimulus proper ticks seed
  rw [← hcount] at hcounts
  have hwidths : ∀ s ∈ drawn.map Signal.ofWords, s.width = 64 * count := by
    intro s hs
    obtain ⟨ws, hws, rfl⟩ := List.mem_map.1 hs
    rw [Signal.ofWords, hcounts ws hws]
  have hwidth : ((drawn.map Signal.ofWords).head?).elim 64 (·.width) = 64 * count := by
    cases drawn with
    | nil =>
        have := covered hlength.symm
        rw [hcount, Simulation.wordsFor, show (ticks + 63) / 64 = 1 by omega]
        rfl
    | cons ws rest => exact hwidths _ (List.mem_cons_self ..)
  obtain ⟨values, hvalues, hports⟩ := simulable _ _ ((List.length_map _).trans hlength) hwidths
  have within : ∀ t < ticks, t / 64 < count := fun t ht => by
    rw [hcount, Simulation.wordsFor]
    omega
  have evaluated : ∀ t < ticks, net.EvaluatedUpTo store.ports (assignmentAt drawn (t / 64) (t % 64))
      (64 * count) (64 * (t / 64) + t % 64) values := fun t ht =>
    Subnet.simulate_sound (store.meaning_sound _)
      (signalsAt_ofWords hlength hcounts (within t ht) (Nat.mod_lt t (by decide))) hvalues
  have shows : ShowsFirst values (64 * count) := by
    intro e ports he
    obtain ⟨s, rest, rfl⟩ := List.exists_cons_of_ne_nil (hports ports (Array.mem_of_getElem? he))
    exact ⟨s, rest, rfl, ((evaluated 0 (by omega)).at_entry e _ he).width_eq s (List.mem_cons_self ..)⟩
  refine ⟨drawn, values.map firstWords, hdrawn, hlength, hcount ▸ hcounts, ?_, ?_, fun e ws he => ?_,
    fun e ws he t ht => ?_⟩
  · simp only [simulatedActivity, if_neg (Nat.not_lt.2 hticks), hdrawn, ok_bind, simulate, hwidth, hvalues,
      ← hcount, shows.mapM_observed]
    rfl
  · rw [Array.size_map, Subnet.size_simulate hvalues]
  · obtain ⟨s, rest, -, hs, rfl⟩ := shows.entry he
    rw [length_words hs, hcount]
  · obtain ⟨s, rest, hvalue, hs, rfl⟩ := shows.entry he
    have hlt := within t ht
    have hmod := Nat.mod_lt t (show 0 < 64 by decide)
    rw [Signal.testBit_words (by rw [hs]; omega) hmod]
    exact first_of_portsAt ((evaluated t ht).at_entry e _ hvalue) (by omega)

/-- Without inputs a simulation is made of one word, and counting more ticks needs more, unless there is
nothing to count. -/
lemma Simulable.simulatedActivity_of_no_inputs (simulable : store.Simulable net)
    (inputs : net.numInputs = 0) (hticks : 64 < ticks)
    (proper : ProperProbabilities probabilities net.numInputs) (seed : UInt64) :
    store.simulatedActivity net ticks seed probabilities =
      if net.size = 0 then .ok (Simulation.activity ticks #[]) else .error .internal := by
  obtain ⟨drawn, hdrawn, hlength, -⟩ := Simulation.exists_stimulus proper ticks seed
  obtain rfl : drawn = [] := List.eq_nil_of_length_eq_zero (hlength.trans inputs)
  obtain ⟨values, hvalues, hports⟩ := simulable 64 [] inputs.symm nofun
  have hwide : 64 < 64 * Simulation.wordsFor ticks := by
    unfold Simulation.wordsFor
    omega
  have nothing : SignalsAt 64 0 [] ((List.range net.numInputs).map fun _ => false) :=
    ⟨by simp, fun _ => by simp [inputs]⟩
  have evaluated := Subnet.simulate_sound (store.meaning_sound 64) nothing hvalues
  have hsize := Subnet.size_simulate hvalues
  simp only [simulatedActivity, if_neg (show ¬ticks < 2 by omega), hdrawn, ok_bind]
  rw [show store.simulate net ([].map Signal.ofWords) = .ok values from hvalues, ok_bind, ← hsize]
  obtain ⟨list, rfl⟩ : ∃ list : List Ports, values = list.toArray := ⟨values.toList, by simp⟩
  cases list with
  | nil =>
      rw [List.mapM_toArray, List.mapM_nil, map_pure, pure_bind, Array.map_empty]
      rfl
  | cons ports list =>
      obtain ⟨s, rest, rfl⟩ := List.exists_cons_of_ne_nil (hports ports (by simp))
      have hwidth : s.width = 64 := (evaluated.at_entry 0 (s :: rest) rfl).width_eq s (by simp)
      have hobserved : Simulation.observed (Simulation.wordsFor ticks) (s :: rest) = .error .internal :=
        if_neg (by omega)
      rw [List.mapM_toArray, List.mapM_cons, hobserved]
      rfl

/-- A simulation fills all ticks: the network has inputs, for which enough words are drawn, or one word is
enough, or there is no entry to count. -/
def Fills (net : Subnet) (ticks : Nat) : Prop := 1 ≤ net.numInputs ∨ ticks ≤ 64 ∨ net.size = 0

/-- There is an activity, of all entries, exactly if the simulation fills all ticks. -/
theorem Simulable.simulatedActivity_cases (simulable : store.Simulable net) (hticks : 2 ≤ ticks)
    (proper : ProperProbabilities probabilities net.numInputs) (seed : UInt64) :
    (Fills net ticks → ∃ activity, store.simulatedActivity net ticks seed probabilities = .ok activity ∧
      activity.size = net.size) ∧
    (¬Fills net ticks → store.simulatedActivity net ticks seed probabilities = .error .internal) := by
  by_cases hcovered : net.numInputs = 0 → ticks ≤ 64
  · obtain ⟨drawn, words, observed⟩ := simulable.exists_observed hticks proper hcovered seed
    refine ⟨fun _ => ⟨_, observed.activity, ?_⟩, fun h => absurd ?_ h⟩
    · rw [Activity.size, Simulation.activity, Array.size_map, Array.size_map, observed.size]
    · rcases Nat.eq_zero_or_pos net.numInputs with hzero | hpos
      · exact .inr (.inl (hcovered hzero))
      · exact .inl hpos
  · obtain ⟨inputs, hlong⟩ := Classical.not_imp.1 hcovered
    have hlong := Nat.not_le.1 hlong
    rw [simulable.simulatedActivity_of_no_inputs inputs hlong proper seed]
    refine ⟨?_, fun h => if_neg fun hsize => h (.inr (.inr hsize))⟩
    rintro (h | h | hsize)
    · omega
    · omega
    · refine ⟨_, if_pos hsize, ?_⟩
      rw [Activity.size, Simulation.activity, Array.size_map]
      exact hsize.symm

/-- An evaluable network with an input has a simulated activity. -/
theorem exists_simulatedActivity (evaluable : store.Evaluable net) (inputs : 1 ≤ net.numInputs)
    (hticks : 2 ≤ ticks) (seed : UInt64) :
    ∃ activity, store.simulatedActivity net ticks seed [] = .ok activity := by
  obtain ⟨drawn, words, observed⟩ := evaluable.simulable.exists_observed hticks
    (properProbabilities_nil net.numInputs) (fun h => by omega) seed
  exact ⟨_, observed.activity⟩

end Store

end Gatework
