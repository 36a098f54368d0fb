import Gatework.Proofs.Mapping.Arrival
import Gatework.Proofs.Mapping.Genes

/-!
# Searches that keep the outputs covered

A search by evolution starts from genes that cover the outputs, and its result is the fittest genes that it
came across.  Genes that do not cover the outputs have no fitness, and no fitness is below that, so they
never take the place of genes that do (`Evolution.fit_fittest`).

Whatever is crossed, mutated and completed on the way, every gene stays the number of a candidate
(`Evolution.Evaluated`).  So a search never draws from nothing, and only a mutation rate that is no number
can stop it (`Search.Yields`).

**Main statements.** `Selection.exists_evolved`, `Genes.complete_exact`.
-/

open Float.Model Float.Model.UnpackedFloat

namespace Gatework

open MappedNetwork

namespace Evolution

variable {p : Problem} {genes : Genes}

/-! ## Fitness -/

/-- What is positive or no number is not below zero. -/
lemma not_lt_zero {u : UnpackedFloat} (h : ∀ s, Rounding.sign? u = some s → s = .positive) :
    u.lt (.zero .positive) = false := by
  cases u with
  | notANumber => rfl
  | infinity s => obtain rfl := h s rfl; rfl
  | zero s => rfl
  | finite s m e hm => obtain rfl := h s rfl; rfl

/-- The inverse of what is not below the least cost is not negative. -/
lemma not_inverse_lt_zero {c : Float} (hc : ¬c < leastCost) : ¬1 / c < 0 := by
  obtain ⟨m, e, hm, hleast⟩ : ∃ m e hm, leastCost.toModel.unpack = .finite .positive m e hm := by
    have hbits : leastCost.toModel.toBits = 0x3e112e0be826d695 := by decide +kernel
    refine ⟨0x112e0be826d695, -82, by decide, ?_⟩
    rw [Float.Model.unpack, hbits]
    rfl
  have hone : (1 : Float).toModel.unpack = .finite .positive (2 ^ 52) (-52) (by decide) := by
    have hbits : (1 : Float).toModel.toBits = 0x3ff0000000000000 := by decide +kernel
    rw [Float.Model.unpack, hbits]
    rfl
  have hdiv : (1 / c).toModel.unpack = UnpackedFloat.unpack .binary64 (UnpackedFloat.pack .binary64
      (div .binary64 (1 : Float).toModel.unpack c.toModel.unpack)) := rfl
  have hzero : (0 : Float).toModel.unpack = .zero .positive := rfl
  rw [Generator.lt_iff, hleast] at hc
  rw [Generator.lt_iff, hzero, hdiv, hone, Bool.not_eq_true]
  refine not_lt_zero fun s hs => ?_
  rw [Rounding.sign?_unpack_pack] at hs
  cases hparts : c.toModel.unpack with
  | notANumber => rw [hparts] at hs; cases hs
  | infinity t =>
      rw [hparts] at hs hc
      cases t with
      | negative => exact absurd rfl hc
      | positive => cases hs; rfl
  | zero t =>
      rw [hparts] at hc
      exact absurd rfl hc
  | finite t n f hn =>
      rw [hparts] at hs hc
      cases t with
      | negative => exact absurd rfl hc
      | positive =>
          have hsign := Option.some.inj (hs.symm.trans Rounding.sign?_roundWithAccuracy)
          exact hsign

/-- No fitness is negative. -/
lemma not_fitness_lt_zero (area delay : Float32) : ¬fitness area delay < 0 := by
  unfold fitness
  dsimp only
  split
  · split
    · decide +kernel
    · rename_i hcost
      exact not_inverse_lt_zero hcost
  · decide +kernel

/-! ## Costs -/

lemma fst_addCosts (state : Array Float32 × Float32) (choice : Option Realization) :
    (addCosts p state choice).1 =
      state.1.push (choice.elim Cost.infinite (p.arrival state.1)) := by
  cases choice <;> rfl

/-- The arrivals of the first `k` entries of a choice. -/
structure Costed (p : Problem) (choice : Choice) (k : Nat) (arrival : Array Float32) : Prop where
  size : arrival.size = k
  times : ∀ e < k, arrival.getD e 0 = (choice.getD e none).elim Cost.infinite (p.arrival arrival)

/-- One entry more.  What the entries so far read has arrived before. -/
lemma Costed.next {choice : Choice} {k : Nat} {arrival : Array Float32} (h : Costed p choice k arrival)
    (sound : p.Sound) (admits : p.Admits choice) (hk : k < p.net.size) :
    Costed p choice (k + 1)
      (arrival.push ((choice.getD k none).elim Cost.infinite (p.arrival arrival))) := by
  have same : ∀ x, ∀ e ≤ k, (choice.getD e none).elim Cost.infinite (p.arrival (arrival.push x)) =
      (choice.getD e none).elim Cost.infinite (p.arrival arrival) := by
    intro x e he
    cases hr : choice.getD e none with
    | none => rfl
    | some r =>
        refine Problem.arrival_congr fun leaf hleaf => ?_
        have hlt := (sound e r (hr ▸ admits e (he.trans_lt hk))).below leaf hleaf
        exact Selection.getD_push_of_lt (h.size ▸ hlt.trans_le he) _ _
  refine ⟨by rw [Array.size_push, h.size], fun e he => ?_⟩
  rw [same _ e (Nat.le_of_lt_succ he)]
  rcases Nat.lt_succ_iff_lt_or_eq.1 he with he | rfl
  · rw [Selection.getD_push_of_lt (h.size ▸ he), h.times e he]
  · conv_lhs => rw [← h.size, Selection.getD_push_size, h.size]

/-- The arrivals of genes are those of what they choose. -/
lemma times_evaluate (sound : p.Sound) (genes : Genes) :
    p.Arrivals (genes.choice p) (evaluate p genes).arrival := by
  obtain ⟨choice, hchoice⟩ : ∃ choice, choice = genes.choice p := ⟨_, rfl⟩
  have admits : p.Admits choice := hchoice ▸ genes.admits_choice p
  have hsize : choice.size = p.net.size := by simp [hchoice, Genes.choice]
  have pass : ∀ k ≤ p.net.size,
      Costed p choice k ((choice.toList.take k).foldl (addCosts p) (#[], 0)).1 := by
    intro k hk
    induction k with
    | zero => exact ⟨rfl, nofun⟩
    | succ k ih =>
        have hlt : k < choice.toList.length := by
          rw [Array.length_toList, hsize]
          exact hk
        have hget : choice.toList[k] = choice.getD k none := by
          rw [Array.length_toList] at hlt
          simp [Array.getD_eq_getD_getElem?, hlt]
        rw [← List.take_concat_get' _ _ hlt, List.foldl_append, List.foldl_cons, List.foldl_nil,
          fst_addCosts, hget]
        exact (ih (Nat.le_of_succ_le hk)).next sound admits hk
  have hpass : (evaluate p genes).arrival =
      ((choice.toList.take p.net.size).foldl (addCosts p) (#[], 0)).1 := by
    rw [← hsize, ← Array.length_toList, List.take_length, Array.foldl_toList, hchoice]
    rfl
  rw [← hchoice, hpass]
  exact (pass _ le_rfl).times

/-- Genes that do not cover the outputs have no fitness. -/
lemma fitness_evaluate (timed : p.library.Timed) (sound : p.Sound)
    (h : ¬Covers p.net (genes.choice p)) : (evaluate p genes).fitness = 0 := by
  have arrives := (times_evaluate sound genes).isFinite_maximum_iff timed sound (genes.admits_choice p)
  have hdelay : (evaluate p genes).delay.isFinite = false :=
    Bool.eq_false_iff.2 fun hfinite => h (arrives.1 hfinite)
  show fitness (evaluate p genes).area (evaluate p genes).delay = 0
  unfold fitness
  rw [hdelay, Bool.and_false]
  rfl

/-! ## The fittest -/

/-- An individual with valid genes and what they cost. -/
def Evaluated (p : Problem) (i : Individual) : Prop := ∃ genes, genes.Valid p ∧ i = evaluate p genes

/-- An individual that covers the outputs, as far as costs can tell. -/
structure Fit (p : Problem) (i : Individual) : Prop where
  evaluated : Evaluated p i
  covers : p.library.Timed → p.Sound → Covers p.net (i.genes.choice p)

/-- Among others the fittest still covers the outputs. -/
theorem fit_fittest {first : Individual} {others : List Individual} (h : Fit p first)
    (evaluated : ∀ i ∈ others, Evaluated p i) : Fit p (fittest first others) := by
  refine List.foldlRecOn (motive := Fit p) others _ h fun best hbest i hi => ?_
  split
  · rename_i hlt
    refine ⟨evaluated i hi, fun timed sound => by_contra fun uncovered => ?_⟩
    obtain ⟨genes, -, rfl⟩ := evaluated i hi
    obtain ⟨⟨genes', -, rfl⟩, -⟩ := hbest
    have hzero : (evaluate p genes).fitness = 0 := fitness_evaluate timed sound uncovered
    rw [hzero] at hlt
    exact not_fitness_lt_zero _ _ hlt
  · exact hbest

end Evolution

/-! ## Drawing at random -/

namespace Search

variable {α β : Type} {rate : Float} {P : α → Prop} {Q : β → Prop}

/-- A search that always has a result, with a property.  Only where a rate is drawn with that is no
probability it breaks off. -/
def Yields (rate : Float) (m : Search α) (P : α → Prop) : Prop :=
  ∀ g, (∃ a g', m g = .ok (a, g') ∧ P a) ∨ ¬Generator.Probability rate ∧ m g = .error .internal

lemma yields_pure {a : α} (h : P a) : Yields rate (pure a) P := fun g => .inl ⟨a, g, rfl, h⟩

lemma Yields.bind {m : Search α} {f : α → Search β} (hm : Yields rate m P)
    (hf : ∀ a, P a → Yields rate (f a) Q) : Yields rate (m >>= f) Q := by
  intro g
  have hbind : (m >>= f) g = m g >>= fun r => f r.1 r.2 := rfl
  rw [hbind]
  rcases hm g with ⟨a, g', ha, hP⟩ | ⟨improper, hfault⟩
  · rw [ha, ok_bind]
    exact hf a hP g'
  · rw [hfault]
    exact .inr ⟨improper, rfl⟩

lemma yields_below {n : Nat} (hn : 0 < n) : Yields rate (below n) (· < n) := by
  intro g
  have hlt := Generator.below_lt hn g
  cases h : Generator.below n g with
  | mk i g' =>
      rw [h] at hlt
      exact .inl ⟨i, g', (if_neg hn.ne').trans (congrArg Except.ok h), hlt⟩

lemma yields_chance (rate : Float) : Yields rate (chance rate) fun _ => True := by
  intro g
  by_cases h : Generator.Probability rate
  · obtain ⟨b, g', hb⟩ := Generator.exists_chance h g
    exact .inl ⟨b, g', hb, trivial⟩
  · cases hdraw : Generator.chance rate g with
    | ok r => exact .inl ⟨r.1, r.2, hdraw, trivial⟩
    | error fault =>
        obtain rfl := Generator.chance_eq_error hdraw
        exact .inr ⟨h, hdraw⟩

lemma yields_mapM {f : α → Search β} {R : α → β → Prop} {xs : List α}
    (h : ∀ x ∈ xs, Yields rate (f x) (R x)) : Yields rate (xs.mapM f) (List.Forall₂ R xs) := by
  induction xs with
  | nil => exact yields_pure .nil
  | cons x xs ih =>
      rw [List.mapM_cons]
      refine (h x List.mem_cons_self).bind fun y hy => ?_
      refine (ih fun x' hx' => h x' (List.mem_cons_of_mem _ hx')).bind fun ys hys => ?_
      exact yields_pure (.cons hy hys)

end Search

open Search

namespace Genes

variable {p : Problem} {rate : Float} {genes : Genes} {donor : Option Genes}

lemma yields_complete (ordered : p.Ordered) (valid : Valid p genes)
    (hdonor : ∀ d, donor = some d → Valid p d) :
    Yields rate (genes.complete p donor) fun r => Completed p genes r.1 r.2 := fun g =>
  have ⟨_, _, _, hcomplete, completed⟩ := exists_complete ordered valid hdonor g
  .inl ⟨_, _, hcomplete, completed⟩

/-- Genes that are drawn anew are the numbers of candidates, which there are where a gene is set. -/
lemma yields_mutate (valid : Valid p genes) : Yields rate (genes.mutate p rate) (Valid p) := by
  have one : ∀ x ∈ genes.zipIdx.toList, Yields rate (do
      if x.1.isNone then return x.1
      else if ← chance rate then return some (← below (p.candidatesAt x.2).length)
      else return x.1 : Search (Option Nat))
      fun after => ∀ gene, after = some gene → gene < (p.candidatesAt x.2).length := by
    rintro ⟨before, entry⟩ hx
    have hget : genes.getD entry .none = before := by
      rw [Array.toList_zipIdx] at hx
      have := List.mem_zipIdx_iff_getElem?.1 hx
      rw [Array.getD_eq_getD_getElem?]
      simpa using congrArg (·.getD .none) this
    cases before with
    | none => exact yields_pure nofun
    | some gene =>
        have hlt := valid.lt entry gene hget
        refine (yields_chance rate).bind fun drawn _ => ?_
        cases drawn with
        | false => exact yields_pure fun _ h => Option.some.inj h ▸ hlt
        | true =>
            exact (yields_below (Nat.zero_lt_of_lt hlt)).bind fun gene' hgene' =>
              yields_pure fun _ h => Option.some.inj h ▸ hgene'
  unfold mutate
  rw [Array.mapM_eq_mapM_toList]
  refine (yields_mapM one).bind fun ys hys => yields_pure ⟨?_, fun e gene hgene => ?_⟩
  · have := hys.length_eq
    simpa [valid.size] using this.symm
  · have hlt : e < ys.length := by
      by_contra hge
      simp [Array.getD_eq_getD_getElem?, hge] at hgene
    have hbefore : e < genes.zipIdx.toList.length := hys.length_eq ▸ hlt
    have hget : ys.get ⟨e, hlt⟩ = some gene := by
      simpa [Array.getD_eq_getD_getElem?, hlt] using hgene
    simpa using hys.get hbefore hlt gene hget

end Genes

namespace Evolution

variable {p : Problem} {rate : Float}

/-- A parent is drawn among those that reproduce. -/
lemma yields_drawParent {parents : List Individual} (hne : parents ≠ [])
    (evaluated : ∀ i ∈ parents, Evaluated p i) :
    Yields rate (drawParent parents.toArray (Generator.Roulette.of? (parents.map (·.fitness))))
      (Genes.Valid p) := by
  have valid : ∀ i (hi : i < parents.length), parents[i].genes.Valid p := fun i hi => by
    obtain ⟨genes, valid, hgenes⟩ := evaluated _ (List.getElem_mem hi)
    exact hgenes ▸ valid
  have found : ∀ i (hi : i < parents.length), parents.toArray[i]? = some parents[i] := fun i hi => by
    rw [List.getElem?_toArray, List.getElem?_eq_getElem hi]
  unfold drawParent
  cases hroulette : Generator.Roulette.of? (parents.map (·.fitness)) with
  | some r =>
      have spun : Yields rate (fun g => .ok (r.spin g)) (· < parents.length) := by
        intro g
        have hlt := Generator.Roulette.spin_lt hroulette g
        rw [List.length_map] at hlt
        exact .inl ⟨_, _, rfl, hlt⟩
      refine spun.bind fun i hi => ?_
      simp only [found i hi]
      exact yields_pure (valid i hi)
  | none =>
      have drawn : Yields rate (below parents.toArray.size) (· < parents.length) :=
        yields_below (List.length_pos_iff.2 hne)
      refine drawn.bind fun i hi => ?_
      simp only [found i hi]
      exact yields_pure (valid i hi)

lemma yields_raise (ordered : p.Ordered) {child donor : Genes} (hchild : child.Valid p)
    (hdonor : donor.Valid p) : Yields rate (raise p rate child donor) (Evaluated p) := by
  refine (Genes.yields_complete ordered hchild (by rintro _ ⟨⟩; exact hdonor)).bind fun r completed => ?_
  refine (Genes.yields_mutate completed.valid).bind fun child valid => ?_
  refine (Genes.yields_complete ordered valid (by simp)).bind fun r completed => ?_
  exact yields_pure ⟨_, completed.valid, rfl⟩

lemma yields_breed (ordered : p.Ordered) {parents : List Individual} (hne : parents ≠ [])
    (evaluated : ∀ i ∈ parents, Evaluated p i) (pairs : Nat) :
    Yields rate (breed p rate parents.toArray (Generator.Roulette.of? (parents.map (·.fitness))) pairs)
      fun children => ∀ i ∈ children, Evaluated p i := by
  induction pairs with
  | zero => exact yields_pure nofun
  | succ pairs ih =>
      refine (yields_drawParent hne evaluated).bind fun a ha => ?_
      refine (yields_drawParent hne evaluated).bind fun b hb => ?_
      refine (yields_below (Nat.succ_pos _)).bind fun point _ => ?_
      refine (yields_raise ordered (Genes.valid_cross ha hb point) (Genes.valid_cross hb ha point)).bind
        fun i hi => ?_
      refine (yields_raise ordered (Genes.valid_cross hb ha point) (Genes.valid_cross ha hb point)).bind
        fun j hj => ?_
      exact ih.bind fun _ hrest =>
        yields_pure (List.forall_mem_cons.2 ⟨hi, List.forall_mem_cons.2 ⟨hj, hrest⟩⟩)

lemma yields_drawIndividuals (ordered : p.Ordered) (count : Nat) :
    Yields rate (drawIndividuals p count) fun others => ∀ i ∈ others, Evaluated p i := by
  induction count with
  | zero => exact yields_pure nofun
  | succ count ih =>
      refine (Genes.yields_complete ordered (Genes.valid_none p) (by simp)).bind fun r completed => ?_
      exact ih.bind fun _ hrest => yields_pure (List.forall_mem_cons.2 ⟨⟨_, completed.valid, rfl⟩, hrest⟩)

/-- Somebody always reproduces. -/
lemma survivors_spec (options : EvolutionOptions) {population : List Individual} (hne : population ≠ []) :
    survivors options population ≠ [] ∧ ∀ i ∈ survivors options population, i ∈ population := by
  unfold survivors
  dsimp only
  split
  · exact ⟨hne, fun _ => id⟩
  · rename_i hsome
    exact ⟨mt List.isEmpty_iff.2 hsome, fun i hi => (List.mem_filter.1 hi).1⟩

/-- Over the generations the fittest still covers the outputs. -/
theorem yields_run (ordered : p.Ordered) (options : EvolutionOptions) (generations : Nat)
    {best : Individual} (hbest : Fit p best) {population : List Individual} (hne : population ≠ [])
    (evaluated : ∀ i ∈ population, Evaluated p i) :
    Yields rate (run p options rate generations best population) (Fit p) := by
  induction generations generalizing best population with
  | zero => exact yields_pure hbest
  | succ generations ih =>
      obtain ⟨some, among⟩ := survivors_spec options hne
      refine (yields_breed ordered some (fun i hi => evaluated i (among i hi)) _).bind
        fun children hchildren => ?_
      exact ih (fit_fittest hbest hchildren) (List.cons_ne_nil _ _)
        (List.forall_mem_cons.2 ⟨hbest.evaluated, hchildren⟩)

/-- Genes to start from cover the outputs. -/
lemma yields_seedFrom (ordered : p.Ordered) {s : Selection} (hsize : s.choice.size = p.net.size) :
    Yields rate (seedFrom p s) fun seed => ∀ i, seed = some i → Fit p i := by
  refine (Genes.yields_complete ordered (Genes.valid_ofSelection hsize) (by simp)).bind
    fun ⟨isComplete, genes⟩ completed => yields_pure fun i hi => ?_
  cases isComplete with
  | false => cases hi
  | true =>
      cases hi
      exact ⟨⟨genes, completed.valid, rfl⟩, fun _ _ => completed.covers rfl⟩

/-- What is clamped is a probability, if it is a number. -/
lemma probability_clampRate (number : rate.isNaN = false) :
    Generator.Probability (clampRate rate) := by
  unfold clampRate
  split
  · exact .inr (by decide +kernel)
  · split
    · exact .inl (by decide +kernel)
    · rename_i hzero hone
      exact Generator.probability_of_not_lt number hzero hone

/-- The search never draws from nothing. -/
theorem yields_search (ordered : p.Ordered) (options : EvolutionOptions) :
    Yields (clampRate options.mutationRate) (search p options) fun s =>
      p.library.Timed → p.Sound → Covers p.net (Selection.earliest p).choice → Covers p.net s.choice := by
  refine (yields_seedFrom ordered (Selection.passed_forward p _ _).choice_size).bind fun first hfirst => ?_
  cases first with
  | none => exact yields_pure fun _ _ => id
  | some first =>
      refine (yields_seedFrom ordered (Selection.passed_forward p _ _).choice_size).bind
        fun second hsecond => ?_
      cases second with
      | none => exact yields_pure fun _ _ => id
      | some second =>
          refine (yields_drawIndividuals ordered _).bind fun others hothers => ?_
          have rest := List.forall_mem_cons.2 ⟨(hsecond second rfl).evaluated, hothers⟩
          refine (yields_run ordered options _ (fit_fittest (hfirst first rfl) rest) (List.cons_ne_nil _ _)
            (List.forall_mem_cons.2 ⟨(hfirst first rfl).evaluated, rest⟩)).bind fun best hbest => ?_
          exact yields_pure fun timed sound _ => hbest.covers timed sound

end Evolution

namespace Selection

open Evolution

variable {p : Problem} {options : EvolutionOptions}

/-- The search always ends, with a selection that covers the outputs if the earliest one does. -/
theorem exists_evolved (timed : p.library.Timed) (sound : p.Sound)
    (rate : 0 ≤ options.mutationRate ∧ options.mutationRate ≤ 1) :
    ∃ s, evolved p options = .ok s ∧
      (Covers p.net (earliest p).choice → Covers p.net s.choice) := by
  rcases yields_search sound.ordered options (.ofSeed options.seed) with
    ⟨s, g, hsearch, covers⟩ | ⟨improper, -⟩
  · exact ⟨s, bind_eq_ok_iff.2 ⟨(s, g), hsearch, rfl⟩, covers timed sound⟩
  · exact absurd (probability_clampRate (Generator.isNaN_of_le rate.1)) improper

end Selection

/-! ## Genes are always repaired -/

/-- Completing valid genes always has a result.  The genes stay valid, and whatever was set stays set as far
as it is needed.  An entry without candidates is needed exactly if this is reported, and otherwise genes are
set exactly for what is needed and not fixed, so that the entries that are needed can be listed.  Therefore a
search by evolution never draws from nothing: it ends with a selection unless the mutation rate is no number,
and then nothing else is amiss. -/
theorem Genes.complete_exact {store : Store} {net : Subnet} {library : Library} {mapping : MapOptions}
    {p : Problem} (h : Problem.of store net library mapping = .ok p) :
    (∀ (genes : Genes) (donor : Option Genes) (g : Pcg), genes.Valid p →
      (∀ d, donor = some d → d.Valid p) →
      ∃ isComplete genes' g', genes.complete p donor g = .ok ((isComplete, genes'), g') ∧ genes'.Valid p ∧
        (∀ e gene, genes.getD e .none = some gene →
          (isComplete = true → Needs net (genes'.choice p) e) → genes'.getD e .none = some gene) ∧
        (isComplete = false ↔
          ∃ e, Needs net (genes'.choice p) e ∧ p.fixed? e = .none ∧ p.candidatesAt e = []) ∧
        (isComplete = true →
          (∀ e, (genes'.getD e .none).isSome = true ↔
            p.fixed? e = .none ∧ Needs net (genes'.choice p) e) ∧
          ∃ needed, neededEntries net (genes'.choice p) = .ok needed ∧
            ∀ e, e ∈ needed ↔ Needs net (genes'.choice p) e)) ∧
    ∀ options : EvolutionOptions, (∃ s, Selection.evolved p options = .ok s) ∨
      options.mutationRate.isNaN = true ∧ Selection.evolved p options = .error .internal := by
  obtain rfl := Problem.net_of h
  have ordered := Problem.ordered_of h
  refine ⟨fun genes donor g valid hdonor => ?_, fun options => ?_⟩
  · obtain ⟨isComplete, genes', g', hcomplete, completed⟩ := exists_complete ordered valid hdonor g
    refine ⟨isComplete, genes', g', hcomplete, completed.valid, completed.kept, completed.missed,
      fun complete => ⟨fun e => ⟨fun hset => ?_, fun ⟨hfixed, needs⟩ => ?_⟩, ?_⟩⟩
    · obtain ⟨gene, hgene⟩ := Option.isSome_iff_exists.1 hset
      refine ⟨Option.eq_none_iff_forall_ne_some.2 fun r hfixed => ?_, completed.needed complete e gene hgene⟩
      -- what is fixed has no candidates that a gene could name
      have hlt := completed.valid.lt e gene hgene
      rw [Problem.candidatesAt_of_fixed h hfixed] at hlt
      cases hlt
    · obtain ⟨r, hr⟩ := completed.covers complete e needs
      obtain ⟨gene, hgene, -⟩ := exists_gene_of_choice hfixed hr
      exact Option.isSome_iff_exists.2 ⟨gene, hgene⟩
    · have found := neededEntries_spec (ordered.readsBelow (genes'.admits_choice p))
      split at found
      · rename_i needed hneeded
        exact ⟨needed, hneeded, found.2⟩
      · exact absurd (completed.covers complete) found
  · rcases Evolution.yields_search ordered options (.ofSeed options.seed) with
      ⟨s, g, hsearch, -⟩ | ⟨improper, hsearch⟩
    · exact .inl ⟨s, bind_eq_ok_iff.2 ⟨(s, g), hsearch, rfl⟩⟩
    · refine .inr ⟨by_contra fun number => improper ?_, ?_⟩
      · exact Evolution.probability_clampRate (Bool.not_eq_true _ ▸ number)
      · have hrun : (Evolution.search p options).run (.ofSeed options.seed) = .error .internal := hsearch
        rw [Selection.evolved, hrun]
        rfl

namespace Store

/-- The conjunction, as the first cell that an empty store loads. -/
def conjunction : LibraryCell := ⟨"and2", 13, 0, 2, ⟨8⟩, ⟨3, [1, 1], [], []⟩⟩

def conjunctions : Library := .push {} conjunction

/-- The conjunction of three bits, where the last gate reads an equivalence instead of the first
conjunction. -/
def gapped : Subnet where
  cells := #[.input, .input, .input, ⟨.ofGate .and, [.of 1, .of 2]⟩, ⟨.ofGate .xnor, [.of 0, .of 3]⟩,
    ⟨.ofGate .and, [.of 4, .of 0]⟩, .output (.of 5)]
  numInputs := 3
  numOutputs := 1
  valid := by decide

/-- No cell realises the equivalence; the last gate may read either of the two. -/
def gappedProblem (store : Store) : Problem where
  store := store
  net := gapped
  library := conjunctions
  options := {}
  candidates := #[[], [], [], [⟨1, .cell 0 [.of 1, .of 2]⟩], [],
    [⟨1, .cell 0 [.of 0, .of 4]⟩, ⟨2, .cell 0 [.of 0, .of 3]⟩], []]
  fanout := #[2, 1, 1, 1, 1, 1, 0]

lemma of_gapped (store : Store) :
    Problem.of store gapped conjunctions {} = .ok (gappedProblem store) := by cbv

lemma valid_gapped {genes : Genes} (hsize : genes.size = 7)
    (h : ∀ e < 7, (genes.getD e none).all (· < ((gappedProblem .empty).candidatesAt e).length) = true) :
    genes.Valid (gappedProblem .empty) := by
  refine ⟨hsize, fun e gene hgene => ?_⟩
  by_cases he : e < 7
  · have hlt := h e he
    rw [hgene] at hlt
    exact of_decide_eq_true hlt
  · simp [Array.getD_eq_getD_getElem?, hsize, he] at hgene

/-- The gene of the last gate stays, although the donor has another one, and the equivalence is not needed. -/
theorem complete_exact_gapped :
    ∃ genes' g', Genes.complete (gappedProblem .empty) #[none, none, none, none, none, some 1, none]
        (some #[none, none, none, some 0, none, some 0, none]) (.ofSeed 0) = .ok ((true, genes'), g') ∧
      genes'.getD 5 none = some 1 ∧ ¬Needs gapped (genes'.choice (gappedProblem .empty)) 4 ∧
      ∃ s, Selection.evolved (gappedProblem .empty) {} = .ok s := by
  have hcomplete : Genes.complete (gappedProblem .empty) #[none, none, none, none, none, some 1, none]
      (some #[none, none, none, some 0, none, some 0, none]) (.ofSeed 0) =
        .ok ((true, #[none, none, none, some 0, none, some 1, none]), .ofSeed 0) := by
    cbv
  obtain ⟨repaired, searched⟩ := Genes.complete_exact (of_gapped .empty)
  obtain ⟨isComplete, genes', g', hrun, -, -, -, exact⟩ :=
    repaired #[none, none, none, none, none, some 1, none]
      (some #[none, none, none, some 0, none, some 0, none]) (.ofSeed 0)
      (valid_gapped rfl (by decide)) (by rintro _ ⟨⟩; exact valid_gapped rfl (by decide))
  cases hcomplete.symm.trans hrun
  refine ⟨_, _, hcomplete, rfl, fun needs => ?_, (searched {}).resolve_right fun h => ?_⟩
  · have hset := ((exact rfl).1 4).2 ⟨rfl, needs⟩
    cases hset
  · have number : ({} : EvolutionOptions).mutationRate.isNaN = false := by decide +kernel
    rw [number] at h
    cases h.1

end Store

end Gatework
