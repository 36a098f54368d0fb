import Gatework.Mapping.Selection
import Gatework.Proofs.Cost
import Gatework.Proofs.Mapping.Cover

/-!
# What arrives

An entry arrives if its arrival is finite.  A realisation arrives exactly if everything that it reads does,
so a choice whose outputs arrive covers them (`Arrivals.covers_iff`).  In the other direction a pass over the
entries makes everything arrive that some covering choice needs, as long as each entry takes a candidate
that arrives where there is one (`Selection.isFinite_of_needs`).

**Main statement.** `Selection.covers_earliest`: the earliest selection covers the outputs if any choice
among the candidates does.
-/

namespace Gatework

open MappedNetwork

/-- Every cell of a library has a moderate delay for each of its pins. -/
def Library.Timed (l : Library) : Prop :=
  ∀ c ∈ l.cells, c.costs.delay.length = c.inputs ∧ ∀ d ∈ c.costs.delay, Cost.Moderate d

namespace Problem

variable {p : Problem} {arrivals : Array Float32} {r : Realization} {l : Link}

lemma moderate_inverterDelay (timed : p.library.Timed) : Cost.Moderate p.inverterDelay := by
  unfold inverterDelay
  cases hcell : p.library.inverterCell? with
  | none => exact Cost.moderate_zero
  | some c =>
      obtain ⟨i, -, hc⟩ := Option.bind_eq_some_iff.1 hcell
      obtain ⟨-, delays⟩ := timed c (Array.mem_of_getElem? hc)
      rcases Cost.maximum_mem fun d hd => (delays d hd).1 with heq | hmem
      · exact heq ▸ Cost.moderate_zero
      · exact delays _ hmem

/-- The delay of the inverter that a link needs. -/
lemma moderate_inverter (timed : p.library.Timed) (l : Link) :
    Cost.Moderate (if l.inverted then p.inverterDelay else 0) := by
  split
  · exact moderate_inverterDelay timed
  · exact Cost.moderate_zero

lemma linkArrival_spec (timed : p.library.Timed) (h : 0 ≤ arrivals.getD l.entry 0) :
    0 ≤ p.linkArrival arrivals l ∧
      (p.linkArrival arrivals l).isFinite = (arrivals.getD l.entry 0).isFinite :=
  ⟨Cost.nonneg_add h (moderate_inverter timed l).1, Cost.isFinite_add h (moderate_inverter timed l)⟩

lemma exists_mem_zip {α β : Type} {xs : List α} {ys : List β} (h : xs.length ≤ ys.length) {x : α}
    (hx : x ∈ xs) : ∃ y, (x, y) ∈ xs.zip ys := by
  rw [← List.map_fst_zip h] at hx
  obtain ⟨⟨_, y⟩, hmem, rfl⟩ := List.mem_map.1 hx
  exact ⟨y, hmem⟩

lemma nonneg_pinArrivals {pins : List Link} {delays : List Float32}
    (hpins : ∀ pin ∈ pins, 0 ≤ p.linkArrival arrivals pin) (hdelays : ∀ d ∈ delays, Cost.Moderate d) :
    ∀ time ∈ (pins.zip delays).map fun (pin, delay) => p.linkArrival arrivals pin + delay, 0 ≤ time := by
  intro time htime
  obtain ⟨⟨l, d⟩, hmem, rfl⟩ := List.mem_map.1 htime
  exact Cost.nonneg_add (hpins l (List.of_mem_zip hmem).1) (hdelays d (List.of_mem_zip hmem).2).1

/-- A realisation arrives exactly if everything that it reads does. -/
lemma arrival_spec (timed : p.library.Timed) (fits : r.Fits p.library)
    (times : ∀ leaf ∈ r.leaves, 0 ≤ arrivals.getD leaf 0) :
    0 ≤ p.arrival arrivals r ∧ ((p.arrival arrivals r).isFinite = true ↔
      ∀ leaf ∈ r.leaves, (arrivals.getD leaf 0).isFinite = true) := by
  have zero : 0 ≤ (0 : Float32) ∧ (0 : Float32).isFinite = true :=
    ⟨Cost.moderate_zero.1, Cost.isFinite_of_moderate Cost.moderate_zero⟩
  cases r with
  | input | zero | one => exact ⟨zero.1, by simp [Realization.leaves], fun _ => zero.2⟩
  | output l =>
      obtain ⟨hle, hfinite⟩ := linkArrival_spec timed (times _ (List.mem_singleton_self _))
      refine ⟨hle, ?_⟩
      simp only [Realization.leaves, List.mem_singleton, forall_eq]
      exact iff_of_eq (congrArg (· = true) hfinite)
  | wire leaf =>
      refine ⟨times _ (List.mem_singleton_self _), ?_⟩
      simp only [Realization.leaves, List.mem_singleton, forall_eq]
      exact Iff.rfl
  | cell c pins =>
      obtain ⟨cell, hcell, hpins⟩ := fits
      obtain ⟨hlength, delays⟩ := timed cell (Array.mem_of_getElem? hcell)
      have hcosts : p.costsOf c = cell.costs := by simp [costsOf, hcell]
      have pin : ∀ pin ∈ pins, 0 ≤ p.linkArrival arrivals pin ∧
          (p.linkArrival arrivals pin).isFinite = (arrivals.getD pin.entry 0).isFinite := fun pin hpin =>
        linkArrival_spec timed (times _ (List.mem_map_of_mem hpin))
      have nonneg := nonneg_pinArrivals (fun l hl => (pin l hl).1) delays
      simp only [arrival, hcosts]
      refine ⟨Cost.nonneg_maximum nonneg, ?_⟩
      rw [Cost.isFinite_maximum nonneg]
      simp only [Realization.leaves, List.forall_mem_map]
      constructor
      · intro h l hl
        obtain ⟨d, hmem⟩ := exists_mem_zip (hpins.trans hlength.symm).le hl
        have hd := delays d (List.of_mem_zip hmem).2
        rw [← (pin l hl).2, ← Cost.isFinite_add (pin l hl).1 hd]
        exact h (l, d) hmem
      · rintro h ⟨l, d⟩ hmem
        obtain ⟨hl, hd⟩ := List.of_mem_zip hmem
        rw [Cost.isFinite_add (pin l hl).1 (delays d hd), (pin l hl).2]
        exact h l hl

/-- The arrival of a realisation depends on what it reads only. -/
lemma arrival_congr {arrivals' : Array Float32}
    (same : ∀ leaf ∈ r.leaves, arrivals.getD leaf 0 = arrivals'.getD leaf 0) :
    p.arrival arrivals r = p.arrival arrivals' r := by
  have link : ∀ l : Link, arrivals.getD l.entry 0 = arrivals'.getD l.entry 0 →
      p.linkArrival arrivals l = p.linkArrival arrivals' l := fun l h => by
    rw [linkArrival, linkArrival, h]
  cases r with
  | input => rfl
  | zero => rfl
  | one => rfl
  | output l => exact link l (same _ (List.mem_singleton_self _))
  | wire leaf => exact same _ (List.mem_singleton_self _)
  | cell c pins =>
      refine congrArg Cost.maximum (List.map_congr_left fun ⟨l, d⟩ hmem => ?_)
      show p.linkArrival arrivals l + d = p.linkArrival arrivals' l + d
      rw [link l (same _ (List.mem_map_of_mem (List.of_mem_zip hmem).1))]

variable {choice other : Choice} {arrival : Array Float32} {e : Nat}

/-- The arrivals of what a choice takes; what it does not realise never arrives. -/
def Arrivals (p : Problem) (choice : Choice) (arrival : Array Float32) : Prop :=
  ∀ e < p.net.size, arrival.getD e 0 = (choice.getD e none).elim Cost.infinite (p.arrival arrival)

section Arrivals

variable (timed : p.library.Timed) (sound : p.Sound) (admits : p.Admits choice)
  (times : p.Arrivals choice arrival)

include timed sound admits times

lemma Arrivals.nonneg (he : e < p.net.size) : 0 ≤ arrival.getD e 0 := by
  induction e using Nat.strong_induction_on with
  | _ e ih =>
      rw [times e he]
      cases hr : choice.getD e none with
      | none => exact Cost.nonneg_infinite
      | some r =>
          obtain ⟨fits, below, -⟩ := sound e r (hr ▸ admits e he)
          exact (arrival_spec timed fits fun leaf hleaf =>
            ih leaf (below leaf hleaf) ((below leaf hleaf).trans he)).1

/-- An entry arrives exactly if it is realised and everything that it reads arrives. -/
lemma Arrivals.isFinite_iff (he : e < p.net.size) : (arrival.getD e 0).isFinite = true ↔
    ∃ r, choice.getD e none = some r ∧ ∀ leaf ∈ r.leaves, (arrival.getD leaf 0).isFinite = true := by
  rw [times e he]
  cases hr : choice.getD e none with
  | none => exact ⟨fun h => absurd h (Bool.eq_false_iff.1 Cost.not_isFinite_infinite), nofun⟩
  | some r =>
      obtain ⟨fits, below, -⟩ := sound e r (hr ▸ admits e he)
      have spec := arrival_spec timed fits fun leaf hleaf =>
        times.nonneg timed sound admits ((below leaf hleaf).trans he)
      rw [Option.elim_some, spec.2]
      exact ⟨fun h => ⟨r, rfl, h⟩, by rintro ⟨_, ⟨⟩, h⟩; exact h⟩

/-- Everything that a covering choice needs arrives. -/
lemma Arrivals.isFinite_of_covers (covers : Covers p.net choice) (h : Needs p.net choice e) :
    (arrival.getD e 0).isFinite = true := by
  have below := admits.readsBelow sound
  induction e using Nat.strong_induction_on with
  | _ e ih =>
      obtain ⟨r, hr⟩ := covers e h
      have he := h.lt_size below
      rw [times.isFinite_iff timed sound admits he]
      exact ⟨r, hr, fun leaf hleaf => ih leaf (below e he r hr leaf hleaf) (.read h hr hleaf)⟩

/-- A choice covers the outputs exactly if they arrive. -/
theorem Arrivals.covers_iff : Covers p.net choice ↔
    ∀ o ∈ p.net.outputs, (arrival.getD o 0).isFinite = true := by
  have below := admits.readsBelow sound
  refine ⟨fun covers o ho => times.isFinite_of_covers timed sound admits covers (.output ho),
    fun h => ?_⟩
  have arrives : ∀ e, Needs p.net choice e → (arrival.getD e 0).isFinite = true := by
    intro e he
    induction he with
    | output ho => exact h _ ho
    | read he hr hleaf ih =>
        obtain ⟨_, hr', leaves⟩ := (times.isFinite_iff timed sound admits (he.lt_size below)).1 ih
        cases hr.symm.trans hr'
        exact leaves _ hleaf
  intro e he
  obtain ⟨r, hr, -⟩ := (times.isFinite_iff timed sound admits (he.lt_size below)).1 (arrives e he)
  exact ⟨r, hr⟩

/-- A choice covers the outputs exactly if the latest of them arrives. -/
lemma Arrivals.isFinite_maximum_iff :
    (Cost.maximum (p.net.outputs.map fun o => arrival.getD o 0)).isFinite = true ↔ Covers p.net choice := by
  rw [Cost.isFinite_maximum, times.covers_iff timed sound admits, List.forall_mem_map]
  intro time htime
  obtain ⟨o, ho, rfl⟩ := List.mem_map.1 htime
  exact times.nonneg timed sound admits (lt_size_of_mem_outputs ho)

end Arrivals

end Problem

namespace Selection

variable {p : Problem} {σ : Type} {pick : σ → Nat → Array Float32 → Option Candidate × σ} {memory : σ}
  {other : Choice} {e : Nat}

/-- The arrivals of a pass. -/
lemma arrivals_forward (sound : p.Sound) (picks : Picks p pick) :
    p.Arrivals (forward p pick memory).choice (forward p pick memory).arrival := by
  intro e he
  have admits := admits_forward picks memory e he
  obtain ⟨memory', arrivals, same, -, harrival⟩ := (passed_forward p pick memory).entry e he
  rw [harrival]
  cases hr : (forward p pick memory).choice.getD e none with
  | none => rfl
  | some r =>
      exact Problem.arrival_congr fun leaf hleaf => same leaf ((sound e r (hr ▸ admits)).below leaf hleaf)

/-- A picker picks a candidate that arrives if there is one, given arrivals of the entries in front. -/
def Reaches (p : Problem) (pick : σ → Nat → Array Float32 → Option Candidate × σ) (e : Nat) : Prop :=
  ∀ memory arrivals, (∀ c ∈ p.candidatesAt e, 0 ≤ p.arrival arrivals c.realization) →
    (∃ c ∈ p.candidatesAt e, (p.arrival arrivals c.realization).isFinite = true) →
    ∃ c, (pick memory e arrivals).1 = some c ∧ (p.arrival arrivals c.realization).isFinite = true

/-- A pass makes everything arrive that a covering choice needs, if it picks what arrives wherever that
choice needs something. -/
theorem isFinite_of_needs (timed : p.library.Timed) (sound : p.Sound) (picks : Picks p pick)
    (admits : p.Admits other) (covers : Covers p.net other)
    (reaches : ∀ e, Needs p.net other e → p.fixed? e = none → Reaches p pick e)
    (h : Needs p.net other e) : ((forward p pick memory).arrival.getD e 0).isFinite = true := by
  have below := admits.readsBelow sound
  have times : p.Arrivals (forward p pick memory).choice (forward p pick memory).arrival :=
    arrivals_forward sound picks
  have nonneg : ∀ d < p.net.size, 0 ≤ (forward p pick memory).arrival.getD d 0 := fun d hd =>
    times.nonneg timed sound (admits_forward picks memory) hd
  induction e using Nat.strong_induction_on with
  | _ e ih =>
      have he := h.lt_size below
      obtain ⟨r, hr⟩ := covers e h
      obtain ⟨memory', arrivals, same, hchoice, harrival⟩ := (passed_forward p pick memory).entry e he
      -- candidates arrive as they would at the end of the pass
      have spec : ∀ r, p.AdmitsAt e (some r) → 0 ≤ p.arrival arrivals r ∧
          ((p.arrival arrivals r).isFinite = true ↔ ∀ leaf ∈ r.leaves,
            ((forward p pick memory).arrival.getD leaf 0).isFinite = true) := by
        intro r hr
        obtain ⟨fits, below, -⟩ := sound e r hr
        rw [Problem.arrival_congr fun leaf hleaf => same leaf (below leaf hleaf)]
        exact Problem.arrival_spec timed fits fun leaf hleaf => nonneg leaf ((below leaf hleaf).trans he)
      have arrives : (p.arrival arrivals r).isFinite = true :=
        (spec r (hr ▸ admits e he)).2.2 fun leaf hleaf =>
          ih leaf (below e he r hr leaf hleaf) (.read h hr hleaf)
      have hadmits := admits e he
      rw [harrival, hchoice, taken]
      rw [Problem.AdmitsAt] at hadmits
      cases hfixed : p.fixed? e with
      | some r' =>
          rw [hfixed] at hadmits
          cases hr.symm.trans hadmits
          exact arrives
      | none =>
          rw [hfixed] at hadmits
          obtain ⟨c, hc, rfl⟩ := hadmits r hr
          obtain ⟨c', hpick, hfinite⟩ := reaches e h hfixed memory' arrivals
            (fun c hc => (spec _ (Problem.admitsAt_of_mem hfixed hc)).1) ⟨c, hc, arrives⟩
          rw [hpick]
          exact hfinite

/-- Such a pass covers the outputs. -/
theorem covers_forward (timed : p.library.Timed) (sound : p.Sound) (picks : Picks p pick)
    (admits : p.Admits other) (covers : Covers p.net other)
    (reaches : ∀ e, Needs p.net other e → p.fixed? e = none → Reaches p pick e) (memory : σ) :
    Covers p.net (forward p pick memory).choice := by
  rw [(arrivals_forward sound picks).covers_iff timed sound (admits_forward picks memory)]
  exact fun o ho => isFinite_of_needs timed sound picks admits covers reaches (.output ho)

/-- The earliest selection covers the outputs if any choice among the candidates does. -/
theorem covers_earliest (timed : p.library.Timed) (sound : p.Sound) (admits : p.Admits other)
    (covers : Covers p.net other) : Covers p.net (earliest p).choice := by
  refine covers_forward timed sound (fun _ _ _ _ hc => pickEarliest_mem hc) admits covers
    (fun e _ _ memory arrivals times => ?_) ()
  rintro ⟨c, hc, hfinite⟩
  have harrives : c ∈ (p.candidatesAt e).filter fun c =>
      decide (p.arrival arrivals c.realization < Cost.infinite) :=
    List.mem_filter.2 ⟨hc, decide_eq_true ((Cost.lt_infinite_iff (times c hc)).2 hfinite)⟩
  obtain ⟨best, hbest⟩ := exists_firstBest? (fun c => p.arrival arrivals c.realization)
    (fun a b => decide (a < b)) (List.ne_nil_of_mem harrives)
  obtain ⟨hmem, hlt⟩ := List.mem_filter.1 (firstBest?_mem hbest)
  exact ⟨best, hbest, (Cost.lt_infinite_iff (times best hmem)).1 (of_decide_eq_true hlt)⟩

end Selection

end Gatework
