import Gatework.Mapping.LeastPower
import Gatework.Proofs.Mapping.Arrival

/-!
# Selections that meet required times

Walking back from the outputs of a selection that covers them gives every entry that they need a finite
required time (`Selection.isFinite_requiredTimes`).  Where the required time is finite, a candidate that
meets it arrives, and if no candidate does, the earliest one is taken.  So nothing that the earliest
selection covers is lost.

**Main statements.** `Selection.covers_areaRecovery` and `Selection.covers_leastPower`.
-/

namespace Gatework

open MappedNetwork

namespace Selection

variable {p : Problem} {r : Realization} {target own : Float32} {required : Array Float32} {e : Nat}

/-- The times by which the entries that a realisation reads have to arrive. -/
def demands (p : Problem) (own : Float32) : Realization → List (Nat × Float32)
  | .output l => [(l.entry, own - if l.inverted then p.inverterDelay else 0)]
  | .wire leaf => [(leaf, own)]
  | .cell c pins => (pins.zip (p.costsOf c).delay).map fun (pin, delay) =>
      (pin.entry, own - delay - if pin.inverted then p.inverterDelay else 0)
  | _ => []

/-- Lowers several required times. -/
def tightenAll (required : Array Float32) (times : List (Nat × Float32)) : Array Float32 :=
  times.foldl (fun required (entry, time) => tighten required entry time) required

/-- The time by which an entry itself has to arrive. -/
def ownTime (target : Float32) (required : Array Float32) (entry : Nat) : Realization → Float32
  | .output _ => target
  | _ => required.getD entry Cost.infinite

lemma passBack_eq (p : Problem) (target : Float32) (required : Array Float32) (entry : Nat)
    (r : Realization) : passBack p target required entry r =
      if (ownTime target required entry r).isFinite then
        tightenAll required (demands p (ownTime target required entry r) r)
      else required := by
  cases r with
  | cell c pins =>
      simp only [passBack, demands, tightenAll, List.foldl_map]
      rfl
  | _ => rfl

/-- Every entry that a realisation reads has to arrive at some finite time. -/
lemma demands_spec (timed : p.library.Timed) (fits : r.Fits p.library) (hown : own.isFinite = true) :
    (∀ d ∈ demands p own r, d.2.isFinite = true) ∧
      ∀ leaf ∈ r.leaves, ∃ time, (leaf, time) ∈ demands p own r := by
  cases r with
  | output l =>
      refine ⟨?_, ?_⟩
      · simp only [demands, List.mem_singleton, forall_eq]
        exact Cost.isFinite_sub hown (Problem.moderate_inverter timed l)
      · simp [demands, Realization.leaves]
  | wire leaf =>
      refine ⟨?_, ?_⟩
      · simp only [demands, List.mem_singleton, forall_eq]
        exact hown
      · simp [demands, Realization.leaves]
  | cell c pins =>
      obtain ⟨cell, hcell, hpins⟩ := fits
      obtain ⟨hlength, delays⟩ := timed cell (Array.mem_of_getElem? hcell)
      have hcosts : p.costsOf c = cell.costs := by simp [Problem.costsOf, hcell]
      simp only [demands, hcosts, Realization.leaves]
      refine ⟨?_, ?_⟩
      · intro d hd
        obtain ⟨⟨l, delay⟩, hmem, rfl⟩ := List.mem_map.1 hd
        exact Cost.isFinite_sub (Cost.isFinite_sub hown (delays delay (List.of_mem_zip hmem).2))
          (Problem.moderate_inverter timed l)
      · intro leaf hleaf
        obtain ⟨l, hl, rfl⟩ := List.mem_map.1 hleaf
        obtain ⟨delay, hmem⟩ := Problem.exists_mem_zip (hpins.trans hlength.symm).le hl
        exact ⟨_, List.mem_map_of_mem hmem⟩
  | _ => simp [demands, Realization.leaves]

/-! ## Lowering required times -/

/-- All required times are finite or infinite. -/
def Bounded (required : Array Float32) : Prop :=
  ∀ e, (required.getD e Cost.infinite).isFinite = true ∨ required.getD e Cost.infinite = Cost.infinite

/-- Required times that have been lowered: what was finite still is. -/
structure Lowered (required required' : Array Float32) : Prop where
  size : required'.size = required.size
  bounded : Bounded required → Bounded required'
  finite : Bounded required → ∀ e, (required.getD e Cost.infinite).isFinite = true →
    (required'.getD e Cost.infinite).isFinite = true

lemma Lowered.refl (required : Array Float32) : Lowered required required := ⟨rfl, id, fun _ _ => id⟩

lemma Lowered.trans {a b c : Array Float32} (h : Lowered a b) (h' : Lowered b c) : Lowered a c :=
  ⟨h'.size.trans h.size, h'.bounded ∘ h.bounded,
    fun bounded e he => h'.finite (h.bounded bounded) e (h.finite bounded e he)⟩

lemma getD_tighten (required : Array Float32) (entry e : Nat) (time : Float32) :
    (tighten required entry time).getD e Cost.infinite =
      if e = entry ∧ e < required.size then Cost.min (required.getD e Cost.infinite) time
      else required.getD e Cost.infinite := by
  unfold tighten
  rw [Array.getD_eq_getD_getElem?, Array.getElem?_modify]
  by_cases he : entry = e
  · subst he
    by_cases hlt : entry < required.size <;> simp [Array.getD_eq_getD_getElem?, hlt]
  · simp [Array.getD_eq_getD_getElem?, he, Ne.symm he]

lemma lowered_tighten {time : Float32} (htime : time.isFinite = true) (required : Array Float32)
    (entry : Nat) : Lowered required (tighten required entry time) := by
  have finite : Bounded required → ∀ e, e = entry ∧ e < required.size →
      (Cost.min (required.getD e Cost.infinite) time).isFinite = true := fun bounded e _ =>
    Cost.isFinite_min htime (bounded e)
  refine ⟨by simp [tighten], fun bounded e => ?_, fun bounded e he => ?_⟩
  · rw [getD_tighten]
    split
    · rename_i hhere
      exact .inl (finite bounded e hhere)
    · exact bounded e
  · rw [getD_tighten]
    split
    · rename_i hhere
      exact finite bounded e hhere
    · exact he

lemma tightenAll_spec {times : List (Nat × Float32)} (htimes : ∀ d ∈ times, d.2.isFinite = true)
    (required : Array Float32) : Lowered required (tightenAll required times) ∧
      (Bounded required → ∀ d ∈ times, d.1 < required.size →
        ((tightenAll required times).getD d.1 Cost.infinite).isFinite = true) := by
  induction times generalizing required with
  | nil => exact ⟨.refl _, fun _ => nofun⟩
  | cons t times ih =>
      obtain ⟨ht, htimes⟩ := List.forall_mem_cons.1 htimes
      have first := lowered_tighten ht required t.1
      obtain ⟨rest, finite⟩ := ih htimes (tighten required t.1 t.2)
      refine ⟨first.trans rest, fun bounded => List.forall_mem_cons.2 ⟨fun hlt => ?_, fun d hd hlt => ?_⟩⟩
      · refine rest.finite (first.bounded bounded) t.1 ?_
        rw [getD_tighten, if_pos ⟨rfl, hlt⟩]
        exact Cost.isFinite_min ht (bounded t.1)
      · exact finite (first.bounded bounded) d hd (first.size ▸ hlt)

/-! ## Walking back -/

/-- The required times after walking back to entry `k`: whatever is read by an entry from there on that the
outputs need has a finite one. -/
structure Walked (p : Problem) (choice : Choice) (k : Nat) (required : Array Float32) : Prop where
  size : required.size = p.net.size
  bounded : Bounded required
  read : ∀ e, k ≤ e → Needs p.net choice e → ∀ r, choice.getD e none = some r →
    ∀ leaf ∈ r.leaves, (required.getD leaf Cost.infinite).isFinite = true

variable {choice : Choice} {k : Nat} {s : Selection}

/-- An entry that the outputs need has a finite required time when it is reached. -/
lemma Walked.isFinite_ownTime (h : Walked p choice (k + 1) required) (sound : p.Sound)
    (admits : p.Admits choice) (htarget : target.isFinite = true) (hneeds : Needs p.net choice k)
    (hr : choice.getD k none = some r) : (ownTime target required k r).isFinite = true := by
  have below := admits.readsBelow sound
  have hk := hneeds.lt_size below
  cases hneeds with
  | output ho =>
      obtain ⟨-, l, rfl⟩ := (sound k r (hr ▸ admits k hk)).output ho
      exact htarget
  | read he hr' hleaf =>
      have hlt := below _ (he.lt_size below) _ hr' _ hleaf
      have hfinite := h.read _ hlt he _ hr' _ hleaf
      cases r with
      | output l => exact htarget
      | _ => exact hfinite

/-- One entry more. -/
lemma Walked.next (h : Walked p choice (k + 1) required) (timed : p.library.Timed) (sound : p.Sound)
    (admits : p.Admits choice) (htarget : target.isFinite = true) (hk : k < p.net.size) :
    Walked p choice k (match choice.getD k none with
      | some r => passBack p target required k r
      | none => required) := by
  cases hr : choice.getD k none with
  | none =>
      refine ⟨h.size, h.bounded, fun e he hneeds r hr' => ?_⟩
      rcases Nat.eq_or_lt_of_le he with rfl | hlt
      · cases hr.symm.trans hr'
      · exact h.read e hlt hneeds r hr'
  | some r =>
      obtain ⟨fits, below, -⟩ := sound k r (hr ▸ admits k hk)
      dsimp only
      rw [passBack_eq]
      split
      · rename_i hown
        obtain ⟨hfinite, hleaves⟩ := demands_spec timed fits hown
        obtain ⟨lowered, tightened⟩ := tightenAll_spec hfinite required
        refine ⟨lowered.size.trans h.size, lowered.bounded h.bounded,
          fun e he hneeds r' hr' leaf hleaf => ?_⟩
        rcases Nat.eq_or_lt_of_le he with rfl | hlt
        · cases hr.symm.trans hr'
          obtain ⟨time, hmem⟩ := hleaves leaf hleaf
          exact tightened h.bounded (leaf, time) hmem (h.size ▸ (below leaf hleaf).trans hk)
        · exact lowered.finite h.bounded leaf (h.read e hlt hneeds r' hr' leaf hleaf)
      · rename_i hown
        refine ⟨h.size, h.bounded, fun e he hneeds r' hr' leaf hleaf => ?_⟩
        rcases Nat.eq_or_lt_of_le he with rfl | hlt
        · exact absurd (h.isFinite_ownTime sound admits htarget hneeds hr) hown
        · exact h.read e hlt hneeds r' hr' leaf hleaf

/-- All entries walked back, from outputs that arrive. -/
lemma walked_requiredTimes (timed : p.library.Timed) (sound : p.Sound) (admits : p.Admits s.choice)
    (htarget : (s.delay p).isFinite = true) : Walked p s.choice 0 (s.requiredTimes p) := by
  have below := admits.readsBelow sound
  have start : Walked p s.choice p.net.size (Array.replicate p.net.size Cost.infinite) := by
    refine ⟨by simp, fun e => .inr ?_, fun e he hneeds => ?_⟩
    · rw [Array.getD_eq_getD_getElem?, Array.getElem?_replicate]
      split <;> rfl
    · exact absurd (hneeds.lt_size below) (Nat.not_lt.2 he)
  unfold requiredTimes
  dsimp only
  suffices ∀ k ≤ p.net.size, ∀ required, Walked p s.choice k required →
      Walked p s.choice 0 ((List.range k).reverse.foldl (fun required entry =>
        match s.choice.getD entry none with
        | some r => passBack p (s.delay p) required entry r
        | none => required) required) from this _ le_rfl _ start
  intro k hk
  induction k with
  | zero => exact fun _ h => h
  | succ k ih =>
      intro required h
      rw [List.range_succ, List.reverse_append, List.reverse_singleton, List.singleton_append,
        List.foldl_cons]
      exact ih (Nat.le_of_succ_le hk) _ (h.next timed sound admits htarget hk)

/-- What the outputs need has a finite required time, if it leaves a choice and the outputs arrive. -/
theorem isFinite_requiredTimes (timed : p.library.Timed) (sound : p.Sound)
    (admits : p.Admits s.choice) (times : p.Arrivals s.choice s.arrival)
    (covers : Covers p.net s.choice) (hneeds : Needs p.net s.choice e) (hfixed : p.fixed? e = none) :
    ((s.requiredTimes p).getD e Cost.infinite).isFinite = true := by
  have htarget : (s.delay p).isFinite = true := (times.isFinite_maximum_iff timed sound admits).2 covers
  have walked := walked_requiredTimes timed sound admits htarget
  have he := hneeds.lt_size (admits.readsBelow sound)
  obtain ⟨r, hr⟩ := covers e hneeds
  cases hneeds with
  | output ho =>
      obtain ⟨hsome, -⟩ := (sound e r (hr ▸ admits e he)).output ho
      cases hfixed.symm.trans hsome
  | read he' hr' hleaf => exact walked.read _ (Nat.zero_le _) he' _ hr' _ hleaf

/-! ## Candidates that arrive in time -/

variable {arrivals : Array Float32}

/-- What is taken arrives, if all that is preferred does and some candidate arrives to fall back to. -/
lemma exists_or {first fallback : Option Candidate}
    (hfirst : ∀ c, first = some c → (p.arrival arrivals c.realization).isFinite = true)
    (hfallback : ∃ c, fallback = some c ∧ (p.arrival arrivals c.realization).isFinite = true) :
    ∃ c, first.or fallback = some c ∧ (p.arrival arrivals c.realization).isFinite = true := by
  cases first with
  | none => exact hfallback
  | some c => exact ⟨c, rfl, hfirst c rfl⟩

/-- Whatever is in time for a finite required time arrives. -/
lemma isFinite_of_inTime {required time : Float32} (htime : 0 ≤ time)
    (hrequired : required.isFinite = true) (h : (!decide (required + Cost.slack < time)) = true) :
    time.isFinite = true := by
  by_contra hinfinite
  have hdeadline := Cost.isFinite_add_of_isFinite hrequired Cost.moderate_slack
  have hlate := Cost.lt_of_isFinite hdeadline htime (Bool.eq_false_iff.2 hinfinite)
  rw [decide_eq_true hlate] at h
  cases h

/-- A pass for area that keeps to the required times. -/
lemma reaches_pickInTime {required : Float32} (hrequired : required.isFinite = true)
    (cost : Candidate → Float32) (times : ∀ c ∈ p.candidatesAt e, 0 ≤ p.arrival arrivals c.realization)
    (arrives : ∃ c ∈ p.candidatesAt e, (p.arrival arrivals c.realization).isFinite = true) :
    ∃ c, pickInTime p e arrivals required cost = some c ∧
      (p.arrival arrivals c.realization).isFinite = true := by
  unfold pickInTime
  refine exists_or (fun c hc => ?_) ?_
  · obtain ⟨hmem, hintime⟩ := List.mem_filter.1 (firstBest?_mem hc)
    exact isFinite_of_inTime (times c hmem) hrequired hintime
  · obtain ⟨c, hc, hfinite⟩ := arrives
    refine firstBest?_prefers (P := fun time : Float32 => time.isFinite = true) (fun a ha b hb hPa hPb => ?_)
      (fun a ha b hb hPa hPb => ?_) hc hfinite
    · exact decide_eq_true (Cost.lt_of_isFinite hPa (times b hb) (Bool.eq_false_iff.2 hPb))
    · exact decide_eq_false fun hlt => hPa (Cost.isFinite_of_lt (times a ha) hPb hlt)

/-- A pass that picks what arrives wherever the required time is finite covers the outputs if the earliest
selection does. -/
lemma covers_of_requiredTimes {σ : Type} {pick : σ → Nat → Array Float32 → Option Candidate × σ}
    (timed : p.library.Timed) (sound : p.Sound) (covers : Covers p.net (earliest p).choice)
    (picks : Picks p pick)
    (reaches : ∀ e, (((earliest p).requiredTimes p).getD e Cost.infinite).isFinite = true →
      Reaches p pick e) (memory : σ) : Covers p.net (forward p pick memory).choice := by
  have admits := admits_earliest p
  have times : p.Arrivals (earliest p).choice (earliest p).arrival :=
    arrivals_forward sound fun _ _ _ _ hc => pickEarliest_mem hc
  exact covers_forward timed sound picks admits covers (fun e hneeds hfixed =>
    reaches e (isFinite_requiredTimes timed sound admits times covers hneeds hfixed)) memory

/-- The pass for area with delay recovery covers the outputs if the earliest selection does. -/
theorem covers_areaRecovery (timed : p.library.Timed) (sound : p.Sound)
    (covers : Covers p.net (earliest p).choice) : Covers p.net (areaRecovery p).choice := by
  refine covers_of_requiredTimes timed sound covers (fun _ _ _ _ hc => pickInTime_mem hc) ?_ _
  rintro e hrequired ⟨⟨⟩, flow⟩ arrivals times arrives
  exact reaches_pickInTime hrequired _ times arrives

/-! ## Power -/

/-- The order of all numbers agrees on which times are finite. -/
lemma orderKey_lt_iff {x : Float32} (hx : 0 ≤ x) :
    orderKey x < orderKey Cost.infinite ↔ x.isFinite = true := by
  have hinfinite : orderKey Cost.infinite = 2139095040 := by decide +kernel
  have hbits := x.toBits.toNat_lt
  rw [hinfinite]
  unfold orderKey
  simp only [valuesOf]
  cases hfinite : x.isFinite with
  | true =>
      have hexponent := Cost.bits_of_isFinite hfinite
      simp only [iff_true]
      split <;> omega
  | false =>
      obtain ⟨hexponent, hsign⟩ := Cost.bits_of_infinite ((Cost.isFinite_eq_false_iff hx).1 hfinite)
      simp only [Bool.false_eq_true, iff_false]
      split <;> omega

lemma reaches_pickLeastPower {activity : Activity} {switchFlows flow : Array Float32}
    (hrequired : (required.getD e Cost.infinite).isFinite = true)
    (times : ∀ c ∈ p.candidatesAt e, 0 ≤ p.arrival arrivals c.realization)
    (arrives : ∃ c ∈ p.candidatesAt e, (p.arrival arrivals c.realization).isFinite = true) :
    ∃ c, pickLeastPower p activity required switchFlows flow e arrivals = some c ∧
      (p.arrival arrivals c.realization).isFinite = true := by
  unfold pickLeastPower
  refine exists_or (fun c hc => ?_) ?_
  · have hkept := mem_of_mem_foldl_keepLeastPower (List.mem_reverse.1 (firstBest?_mem hc))
    obtain ⟨hmem, hintime⟩ := List.mem_filter.1 hkept
    exact isFinite_of_inTime (times c hmem) hrequired hintime
  · obtain ⟨c, hc, hfinite⟩ := arrives
    -- the keys of what arrives are below the key of what never does
    obtain ⟨last, key⟩ : ∃ last, ∀ c ∈ p.candidatesAt e,
        orderKey (p.arrival arrivals c.realization) < last ↔
          (p.arrival arrivals c.realization).isFinite = true :=
      ⟨_, fun c hc => orderKey_lt_iff (times c hc)⟩
    have hbest : ∃ c, firstBest? (fun c => orderKey (p.arrival arrivals c.realization))
        (fun a b => decide (a < b)) (p.candidatesAt e) = some c ∧
          orderKey (p.arrival arrivals c.realization) < last :=
      firstBest?_prefers (P := (· < last)) (fun a _ b _ hPa hPb => decide_eq_true (by omega))
        (fun a _ b _ hPa hPb => decide_eq_false (by omega)) hc ((key c hc).2 hfinite)
    obtain ⟨best, hbest, hkey⟩ := hbest
    exact ⟨best, hbest, (key best (firstBest?_mem hbest)).1 hkey⟩

/-- The pass for low power covers the outputs if the earliest selection does. -/
theorem covers_leastPower (timed : p.library.Timed) (sound : p.Sound)
    (covers : Covers p.net (earliest p).choice) (h : leastPower p = .ok s) :
    Covers p.net s.choice := by
  obtain ⟨activity, -, h⟩ := bind_eq_ok_iff.1 h
  cases h
  refine covers_of_requiredTimes timed sound covers (fun _ _ _ _ hc => pickLeastPower_mem hc) ?_ _
  rintro e hrequired ⟨switchFlows, flow⟩ arrivals times arrives
  exact reaches_pickLeastPower hrequired times arrives

end Selection

end Gatework
