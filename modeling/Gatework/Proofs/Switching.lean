import Mathlib.Data.Int.Basic
import Gatework.Proofs.Activity
import Gatework.Proofs.Simulation
import Gatework.Proofs.TruthTable.Words

/-!
# Simulated activity is exact

The inputs of a network are driven by random words, one bit for each tick, and what the network makes of them
is counted in words as well, 64 ticks at a time.  A word is compared with itself one tick earlier, where the
value at the last tick of the word before is carried in, and what lies beyond the last tick is masked out.
Nothing of this shows in the result.

* `Simulation.Counts` is the invariant of the counting: a tally holds the counts of the ticks so far, and the
  value at the last of them.  One word keeps it (`Counts.addWord`), and so do all (`Counts.addWords`).
* `Simulation.countToggles_eq`: the changes from every tick to the next are counted, whatever word the two
  are in.

**Main statement.** `Store.Layered.activity_exact`: the activity of an entry is that of its values one tick
after the other.
-/

namespace Gatework

namespace Simulation

variable {v : Nat → Bool} {n p width : Nat} {c : Tally} {w : UInt64}

/-- The number of ticks, among the first ones but the very first, to which a value has changed to
`value`. -/
def changes (v : Nat → Bool) (ticks : Nat) (value : Bool) : Nat :=
  (List.range ticks).countP fun t => 0 < t ∧ v (t - 1) = !value ∧ v t = value

/-! ## Changes -/

lemma changes_add (v : Nat → Bool) (n width : Nat) (value : Bool) : changes v (n + width) value =
    changes v n value + (List.range width).countP fun p =>
      decide (0 < n + p ∧ v (n + p - 1) = !value ∧ v (n + p) = value) :=
  countP_range_add _ n width

lemma changes_succ (v : Nat → Bool) (n : Nat) (value : Bool) : changes v (n + 1) value =
    changes v n value + if 0 < n ∧ v (n - 1) = !value ∧ v n = value then 1 else 0 := by
  rw [changes_add, List.range_one, List.countP_singleton]
  simp only [Nat.add_zero, decide_eq_true_eq]

/-- Every rise but the last is followed by a fall and the other way round, so that the two differ by what
the value itself has changed. -/
lemma changes_balance (v : Nat → Bool) (n : Nat) :
    (changes v (n + 1) true : Int) - changes v (n + 1) false = (v n).toNat - (v 0).toNat := by
  induction n with
  | zero => cases h : v 0 <;> simp [changes]
  | succ n ih =>
      rw [changes_succ v (n + 1), changes_succ v (n + 1)]
      cases hbefore : v n <;> cases hnow : v (n + 1) <;> simp [hbefore] at ih ⊢ <;> omega

/-- A constant never changes. -/
lemma changes_const {b : Bool} (h : ∀ t, v t = b) (n : Nat) (value : Bool) : changes v n value = 0 := by
  refine List.countP_eq_zero.2 fun t _ => ?_
  rw [h, h]
  cases b <;> cases value <;> simp

/-! ## Words -/

lemma testBit_lowBits (hp : p < 64) (hwidth : width ≤ 64) :
    (lowBits width).toNat.testBit p = decide (p < width) := by
  unfold lowBits
  split
  · rename_i hlt
    have hone : ((1 : UInt64) <<< UInt64.ofNat width).toNat = 2 ^ width := by
      rw [UInt64.toNat_shiftLeft, UInt64.toNat_ofNat_of_lt' (by show width < 2 ^ 64; omega),
        Nat.mod_eq_of_lt hlt, UInt64.toNat_one, Nat.one_shiftLeft,
        Nat.mod_eq_of_lt (Nat.pow_lt_pow_right (by decide) hlt)]
    have hle : (1 : UInt64) ≤ 1 <<< UInt64.ofNat width := by
      rw [UInt64.le_iff_toNat_le, hone]
      exact Nat.two_pow_pos width
    rw [UInt64.toNat_sub_of_le _ _ hle, hone, UInt64.toNat_one, Nat.testBit_two_pow_sub_one]
  · rw [testBit_fullWord hp]
    exact (decide_eq_true (by omega)).symm

lemma testBit_and (a b : UInt64) : (a &&& b).toNat.testBit p = (a.toNat.testBit p && b.toNat.testBit p) := by
  rw [UInt64.toNat_and, Nat.testBit_and]

/-- A word one tick earlier, with the last value of the word before. -/
lemma testBit_before (hp : p < 64) (last : Bool) : (w <<< 1 ||| last.toUInt64).toNat.testBit p =
    if p = 0 then last else w.toNat.testBit (p - 1) := by
  have hlast : last.toUInt64.toNat.testBit p = (decide (p = 0) && last) := by
    cases last <;> cases p <;> simp [Bool.toUInt64, Nat.testBit_succ]
  rw [UInt64.toNat_or, Nat.testBit_or, UInt64.toNat_shiftLeft, Nat.testBit_mod_two_pow, hlast,
    show (1 : UInt64).toNat % 64 = 1 from rfl, Nat.testBit_shiftLeft]
  cases p with
  | zero => simp
  | succ p => simp [hp]

/-- One bit of a word, read off by shifting it to the end. -/
lemma shifted_bit (hp : p < 64) : (w >>> UInt64.ofNat p &&& 1 != 0) = w.toNat.testBit p := by
  have hshift : (w >>> UInt64.ofNat p &&& 1).toNat = w.toNat >>> p % 2 := by
    rw [UInt64.toNat_and, UInt64.toNat_shiftRight, UInt64.toNat_ofNat_of_lt' (by show p < 2 ^ 64; omega),
      Nat.mod_eq_of_lt hp, UInt64.toNat_one, Nat.and_one_is_mod]
  rw [Nat.testBit_eq_decide_div_mod_eq, ← Nat.shiftRight_eq_div_pow, ← hshift, Bool.eq_iff_iff, bne_iff_ne,
    decide_eq_true_iff, ne_eq, ← UInt64.toNat_inj, hshift, UInt64.toNat_zero]
  omega

/-- The set bits of a word are those of its lowest bits, if no others are set. -/
lemma countOnes_eq {q : Nat → Bool} (hwidth : width ≤ 64)
    (h : ∀ p < 64, w.toNat.testBit p = (decide (p < width) && q p)) :
    countOnes w = (List.range width).countP q := by
  rw [countOnes, countBits_eq, show 2 ^ 6 = width + (64 - width) by omega, countP_range_add]
  have low : (List.range width).countP w.toNat.testBit = (List.range width).countP q := by
    refine List.countP_congr fun p hp => ?_
    have hlt := List.mem_range.1 hp
    rw [h p (hlt.trans_le hwidth), decide_eq_true hlt, Bool.true_and]
  have high : ((List.range (64 - width)).countP fun p => w.toNat.testBit (width + p)) = 0 := by
    refine List.countP_eq_zero.2 fun p hp => ?_
    have hlt := List.mem_range.1 hp
    rw [h _ (by omega), decide_eq_false (by omega), Bool.false_and]
    exact Bool.false_ne_true
  rw [low, high, Nat.add_zero]

/-! ## Tallies -/

/-- A tally of the first `n` ticks of a value. -/
structure Counts (v : Nat → Bool) (n : Nat) (c : Tally) : Prop where
  rises : c.rises = changes v n true
  falls : c.falls = changes v n false
  ones : c.ones = (List.range n).countP v
  last : 0 < n → c.last = v (n - 1)

lemma counts_zero (v : Nat → Bool) : Counts v 0 {} := ⟨rfl, rfl, rfl, nofun⟩

/-- The changes within one word are the bits of the steps at which the word and the one before differ in the
right way. -/
lemma changes_add_countOnes {now before steps m : UInt64} (value : Bool) (hwidth : width ≤ 64)
    (hnow : ∀ p < 64, now.toNat.testBit p = (decide (p < width) && v (n + p)))
    (hbefore : ∀ p < width, 0 < n + p → before.toNat.testBit p = v (n + p - 1))
    (hsteps : ∀ p < 64, steps.toNat.testBit p = (decide (p < width) && decide (0 < n + p)))
    (hm : ∀ p < 64, m.toNat.testBit p =
      (before.toNat.testBit p == !value && now.toNat.testBit p == value && steps.toNat.testBit p)) :
    changes v n value + countOnes m = changes v (n + width) value := by
  rw [changes_add]
  refine congrArg _ (countOnes_eq hwidth fun p hp => ?_)
  rw [hm p hp, hnow p hp, hsteps p hp]
  by_cases hlt : p < width ∧ 0 < n + p
  · rw [hbefore p hlt.1 hlt.2]
    cases v (n + p - 1) <;> cases v (n + p) <;> cases value <;> simp [hlt]
  · rcases not_and_or.1 hlt with hlt | hlt <;> simp [hlt]

/-- One word more.  Only at the very first tick there is no value before, and then the bit that is carried
in is masked out. -/
theorem Counts.addWord (h : Counts v n c) (hpos : 0 < width) (hwidth : width ≤ 64)
    (bits : ∀ p < width, w.toNat.testBit p = v (n + p)) :
    Counts v (n + width) (c.addWord (decide (n = 0)) width w) := by
  have now : ∀ p < 64, (w &&& lowBits width).toNat.testBit p = (decide (p < width) && v (n + p)) := by
    intro p hp
    rw [testBit_and, testBit_lowBits hp hwidth, Bool.and_comm]
    by_cases hlt : p < width
    · rw [bits p hlt]
    · rw [decide_eq_false hlt, Bool.false_and, Bool.false_and]
  have before : ∀ p < width, 0 < n + p →
      ((w &&& lowBits width) <<< 1 ||| c.last.toUInt64).toNat.testBit p = v (n + p - 1) := by
    intro p hp hpos
    rw [testBit_before (hp.trans_le hwidth)]
    cases p with
    | zero => exact h.last hpos
    | succ p =>
        rw [if_neg (Nat.succ_ne_zero p), Nat.add_sub_cancel, now p (by omega), decide_eq_true (by omega),
          Bool.true_and]
        rfl
  have steps : ∀ p < 64, (if decide (n = 0) then lowBits width &&& ~~~1 else lowBits width).toNat.testBit p =
      (decide (p < width) && decide (0 < n + p)) := by
    intro p hp
    split
    · rename_i hfirst
      have hone : (1 : UInt64).toNat.testBit p = decide (p = 0) := by
        cases p <;> simp [Nat.testBit_succ]
      rw [testBit_and, testBit_not _ hp, testBit_lowBits hp hwidth, hone, of_decide_eq_true hfirst]
      cases p <;> simp
    · rename_i hlater
      have hpos : 0 < n + p := by
        have : n ≠ 0 := by simpa using hlater
        omega
      rw [testBit_lowBits hp hwidth, decide_eq_true hpos, Bool.and_true]
  refine ⟨?_, ?_, ?_, fun _ => ?_⟩
  · rw [← changes_add_countOnes true hwidth now before steps, ← h.rises]
    · rfl
    · intro p hp
      rw [testBit_and, testBit_and, testBit_not _ hp, Bool.not_true, beq_true, beq_false]
  · rw [← changes_add_countOnes false hwidth now before steps, ← h.falls]
    · rfl
    · intro p hp
      rw [testBit_and, testBit_and, testBit_not _ hp, Bool.not_false, beq_true, beq_false]
  · rw [countP_range_add, ← h.ones]
    exact congrArg (c.ones + ·) (countOnes_eq hwidth now)
  · have hlast : width - 1 < width := Nat.sub_lt hpos Nat.one_pos
    refine (shifted_bit (by omega)).trans ?_
    rw [now _ (by omega), decide_eq_true hlast, Bool.true_and, ← Nat.add_sub_assoc hpos]

/-- The number of words that hold some ticks. -/
lemma wordsFor_pos {ticks : Nat} (h : 0 < wordsFor ticks) : 0 < ticks := by
  unfold wordsFor at h
  omega

/-- All words.  The invariant is carried over the ticks that have been counted so far. -/
theorem Counts.addWords {ticks : Nat} {words : List UInt64} (h : Counts v n c)
    (hlength : words.length = wordsFor ticks)
    (bits : ∀ t < ticks, (words.getD (t / 64) 0).toNat.testBit (t % 64) = v (n + t)) :
    Counts v (n + ticks) (Tally.addWords (decide (n = 0)) ticks words c) := by
  induction words generalizing n ticks c with
  | nil =>
      have hnone : ticks = 0 := by
        rw [List.length_nil, wordsFor] at hlength
        omega
      subst hnone
      exact h
  | cons w words ih =>
      have hpos : 0 < ticks := wordsFor_pos (hlength ▸ Nat.succ_pos _)
      have next : Counts v (n + min ticks 64) (c.addWord (decide (n = 0)) (min ticks 64) w) := by
        refine h.addWord (by omega) (Nat.min_le_right ..) fun p hp => ?_
        have hp' : p < 64 := by omega
        have := bits p (by omega)
        rwa [Nat.div_eq_of_lt hp', Nat.mod_eq_of_lt hp', List.getD_cons_zero] at this
      have later : (false : Bool) = decide (n + min ticks 64 = 0) := (decide_eq_false (by omega)).symm
      rw [Tally.addWords, later, show n + ticks = n + min ticks 64 + (ticks - 64) by omega]
      refine ih next ?_ fun t ht => ?_
      · rw [List.length_cons] at hlength
        unfold wordsFor at hlength ⊢
        omega
      · have := bits (64 + t) (by omega)
        rwa [show (64 + t) / 64 = t / 64 + 1 by omega, show (64 + t) % 64 = t % 64 by omega,
          List.getD_cons_succ, ← Nat.add_assoc, show n + 64 = n + min ticks 64 by omega] at this

/-- The tally of a signal counts the changes from every tick to the next and the ticks at which it is
one. -/
theorem countToggles_eq {ticks : Nat} {words : List UInt64} (hlength : words.length = wordsFor ticks)
    (bits : ∀ t < ticks, (words.getD (t / 64) 0).toNat.testBit (t % 64) = v t) :
    (countToggles ticks words).rises = changes v ticks true ∧
      (countToggles ticks words).falls = changes v ticks false ∧
      (countToggles ticks words).ones = (List.range ticks).countP v := by
  have counts := (counts_zero v).addWords hlength fun t ht => by rw [bits t ht, Nat.zero_add]
  rw [Nat.zero_add] at counts
  exact ⟨counts.rises, counts.falls, counts.ones⟩

end Simulation

namespace Store

open Simulation

variable {store : Store} {net : Subnet} {ticks : Nat} {seed : UInt64} {probabilities : List Float}
  {drawn : List (List UInt64)} {words : Array (List UInt64)}

lemma Layered.simulable (layered : store.Layered) (wired : ∀ part, store.Within part net → store.Wired part)
    (positive : ∀ c ∈ net.cells, 0 < store.numPorts c.kind) : store.Simulable net :=
  simulable_of positive fun _ _ hlength hwidths => layered.exists_simulate wired hlength hwidths

/-- A constant has the same value at all ticks. -/
lemma valueAt_of_isConst {e : Nat} {c : Cell} (hc : net.cells[e]? = some c) (h : c.isConst = true) :
    ∃ value, ∀ t, store.valueAt net drawn e t = value := by
  have hinput : net.numInputs ≤ e := Nat.not_lt.1 fun hlt => by
    rw [Cell.isConst, Subnet.kind_of_lt hc hlt] at h
    cases h
  simp only [valueAt, Subnet.values_of_le hinput hc, Cell.portsIn, Cell.ports]
  rw [Cell.isConst] at h
  cases hkind : c.kind.symbol with
  | cell => rw [hkind] at h; cases h
  | gate g =>
      rw [hkind] at h
      cases g with
      | zero => exact ⟨false, fun _ => rfl⟩
      | one => exact ⟨true, fun _ => rfl⟩
      | _ => cases h

/-- What is counted of an entry. -/
lemma Observed.tally (observed : store.Observed net ticks seed probabilities drawn words) {e : Nat}
    (he : e < net.size) : ∃ c, (words.map (countToggles ticks))[e]? = some c ∧
      c.rises = changes (store.valueAt net drawn e) ticks true ∧
      c.falls = changes (store.valueAt net drawn e) ticks false ∧
      c.ones = (List.range ticks).countP (store.valueAt net drawn e) := by
  have hlt : e < words.size := observed.size ▸ he
  have hws : words[e]? = some words[e] := Array.getElem?_eq_getElem hlt
  refine ⟨countToggles ticks words[e], by rw [Array.getElem?_map, hws]; rfl, ?_⟩
  exact countToggles_eq (observed.length e _ hws) (observed.value e _ hws)

/-- The activity of a network is that of its values.  Words are drawn for the inputs, 64 ticks in each, and
with the values of an entry for the bits of these, tick by tick, the activity holds how often they rise and
fall from one tick to the next and at how many ticks they are one.  So rises and falls differ by what the
value has changed from the first tick to the last, and a constant does neither. -/
theorem Layered.activity_exact (layered : store.Layered)
    (wired : ∀ part, store.Within part net → store.Wired part)
    (positive : ∀ c ∈ net.cells, 0 < store.numPorts c.kind) (inputs : 1 ≤ net.numInputs)
    (hticks : 2 ≤ ticks) (proper : ProperProbabilities probabilities net.numInputs) (seed : UInt64) :
    ∃ drawn activity counts,
      Simulation.stimulus net.numInputs ticks seed probabilities = .ok (drawn.map .ofWords) ∧
      drawn.length = net.numInputs ∧ (∀ ws ∈ drawn, ws.length = wordsFor ticks) ∧
      store.simulatedActivity net ticks seed probabilities = .ok activity ∧ activity.size = net.size ∧
      activity.counts = some counts ∧ counts.ticks = ticks ∧ ∀ e < net.size, ∃ rises falls ones,
        rises = changes (store.valueAt net drawn e) ticks true ∧
        falls = changes (store.valueAt net drawn e) ticks false ∧
        ones = (List.range ticks).countP (store.valueAt net drawn e) ∧
        counts.rises[e]? = some rises ∧ counts.falls[e]? = some falls ∧
        activity.onState[e]? = some (Activity.ofCount ones / Activity.ofCount ticks) ∧
        activity.switching[e]? =
          some (Activity.ofCount (rises + falls) / Activity.ofCount (ticks - 1)) ∧
        (rises : Int) - falls =
          (store.valueAt net drawn e (ticks - 1)).toNat - (store.valueAt net drawn e 0).toNat ∧
        ∀ c, net.cells[e]? = some c → c.isConst = true → rises = 0 ∧ falls = 0 := by
  obtain ⟨drawn, words, observed⟩ := (layered.simulable wired positive).exists_observed hticks proper
    (fun hnone => absurd hnone (Nat.ne_of_gt inputs)) seed
  refine ⟨drawn, _, _, observed.stimulus, observed.drawn_length, observed.drawn_count, observed.activity,
    ?_, rfl, rfl, fun e he => ?_⟩
  · rw [Activity.size, Simulation.activity, Array.size_map, Array.size_map, observed.size]
  obtain ⟨c, hc, hrises, hfalls, hones⟩ := observed.tally he
  have mapped : ∀ {α : Type} (f : Tally → α), ((words.map (countToggles ticks)).map f)[e]? = some (f c) :=
    fun f => by rw [Array.getElem?_map, hc, Option.map_some]
  refine ⟨_, _, _, hrises, hfalls, hones, mapped _, mapped _, mapped _, mapped _, ?_,
    fun d hd hconst => ?_⟩
  · rw [hrises, hfalls, show ticks = ticks - 1 + 1 by omega, Nat.add_sub_cancel]
    exact changes_balance _ _
  · obtain ⟨value, constant⟩ := @valueAt_of_isConst store net drawn e d hd hconst
    rw [hrises, hfalls]
    exact ⟨changes_const constant _ _, changes_const constant _ _⟩

/-- Three words of ticks, the last one in part, for two wires that are crossed inside of a cell. -/
theorem Layered.activity_exact_crossed :
    (∀ p ∈ [(0.25 : Float), 1], 0 ≤ p ∧ p ≤ 1) ∧ ∃ drawn activity counts,
      Simulation.stimulus 2 130 7 [0.25, 1] = .ok (drawn.map .ofWords) ∧
      Session.crossedWires.store.simulatedActivity crossed 130 7 [0.25, 1] = .ok activity ∧
      activity.size = 6 ∧ activity.counts = some counts ∧
      counts.rises[3]? = some (changes (Session.crossedWires.store.valueAt crossed drawn 3) 130 true) := by
  have bounds : ∀ p ∈ [(0.25 : Float), 1], 0 ≤ p ∧ p ≤ 1 := by
    intro p hp
    rcases List.mem_pair.1 hp with rfl | rfl <;> exact ⟨by decide +kernel, by decide +kernel⟩
  have positive : ∀ c ∈ crossed.cells, 0 < Session.crossedWires.store.numPorts c.kind := by
    intro c hc
    rcases mem_crossed hc with rfl | rfl | rfl | rfl | rfl
    · exact Nat.one_pos
    · rw [numPorts_of_part rfl implementation_crossedWires getElem?_crossedWires]
      exact Nat.two_pos
    · exact Nat.one_pos
    · exact Nat.one_pos
    · exact Nat.one_pos
  obtain ⟨drawn, activity, counts, hdrawn, -, -, hactivity, hsize, hcounts, -, entries⟩ :=
    Session.reached_crossedWires.sound.store.layered.activity_exact (fun _ => wired_within_crossed) positive
      (by decide) (by decide : 2 ≤ 130) ⟨.inr rfl, bounds⟩ 7
  obtain ⟨rises, falls, ones, rfl, -, -, hrises, -⟩ := entries 3 (by decide)
  exact ⟨bounds, drawn, activity, counts, hdrawn, hactivity, hsize, hcounts, hrises⟩

end Store

end Gatework
