import Mathlib.Algebra.BigOperators.Intervals
import Mathlib.Algebra.Order.BigOperators.Group.Finset
import Gatework.Cover
import Gatework.Proofs.Runs
import Gatework.Proofs.TruthTable

/-!
# Covers lie in their interval

`Cover.below` splits on the highest variable that a bound depends on.  What is needed of the three parts
is that each lies in its own interval; `Covers` says this, and that the cubes add up to the table.  Every
cube is there for an assignment of its own, so `weight` bounds their number.  How a cover is put together
from its parts is kept as `Assembled`, for whatever else is true of its cubes.

**Main statement.** `Cover.exists_between`: there is a cover between any two bounds of which the first
is contained in the second, and it depends on no other variables than the bounds do.
-/

namespace Gatework

namespace Cube

variable {c : Cube} {v x : Nat}

/-- The value of a cube. -/
def value (c : Cube) (x : Nat) : Bool := c.literals.all fun l => x.testBit l.1 == l.2

lemma value_eq_true_iff : c.value x = true ↔
    ∀ v < maxVariables, c.mask.testBit v = true → x.testBit v = c.polarity.testBit v := by
  simp only [value, literals, List.all_map, List.all_eq_true, List.mem_filter, List.mem_range]
  simp

lemma value_empty : empty.value x = true := value_eq_true_iff.2 fun v _ h => by simp [empty] at h

lemma testBit_mask_withLiteral (positive : Bool) (w : Nat) :
    (c.withLiteral v positive).mask.testBit w = (c.mask.testBit w || decide (w = v)) := by
  rw [withLiteral, Nat.testBit_or, Nat.one_shiftLeft, Nat.testBit_two_pow]
  simp [eq_comm]

lemma testBit_polarity_withLiteral (positive : Bool) (w : Nat) :
    (c.withLiteral v positive).polarity.testBit w =
      if w = v then positive else c.polarity.testBit w := by
  simp only [withLiteral, Nat.one_shiftLeft]
  by_cases hw : w = v
  · subst hw
    cases positive with
    | true => simp [Nat.testBit_or]
    | false =>
        by_cases h : c.polarity.testBit w
        · simp [h, Nat.testBit_xor]
        · simp [h]
  · have hne : v ≠ w := Ne.symm hw
    cases positive with
    | true => simp [Nat.testBit_or, Nat.testBit_two_pow_of_ne hne, hw]
    | false =>
        by_cases h : c.polarity.testBit v
        · simp [h, Nat.testBit_xor, Nat.testBit_two_pow_of_ne hne, hw]
        · simp [h, hw]

/-- One more literal, of a variable that the cube does not mention. -/
lemma value_withLiteral (hv : v < maxVariables) (hnew : c.mask.testBit v = false) (positive : Bool) :
    (c.withLiteral v positive).value x = ((x.testBit v == positive) && c.value x) := by
  rw [Bool.eq_iff_iff, Bool.and_eq_true, beq_iff_eq, value_eq_true_iff, value_eq_true_iff]
  simp only [testBit_mask_withLiteral, testBit_polarity_withLiteral, Bool.or_eq_true,
    decide_eq_true_eq]
  constructor
  · intro h
    refine ⟨by simpa using h v hv (.inr rfl), fun w hw hmask => ?_⟩
    have hne : w ≠ v := by
      rintro rfl
      rw [hnew] at hmask
      cases hmask
    simpa [hne] using h w hw (.inl hmask)
  · rintro ⟨hx, h⟩ w hw hmask
    by_cases hwv : w = v
    · simp [hwv, hx]
    · rw [if_neg hwv]
      exact h w hw (hmask.resolve_right hwv)

end Cube

namespace Cover

variable {n top : Nat} {lower upper : TruthTable n}

/-- The number of assignments of the variables below `top` on which a function holds. -/
def weight (top : Nat) (t : TruthTable n) : Nat := ∑ x ∈ Finset.range (2 ^ top), (t.value x).toNat

/-- The weight is that of the two cofactors together. -/
lemma weight_cofactors {v : Nat} (hv : v < n) (hlt : v < top) (t : TruthTable n) :
    weight v (t.cofactor v false) + weight v (t.cofactor v true) ≤ weight top t := by
  have low : ∀ x ∈ Finset.range (2 ^ v), (t.cofactor v false).value x = t.value x := by
    intro x hx
    have hx := Finset.mem_range.1 hx
    rw [TruthTable.value_cofactor hv (hx.trans (two_pow_lt hv)),
      setVar_of_testBit (Nat.testBit_lt_two_pow hx)]
  have high : ∀ x ∈ Finset.range (2 ^ v), (t.cofactor v true).value x = t.value (2 ^ v + x) := by
    intro x hx
    have hx := Finset.mem_range.1 hx
    rw [TruthTable.value_cofactor hv (hx.trans (two_pow_lt hv)), Nat.add_comm,
      add_two_pow_eq_setVar (Nat.testBit_lt_two_pow hx)]
  have hle : 2 ^ v + 2 ^ v ≤ 2 ^ top := by
    rw [← Nat.two_mul, ← Nat.pow_succ']
    exact Nat.pow_le_pow_right (by decide) hlt
  calc weight v (t.cofactor v false) + weight v (t.cofactor v true)
      = ∑ x ∈ Finset.range (2 ^ v + 2 ^ v), (t.value x).toNat := by
        rw [Finset.sum_range_add, weight, weight]
        congr 1
        · exact Finset.sum_congr rfl fun x hx => by rw [low x hx]
        · exact Finset.sum_congr rfl fun x hx => by rw [high x hx]
    _ ≤ weight top t :=
        Finset.sum_le_sum_of_subset (Finset.range_subset_range.2 hle)

/-- A function that is not constantly false and depends on variables below `top` only. -/
lemma weight_pos {t : TruthTable n} (hzero : ¬t.isZero = true)
    (ht : t.DependsOnly (· < top)) : 1 ≤ weight top t := by
  rw [TruthTable.isZero_iff] at hzero
  push Not at hzero
  obtain ⟨x, hx, hvalue⟩ := hzero
  have hlt : x % 2 ^ top < 2 ^ top := Nat.mod_lt _ (Nat.two_pow_pos top)
  have hlt' : x % 2 ^ top < 2 ^ n := (Nat.mod_le ..).trans_lt hx
  have same : t.value (x % 2 ^ top) = t.value x := ht _ _ hlt' hx fun v _ hv => by
    rw [Nat.testBit_mod_two_pow]
    simp [hv]
  have hone : (t.value (x % 2 ^ top)).toNat = 1 := by
    rw [same, Bool.eq_true_of_not_eq_false hvalue]
    rfl
  rw [weight, ← hone]
  exact Finset.single_le_sum (f := fun x => (t.value x).toNat) (fun _ _ => Nat.zero_le _)
    (Finset.mem_range.2 hlt)

/-- A function that is false somewhere. -/
lemma weight_lt {t : TruthTable n} {x : Nat} (hx : x < 2 ^ n) (hvalue : t.value x = false) :
    weight n t < 2 ^ n := by
  calc weight n t
      < ∑ _ ∈ Finset.range (2 ^ n), 1 :=
        Finset.sum_lt_sum (fun x _ => Bool.toNat_le _) ⟨x, Finset.mem_range.2 hx, by simp [hvalue]⟩
    _ = 2 ^ n := by simp

/-- A cover lies in its interval, its cubes add up to its table and mention only variables below
`top`, and it depends only on variables of a set. -/
structure Covers (cover : Cover n) (lower upper : TruthTable n) (top : Nat) (S : Nat → Prop) :
    Prop where
  above : ∀ x < 2 ^ n, lower.value x = true → cover.table.value x = true
  beneath : ∀ x < 2 ^ n, cover.table.value x = true → upper.value x = true
  cubes : ∀ x < 2 ^ n, cover.table.value x = cover.cubes.any (·.value x)
  mentions : ∀ c ∈ cover.cubes, ∀ v, c.mask.testBit v = true → v < top
  length_le : cover.cubes.length ≤ weight top lower
  depends : cover.table.DependsOnly S

lemma highest?_eq_none_iff {p : Nat → Bool} : highest? p top = none ↔ ∀ v < top, p v = false := by
  induction top with
  | zero => simp [highest?]
  | succ top ih =>
      rw [highest?]
      split
      · rename_i h
        simp only [reduceCtorEq, false_iff]
        exact fun hall => by simp [hall top (Nat.lt_succ_self top)] at h
      · rename_i h
        rw [Option.map_eq_none_iff, ih]
        constructor
        · intro hall v hv
          rcases Nat.lt_succ_iff_lt_or_eq.1 hv with hv | rfl
          · exact hall v hv
          · exact Bool.eq_false_iff.2 h
        · exact fun hall v hv => hall v (Nat.lt_succ_of_lt hv)

lemma highest?_eq_some {p : Nat → Bool} {v : { v : Nat // v < top }} (h : highest? p top = some v) :
    p v.1 = true ∧ ∀ w, v.1 < w → w < top → p w = false := by
  induction top with
  | zero => cases h
  | succ top ih =>
      rw [highest?] at h
      split at h
      · rename_i htop
        cases h
        exact ⟨htop, fun w hw hlt => absurd (Nat.lt_succ_iff.1 hlt) (Nat.not_le.2 hw)⟩
      · rename_i htop
        obtain ⟨u, hu, rfl⟩ := Option.map_eq_some_iff.1 h
        obtain ⟨hp, hall⟩ := ih hu
        refine ⟨hp, fun w hw hlt => ?_⟩
        rcases Nat.lt_succ_iff_lt_or_eq.1 hlt with hlt | rfl
        · exact hall w hw hlt
        · exact Bool.eq_false_iff.2 htop

lemma value_select {v x : Nat} (hx : x < 2 ^ n) (low high : TruthTable n) :
    (select v low high).value x = if x.testBit v then high.value x else low.value x := by
  rw [select, TruthTable.value_or, TruthTable.value_andNot hx, TruthTable.value_and,
    TruthTable.value_var hx]
  cases x.testBit v <;> simp

/-- Fewer cubes than assignments are enough, unless all assignments have to be covered. -/
lemma Covers.length_lt {cover : Cover n} {S : Nat → Prop} (h : cover.Covers lower upper n S) {x : Nat}
    (hx : x < 2 ^ n) (hvalue : lower.value x = false) : cover.cubes.length < 2 ^ n :=
  h.length_le.trans_lt (weight_lt hx hvalue)

/-! ## Three parts of a cover -/

/-- The cover that is put together from those of the two cofactors and of what they share. -/
def combine (v : Nat) (negative positive rest : Cover n) : Cover n where
  cubes := negative.cubes.map (·.withLiteral v false) ++ positive.cubes.map (·.withLiteral v true) ++
    rest.cubes
  table := (select v negative.table positive.table).or rest.table

section Combine

variable {v x : Nat} {S : Nat → Prop} {cubes : List Cube} {negative positive rest : Cover n}

lemma value_combine (hx : x < 2 ^ n) : (combine v negative positive rest).table.value x =
    ((if x.testBit v then positive.table.value x else negative.table.value x) ||
      rest.table.value x) := by
  rw [combine, TruthTable.value_or, value_select hx]

/-- A literal of a variable that no cube mentions. -/
lemma any_withLiteral (hmax : v < Cube.maxVariables)
    (mentions : ∀ c ∈ cubes, ∀ w, c.mask.testBit w = true → w < v) (b : Bool) :
    (cubes.map (·.withLiteral v b)).any (·.value x) =
      ((x.testBit v == b) && cubes.any (·.value x)) := by
  have hvalues : cubes.map (fun c => (c.withLiteral v b).value x) =
      cubes.map fun c => (x.testBit v == b) && c.value x := by
    refine List.map_congr_left fun c hc => ?_
    refine Cube.value_withLiteral hmax (Bool.eq_false_iff.2 fun hbit => ?_) b
    exact lt_irrefl v (mentions c hc v hbit)
  have := congrArg (List.any · id) hvalues
  simpa [List.any_map, Function.comp_def, List.and_any_distrib_left] using this

lemma mentions_withLiteral (hlt : v < top)
    (mentions : ∀ c ∈ cubes, ∀ w, c.mask.testBit w = true → w < v) (b : Bool) :
    ∀ c ∈ cubes.map (·.withLiteral v b), ∀ w, c.mask.testBit w = true → w < top := by
  intro c hc w hw
  obtain ⟨d, hd, rfl⟩ := List.mem_map.1 hc
  rw [Cube.testBit_mask_withLiteral, Bool.or_eq_true, decide_eq_true_eq] at hw
  rcases hw with hw | rfl
  · exact (mentions d hd w hw).trans hlt
  · exact hlt

/-- What the first two parts cover is not covered by the third. -/
lemma weight_parts_le (hv : v < n)
    (hneg : ∀ x < 2 ^ n, ((lower.cofactor v false).andNot (upper.cofactor v true)).value x = true →
      negative.table.value x = true)
    (hpos : ∀ x < 2 ^ n, ((lower.cofactor v true).andNot (upper.cofactor v false)).value x = true →
      positive.table.value x = true) :
    weight v ((lower.cofactor v false).andNot (upper.cofactor v true)) +
        weight v ((lower.cofactor v true).andNot (upper.cofactor v false)) +
        weight v (((lower.cofactor v false).andNot negative.table).or
          ((lower.cofactor v true).andNot positive.table)) ≤
      weight v (lower.cofactor v false) + weight v (lower.cofactor v true) := by
  simp only [weight, ← Finset.sum_add_distrib]
  refine Finset.sum_le_sum fun x hx => ?_
  have hx := (Finset.mem_range.1 hx).trans (two_pow_lt hv)
  have hn := hneg x hx
  have hp := hpos x hx
  simp only [TruthTable.value_or, TruthTable.value_andNot hx] at hn hp ⊢
  revert hn hp
  cases (lower.cofactor v false).value x <;> cases (lower.cofactor v true).value x <;>
    cases (upper.cofactor v false).value x <;> cases (upper.cofactor v true).value x <;>
    cases negative.table.value x <;> cases positive.table.value x <;> simp

variable (hneg : negative.Covers ((lower.cofactor v false).andNot (upper.cofactor v true))
      (upper.cofactor v false) v fun w => S w ∧ w < v)
    (hpos : positive.Covers ((lower.cofactor v true).andNot (upper.cofactor v false))
      (upper.cofactor v true) v fun w => S w ∧ w < v)
    (hrest : rest.Covers (((lower.cofactor v false).andNot negative.table).or
        ((lower.cofactor v true).andNot positive.table))
      ((upper.cofactor v false).and (upper.cofactor v true)) v fun w => S w ∧ w < v)

include hrest in
lemma combine_above (hv : v < n) (hx : x < 2 ^ n) (hlow : lower.value x = true) :
    (combine v negative positive rest).table.value x = true := by
  rw [value_combine hx]
  have hleft := hrest.above x hx
  rw [TruthTable.value_or, TruthTable.value_andNot hx, TruthTable.value_andNot hx] at hleft
  cases hbit : x.testBit v with
  | false =>
      have := TruthTable.value_cofactor_of_testBit (t := lower) hv hx hbit
      cases hn : negative.table.value x <;> simp_all
  | true =>
      have := TruthTable.value_cofactor_of_testBit (t := lower) hv hx hbit
      cases hp : positive.table.value x <;> simp_all

include hneg hpos hrest in
lemma combine_beneath (hv : v < n) (hx : x < 2 ^ n)
    (hval : (combine v negative positive rest).table.value x = true) : upper.value x = true := by
  rw [value_combine hx] at hval
  have hu := hrest.beneath x hx
  rw [TruthTable.value_and] at hu
  cases hbit : x.testBit v with
  | false =>
      rw [← TruthTable.value_cofactor_of_testBit hv hx hbit]
      simp only [hbit, Bool.false_eq_true, if_false, Bool.or_eq_true] at hval
      rcases hval with hval | hval
      · exact hneg.beneath x hx hval
      · exact (Bool.and_eq_true_iff.1 (hu hval)).1
  | true =>
      rw [← TruthTable.value_cofactor_of_testBit hv hx hbit]
      simp only [hbit, if_true, Bool.or_eq_true] at hval
      rcases hval with hval | hval
      · exact hpos.beneath x hx hval
      · exact (Bool.and_eq_true_iff.1 (hu hval)).2

include hneg hpos hrest in
/-- The three parts of a cover make a cover. -/
lemma covers_combine (hv : v < n) (hmax : v < Cube.maxVariables) (hlt : v < top) (hS : S v) :
    (combine v negative positive rest).Covers lower upper top S where
  above x hx := combine_above hrest hv hx
  beneath x hx := combine_beneath hneg hpos hrest hv hx
  cubes x hx := by
    rw [value_combine hx, combine, List.any_append, List.any_append,
      any_withLiteral hmax hneg.mentions, any_withLiteral hmax hpos.mentions, ← hneg.cubes x hx,
      ← hpos.cubes x hx, ← hrest.cubes x hx]
    cases x.testBit v <;> simp
  mentions c hc := by
    rcases List.mem_append.1 hc with hc | hc
    · rcases List.mem_append.1 hc with hc | hc
      · exact mentions_withLiteral hlt hneg.mentions false c hc
      · exact mentions_withLiteral hlt hpos.mentions true c hc
    · exact fun w hw => (hrest.mentions c hc w hw).trans hlt
  length_le := by
    have hparts := weight_parts_le hv hneg.above hpos.above
    have hweight := weight_cofactors hv hlt lower
    have h₁ := hneg.length_le
    have h₂ := hpos.length_le
    have h₃ := hrest.length_le
    simp only [combine, List.length_append, List.length_map]
    omega
  depends := by
    have sub : ∀ w, S w ∧ w < v → S w := fun w h => h.1
    have hvar : (TruthTable.var n v).DependsOnly S := .var hS
    exact (((hneg.depends.mono sub).andNot hvar).or ((hpos.depends.mono sub).and hvar)).or
      (hrest.depends.mono sub)

end Combine

/-- What only the cofactor `b` of the upper bound can supply. -/
def share (lower upper : TruthTable n) (v : Nat) (b : Bool) : TruthTable n :=
  (lower.cofactor v b).andNot (upper.cofactor v !b)

/-- What the two parts leave to the rest. -/
def remainder (lower : TruthTable n) (v : Nat) (part : Bool → Cover n) : TruthTable n :=
  ((lower.cofactor v false).andNot (part false).table).or
    ((lower.cofactor v true).andNot (part true).table)

/-- What both cofactors allow. -/
def common (upper : TruthTable n) (v : Nat) : TruthTable n :=
  (upper.cofactor v false).and (upper.cofactor v true)

/-- How a cover between two bounds is put together: of no cubes, of the empty cube, or of the covers of
three parts, which are again put together like this, from variables below the one that is split on. -/
inductive Assembled : (S : Nat → Prop) → (lower upper : TruthTable n) → Cover n → Prop
  | zero {S : Nat → Prop} {lower upper : TruthTable n} (hzero : lower.isZero = true) :
      Assembled S lower upper ⟨[], .zero n⟩
  | one {S : Nat → Prop} {lower upper : TruthTable n} (hzero : ¬lower.isZero = true)
      (hone : upper.isOne = true) : Assembled S lower upper ⟨[.empty], .one n⟩
  | split {S : Nat → Prop} {lower upper : TruthTable n} {v : Nat} {part : Bool → Cover n}
      {rest : Cover n} (hv : v < n) (hS : S v)
      (covers : ∀ b, (part b).Covers (share lower upper v b) (upper.cofactor v b) v
        fun w => S w ∧ w < v)
      (coversRest : rest.Covers (remainder lower v part) (common upper v) v fun w => S w ∧ w < v)
      (parts : ∀ b, Assembled (fun w => S w ∧ w < v) (share lower upper v b) (upper.cofactor v b)
        (part b))
      (left : Assembled (fun w => S w ∧ w < v) (remainder lower v part) (common upper v) rest) :
      Assembled S lower upper (combine v (part false) (part true) rest)

/-! ## Covers below a variable -/

lemma covers_zero {S : Nat → Prop} (hzero : lower.isZero = true) :
    (⟨[], .zero n⟩ : Cover n).Covers lower upper top S where
  above x hx h := by
    rw [TruthTable.isZero_iff.1 hzero x hx] at h
    cases h
  beneath x _ h := by
    rw [TruthTable.value_zero] at h
    cases h
  cubes x _ := TruthTable.value_zero ..
  mentions := by simp
  length_le := Nat.zero_le _
  depends := .zero

lemma covers_one {S : Nat → Prop} (hone : upper.isOne = true) (hzero : ¬lower.isZero = true)
    (hlower : lower.DependsOnly (· < top)) :
    (⟨[.empty], .one n⟩ : Cover n).Covers lower upper top S where
  above x hx _ := TruthTable.value_one hx
  beneath x hx _ := TruthTable.isOne_iff.1 hone x hx
  cubes x hx := by
    rw [TruthTable.value_one hx]
    simp [Cube.value_empty]
  mentions := by simp [Cube.empty]
  length_le := weight_pos hzero hlower
  depends := .one

section Below

variable {S : Nat → Prop} (contained : ∀ x < 2 ^ n, lower.value x = true → upper.value x = true)
  (hlower : lower.DependsOnly fun v => S v ∧ v < top)
  (hupper : upper.DependsOnly fun v => S v ∧ v < top)

include contained hlower in
/-- Bounds that are no constants depend on a variable. -/
lemma exists_highest (hzero : ¬lower.isZero = true) (hone : ¬upper.isOne = true) :
    ∃ v, highest? (fun v => lower.hasVar v || upper.hasVar v) top = some v := by
  refine Option.ne_none_iff_exists'.1 fun hnone => ?_
  have hall := highest?_eq_none_iff.1 hnone
  have const : ∀ x y, x < 2 ^ n → y < 2 ^ n → lower.value x = lower.value y := fun x y hx hy =>
    TruthTable.value_congr hx hy fun v hv hdep => by
      rw [(Bool.or_eq_false_iff.1 (hall v (hlower.hasVar hv hdep).2)).1] at hdep
      cases hdep
  refine hzero (TruthTable.isZero_iff.2 fun x hx => Bool.eq_false_iff.2 fun hx1 => hone ?_)
  refine TruthTable.isOne_iff.2 fun y hy => contained y hy ?_
  rw [const y x hy hx, hx1]

/-- The cofactors of the highest variable depend only on variables below it. -/
lemma dependsOnly_cofactor {t : TruthTable n} {v : Nat} (hv : v < n)
    (ht : t.DependsOnly fun v => S v ∧ v < top)
    (hall : ∀ w, v < w → w < top → t.hasVar w = false) (b : Bool) :
    (t.cofactor v b).DependsOnly fun w => (S w ∧ w < v) ∧ w < v := by
  have upTo : t.DependsOnly fun w => S w ∧ w ≤ v := .of_hasVar fun w hw hdep => by
    obtain ⟨hSw, hwtop⟩ := ht.hasVar hw hdep
    refine ⟨hSw, Nat.not_lt.1 fun hlt => ?_⟩
    rw [hall w hlt hwtop] at hdep
    cases hdep
  exact (upTo.cofactor hv b).mono fun w ⟨⟨hSw, hle⟩, hne⟩ =>
    ⟨⟨hSw, lt_of_le_of_ne hle hne⟩, lt_of_le_of_ne hle hne⟩

include contained in
lemma contained_cofactor {v x : Nat} (hv : v < n) (hx : x < 2 ^ n) (b : Bool)
    (h : (lower.cofactor v b).value x = true) : (upper.cofactor v b).value x = true := by
  rw [TruthTable.value_cofactor hv hx] at h ⊢
  exact contained _ (setVar_lt hx hv) h

include contained in
/-- What the first two parts leave is contained in both upper cofactors. -/
lemma contained_rest {v x : Nat} {negative positive : Cover n} (hv : v < n) (hx : x < 2 ^ n)
    (hneg : ((lower.cofactor v false).andNot (upper.cofactor v true)).value x = true →
      negative.table.value x = true)
    (hpos : ((lower.cofactor v true).andNot (upper.cofactor v false)).value x = true →
      positive.table.value x = true)
    (h : (((lower.cofactor v false).andNot negative.table).or
      ((lower.cofactor v true).andNot positive.table)).value x = true) :
    ((upper.cofactor v false).and (upper.cofactor v true)).value x = true := by
  have h0 := contained_cofactor contained hv hx false
  have h1 := contained_cofactor contained hv hx true
  rw [TruthTable.value_or, TruthTable.value_andNot hx, TruthTable.value_andNot hx] at h
  rw [TruthTable.value_andNot hx] at hneg hpos
  rw [TruthTable.value_and]
  cases hu0 : (upper.cofactor v false).value x <;>
    cases hu1 : (upper.cofactor v true).value x <;> simp_all

end Below

/-- There is a cover between two bounds that depend on no variable from `top` on. -/
theorem exists_below (hn : n ≤ Cube.maxVariables) (htop : top ≤ n) {S : Nat → Prop}
    (contained : ∀ x < 2 ^ n, lower.value x = true → upper.value x = true)
    (hlower : lower.DependsOnly fun v => S v ∧ v < top)
    (hupper : upper.DependsOnly fun v => S v ∧ v < top) :
    ∃ cover, below top lower upper = .ok cover ∧ cover.Covers lower upper top S ∧
      Assembled S lower upper cover := by
  induction top using Nat.strong_induction_on generalizing lower upper S with
  | _ top ih =>
      rw [below]
      by_cases hzero : lower.isZero = true
      · exact ⟨_, by rw [if_pos hzero], covers_zero hzero, .zero hzero⟩
      rw [if_neg hzero]
      by_cases hone : upper.isOne = true
      · exact ⟨_, by rw [if_pos hone], covers_one hone hzero (hlower.mono fun v hv => hv.2),
          .one hzero hone⟩
      rw [if_neg hone]
      obtain ⟨⟨v, hvtop⟩, hv⟩ := exists_highest contained hlower hzero hone
      obtain ⟨hsome, hall⟩ := highest?_eq_some hv
      simp only [hv] at hsome hall ⊢
      have hvn : v < n := hvtop.trans_le htop
      have hS : S v := by
        rcases Bool.or_eq_true_iff.1 hsome with h | h
        · exact (hlower.hasVar hvn h).1
        · exact (hupper.hasVar hvn h).1
      have low := dependsOnly_cofactor hvn hlower fun w hw hwt =>
        (Bool.or_eq_false_iff.1 (hall w hw hwt)).1
      have upp := dependsOnly_cofactor hvn hupper fun w hw hwt =>
        (Bool.or_eq_false_iff.1 (hall w hw hwt)).2
      -- each part lies in its own interval
      have inside : ∀ b b', ∀ x < 2 ^ n,
          ((lower.cofactor v b).andNot (upper.cofactor v b')).value x = true →
            (upper.cofactor v b).value x = true := by
        intro b b' x hx h
        rw [TruthTable.value_andNot hx] at h
        exact contained_cofactor contained hvn hx b (Bool.and_eq_true_iff.1 h).1
      choose part runs covers assembled using fun b =>
        ih v hvtop hvn.le (inside b !b) ((low b).andNot (upp !b)) (upp b)
      have cneg := covers false
      have cpos := covers true
      have again : ∀ t : TruthTable n, t.DependsOnly (fun w => S w ∧ w < v) →
          t.DependsOnly fun w => (S w ∧ w < v) ∧ w < v := fun t ht => ht.mono fun w h => ⟨h, h.2⟩
      obtain ⟨rest, hrest, crest, left⟩ := ih v hvtop hvn.le
        (fun x hx => contained_rest contained hvn hx (cneg.above x hx) (cpos.above x hx))
        (((low false).andNot (again _ cneg.depends)).or ((low true).andNot (again _ cpos.depends)))
        ((upp false).and (upp true))
      refine ⟨combine v (part false) (part true) rest, ?_,
        covers_combine cneg cpos crest hvn (hvn.trans_le hn) hvtop hS,
        .split hvn hS covers crest assembled left⟩
      have hneg := runs false
      have hpos := runs true
      simp only [Bool.not_false, Bool.not_true] at hneg hpos
      rw [hneg, ok_bind, hpos, ok_bind, hrest]
      rfl

/-- There is a cover between two bounds of which the first is contained in the second, and it is put
together from covers of parts. -/
theorem exists_assembled (hn : n ≤ Cube.maxVariables) {S : Nat → Prop}
    (contained : ∀ x < 2 ^ n, lower.value x = true → upper.value x = true)
    (hlower : lower.DependsOnly S) (hupper : upper.DependsOnly S) :
    ∃ cover, between lower upper = .ok cover ∧ cover.Covers lower upper n S ∧
      Assembled S lower upper cover := by
  rw [between, if_pos (TruthTable.implies_iff.2 contained)]
  exact exists_below hn (le_refl n) contained
    (.of_hasVar fun v hv h => ⟨hlower.hasVar hv h, hv⟩)
    (.of_hasVar fun v hv h => ⟨hupper.hasVar hv h, hv⟩)

/-- There is a cover between two bounds of which the first is contained in the second. -/
theorem exists_between (hn : n ≤ Cube.maxVariables) {S : Nat → Prop}
    (contained : ∀ x < 2 ^ n, lower.value x = true → upper.value x = true)
    (hlower : lower.DependsOnly S) (hupper : upper.DependsOnly S) :
    ∃ cover, between lower upper = .ok cover ∧ cover.Covers lower upper n S := by
  obtain ⟨cover, hcover, covers, -⟩ := exists_assembled hn contained hlower hupper
  exact ⟨cover, hcover, covers⟩

end Cover

end Gatework
