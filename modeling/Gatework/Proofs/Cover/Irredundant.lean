import Gatework.Proofs.Cover

/-!
# Covers are irredundant and their cubes prime

What `Cover.between` finds lies in its interval, and no shorter sum of these cubes does.  Both are read
off the way a cover is put together (`Cover.Assembled`), by induction on it.

A cube of the part `b` is there for an assignment on which the other cofactor of the upper bound is
false (`Tight.own`): no cube of the rest covers it, because the rest holds only where both cofactors of
the upper bound do, and the cube cannot do without the literal of the variable that was split on.  What is
left for the rest is not covered by the part that the assignment belongs to.

**Main statements.**
* `Cover.between_lies_between`: the cubes add up to a function between the bounds, and mention only
  variables that a bound depends on.
* `Cover.between_irredundant`: every cube covers an assignment of the lower bound alone, and without any
  of its literals it is not contained in the upper bound.
-/

namespace Gatework

namespace Cube

variable {n : Nat} {c : Cube} {v w x : Nat}

lemma mem_literals {l : Nat × Bool} : l ∈ c.literals ↔
    (l.1 < maxVariables ∧ c.mask.testBit l.1 = true) ∧ c.polarity.testBit l.1 = l.2 := by
  obtain ⟨u, positive⟩ := l
  simp only [literals, List.mem_map, List.mem_filter, List.mem_range, Prod.mk.injEq]
  constructor
  · rintro ⟨u, hu, rfl, rfl⟩
    exact ⟨hu, rfl⟩
  · rintro ⟨hu, hpositive⟩
    exact ⟨u, hu, rfl, hpositive⟩

lemma value_literalTable (hx : x < 2 ^ n) (l : Nat × Bool) :
    (literalTable n l).value x = (x.testBit l.1 == l.2) := by
  rw [literalTable]
  split
  · rename_i hpositive
    simp [TruthTable.value_var hx, hpositive]
  · rename_i hpositive
    simp [TruthTable.value_not hx, TruthTable.value_var hx, hpositive]

/-- The table of a cube lists its values. -/
lemma value_toTable (hx : x < 2 ^ n) (c : Cube) : (c.toTable n).value x = c.value x := by
  suffices ∀ (ls : List (Nat × Bool)) (t : TruthTable n),
      (ls.foldl (fun t l => t.and (literalTable n l)) t).value x =
        (t.value x && ls.all fun l => x.testBit l.1 == l.2) by
    rw [toTable, this, TruthTable.value_one hx, Bool.true_and, value]
  intro ls
  induction ls with
  | nil => simp
  | cons l ls ih =>
      intro t
      rw [List.foldl_cons, ih, TruthTable.value_and, value_literalTable hx, List.all_cons,
        Bool.and_assoc]

/-- A cube does not see the variables that it does not mention. -/
lemma value_setVar (hnew : c.mask.testBit v = false) (b : Bool) :
    c.value (setVar x v b) = c.value x := by
  rw [Bool.eq_iff_iff, value_eq_true_iff, value_eq_true_iff]
  refine forall₃_congr fun w _ hmask => ?_
  have hne : w ≠ v := by
    rintro rfl
    rw [hnew] at hmask
    cases hmask
  rw [testBit_setVar, if_neg hne]

/-- The cube without its literal of variable `v`. -/
def without (c : Cube) (v : Nat) : Cube where
  mask := c.mask.ldiff (1 <<< v)
  polarity := c.polarity.ldiff (1 <<< v)

lemma testBit_ldiff_shift (m v w : Nat) :
    (m.ldiff (1 <<< v)).testBit w = (m.testBit w && decide (w ≠ v)) := by
  rw [Nat.testBit_ldiff, Nat.one_shiftLeft, Nat.testBit_two_pow]
  rcases eq_or_ne w v with rfl | hne
  · simp
  · simp [hne, hne.symm]

lemma value_without_iff : (c.without v).value x = true ↔
    ∀ w < maxVariables, w ≠ v → c.mask.testBit w = true → x.testBit w = c.polarity.testBit w := by
  rw [value_eq_true_iff]
  simp only [without, testBit_ldiff_shift, Bool.and_eq_true, decide_eq_true_eq]
  constructor
  · intro h w hw hne hmask
    rw [h w hw ⟨hmask, hne⟩]
    simp [hne]
  · rintro h w hw ⟨hmask, hne⟩
    rw [h w hw hne hmask]
    simp [hne]

/-- The new literal is taken away again. -/
lemma value_withLiteral_without (hnew : c.mask.testBit v = false) (b : Bool) :
    ((c.withLiteral v b).without v).value x = c.value x := by
  rw [Bool.eq_iff_iff, value_without_iff, value_eq_true_iff]
  simp only [testBit_mask_withLiteral, testBit_polarity_withLiteral, Bool.or_eq_true,
    decide_eq_true_eq]
  refine forall₂_congr fun w _ => ⟨fun h hmask => ?_, fun h hne hmask => ?_⟩
  · have hne : w ≠ v := by
      rintro rfl
      rw [hnew] at hmask
      cases hmask
    simpa [hne] using h hne (.inl hmask)
  · rw [if_neg hne]
    exact h (hmask.resolve_right hne)

/-- Another literal is taken away. -/
lemma value_withLiteral_without_ne (hx : x.testBit v = b) (h : (c.without w).value x = true) :
    ((c.withLiteral v b).without w).value x = true := by
  rw [value_without_iff] at h ⊢
  intro u hu hne hmask
  rw [testBit_mask_withLiteral, Bool.or_eq_true, decide_eq_true_eq] at hmask
  rw [testBit_polarity_withLiteral]
  split
  · rename_i huv
    rw [huv, hx]
  · rename_i huv
    exact h u hu hne (hmask.resolve_right huv)

end Cube

namespace Cover

variable {n v x : Nat} {S : Nat → Prop} {lower upper : TruthTable n} {cover rest : Cover n}
  {part : Bool → Cover n} {cubes : List Cube}

/-- The sum of cubes. -/
def sum (n : Nat) (cubes : List Cube) : TruthTable n :=
  cubes.foldl (fun t c => t.or (c.toTable n)) (.zero n)

lemma value_sum (hx : x < 2 ^ n) (cubes : List Cube) :
    (sum n cubes).value x = cubes.any (·.value x) := by
  suffices ∀ t : TruthTable n, (cubes.foldl (fun t c => t.or (c.toTable n)) t).value x =
      (t.value x || cubes.any (·.value x)) by
    rw [sum, this, TruthTable.value_zero, Bool.false_or]
  induction cubes with
  | nil => simp
  | cons c cubes ih =>
      intro t
      rw [List.foldl_cons, ih, TruthTable.value_or, Cube.value_toTable hx, List.any_cons,
        Bool.or_assoc]

/-- The cubes of a cover that hold on an assignment. -/
def covering (cover : Cover n) (x : Nat) : List Cube := cover.cubes.filter (·.value x)

lemma Covers.covering_eq_nil {top : Nat} (h : cover.Covers lower upper top S) (hx : x < 2 ^ n)
    (hvalue : cover.table.value x = false) : cover.covering x = [] := by
  rw [h.cubes x hx, List.any_eq_false] at hvalue
  exact List.filter_eq_nil_iff.2 hvalue

lemma Covers.not_mentioned (h : cover.Covers lower upper v S) :
    ∀ c ∈ cover.cubes, c.mask.testBit v = false := fun c hc =>
  Bool.eq_false_iff.2 fun hbit => lt_irrefl v (h.mentions c hc v hbit)

lemma mem_cubes_combine {c : Cube} : c ∈ (combine v (part false) (part true) rest).cubes ↔
    (∃ b, ∃ d ∈ (part b).cubes, d.withLiteral v b = c) ∨ c ∈ rest.cubes := by
  simp only [combine, List.mem_append, List.mem_map, Bool.exists_bool]

/-- Cubes with a new literal hold only where it does. -/
lemma filter_withLiteral (hmax : v < Cube.maxVariables)
    (hnew : ∀ c ∈ cubes, c.mask.testBit v = false) (b : Bool) :
    (cubes.map (·.withLiteral v b)).filter (·.value x) =
      if x.testBit v = b then (cubes.filter (·.value x)).map (·.withLiteral v b) else [] := by
  have hvalue : ∀ c ∈ cubes, (c.withLiteral v b).value x = ((x.testBit v == b) && c.value x) :=
    fun c hc => Cube.value_withLiteral hmax (hnew c hc) b
  rw [List.filter_map]
  split
  · rename_i hx
    refine congrArg (List.map _) (List.filter_congr fun c hc => ?_)
    simp [hvalue c hc, hx]
  · rename_i hx
    rw [List.map_eq_nil_iff, List.filter_eq_nil_iff]
    intro c hc
    simp [hvalue c hc, hx]

/-- Cubes that do not mention a variable hold whatever its value is. -/
lemma filter_setVar (hnew : ∀ c ∈ cubes, c.mask.testBit v = false) (b : Bool) :
    cubes.filter (·.value (setVar x v b)) = cubes.filter (·.value x) :=
  List.filter_congr fun c hc => Cube.value_setVar (hnew c hc) b

/-- The cubes are needed and short: each covers an assignment of the lower bound that no other one
covers, and it leaves the upper bound if one of its literals is taken away. -/
structure Tight (cover : Cover n) (lower upper : TruthTable n) : Prop where
  own : ∀ c ∈ cover.cubes, ∃ x < 2 ^ n, lower.value x = true ∧ cover.covering x = [c]
  prime : ∀ c ∈ cover.cubes, ∀ w, c.mask.testBit w = true →
    ∃ x < 2 ^ n, (c.without w).value x = true ∧ upper.value x = false

/-- A cube that is needed is not empty. -/
lemma Tight.exists_value {c : Cube} (h : cover.Tight lower upper) (hc : c ∈ cover.cubes) :
    ∃ x < 2 ^ n, lower.value x = true ∧ c.value x = true := by
  obtain ⟨x, hx, hlower, hcovering⟩ := h.own c hc
  have hmem : c ∈ cover.covering x := by simp [hcovering]
  exact ⟨x, hx, hlower, (List.mem_filter.1 hmem).2⟩

lemma tight_one (hzero : ¬lower.isZero = true) :
    (⟨[.empty], .one n⟩ : Cover n).Tight lower upper where
  own c hc := by
    obtain rfl := List.mem_singleton.1 hc
    rw [TruthTable.isZero_iff] at hzero
    push Not at hzero
    obtain ⟨x, hx, hlower⟩ := hzero
    exact ⟨x, hx, Bool.eq_true_of_not_eq_false hlower, by simp [covering, Cube.value_empty]⟩
  prime c hc w hw := by
    obtain rfl := List.mem_singleton.1 hc
    simp [Cube.empty] at hw

/-! ## Covers of three parts -/

section Split

variable (hv : v < n) (hmax : v < Cube.maxVariables)
  (covers : ∀ b, (part b).Covers (share lower upper v b) (upper.cofactor v b) v S)
  (coversRest : rest.Covers (remainder lower v part) (common upper v) v S)
  (tight : ∀ b, (part b).Tight (share lower upper v b) (upper.cofactor v b))
  (tightRest : rest.Tight (remainder lower v part) (common upper v))

include hmax covers coversRest in
/-- An assignment is covered by the part that it belongs to and by the rest. -/
lemma covering_combine (b : Bool) : (combine v (part false) (part true) rest).covering (setVar x v b) =
    ((part b).covering x).map (·.withLiteral v b) ++ rest.covering x := by
  rw [covering, combine, List.filter_append, List.filter_append,
    filter_withLiteral hmax (covers false).not_mentioned,
    filter_withLiteral hmax (covers true).not_mentioned,
    filter_setVar (covers false).not_mentioned, filter_setVar (covers true).not_mentioned,
    filter_setVar coversRest.not_mentioned]
  cases b <;> simp [covering]

include coversRest in
/-- The rest holds only where both cofactors of the upper bound do. -/
lemma upper_of_rest (hx : x < 2 ^ n) (h : rest.table.value x = true) (b : Bool) :
    (upper.cofactor v b).value x = true := by
  have both := coversRest.beneath x hx h
  rw [common, TruthTable.value_and, Bool.and_eq_true] at both
  cases b with
  | false => exact both.1
  | true => exact both.2

include hv hmax covers coversRest tight in
lemma own_of_part {b : Bool} {c : Cube} (hc : c ∈ (part b).cubes) :
    ∃ x < 2 ^ n, lower.value x = true ∧
      (combine v (part false) (part true) rest).covering x = [c.withLiteral v b] := by
  obtain ⟨y, hy, hlower, hcovering⟩ := (tight b).own c hc
  rw [share, TruthTable.value_andNot hy, Bool.and_eq_true, Bool.not_eq_true',
    TruthTable.value_cofactor hv hy] at hlower
  have hrest : rest.covering y = [] := by
    refine coversRest.covering_eq_nil hy (Bool.eq_false_iff.2 fun h => ?_)
    rw [upper_of_rest coversRest hy h] at hlower
    cases hlower.2
  refine ⟨setVar y v b, setVar_lt hy hv, hlower.1, ?_⟩
  rw [covering_combine hmax covers coversRest, hcovering, hrest]
  rfl

include hv hmax covers coversRest tightRest in
lemma own_of_rest {c : Cube} (hc : c ∈ rest.cubes) : ∃ x < 2 ^ n, lower.value x = true ∧
    (combine v (part false) (part true) rest).covering x = [c] := by
  obtain ⟨y, hy, hleft, hcovering⟩ := tightRest.own c hc
  -- the part that leaves the assignment to the rest
  obtain ⟨b, hlower, hpart⟩ : ∃ b, (lower.cofactor v b).value y = true ∧
      (part b).table.value y = false := by
    simpa [remainder, TruthTable.value_or, TruthTable.value_andNot hy] using hleft
  refine ⟨setVar y v b, setVar_lt hy hv, ?_, ?_⟩
  · rwa [TruthTable.value_cofactor hv hy] at hlower
  · rw [covering_combine hmax covers coversRest, (covers b).covering_eq_nil hy hpart, hcovering]
    rfl

include hv covers tight in
lemma prime_of_part {b : Bool} {c : Cube} (hc : c ∈ (part b).cubes) {w : Nat}
    (hw : (c.withLiteral v b).mask.testBit w = true) :
    ∃ x < 2 ^ n, ((c.withLiteral v b).without w).value x = true ∧ upper.value x = false := by
  have hnew := (covers b).not_mentioned c hc
  rw [Cube.testBit_mask_withLiteral, Bool.or_eq_true, decide_eq_true_eq] at hw
  by_cases hwv : w = v
  · -- without the new literal the cube reaches into the other cofactor
    subst hwv
    obtain ⟨y, hy, hlower, hvalue⟩ := (tight b).exists_value hc
    rw [share, TruthTable.value_andNot hy, Bool.and_eq_true, Bool.not_eq_true',
      TruthTable.value_cofactor (t := upper) hv hy] at hlower
    refine ⟨setVar y w !b, setVar_lt hy hv, ?_, hlower.2⟩
    rw [Cube.value_withLiteral_without hnew, Cube.value_setVar hnew, hvalue]
  · obtain ⟨y, hy, hvalue, hupper⟩ := (tight b).prime c hc w (hw.resolve_right hwv)
    have hnew' : (c.without w).mask.testBit v = false := by
      rw [Cube.without, Cube.testBit_ldiff_shift, hnew, Bool.false_and]
    refine ⟨setVar y v b, setVar_lt hy hv, ?_, ?_⟩
    · refine Cube.value_withLiteral_without_ne (by rw [testBit_setVar, if_pos rfl]) ?_
      rwa [Cube.value_setVar hnew']
    · rwa [TruthTable.value_cofactor hv hy] at hupper

include hv coversRest tightRest in
lemma prime_of_rest {c : Cube} (hc : c ∈ rest.cubes) {w : Nat} (hw : c.mask.testBit w = true) :
    ∃ x < 2 ^ n, (c.without w).value x = true ∧ upper.value x = false := by
  obtain ⟨y, hy, hvalue, hupper⟩ := tightRest.prime c hc w hw
  rw [common, TruthTable.value_and, Bool.and_eq_false_iff] at hupper
  obtain ⟨b, hupper⟩ : ∃ b, (upper.cofactor v b).value y = false := Bool.exists_bool.2 hupper
  have hnew : (c.without w).mask.testBit v = false := by
    rw [Cube.without, Cube.testBit_ldiff_shift, coversRest.not_mentioned c hc, Bool.false_and]
  refine ⟨setVar y v b, setVar_lt hy hv, ?_, ?_⟩
  · rwa [Cube.value_setVar hnew]
  · rwa [TruthTable.value_cofactor hv hy] at hupper

include hv hmax covers coversRest tight tightRest in
lemma tight_combine : (combine v (part false) (part true) rest).Tight lower upper where
  own c hc := by
    rcases mem_cubes_combine.1 hc with ⟨b, d, hd, rfl⟩ | hc
    · exact own_of_part hv hmax covers coversRest tight hd
    · exact own_of_rest hv hmax covers coversRest tightRest hc
  prime c hc w hw := by
    rcases mem_cubes_combine.1 hc with ⟨b, d, hd, rfl⟩ | hc
    · exact prime_of_part hv covers tight hd hw
    · exact prime_of_rest hv coversRest tightRest hc hw

end Split

namespace Assembled

/-- The cubes of a cover are needed and short. -/
theorem tight (h : Assembled S lower upper cover) (hn : n ≤ Cube.maxVariables) :
    cover.Tight lower upper := by
  induction h with
  | zero hzero => exact ⟨nofun, nofun⟩
  | one hzero hone => exact tight_one hzero
  | split hv hS covers coversRest parts left tight tightRest =>
      exact tight_combine hv (hv.trans_le hn) covers coversRest tight tightRest

/-- The cubes of a cover mention only variables of the set. -/
theorem mentions (h : Assembled S lower upper cover) :
    ∀ c ∈ cover.cubes, ∀ w, c.mask.testBit w = true → S w := by
  induction h with
  | zero hzero => exact nofun
  | one hzero hone => simp [Cube.empty]
  | split hv hS covers coversRest parts left mentionsPart mentionsRest =>
      intro c hc w hw
      rcases mem_cubes_combine.1 hc with ⟨b, d, hd, rfl⟩ | hc
      · rw [Cube.testBit_mask_withLiteral, Bool.or_eq_true, decide_eq_true_eq] at hw
        rcases hw with hw | rfl
        · exact (mentionsPart b d hd w hw).1
        · exact hS
      · exact (mentionsRest c hc w hw).1

end Assembled

/-! ## Covers between two bounds -/

/-- The cover between two bounds, with all that is known of it. -/
lemma exists_tight (hn : n ≤ maxTableVariables) (contained : lower.implies upper = true) :
    ∃ cover, between lower upper = .ok cover ∧
      (cover.Covers lower upper n fun v => v ∈ lower.support ∨ v ∈ upper.support) ∧
      (∀ c ∈ cover.cubes, ∀ v, c.mask.testBit v = true → v ∈ lower.support ∨ v ∈ upper.support) ∧
      cover.Tight lower upper := by
  have hmax : n ≤ Cube.maxVariables := hn.trans (by decide)
  obtain ⟨cover, hcover, covers, assembled⟩ := exists_assembled hmax
    (S := fun v => v ∈ lower.support ∨ v ∈ upper.support) (TruthTable.implies_iff.1 contained)
    (.of_hasVar fun v hv h => .inl (TruthTable.mem_support.2 ⟨hv, h⟩))
    (.of_hasVar fun v hv h => .inr (TruthTable.mem_support.2 ⟨hv, h⟩))
  exact ⟨cover, hcover, covers, assembled.mentions, assembled.tight hmax⟩

/-- A cover is found between any two bounds of which the first is contained in the second.  Its cubes
add up to its table, which lies between the bounds, and all their literals are variables that a bound
depends on. -/
theorem between_lies_between (hn : n ≤ maxTableVariables) (contained : lower.implies upper = true) :
    ∃ cover, between lower upper = .ok cover ∧ sum n cover.cubes = cover.table ∧
      lower.implies cover.table = true ∧ cover.table.implies upper = true ∧
      ∀ c ∈ cover.cubes, ∀ l ∈ c.literals, l.1 ∈ lower.support ∨ l.1 ∈ upper.support := by
  obtain ⟨cover, hcover, covers, mentions, -⟩ := exists_tight hn contained
  refine ⟨cover, hcover, TruthTable.ext_value fun x hx => ?_,
    TruthTable.implies_iff.2 covers.above, TruthTable.implies_iff.2 covers.beneath,
    fun c hc l hl => mentions c hc l.1 (Cube.mem_literals.1 hl).1.2⟩
  rw [value_sum hx, covers.cubes x hx]

/-- Exactly two of three variables hold. -/
def exactlyTwo : TruthTable 3 := .ofNat 3 0b01101000

/-- At least two of three variables hold. -/
def atLeastTwo : TruthTable 3 := .ofNat 3 0b11101000

/-- The assignment that may go either way makes three literals superfluous. -/
lemma between_exactlyTwo : between exactlyTwo atLeastTwo =
    .ok ⟨[⟨0b110, 0b110⟩, ⟨0b101, 0b101⟩, ⟨0b011, 0b011⟩], atLeastTwo⟩ := by cbv

/-- The sum of the three products of two variables lies between the two functions. -/
theorem between_lies_between_exactlyTwo : exactlyTwo.implies atLeastTwo = true ∧
    ∃ cover, between exactlyTwo atLeastTwo = .ok cover ∧
      cover.cubes = [⟨0b110, 0b110⟩, ⟨0b101, 0b101⟩, ⟨0b011, 0b011⟩] ∧
      sum 3 cover.cubes = cover.table ∧ exactlyTwo.implies cover.table = true ∧
      cover.table.implies atLeastTwo = true ∧
      ∀ c ∈ cover.cubes, ∀ l ∈ c.literals, l.1 ∈ exactlyTwo.support ∨ l.1 ∈ atLeastTwo.support := by
  have contained : exactlyTwo.implies atLeastTwo = true := by decide
  obtain ⟨cover, hcover, rest⟩ := between_lies_between (by decide) contained
  cases between_exactlyTwo.symm.trans hcover
  exact ⟨contained, _, hcover, rfl, rest⟩

/-- The cubes of a cover are needed and prime: each covers an assignment of the lower bound that no
other one covers, and without any of its literals it is not contained in the upper bound. -/
theorem between_irredundant (hn : n ≤ maxTableVariables) (contained : lower.implies upper = true) :
    ∃ cover, between lower upper = .ok cover ∧
      (∀ c ∈ cover.cubes, ∃ x < 2 ^ n, lower.value x = true ∧
        cover.cubes.filter (fun d => (d.toTable n).value x) = [c]) ∧
      ∀ c ∈ cover.cubes, ∀ l ∈ c.literals, ((c.without l.1).toTable n).implies upper = false := by
  obtain ⟨cover, hcover, -, -, tight⟩ := exists_tight hn contained
  refine ⟨cover, hcover, fun c hc => ?_, fun c hc l hl => Bool.eq_false_iff.2 fun himplies => ?_⟩
  · obtain ⟨x, hx, hlower, hcovering⟩ := tight.own c hc
    refine ⟨x, hx, hlower, ?_⟩
    rw [← hcovering, covering]
    exact List.filter_congr fun d _ => Cube.value_toTable hx d
  · obtain ⟨x, hx, hvalue, hupper⟩ := tight.prime c hc l.1 (Cube.mem_literals.1 hl).1.2
    rw [TruthTable.implies_iff.1 himplies x hx (by rw [Cube.value_toTable hx, hvalue])] at hupper
    cases hupper

/-- None of the three products can be left out, and none of their literals. -/
theorem between_irredundant_exactlyTwo : exactlyTwo.implies atLeastTwo = true ∧
    ∃ cover, between exactlyTwo atLeastTwo = .ok cover ∧
      cover.cubes = [⟨0b110, 0b110⟩, ⟨0b101, 0b101⟩, ⟨0b011, 0b011⟩] ∧
      (∀ c ∈ cover.cubes, ∃ x < 8, exactlyTwo.value x = true ∧
        cover.cubes.filter (fun d => (d.toTable 3).value x) = [c]) ∧
      ∀ c ∈ cover.cubes, ∀ l ∈ c.literals,
        ((c.without l.1).toTable 3).implies atLeastTwo = false := by
  have contained : exactlyTwo.implies atLeastTwo = true := by decide
  obtain ⟨cover, hcover, own, prime⟩ := between_irredundant (by decide) contained
  cases between_exactlyTwo.symm.trans hcover
  exact ⟨contained, _, hcover, rfl, own, prime⟩

end Cover

end Gatework
