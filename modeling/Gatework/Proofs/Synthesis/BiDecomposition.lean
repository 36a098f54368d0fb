import Mathlib.Data.List.Perm.Subperm
import Gatework.Synthesis.BiDecomposition
import Gatework.Proofs.Synthesis.SumOfProducts

/-!
# Bi-decomposition meets its requirement

A split along two sets of variables is possible if the requirement never asks for a value that both
parts would have to give and neither may.  `orSeparable_iff` says this about the test, and
`addParts_realizes` that any two parts that meet their own requirements make up for the whole.

Each part mentions fewer variables (`Narrower`), so the recursion ends in time:

* `decompose_realizes`: enough fuel is left as long as it exceeds the number of variables.
* `exists_synthesize`: synthesis gives a network with one output that meets its requirement.
-/

namespace Gatework

open Builder SumOfProducts

namespace Requirement

variable {n : Nat} {r r' : Requirement n}

/-- The variables of a requirement, in ascending order. -/
def vars (r : Requirement n) : List Nat :=
  TruthTable.variablesIn n (r.on.supportMask ||| r.off.supportMask)

lemma mem_vars {v : Nat} : v ∈ r.vars ↔ v < n ∧ r.Mentions v := by
  rw [vars, TruthTable.mem_variablesIn, Nat.testBit_or, Bool.or_eq_true]
  refine and_congr_right fun hv => ?_
  rw [TruthTable.testBit_supportMask hv, TruthTable.testBit_supportMask hv]
  rfl

/-- A requirement mentions only variables of another one, and not all of them. -/
structure Narrower (r' r : Requirement n) : Prop where
  mentions : ∀ v < n, r'.Mentions v → r.Mentions v
  fewer : ∃ v < n, r.Mentions v ∧ ¬r'.Mentions v

lemma Narrower.length_vars (h : Narrower r' r) : r'.vars.length < r.vars.length := by
  obtain ⟨v, hv, hr, hr'⟩ := h.fewer
  have hmem : v ∈ r.vars := mem_vars.2 ⟨hv, hr⟩
  have hsub : r'.vars ⊆ r.vars.erase v := by
    intro w hw
    obtain ⟨hw, hmentions⟩ := mem_vars.1 hw
    refine (List.mem_erase_of_ne ?_).2 (mem_vars.2 ⟨hw, h.mentions w hw hmentions⟩)
    rintro rfl
    exact hr' hmentions
  have hnodup : r'.vars.Nodup := List.nodup_range.filter _
  have hle := (hnodup.subperm hsub).length_le
  rw [List.length_erase_of_mem hmem] at hle
  have := List.length_pos_of_mem hmem
  omega

end Requirement

namespace BiDecomposition

variable {n : Nat} {r : Requirement n} {join : Join}

/-! ## Splits -/

/-- A split is possible, and each part has a variable of its own. -/
structure Split.Sound (s : Split) (r : Requirement n) (vars : List Nat) : Prop where
  separable : separable s.join r s.left s.right = true
  left : ∃ v ∈ vars, s.left.testBit v = true
  right : ∃ v ∈ vars, s.right.testBit v = true

/-- Enlarging keeps a split possible and takes no variable away. -/
lemma enlarge_sound {s : Nat × Nat} (h : separable join r s.1 s.2 = true) (v : Nat) :
    separable join r (enlarge join r s v).1 (enlarge join r s v).2 = true ∧
      (∀ w, s.1.testBit w = true → (enlarge join r s v).1.testBit w = true) ∧
      ∀ w, s.2.testBit w = true → (enlarge join r s v).2.testBit w = true := by
  have more : ∀ mask w : Nat, mask.testBit w = true → (mask ||| 1 <<< v).testBit w = true := by
    intro mask w hw
    rw [Nat.testBit_or, hw, Bool.true_or]
  unfold enlarge
  dsimp only
  split
  · exact ⟨h, fun _ => id, fun _ => id⟩
  · split
    · rename_i hleft
      exact ⟨hleft, more s.1, fun _ => id⟩
    · split
      · rename_i hright
        exact ⟨hright, fun _ => id, more s.2⟩
      · exact ⟨h, fun _ => id, fun _ => id⟩

lemma foldl_enlarge_sound (vars : List Nat) {s : Nat × Nat} (h : separable join r s.1 s.2 = true) :
    separable join r (vars.foldl (enlarge join r) s).1 (vars.foldl (enlarge join r) s).2 = true ∧
      (∀ w, s.1.testBit w = true → (vars.foldl (enlarge join r) s).1.testBit w = true) ∧
      ∀ w, s.2.testBit w = true → (vars.foldl (enlarge join r) s).2.testBit w = true := by
  induction vars generalizing s with
  | nil => exact ⟨h, fun _ => id, fun _ => id⟩
  | cons v vars ih =>
      obtain ⟨h', hleft, hright⟩ := enlarge_sound h v
      obtain ⟨h'', hleft', hright'⟩ := ih h'
      exact ⟨h'', fun w hw => hleft' w (hleft w hw), fun w hw => hright' w (hright w hw)⟩

lemma grow?_sound {vars : List Nat} {pair : Nat × Nat} {s : Split} (h₁ : pair.1 ∈ vars)
    (h₂ : pair.2 ∈ vars) (h : grow? join r vars pair = some s) : s.Sound r vars := by
  unfold grow? at h
  dsimp only at h
  split at h
  · rename_i hstart
    obtain ⟨hsep, hleft, hright⟩ := foldl_enlarge_sound (s := (1 <<< pair.1, 1 <<< pair.2)) vars hstart
    cases h
    refine ⟨hsep, ⟨pair.1, h₁, hleft _ ?_⟩, ⟨pair.2, h₂, hright _ ?_⟩⟩
    · simp [Nat.one_shiftLeft]
    · simp [Nat.one_shiftLeft]
  · cases h

lemma mem_pairs {vars : List Nat} {pair : Nat × Nat} (h : pair ∈ pairs vars) :
    pair.1 ∈ vars ∧ pair.2 ∈ vars := by
  induction vars with
  | nil => cases h
  | cons v vars ih =>
      rcases List.mem_append.1 h with h | h
      · obtain ⟨w, hw, rfl⟩ := List.mem_map.1 h
        exact ⟨by simp, by simp [hw]⟩
      · exact ⟨by simp [(ih h).1], by simp [(ih h).2]⟩

lemma mem_of_foldl_widest {splits : List Split} {best : Option Split} {s : Split}
    (h : splits.foldl (fun best s =>
      match best with
      | none => some s
      | some b => if b.score n < s.score n then some s else some b) best = some s) :
    best = some s ∨ s ∈ splits := by
  induction splits generalizing best with
  | nil => exact .inl h
  | cons t splits ih =>
      rcases ih h with h | h
      · dsimp only at h
        split at h
        · cases h
          exact .inr (by simp)
        · split at h
          · cases h
            exact .inr (by simp)
          · exact .inl h
      · exact .inr (by simp [h])

lemma mem_of_widest? {splits : List Split} {s : Split} (h : widest? n splits = some s) : s ∈ splits :=
  (mem_of_foldl_widest h).resolve_left (by simp)

lemma anySplit?_sound {vars : List Nat} {s : Split} (h : anySplit? r vars = some s) :
    s.Sound r vars := by
  obtain ⟨join, -, hbest⟩ := List.mem_filterMap.1 (mem_of_widest? h)
  obtain ⟨pair, hpair, hgrow⟩ := List.mem_filterMap.1 (mem_of_widest? hbest)
  exact grow?_sound (mem_pairs hpair).1 (mem_pairs hpair).2 hgrow

/-- The test for a disjunction: no assignment is asked for that the two parts must both leave out. -/
lemma orSeparable_iff {left right : Nat} : orSeparable r left right = true ↔
    ∀ x < 2 ^ n, r.on.value x = true → (r.off.quantifyAll right).value x = true →
      (r.off.quantifyAll left).value x = true → False := by
  rw [orSeparable, TruthTable.isZero_iff]
  refine forall₂_congr fun x _ => ?_
  rw [TruthTable.value_and, TruthTable.value_and]
  cases r.on.value x <;> cases (r.off.quantifyAll right).value x <;>
    cases (r.off.quantifyAll left).value x <;> simp

/-! ## Parts -/

section Parts

variable {left right : Nat} {g : TruthTable n}

/-- The requirement of the first part of a disjunction. -/
def firstPart (r : Requirement n) (left right : Nat) : Requirement n :=
  ⟨(r.on.and (r.off.quantifyAll left)).quantifyAll right, r.off.quantifyAll right⟩

/-- The requirement of the second part, where the first part is `g`. -/
def secondPart (r : Requirement n) (left : Nat) (g : TruthTable n) : Requirement n :=
  ⟨(r.on.andNot g).quantifyAll left, r.off.quantifyAll left⟩

lemma le_quantifyAll {t : TruthTable n} {x : Nat} (hx : x < 2 ^ n) (mask : Nat)
    (h : t.value x = true) : (t.quantifyAll mask).value x = true :=
  (TruthTable.value_quantifyAll hx).2 ⟨x, hx, fun _ _ _ => rfl, h⟩

/-- A quantified function is the same at assignments that differ in the quantified variables only. -/
lemma quantifyAll_congr {t : TruthTable n} {mask x y : Nat} (hx : x < 2 ^ n) (hy : y < 2 ^ n)
    (same : TruthTable.SameOutside n mask x y) (h : (t.quantifyAll mask).value x = true) :
    (t.quantifyAll mask).value y = true := by
  obtain ⟨z, hz, hsame, h⟩ := (TruthTable.value_quantifyAll hx).1 h
  exact (TruthTable.value_quantifyAll hy).2 ⟨z, hz, same.symm.trans hsame, h⟩

lemma consistent_firstPart (hsep : orSeparable r left right = true) :
    (firstPart r left right).Consistent := by
  intro x hx hon hoff
  obtain ⟨y, hy, same, h⟩ := (TruthTable.value_quantifyAll hx).1 hon
  rw [TruthTable.value_and, Bool.and_eq_true] at h
  exact orSeparable_iff.1 hsep y hy h.1 (quantifyAll_congr hx hy same hoff) h.2

lemma consistent_secondPart (hg : (firstPart r left right).Meets g) :
    (secondPart r left g).Consistent := by
  intro x hx hon hoff
  obtain ⟨y, hy, same, h⟩ := (TruthTable.value_quantifyAll hx).1 hon
  rw [TruthTable.value_andNot hy, Bool.and_eq_true] at h
  have hoff := quantifyAll_congr hx hy same hoff
  have := hg.on y hy (le_quantifyAll hy right (by rw [TruthTable.value_and, h.1, hoff]; rfl))
  rw [this] at h
  cases h.2

/-- Two functions that meet the requirements of the parts make up for the whole. -/
lemma meets_or {h : TruthTable n} (hg : (firstPart r left right).Meets g)
    (hh : (secondPart r left g).Meets h) : r.Meets (g.or h) where
  on x hx hon := by
    rw [TruthTable.value_or]
    cases hgx : g.value x with
    | true => rfl
    | false =>
        rw [Bool.false_or]
        exact hh.on x hx (le_quantifyAll hx left (by
          rw [TruthTable.value_andNot hx, hon, hgx]
          rfl))
  off x hx hoff := by
    rw [TruthTable.value_or, hg.off x hx (le_quantifyAll hx right hoff),
      hh.off x hx (le_quantifyAll hx left hoff)]
    rfl

lemma on_dependsOnly : r.on.DependsOnly r.Mentions := .of_hasVar fun _ _ h => .inl h

lemma off_dependsOnly : r.off.DependsOnly r.Mentions := .of_hasVar fun _ _ h => .inr h

/-- A requirement whose sides do not depend on a variable of another one. -/
lemma narrower_of {r' : Requirement n} {mask v : Nat} (hv : v < n) (hmentions : r.Mentions v)
    (hmask : mask.testBit v = true)
    (hon : r'.on.DependsOnly fun v => r.Mentions v ∧ mask.testBit v = false)
    (hoff : r'.off.DependsOnly fun v => r.Mentions v ∧ mask.testBit v = false) :
    r'.Narrower r := by
  have both : ∀ w < n, r'.Mentions w → r.Mentions w ∧ mask.testBit w = false :=
    fun w hw h => h.elim (hon.hasVar hw) (hoff.hasVar hw)
  refine ⟨fun w hw h => (both w hw h).1, v, hv, hmentions, fun h => ?_⟩
  rw [(both v hv h).2] at hmask
  cases hmask

lemma narrower_firstPart {v : Nat} (hv : v ∈ r.vars) (hright : right.testBit v = true) :
    (firstPart r left right).Narrower r := by
  obtain ⟨hv, hmentions⟩ := Requirement.mem_vars.1 hv
  have hleft : (r.off.quantifyAll left).DependsOnly r.Mentions :=
    (off_dependsOnly.quantifyAll left).mono fun v h => h.1
  exact narrower_of hv hmentions hright ((on_dependsOnly.and hleft).quantifyAll right)
    (off_dependsOnly.quantifyAll right)

lemma narrower_secondPart {v : Nat} (hv : v ∈ r.vars) (hleft : left.testBit v = true)
    (hg : g.DependsOnly r.Mentions) : (secondPart r left g).Narrower r := by
  obtain ⟨hv, hmentions⟩ := Requirement.mem_vars.1 hv
  exact narrower_of hv hmentions hleft ((on_dependsOnly.andNot hg).quantifyAll left)
    (off_dependsOnly.quantifyAll left)

lemma narrower_exact {mask v : Nat} (hv : v ∈ r.vars) (hmask : mask.testBit v = true)
    (hg : g.DependsOnly fun v => r.Mentions v ∧ mask.testBit v = false) :
    Requirement.Narrower (Requirement.of g none) r := by
  obtain ⟨hv, hmentions⟩ := Requirement.mem_vars.1 hv
  exact narrower_of hv hmentions hmask hg hg.not

end Parts

/-! ## Construction -/

variable {store : Store} {m : Meaning} {b : Builder} {inputs : Array Link} {arity : Nat}

/-- A requirement is built as a link that shows a table, which meets the requirement and depends on
no other variables. -/
def Builds (store : Store) (m : Meaning) (inputs : Array Link)
    (build : Requirement n → Build (Realized n)) (r : Requirement n) : Prop :=
  ∀ b, WellFormed b → ShowsInputs b m n inputs → ∃ x b', build r b = .ok (x, b') ∧
    Step store b b' ∧ Realizes b' m r x.link x.table ∧ x.table.DependsOnly r.Mentions

/-- A function that is required everywhere is built as it is. -/
lemma Builds.exact {build : Requirement n → Build (Realized n)} {g : TruthTable n}
    (hbuild : Builds store m inputs build (Requirement.of g none)) (h : WellFormed b)
    (hinputs : ShowsInputs b m n inputs) : ∃ l b', build (Requirement.of g none) b = .ok (⟨l, g⟩, b') ∧
      Step store b b' ∧ b'.Shows m l fun σ => g.value (encode n σ) := by
  obtain ⟨⟨l, t⟩, b', hrun, step, realizes, -⟩ := hbuild b h hinputs
  obtain rfl : t = g := realizes.meets.eq
  exact ⟨l, b', hrun, step, realizes.shows⟩

/-- The two parts of a disjunction. -/
lemma addParts_realizes {build : Requirement n → Build (Realized n)}
    (hbuild : ∀ r', r'.Consistent → r'.Narrower r → Builds store m inputs build r')
    {left right : Nat} (hsep : orSeparable r left right = true)
    (hleft : ∃ v ∈ r.vars, left.testBit v = true) (hright : ∃ v ∈ r.vars, right.testBit v = true)
    (h : WellFormed b) (hinputs : ShowsInputs b m n inputs) :
    ∃ x y b', addParts build r left right b = .ok ((x, y), b') ∧ Step store b b' ∧
      (b'.Shows m x.link fun σ => x.table.value (encode n σ)) ∧
      (b'.Shows m y.link fun σ => y.table.value (encode n σ)) ∧ r.Meets (x.table.or y.table) ∧
      (x.table.or y.table).DependsOnly r.Mentions := by
  obtain ⟨v, hv, hvleft⟩ := hleft
  obtain ⟨w, hw, hwright⟩ := hright
  have narrower := (narrower_firstPart hw hwright : (firstPart r left right).Narrower r)
  have depends : ∀ {r' : Requirement n} {t : TruthTable n}, r'.Narrower r →
      t.DependsOnly r'.Mentions → t.DependsOnly r.Mentions := fun hr ht =>
    .of_hasVar fun v hv hdep => hr.mentions v hv (ht.hasVar hv hdep)
  obtain ⟨x, b₁, hrun, step, hx, hxdep⟩ := hbuild _ (consistent_firstPart hsep) narrower b h hinputs
  have narrower' := narrower_secondPart hv hvleft (depends narrower hxdep)
  obtain ⟨y, b₂, hrun', step', hy, hydep⟩ := hbuild _ (consistent_secondPart hx.meets) narrower' b₁
    step.wellFormed (ShowsAll.grown hinputs h step.grown)
  refine ⟨x, y, b₂, ?_, step.trans step', hx.shows.grown step.wellFormed step'.grown, hy.shows,
    meets_or hx.meets hy.meets, (depends narrower hxdep).or (depends narrower' hydep)⟩
  exact build_bind_eq_ok_iff.2 ⟨x, b₁, hrun, build_bind_eq_ok_iff.2 ⟨y, b₂, hrun', rfl⟩⟩

/-- A requirement that is built as a sum of products. -/
lemma addCover_realizes (store : Store) (m : Meaning) (inputs : Array Link)
    (hn : n ≤ Cube.maxVariables) (harity : arity ≤ maxArity ∨ 2 ^ n ≤ maxArity + 1) (hr : r.Consistent)
    (hoff : ¬r.off.isZero = true) : Builds store m inputs (addCover inputs arity) r := by
  intro b h hinputs
  obtain ⟨cover, hcover, meets, covers⟩ := exists_cover hn hr
  have few := length_cover_lt hn hr hoff hcover
  obtain ⟨l, b', hrun, step, shows⟩ := addCubes_shows store h hinputs
    (harity.imp_right fun hle => Nat.lt_succ_iff.1 (few.trans_le hle)) covers.mentions
  refine ⟨⟨l, cover.table⟩, b', ?_, step, ⟨shows.congr fun σ => ?_, meets⟩, covers.depends⟩
  · unfold addCover
    rw [hcover]
    exact build_bind_eq_ok_iff.2 ⟨cover, b, rfl, build_bind_eq_ok_iff.2 ⟨l, b', hrun, rfl⟩⟩
  · rw [covers.cubes _ (encode_lt n σ)]

/-- A gate with two operands. -/
lemma addPair_shows (store : Store) (h : WellFormed b) {g : Gate}
    (hg : g.traits.regroupable = true) {k l : Link} {f f' : (Nat → Bool) → Bool}
    (hk : b.Shows m k f) (hl : b.Shows m l f') :
    ∃ x b', addCell (.gate g) [k, l] b = .ok (x, b') ∧ Step store b b' ∧
      b'.Shows m x fun σ => g.value [f σ, f' σ] := by
  obtain ⟨hin, hout, harity⟩ := Gate.arity_of_regroupable hg
  have hlinks : b.ShowsAll m [k, l] [f, f'] := .cons hk (.cons hl .nil)
  exact addCell_shows store h hin hout hlinks (harity ▸ ⟨Nat.le_refl 2, (by decide : 2 ≤ maxArity)⟩)

/-! The cases of the decomposition, whatever way there is to build the parts. -/

section Cases

lemma builds_zero (store : Store) (m : Meaning) (inputs : Array Link) (hon : r.on.isZero = true) :
    Builds store m inputs (fun _ => do return ⟨← addConst false, .zero n⟩) r := by
  intro b h hinputs
  obtain ⟨l, b', hrun, step, shows⟩ := addConst_shows store (m := m) h false
  refine ⟨⟨l, .zero n⟩, b', build_bind_eq_ok_iff.2 ⟨l, b', hrun, rfl⟩, step,
    ⟨shows.congr fun σ => (TruthTable.value_zero ..).symm, fun x hx hx1 => ?_,
      fun x _ _ => TruthTable.value_zero ..⟩, .zero⟩
  rw [TruthTable.isZero_iff.1 hon x hx] at hx1
  cases hx1

lemma builds_one (store : Store) (m : Meaning) (inputs : Array Link) (hoff : r.off.isZero = true) :
    Builds store m inputs (fun _ => do return ⟨← addConst true, .one n⟩) r := by
  intro b h hinputs
  obtain ⟨l, b', hrun, step, shows⟩ := addConst_shows store (m := m) h true
  refine ⟨⟨l, .one n⟩, b', build_bind_eq_ok_iff.2 ⟨l, b', hrun, rfl⟩, step,
    ⟨shows.congr fun σ => (TruthTable.value_one (encode_lt n σ)).symm,
      fun x hx _ => TruthTable.value_one hx, fun x hx hx1 => ?_⟩, .one⟩
  rw [TruthTable.isZero_iff.1 hoff x hx] at hx1
  cases hx1

variable {build : Requirement n → Build (Realized n)} {left right : Nat}
  (hbuild : ∀ r', r'.Consistent → r'.Narrower r → Builds store m inputs build r')

include hbuild

lemma builds_or (sound : (⟨.or, left, right⟩ : Split).Sound r r.vars) :
    Builds store m inputs (fun r => do
      let (g, h) ← addParts build r left right
      return ⟨← addCell (.gate .or) [g.link, h.link], g.table.or h.table⟩) r := by
  intro b h hinputs
  obtain ⟨hsep, hleft, hright⟩ := sound
  obtain ⟨x, y, b₁, hrun, step, hx, hy, meets, depends⟩ :=
    addParts_realizes hbuild hsep hleft hright h hinputs
  obtain ⟨l, b₂, hrun', step', hl⟩ := addPair_shows store step.wellFormed (g := .or) rfl hx hy
  refine ⟨⟨l, x.table.or y.table⟩, b₂, ?_, step.trans step', ⟨hl.congr fun σ => ?_, meets⟩, depends⟩
  · exact build_bind_eq_ok_iff.2 ⟨(x, y), b₁, hrun, build_bind_eq_ok_iff.2 ⟨l, b₂, hrun', rfl⟩⟩
  · simp [Gate.value, TruthTable.value_or]

/-- The complement is split as a disjunction. -/
lemma builds_and (sound : (⟨.and, left, right⟩ : Split).Sound r r.vars) :
    Builds store m inputs (fun r => do
      let (g, h) ← addParts build (complement r) left right
      return ⟨← addCell (.gate .and) [g.link.invert, h.link.invert],
        (g.table.or h.table).not⟩) r := by
  intro b h hinputs
  obtain ⟨hsep, hleft, hright⟩ := sound
  have hvars : (complement r).vars = r.vars := by
    rw [Requirement.vars, complement, Nat.lor_comm]
    rfl
  have mentions : ∀ v, (complement r).Mentions v ↔ r.Mentions v := fun v => or_comm
  have hbuild' : ∀ r', r'.Consistent → r'.Narrower (complement r) →
      Builds store m inputs build r' := by
    refine fun r' hr' narrower => hbuild r' hr' ⟨fun v hv hm => ?_, ?_⟩
    · exact (mentions v).1 (narrower.mentions v hv hm)
    · obtain ⟨v, hv, hm, hno⟩ := narrower.fewer
      exact ⟨v, hv, (mentions v).1 hm, hno⟩
  obtain ⟨x, y, b₁, hrun, step, hx, hy, meets, depends⟩ :=
    addParts_realizes hbuild' hsep (hvars ▸ hleft) (hvars ▸ hright) h hinputs
  obtain ⟨l, b₂, hrun', step', hl⟩ := addPair_shows store step.wellFormed (g := .and) rfl
    (hx.invertIf true) (hy.invertIf true)
  refine ⟨⟨l, (x.table.or y.table).not⟩, b₂, ?_, step.trans step',
    ⟨hl.congr fun σ => ?_, fun z hz h => ?_, fun z hz h => ?_⟩, ?_⟩
  · exact build_bind_eq_ok_iff.2 ⟨(x, y), b₁, hrun, build_bind_eq_ok_iff.2 ⟨l, b₂, hrun', rfl⟩⟩
  · simp [Gate.value, TruthTable.value_or, TruthTable.value_not (encode_lt n σ)]
  · rw [TruthTable.value_not hz, meets.off z hz h]
    rfl
  · rw [TruthTable.value_not hz, meets.on z hz h]
    rfl
  · exact (depends.mono fun v hv => (mentions v).1 hv).not

/-- The parts of an exclusive disjunction are required everywhere. -/
lemma builds_xor (hr : r.Consistent) (sound : (⟨.xor, left, right⟩ : Split).Sound r r.vars) :
    Builds store m inputs (fun r => do
      let (g, h) := xorParts r.on left right
      let g ← build ⟨g, g.not⟩
      let h ← build ⟨h, h.not⟩
      return ⟨← addCell (.gate .xor) [g.link, h.link], g.table.xor h.table⟩) r := by
  intro b h hinputs
  obtain ⟨hsep, ⟨v, hv, hvleft⟩, ⟨w, hw, hwright⟩⟩ := sound
  have hparts : (xorParts r.on left right).1.xor (xorParts r.on left right).2 = r.on :=
    beq_iff_eq.1 hsep
  have hcleared := on_dependsOnly.clearAll (t := r.on) left
  have narrower := narrower_exact hw hwright (on_dependsOnly.clearAll (t := r.on) right)
  have narrower' : Requirement.Narrower (.of (xorParts r.on left right).2 none) r :=
    narrower_exact hv hvleft (hcleared.xor ((hcleared.clearAll right).mono fun v hv => hv.1))
  obtain ⟨k, b₁, hrun₁, step₁, hk⟩ :=
    (hbuild _ (Requirement.consistent_of _ none) narrower).exact h hinputs
  obtain ⟨l, b₂, hrun₂, step₂, hl⟩ := (hbuild _ (Requirement.consistent_of _ none) narrower').exact
    step₁.wellFormed (ShowsAll.grown hinputs h step₁.grown)
  obtain ⟨x, b₃, hrun₃, step₃, hx⟩ := addPair_shows store step₂.wellFormed (g := .xor) rfl
    (hk.grown step₁.wellFormed step₂.grown) hl
  refine ⟨⟨x, r.on⟩, b₃, ?_, (step₁.trans step₂).trans step₃,
    ⟨hx.congr fun σ => ?_, fun z _ h => h, fun z hz hoff => ?_⟩, on_dependsOnly⟩
  · refine build_bind_eq_ok_iff.2 ⟨_, b₁, hrun₁, build_bind_eq_ok_iff.2 ⟨_, b₂, hrun₂,
      build_bind_eq_ok_iff.2 ⟨x, b₃, hrun₃, ?_⟩⟩⟩
    exact congrArg (fun t => Except.ok (Realized.mk x t, b₃)) hparts
  · conv_rhs => rw [← hparts, TruthTable.value_xor]
    simp [Gate.value]
    rfl
  · cases hon : r.on.value z with
    | false => rfl
    | true => exact (hr z hz hon hoff).elim

end Cases

/-- Enough fuel is left as long as it exceeds the number of variables. -/
theorem decompose_realizes (store : Store) (m : Meaning) (inputs : Array Link)
    (hn : n ≤ Cube.maxVariables) (harity : arity ≤ maxArity ∨ 2 ^ n ≤ maxArity + 1) (fuel : Nat)
    (hr : r.Consistent) (hfuel : r.vars.length < fuel) :
    Builds store m inputs (decompose inputs arity fuel) r := by
  induction fuel generalizing r with
  | zero => exact absurd hfuel (Nat.not_lt_zero _)
  | succ fuel ih =>
      intro b h hinputs
      have hbuild : ∀ r', r'.Consistent → r'.Narrower r →
          Builds store m inputs (decompose inputs arity fuel) r' := fun r' hr' narrower =>
        ih hr' (narrower.length_vars.trans_le (Nat.lt_succ_iff.1 hfuel))
      unfold decompose
      by_cases hon : r.on.isZero = true
      · rw [if_pos hon]
        exact builds_zero store m inputs hon b h hinputs
      by_cases hoff : r.off.isZero = true
      · rw [if_neg hon, if_pos hoff]
        exact builds_one store m inputs hoff b h hinputs
      rw [if_neg hon, if_neg hoff]
      have hvars : TruthTable.variablesIn n (r.on.supportMask ||| r.off.supportMask) = r.vars := rfl
      simp only [hvars]
      generalize hsplit : (if r.vars.length ≤ 1 then none else anySplit? r r.vars) = choice
      have sound : ∀ s, choice = some s → s.Sound r r.vars := by
        rintro s rfl
        split at hsplit
        · cases hsplit
        · exact anySplit?_sound hsplit
      rcases choice with _ | ⟨_ | _ | _, left, right⟩
      · exact addCover_realizes store m inputs hn harity hr hoff b h hinputs
      · exact builds_or hbuild (sound _ rfl) b h hinputs
      · exact builds_and hbuild (sound _ rfl) b h hinputs
      · exact builds_xor hbuild hr (sound _ rfl) b h hinputs

/-- Synthesis gives a network that meets the requirement. -/
theorem exists_synthesize (store : Store) (m : Meaning) (hn : n ≤ Cube.maxVariables)
    (harity : arity ≤ maxArity ∨ 2 ^ n ≤ maxArity + 1) (hr : r.Consistent) :
    ∃ net f, synthesize r arity = .ok net ∧ r.Meets f ∧ net.numInputs = n ∧ net.numOutputs = 1 ∧
      (∀ σ, net.outputValues m σ = [f.value (encode n σ)]) ∧ ∀ c ∈ net.cells, store.Regular True c := by
  have hfuel : r.vars.length < n + 1 := by
    refine Nat.lt_succ_of_le ((List.length_filter_le ..).trans ?_)
    rw [List.length_range]
  obtain ⟨net, _, hnet, hin, hout, hvalues, ⟨f, rfl, meets⟩, hregular⟩ := @exists_toSubnet store n
    .simplifying m (fun links => Realized.link <$> decompose links.toArray arity (n + 1) r)
    (fun F => ∃ f : TruthTable n, F = (fun σ => f.value (encode n σ)) ∧ r.Meets f) (by
      intro links b h hlinks
      obtain ⟨x, b', hrun, step, realizes, -⟩ := decompose_realizes store m links.toArray hn harity
        (n + 1) hr hfuel b h hlinks
      refine ⟨x.link, b', _, ?_, step, realizes.shows, x.table, rfl, realizes.meets⟩
      show (decompose links.toArray arity (n + 1) r b >>= fun p => .ok (p.1.link, p.2)) = _
      rw [hrun]
      rfl)
  refine ⟨net, f, ?_, meets, hin, hout, hvalues, hregular⟩
  rw [← hnet, synthesize]
  simp only [map_eq_pure_bind, bind_assoc, pure_bind]

end BiDecomposition

end Gatework
