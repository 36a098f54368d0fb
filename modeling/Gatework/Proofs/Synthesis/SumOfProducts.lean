import Gatework.Synthesis.SumOfProducts
import Gatework.Proofs.Builder.Finish
import Gatework.Proofs.Cover

/-!
# Two-level synthesis meets its requirement

A cover is built cube by cube, each as a tree of literals, and then joined.  The network computes the
table of the cover, which lies between the two sides of the requirement.

* `Requirement.Meets`: a function is true where it must be and false where it must be.
* `addCubes_shows`: a sum of cubes shows the sum of their values.
* `exists_synthesize`: synthesis gives a network with one output that meets its requirement, and whose
  cells read first ports and can be evaluated.
-/

namespace Gatework

open Builder

namespace Requirement

variable {n : Nat} {r : Requirement n} {f g : TruthTable n}

/-- The two sides of a requirement do not overlap. -/
def Consistent (r : Requirement n) : Prop :=
  ∀ x < 2 ^ n, r.on.value x = true → r.off.value x = true → False

/-- A function is true where it must be and false where it must be. -/
structure Meets (r : Requirement n) (f : TruthTable n) : Prop where
  on : ∀ x < 2 ^ n, r.on.value x = true → f.value x = true
  off : ∀ x < 2 ^ n, r.off.value x = true → f.value x = false

/-- What is required of a function, or of its complement. -/
def side (r : Requirement n) : (complemented : Bool) → Requirement n
  | false => r
  | true => ⟨r.off, r.on⟩

lemma Consistent.side (h : r.Consistent) (complemented : Bool) : (r.side complemented).Consistent := by
  cases complemented with
  | false => exact h
  | true => exact fun x hx hoff hon => h x hx hon hoff

/-- The complement of what meets the requirement of the complement meets the requirement. -/
lemma Meets.of_side {complemented : Bool} (h : (r.side complemented).Meets f) :
    r.Meets (bif complemented then f.not else f) := by
  cases complemented with
  | false => exact h
  | true =>
      refine ⟨fun x hx hon => ?_, fun x hx hoff => ?_⟩
      · rw [cond_true, TruthTable.value_not hx, h.off x hx hon, Bool.not_false]
      · rw [cond_true, TruthTable.value_not hx, h.on x hx hoff, Bool.not_true]

/-- The variables that a requirement depends on. -/
def Mentions (r : Requirement n) (v : Nat) : Prop := r.on.hasVar v = true ∨ r.off.hasVar v = true

lemma consistent_of (f : TruthTable n) (care : Option (TruthTable n)) :
    (Requirement.of f care).Consistent := by
  intro x hx hon hoff
  cases care with
  | none =>
      simp only [Requirement.of, TruthTable.value_not hx] at hon hoff
      rw [hon] at hoff
      cases hoff
  | some care =>
      simp only [Requirement.of, TruthTable.value_and, TruthTable.value_andNot hx,
        Bool.and_eq_true] at hon hoff
      rw [hon.1] at hoff
      cases hoff.2

/-- What meets the requirement of a function is this function on the care set. -/
lemma Meets.value_eq {care : Option (TruthTable n)} (h : (Requirement.of f care).Meets g) {x : Nat}
    (hx : x < 2 ^ n) (cared : ∀ t ∈ care, t.value x = true) : g.value x = f.value x := by
  have hon := h.on x hx
  have hoff := h.off x hx
  have off : (Requirement.of f care).off.value x = !f.value x := by
    cases care with
    | none => exact TruthTable.value_not hx
    | some care =>
        rw [Requirement.of, TruthTable.value_andNot hx, cared care rfl, Bool.true_and]
  have on : (Requirement.of f care).on.value x = f.value x := by
    cases care with
    | none => rfl
    | some care => rw [Requirement.of, TruthTable.value_and, cared care rfl, Bool.and_true]
  rw [on] at hon
  rw [off] at hoff
  cases hf : f.value x with
  | true => exact hon hf
  | false => exact hoff (by rw [hf, Bool.not_false])

/-- A requirement on all assignments leaves one function. -/
lemma Meets.eq (h : (Requirement.of f none).Meets g) : g = f :=
  TruthTable.ext_value fun _ hx => h.value_eq hx (by simp)

end Requirement

namespace SumOfProducts

variable {store : Store} {n : Nat} {m : Meaning} {b : Builder} {inputs : Array Link} {arity : Nat}

/-- The links of the inputs show the variables. -/
def ShowsInputs (b : Builder) (m : Meaning) (n : Nat) (inputs : Array Link) : Prop :=
  b.ShowsAll m inputs.toList ((List.range n).map fun v σ => σ v)

lemma ShowsInputs.getElem? (h : ShowsInputs b m n inputs) {v : Nat} (hv : v < n) :
    ∃ l, inputs[v]? = some l ∧ b.Shows m l fun σ => σ v := by
  have hlength : inputs.toList.length = n := by simpa using h.length_eq
  obtain ⟨l, f, hl, hf, shows⟩ := ShowsAll.getElem? h (hlength ▸ hv)
  obtain rfl : (fun σ => σ v) = f := by simpa [hv] using hf
  exact ⟨l, by simpa using hl, shows⟩

/-- The links that show the literals of a cube. -/
def literalLinks (inputs : Array Link) (c : Cube) : Build (List Link) :=
  c.literals.mapM fun (v, positive) =>
    match inputs[v]? with
    | some l => return l.invertIf (!positive)
    | none => throw .internal

lemma literalLinks_shows (store : Store) (h : WellFormed b) (hinputs : ShowsInputs b m n inputs)
    {c : Cube} (hliteral : ∀ l ∈ c.literals, l.1 < n) :
    ∃ literals b', literalLinks inputs c b = .ok (literals, b') ∧ Step store b b' ∧
      b'.ShowsAll m literals (c.literals.map fun l σ => σ l.1 ^^ !l.2) := by
  refine mapM_shows (fun l hl b' hb' => ?_) (.refl h)
  obtain ⟨k, hk, hshows⟩ := hinputs.getElem? (hliteral l hl)
  refine ⟨k.invertIf (!l.2), b', ?_, .refl hb'.wellFormed, (hshows.grown h hb').invertIf (!l.2)⟩
  simp only [hk]
  rfl

/-- The product of the literals of a cube. -/
lemma addCube_shows (store : Store) (h : WellFormed b) (hinputs : ShowsInputs b m n inputs)
    {c : Cube} (hmentions : ∀ v, c.mask.testBit v = true → v < n) :
    ∃ l b', addCube inputs arity c b = .ok (l, b') ∧ Step store b b' ∧
      b'.Shows m l fun σ => c.value (encode n σ) := by
  have hliteral : ∀ l ∈ c.literals, l.1 < n := by
    intro l hl
    obtain ⟨v, hv, rfl⟩ := List.mem_map.1 hl
    exact hmentions v (List.mem_filter.1 hv).2
  obtain ⟨literals, b₁, hrun, step, shows⟩ := literalLinks_shows store h hinputs hliteral
  have hlength : literals.length ≤ maxArity := by
    rw [shows.length_eq, List.length_map, Cube.literals, List.length_map]
    exact (List.length_filter_le ..).trans (by decide)
  obtain ⟨l, b₂, hrun', step', hl⟩ := addTree_shows store step.wellFormed (g := .and) rfl (.inr hlength)
    shows
  refine ⟨l, b₂, build_bind_eq_ok_iff.2 ⟨literals, b₁, hrun, hrun'⟩, step.trans step',
    hl.congr fun σ => ?_⟩
  rw [Gate.value, List.map_map, List.all_map, Cube.value]
  refine Bool.eq_iff_iff.2 ?_
  simp only [List.all_eq_true]
  refine forall₂_congr fun l hl => ?_
  rw [testBit_encode (hliteral l hl)]
  cases h₁ : σ l.1 <;> cases h₂ : l.2 <;> simp [h₁, h₂]

/-- The sum of cubes. -/
theorem addCubes_shows (store : Store) (h : WellFormed b) (hinputs : ShowsInputs b m n inputs)
    {cubes : List Cube} (harity : arity ≤ maxArity ∨ cubes.length ≤ maxArity)
    (hmentions : ∀ c ∈ cubes, ∀ v, c.mask.testBit v = true → v < n) :
    ∃ l b', addCubes inputs arity cubes b = .ok (l, b') ∧ Step store b b' ∧
      b'.Shows m l fun σ => cubes.any (·.value (encode n σ)) := by
  obtain ⟨terms, b₁, hrun, step, shows⟩ := @mapM_shows store b m _ (addCube inputs arity)
    (fun c σ => c.value (encode n σ)) cubes b (fun c hc b' hb' =>
      addCube_shows store hb'.wellFormed (ShowsAll.grown hinputs h hb') (hmentions c hc))
    (.refl h)
  obtain ⟨l, b₂, hrun', step', hl⟩ := addTree_shows store step.wellFormed (g := .or) rfl
    (by rwa [shows.length_eq, List.length_map]) shows
  refine ⟨l, b₂, build_bind_eq_ok_iff.2 ⟨terms, b₁, hrun, hrun'⟩, step.trans step',
    hl.congr fun σ => ?_⟩
  rw [Gate.value, List.map_map, List.any_map]
  rfl

/-- A link shows a table that meets a requirement. -/
structure Realizes (b : Builder) (m : Meaning) (r : Requirement n) (l : Link) (f : TruthTable n) :
    Prop where
  shows : b.Shows m l fun σ => f.value (encode n σ)
  meets : r.Meets f

/-- The cover of a requirement. -/
lemma exists_cover {r : Requirement n} (hn : n ≤ Cube.maxVariables) (hr : r.Consistent) :
    ∃ cover, Cover.between r.on r.off.not = .ok cover ∧ r.Meets cover.table ∧
      cover.Covers r.on r.off.not n r.Mentions := by
  obtain ⟨cover, hcover, covers⟩ := @Cover.exists_between n r.on r.off.not hn r.Mentions
    (fun x hx hon => by
      rw [TruthTable.value_not hx]
      exact Bool.not_eq_true' _ ▸ Bool.eq_false_iff.2 fun hoff => hr x hx hon hoff)
    (.of_hasVar fun v _ h => .inl h) (TruthTable.DependsOnly.not (.of_hasVar fun v _ h => .inr h))
  refine ⟨cover, hcover, ⟨covers.above, fun x hx hoff => Bool.eq_false_iff.2 fun h => ?_⟩, covers⟩
  have := covers.beneath x hx h
  rw [TruthTable.value_not hx, hoff] at this
  cases this

/-- A cover has fewer cubes than there are assignments, if there is one that it must leave out. -/
lemma length_cover_lt {r : Requirement n} (hn : n ≤ Cube.maxVariables) (hr : r.Consistent)
    (hoff : ¬r.off.isZero = true) {cover : Cover n} (hcover : Cover.between r.on r.off.not = .ok cover) :
    cover.cubes.length < 2 ^ n := by
  obtain ⟨cover', hcover', -, covers⟩ := exists_cover hn hr
  cases hcover.symm.trans hcover'
  rw [TruthTable.isZero_iff] at hoff
  push Not at hoff
  obtain ⟨x, hx, hvalue⟩ := hoff
  exact covers.length_lt hx (Bool.eq_false_iff.2 fun hon =>
    hr x hx hon (Bool.eq_true_of_not_eq_false hvalue))

/-- A sum of cubes, complemented or not. -/
def addSum (inputs : Array Link) (arity : Nat) (complemented : Bool) (cubes : List Cube) :
    Build Link := do
  let l ← addCubes inputs arity cubes
  return bif complemented then l.invert else l

/-- The cover of either side of a requirement gives a function that meets it. -/
lemma addSum_realizes (store : Store) (h : WellFormed b) (hinputs : ShowsInputs b m n inputs)
    (hn : n ≤ Cube.maxVariables) {r : Requirement n} (hr : r.Consistent) (complemented : Bool)
    {cover : Cover n} (harity : arity ≤ maxArity ∨ cover.cubes.length ≤ maxArity)
    (hcover : Cover.between (r.side complemented).on (r.side complemented).off.not = .ok cover) :
    ∃ l b' f, addSum inputs arity complemented cover.cubes b = .ok (l, b') ∧ Step store b b' ∧
      Realizes b' m r l f := by
  obtain ⟨cover', hcover', meets, covers⟩ := exists_cover hn (hr.side complemented)
  cases hcover.symm.trans hcover'
  obtain ⟨l, b', hrun, step, shows⟩ := addCubes_shows store h hinputs harity covers.mentions
  have hvalue : ∀ σ, cover.cubes.any (·.value (encode n σ)) = cover.table.value (encode n σ) :=
    fun σ => (covers.cubes _ (encode_lt n σ)).symm
  refine ⟨_, b', _, build_bind_eq_ok_iff.2 ⟨l, b', hrun, rfl⟩, step, ?_, meets.of_side⟩
  cases complemented with
  | false => exact shows.congr hvalue
  | true =>
      refine (shows.invertIf true).congr fun σ => ?_
      rw [cond_true, TruthTable.value_not (encode_lt n σ), hvalue, Bool.xor_true]

/-- A function that meets a requirement. -/
theorem addFunction_realizes (store : Store) (inputs : Array Link) (h : WellFormed b)
    (hinputs : ShowsInputs b m n inputs) (hn : n ≤ Cube.maxVariables)
    (harity : arity ≤ maxArity ∨ 2 ^ n ≤ maxArity + 1) {r : Requirement n}
    (hr : r.Consistent) :
    ∃ l b' f, addFunction inputs arity r b = .ok (l, b') ∧ Step store b b' ∧
      Realizes b' m r l f := by
  unfold addFunction
  by_cases hon : r.on.isZero = true
  · obtain ⟨l, b', hrun, step, shows⟩ := addConst_shows store (m := m) h false
    refine ⟨l, b', .zero n, by rw [if_pos hon]; exact hrun, step,
      shows.congr fun σ => (TruthTable.value_zero ..).symm, fun x hx hx1 => ?_,
      fun x _ _ => TruthTable.value_zero ..⟩
    rw [TruthTable.isZero_iff.1 hon x hx] at hx1
    cases hx1
  by_cases hoff : r.off.isZero = true
  · obtain ⟨l, b', hrun, step, shows⟩ := addConst_shows store (m := m) h true
    refine ⟨l, b', .one n, by rw [if_neg hon, if_pos hoff]; exact hrun, step,
      shows.congr fun σ => (TruthTable.value_one (encode_lt n σ)).symm,
      fun x hx _ => TruthTable.value_one hx, fun x hx hx1 => ?_⟩
    rw [TruthTable.isZero_iff.1 hoff x hx] at hx1
    cases hx1
  rw [if_neg hon, if_neg hoff]
  obtain ⟨direct, hdirect, -⟩ := exists_cover hn (hr.side false)
  obtain ⟨complement, hcomplement, -⟩ := exists_cover hn (hr.side true)
  -- neither cover is over all assignments
  have few : ∀ cover : Cover n, cover.cubes.length < 2 ^ n →
      arity ≤ maxArity ∨ cover.cubes.length ≤ maxArity := fun cover hlt =>
    harity.imp_right fun hle => Nat.lt_succ_iff.1 (hlt.trans_le hle)
  have fewDirect := few direct (length_cover_lt hn (hr.side false) hoff hdirect)
  have fewComplement := few complement (length_cover_lt hn (hr.side true) hon hcomplement)
  simp only [Requirement.side] at hdirect hcomplement
  by_cases hless : Cover.literalCount complement.cubes < Cover.literalCount direct.cubes
  · obtain ⟨l, b', f, hrun, rest⟩ := addSum_realizes store h hinputs hn hr true fewComplement hcomplement
    refine ⟨l, b', f, ?_, rest⟩
    rw [hdirect, hcomplement, ← hrun]
    exact congrFun (if_pos hless) b
  · obtain ⟨l, b', f, hrun, rest⟩ := addSum_realizes store h hinputs hn hr false fewDirect hdirect
    refine ⟨l, b', f, ?_, rest⟩
    rw [hdirect, hcomplement, ← hrun, addSum]
    simp only [cond_false, bind_pure]
    exact congrFun (if_neg hless) b

/-- Synthesis gives a network that meets the requirement. -/
theorem exists_synthesize (store : Store) (m : Meaning) (hn : n ≤ Cube.maxVariables)
    (harity : arity ≤ maxArity ∨ 2 ^ n ≤ maxArity + 1) {r : Requirement n} (hr : r.Consistent) :
    ∃ net f, synthesize r arity = .ok net ∧ r.Meets f ∧ net.numInputs = n ∧ net.numOutputs = 1 ∧
      (∀ σ, net.outputValues m σ = [f.value (encode n σ)]) ∧ ∀ c ∈ net.cells, store.Regular True c := by
  obtain ⟨net, _, hnet, hin, hout, hvalues, ⟨f, rfl, meets⟩, hregular⟩ := @exists_toSubnet store n
    .simplifying m (fun links => addFunction links.toArray arity r)
    (fun F => ∃ f : TruthTable n, F = (fun σ => f.value (encode n σ)) ∧ r.Meets f) (by
      intro links b h hlinks
      obtain ⟨l, b', f, hrun, step, realizes⟩ := addFunction_realizes store (m := m)
        links.toArray h hlinks hn harity hr
      exact ⟨l, b', _, hrun, step, realizes.shows, f, rfl, realizes.meets⟩)
  exact ⟨net, f, hnet, meets, hin, hout, hvalues, hregular⟩

end SumOfProducts

end Gatework
