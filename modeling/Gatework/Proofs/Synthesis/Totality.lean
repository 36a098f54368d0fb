import Gatework.Proofs.Builder.Balance
import Gatework.Proofs.Cover.Parity
import Gatework.Proofs.Synthesis.Width

/-!
# Which widths trees may have

A tree of an associative gate takes the width of its cells from its caller, and a gate takes no more than
`maxArity` operands.  A tree that has to hold a wider cell than that has no result: both the width and the
number of operands exceed the limit, and the first cell of the tree is refused (`addTree_of_maxArity_lt`).

A sum of products joins as many operands as its cover has cubes.  A cover leaves out an assignment, so over
eight variables it has at most 255 cubes, and every width is good for it.  The cover of a parity over nine
variables has 256.

**Main statement.** `Builder.addTree_within_maxArity`.
-/

namespace Gatework

namespace Builder

variable {α β : Type} {b : Builder} {g : Gate} {links : List Link} {width arity : Nat}

/-! ## Wide cells are refused -/

lemma build_bind_eq_error {x : Build α} {f : α → Build β} {fault : Fault} (h : x b = .error fault) :
    (x >>= f) b = .error fault := by
  show (x b >>= fun p => f p.1 p.2) = _
  rw [h]
  rfl

lemma build_bind_eq {x : Build α} {f : α → Build β} {a : α} {b' : Builder} (h : x b = .ok (a, b')) :
    (x >>= f) b = f a b' := by
  show (x b >>= fun p => f p.1 p.2) = _
  rw [h]
  rfl

lemma addCell_of_maxArity_lt (hg : g.traits.regroupable = true) (h : maxArity < links.length) :
    addCell (.gate g) links b = .error (.badArity g.name links.length) := by
  have hwide : ¬(2 ≤ links.length ∧ links.length ≤ maxArity) := fun hle => Nat.not_lt.2 hle.2 h
  rcases Gate.eq_of_regroupable hg with rfl | rfl | rfl <;> exact congrFun (if_neg hwide) b

/-- The first group of a level is full, and too wide. -/
lemma joinLevels_of_maxArity_lt (hg : g.traits.regroupable = true) (hwidth : maxArity < width)
    (hlinks : width < links.length) (levels : Nat) :
    joinLevels (.gate g) width (levels + 1) links b = .error (.badArity g.name width) := by
  obtain ⟨l, links, rfl⟩ := List.exists_cons_of_length_pos (Nat.zero_lt_of_lt hlinks)
  rw [List.length_cons] at hlinks
  have hfull : (l :: links.take (width - 1)).length = width := by
    rw [List.length_cons, List.length_take]
    omega
  have hcell := addCell_of_maxArity_lt (b := b) hg (hfull.symm ▸ hwidth)
  rw [hfull] at hcell
  rw [joinLevels]
  · refine build_bind_eq_error ?_
    rw [pieces, joinGroups, List.mapM_cons]
    refine build_bind_eq_error ?_
    generalize l :: links.take (width - 1) = group at hfull hcell
    split
    · rw [List.length_singleton] at hfull
      exact absurd (hfull ▸ hwidth) (by decide)
    · exact hcell
  · rintro k ⟨⟩
    have hone : maxArity < 1 := hwidth.trans hlinks
    exact absurd hone (by decide)

/-- A tree whose first cell is too wide. -/
lemma addTree_of_maxArity_lt (hg : g.traits.regroupable = true) (harity : maxArity < arity)
    (hlinks : maxArity < links.length) :
    addTree (.gate g) links arity b = .error (.badArity g.name (min arity links.length)) := by
  have hregroup : (Symbol.gate g).traits.regroupable = true := hg
  have htwo : 2 ≤ maxArity := by decide
  have hwidth : max arity 2 = arity := by omega
  unfold addTree
  simp only [hregroup, if_true, hwidth]
  split
  · exact absurd hlinks (by decide)
  · exact absurd hlinks (by rw [List.length_singleton]; decide)
  · split
    · rename_i hle
      rw [Nat.min_eq_right hle]
      exact addCell_of_maxArity_lt hg hlinks
    · rename_i hlt
      obtain ⟨levels, hlevels⟩ : ∃ k, links.length = k + 1 :=
        Nat.exists_eq_succ_of_ne_zero (Nat.ne_zero_of_lt hlinks)
      rw [Nat.min_eq_left (Nat.not_le.1 hlt).le, hlevels]
      exact joinLevels_of_maxArity_lt hg harity (Nat.not_le.1 hlt) levels

/-- A tree that is not too wide has a result. -/
lemma exists_addTree (h : WellFormed b) (hg : g.traits.regroupable = true)
    (reads : ∀ l ∈ links, b.Readable l) (harity : arity ≤ maxArity ∨ links.length ≤ maxArity) :
    ∃ l b', addTree (.gate g) links arity b = .ok (l, b') ∧ Grown b b' ∧ b'.Readable l := by
  obtain ⟨l, b', hrun, raised, within, -⟩ := exists_addTree_within h hg (within_deepest reads)
    (harity.imp_left fun hle => max_le hle (by decide))
  exact ⟨l, b', hrun, raised.toGrown, within.readable⟩

end Builder

open Builder

namespace SumOfProducts

variable {n arity : Nat} {b : Builder} {m : Meaning} {inputs : Array Link} {t : TruthTable n}

/-! ## Sums of many cubes -/

/-- A sum of more cubes than a cell takes operands. -/
lemma addCubes_of_maxArity_lt (h : WellFormed b) (hinputs : ShowsInputs b m n inputs)
    {cubes : List Cube} (hmentions : ∀ c ∈ cubes, ∀ v, c.mask.testBit v = true → v < n)
    (harity : maxArity < arity) (hcubes : maxArity < cubes.length) :
    addCubes inputs arity cubes b = .error (.badArity "or" (min arity cubes.length)) := by
  obtain ⟨terms, b', hrun, -, shows⟩ := @mapM_shows .bare b m _ (addCube inputs arity)
    (fun c σ => c.value (encode n σ)) cubes b (fun c hc b' hb' =>
      addCube_shows .bare hb'.wellFormed (ShowsAll.grown hinputs h hb') (hmentions c hc)) (.refl h)
  have hlength : terms.length = cubes.length := by rw [shows.length_eq, List.length_map]
  refine (build_bind_eq hrun).trans ?_
  rw [← hlength]
  exact addTree_of_maxArity_lt rfl harity (hlength ▸ hcubes)

/-- A function whose two covers are both too wide is not built. -/
lemma exists_addFunction_eq_error (h : WellFormed b) (hinputs : ShowsInputs b m n inputs)
    (hn : n ≤ Cube.maxVariables) (harity : maxArity < arity) {r : Requirement n} (hr : r.Consistent)
    (wide : ∀ complemented (cover : Cover n), Cover.between (r.side complemented).on
      (r.side complemented).off.not = .ok cover → maxArity < cover.cubes.length)
    (hon : ¬r.on.isZero = true) (hoff : ¬r.off.isZero = true) :
    ∃ count, addFunction inputs arity r b = .error (.badArity "or" count) := by
  obtain ⟨direct, hdirect, -, covers⟩ := exists_cover hn (hr.side false)
  obtain ⟨complement, hcomplement, -, covers'⟩ := exists_cover hn (hr.side true)
  have fails := addCubes_of_maxArity_lt h hinputs covers.mentions harity (wide false direct hdirect)
  have fails' := addCubes_of_maxArity_lt h hinputs covers'.mentions harity
    (wide true complement hcomplement)
  simp only [Requirement.side] at hdirect hcomplement
  unfold addFunction
  rw [if_neg hon, if_neg hoff, hdirect, hcomplement]
  by_cases hless : Cover.literalCount complement.cubes < Cover.literalCount direct.cubes
  · exact ⟨_, (congrFun (if_pos hless) b).trans (build_bind_eq_error fails')⟩
  · exact ⟨_, (congrFun (if_neg hless) b).trans fails⟩

/-- Both covers of an alternating function are wide. -/
lemma lt_length_of_alternates (ht : t.Alternates) (hlow : 8 < n) (hn : n ≤ Cube.maxVariables)
    (complemented : Bool) {cover : Cover n}
    (hcover : Cover.between ((Requirement.of t none).side complemented).on
      ((Requirement.of t none).side complemented).off.not = .ok cover) :
    maxArity < cover.cubes.length := by
  have hhalf : 2 ^ 8 ≤ 2 ^ (n - 1) := Nat.pow_le_pow_right (by decide) (by omega)
  refine lt_of_lt_of_le (show maxArity < 2 ^ 8 by decide) (hhalf.trans ?_)
  obtain ⟨cover', hcover', -, covers⟩ :=
    exists_cover hn ((Requirement.consistent_of t none).side complemented)
  cases hcover.symm.trans hcover'
  cases complemented with
  | false =>
      simp only [Requirement.side, Requirement.of, TruthTable.not_not] at covers
      exact covers.le_length_of_alternates ht (by omega) hn
  | true => exact covers.le_length_of_alternates ht.not (by omega) hn

/-- The parity of more than eight variables is not built of cells wider than cells are. -/
lemma exists_synthesize_eq_error (ht : t.Alternates) (hlow : 8 < n) (hn : n ≤ Cube.maxVariables)
    (harity : maxArity < arity) :
    ∃ count, synthesize (.of t none) arity = .error (.badArity "or" count) := by
  obtain ⟨links, b, hrun, h, -, -, -, -, shows, -⟩ :=
    (wellFormed_empty .simplifying).addInputs_shows .bare (m := fun _ _ => []) n
  rw [(layout_empty .simplifying).inputs_eq, List.length_nil, ← List.range_eq_range'] at shows
  have nonzero : ∀ {s : TruthTable n}, s.Alternates → ¬s.isZero = true := fun {s} hs hzero => by
    have hpos : 0 < n := by omega
    have hlt := s.point_lt hpos (Nat.two_pow_pos (n - 1))
    have := hs.value_point hpos (Nat.two_pow_pos (n - 1))
    rw [TruthTable.isZero_iff.1 hzero _ hlt] at this
    cases this
  have shows : ShowsInputs b (fun _ _ => []) n links.toArray := shows
  obtain ⟨count, hcount⟩ := exists_addFunction_eq_error h shows hn harity
    (Requirement.consistent_of t none) (fun complemented _ => lt_length_of_alternates ht hlow hn complemented)
    (nonzero ht) (nonzero ht.not)
  refine ⟨count, ?_⟩
  have hbuild : (do
      let inputs ← addInputs n
      discard (addOutput (← addFunction inputs.toArray arity (.of t none))) : Build Unit)
        (.empty .simplifying) = .error (.badArity "or" count) :=
    (build_bind_eq hrun).trans (build_bind_eq_error hcount)
  show (StateT.run _ _ >>= _) = _
  rw [StateT.run, hbuild]
  rfl

end SumOfProducts

/-! ## Every width up to the limit -/

namespace Method

variable {n arity : Nat} {m : Method} {store : Store}

/-- The two methods that build what they are asked for. -/
def constructing : List Method := [sumOfProducts, biDecomposition]

/-- What a method builds is stored. -/
lemma exists_resynthesize_serving (hm : m ∈ constructing) (hn : n ≤ maxTableVariables)
    (harity : arity ≤ maxArity ∨ n ≤ 8) (f : TruthTable n) (care : Option (TruthTable n)) :
    ∃ net, m.resynthesizer.resynthesize store f care arity = .ok ((store.addSubnet net).1, some net) ∧
      net.Serves f care (max 2 arity) := by
  have hn : n ≤ Cube.maxVariables := hn.trans (by decide)
  have harity : arity ≤ maxArity ∨ 2 ^ n ≤ maxArity + 1 :=
    harity.imp_right fun hle => Nat.pow_le_pow_right (n := 2) (by decide) hle
  have stored : ∀ net, m.synthesize store f care arity = .ok (some net) →
      m.resynthesizer.resynthesize store f care arity = .ok ((store.addSubnet net).1, some net) :=
    fun net hrun => by
      simp only [resynthesizer, hrun]
      rfl
  rcases List.mem_pair.1 hm with rfl | rfl
  · obtain ⟨net, hrun, serves⟩ := SumOfProducts.exists_synthesize_serving hn harity f care
    exact ⟨net, stored net (by rw [synthesize, hrun]; rfl), serves⟩
  · obtain ⟨net, hrun, serves⟩ := BiDecomposition.exists_synthesize_serving hn harity f care
    exact ⟨net, stored net (by rw [synthesize, hrun]; rfl), serves⟩

/-- The parity of more than eight variables is not built as a sum of products. -/
lemma exists_resynthesize_eq_error (hn : n ≤ maxTableVariables) (harity : maxArity < arity)
    (hlow : 8 < n) : ∃ (f : TruthTable n) (count : Nat),
      sumOfProducts.resynthesizer.resynthesize store f none arity = .error (.badArity "or" count) := by
  obtain ⟨count, hrun⟩ := SumOfProducts.exists_synthesize_eq_error (TruthTable.alternates_parity n)
    hlow (hn.trans (by decide)) harity
  refine ⟨.parity n, count, ?_⟩
  simp only [resynthesizer, synthesize, hrun]
  rfl

end Method

namespace Builder

variable {b : Builder} {links : List Link}

/-- A tree of an associative gate has a result unless both the width that is asked for and the number of
operands exceed what a gate takes; then the gate is refused.  The result has the value of the gate with all
operands at once.  So the methods that build trees succeed for every width up to the limit, and for functions
of at most eight variables for every width whatsoever.  Of more variables, there is a function that cannot be
built as a sum of products if cells may be wider than the limit. -/
theorem addTree_within_maxArity (h : WellFormed b) {symbol : Symbol}
    (hsymbol : symbol.traits.regroupable = true) (reads : ∀ l ∈ links, b.Readable l) (arity : Nat)
    (store : Store) {n : Nat} (hn : n ≤ maxTableVariables) :
    (arity ≤ maxArity ∨ links.length ≤ maxArity →
      ∃ l b', addTree symbol links arity b = .ok (l, b') ∧ Grown b b' ∧ b'.Readable l ∧
        ((∀ l ∈ links, b.Proper l) → ∀ m, b'.Carries m l fun σ =>
          symbol.value (links.map (Link.read (b.values m σ))))) ∧
    (maxArity < arity → maxArity < links.length →
      addTree symbol links arity b = .error (.badArity symbol.name (min arity links.length))) ∧
    (arity ≤ maxArity ∨ n ≤ 8 → ∀ method ∈ Method.constructing, ∀ (f : TruthTable n) care, ∃ net,
      method.resynthesizer.resynthesize store f care arity =
          .ok ((store.addSubnet net).1, some net) ∧ net.Serves f care (max 2 arity)) ∧
    (maxArity < arity → 8 < n → ∃ (f : TruthTable n) (count : Nat),
      Method.sumOfProducts.resynthesizer.resynthesize store f none arity =
        .error (.badArity "or" count)) := by
  obtain ⟨g, rfl⟩ : ∃ g, symbol = .gate g := by
    cases symbol with
    | gate g => exact ⟨g, rfl⟩
    | cell => cases hsymbol
  refine ⟨fun harity => ?_, addTree_of_maxArity_lt hsymbol, fun harity method hmethod =>
    Method.exists_resynthesize_serving hmethod hn harity, Method.exists_resynthesize_eq_error hn⟩
  obtain ⟨l, b', hrun, grown, readable⟩ := exists_addTree h hsymbol reads harity
  exact ⟨l, b', hrun, grown, readable, fun proper m => addTree_carries h proper hrun⟩

/-- Five inputs of a builder that simplifies nothing are joined by one cell of a width beyond the limit, and
so are the cubes of a function of eight variables, but not always those of a function of nine. -/
theorem addTree_within_maxArity_five : ∃ b l b',
    addInputs 5 (.empty {}) = .ok ((List.range' 0 5).map .of, b) ∧
    addTree (.gate .xor) ((List.range' 0 5).map .of) 300 b = .ok (l, b') ∧
    (∀ f : TruthTable 8, ∃ net, Method.biDecomposition.resynthesizer.resynthesize .empty f none 300 =
      .ok ((Store.empty.addSubnet net).1, some net) ∧ net.Serves f none 300) ∧
    ∃ (f : TruthTable 9) (count : Nat), Method.sumOfProducts.resynthesizer.resynthesize .empty f none 300 =
      .error (.badArity "or" count) := by
  obtain ⟨b, hinputs, plain⟩ := plain_empty.addInputs 5
  have first : ∀ l ∈ (List.range' 0 5).map Link.of, l.entry < 5 := by decide
  have reads : ∀ l ∈ (List.range' 0 5).map Link.of, b.Readable l := fun l hl =>
    plain.readable_iff.2 (first l hl)
  have regroupable : (Symbol.gate .xor).traits.regroupable = true := rfl
  have eight := addTree_within_maxArity (n := 8) plain.wellFormed regroupable reads 300 .empty (by decide)
  have nine := addTree_within_maxArity (n := 9) plain.wellFormed regroupable reads 300 .empty (by decide)
  obtain ⟨l, b', hrun, -⟩ := eight.1 (.inr (by decide))
  have constructing : .biDecomposition ∈ Method.constructing := List.mem_cons_of_mem _ List.mem_cons_self
  exact ⟨b, l, b', hinputs, hrun, fun f => eight.2.2.1 (.inr (by decide)) _ constructing f none,
    nine.2.2.2 (by decide) (by decide)⟩

/-- An input of a builder that simplifies, as each of 256 operands of cells that may be as wide. -/
theorem addTree_fails_beyond_maxArity : ∃ b, addInputs 1 (.empty .simplifying) = .ok ([.of 0], b) ∧
    WellFormed b ∧ (Symbol.gate .and).traits.regroupable = true ∧
    (∀ l ∈ List.replicate 256 (.of 0), b.Readable l) ∧
    addTree (.gate .and) (List.replicate 256 (.of 0)) 256 b = .error (.badArity "and" 256) := by
  obtain ⟨b, hrun, wf, inputs, -⟩ := (wellFormed_empty .simplifying).addInput
  rw [(layout_empty .simplifying).inputs_eq] at inputs
  have hlength : (List.replicate 256 (Link.of 0)).length = 256 := List.length_replicate
  have fails : addTree (.gate .and) (List.replicate 256 (.of 0)) 256 b =
      .error (.badArity "and" (min 256 (List.replicate 256 (Link.of 0)).length)) :=
    addTree_of_maxArity_lt rfl (by decide) (by rw [hlength]; decide)
  rw [hlength, Nat.min_self] at fails
  refine ⟨b, ?_, wf, rfl, fun l hl => ?_, fails⟩
  · exact build_bind_eq_ok_iff.2 ⟨_, b, hrun, rfl⟩
  · rw [List.eq_of_mem_replicate hl]
    refine List.mem_append_left _ ?_
    rw [inputs]
    exact List.mem_singleton.2 rfl

end Builder

end Gatework
