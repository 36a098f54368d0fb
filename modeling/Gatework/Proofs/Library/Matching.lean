import Gatework.Proofs.Library.Loading
import Gatework.Proofs.Library.Match
import Gatework.Proofs.Npn.Classes
import Gatework.Proofs.Npn.Listing
import Gatework.Proofs.TruthTable.Words

/-!
# Matching finds every cell that implements a function

Bindings of a cell are transforms without a complemented output (`Match.Binds.exists_sources`), and the
search goes through all of them by the number of complemented variables, so the first one that it meets has
the fewest (`Match.bind?_least`).  A cell that can be bound to a function is of its class, hence it is found
through the classes that the library lists (`Library.Indexed`), although classes disregard the polarity of
the output and bindings do not.

**Main statement.** `Library.matchesOf_exact`.
-/

namespace Gatework

namespace Match

variable {n : Nat} {cell f : TruthTable n} {perm : List Nat} {mask : Nat} {pins pins' : List PinSource}

/-! ## All bindings -/

lemma Binds.arity {k : Nat} {cell : TruthTable k} (h : Binds cell f pins) : n = k := by
  simpa [h.length] using h.leaves.length_eq.symm

/-- Every binding consists of the sources that belong to a transform. -/
lemma Binds.exists_sources (h : Binds cell f pins) : ∃ perm mask,
    (Transform.mk perm mask false).Permutes n ∧ mask < 2 ^ n ∧ sources perm mask = pins := by
  let back : Transform := ⟨pins.map (·.leaf), 0, false⟩
  have permutes : back.Permutes n := h.leaves
  let perm := back.inverse.perm
  let mask := encode n fun i => (pins[perm.getD i 0]?).any (·.inverted)
  have hperm : (Transform.mk perm mask false).Permutes n := permutes.permutes_inverse
  refine ⟨perm, mask, hperm, encode_lt n _, List.ext_getElem? fun p => ?_⟩
  by_cases hp : p < pins.length
  · have hleaf : back.perm[p]? = some pins[p].leaf := by simp [back, hp]
    have hposition : perm[pins[p].leaf]? = some p := permutes.getElem?_inverse hleaf
    have hlt : p < perm.length := by rwa [hperm.length, ← h.length]
    rw [getElem?_sources hperm.nodup hlt hposition, List.getElem?_eq_getElem hp,
      testBit_encode (h.leaf_lt _ (List.getElem_mem hp))]
    simp [List.getD_eq_getElem?_getD, hposition, hp]
  · have hlength : (sources perm mask).length = pins.length := by
      rw [sources, List.length_map, List.length_range, hperm.length, h.length]
    rw [List.getElem?_eq_none (Nat.not_lt.1 hp), List.getElem?_eq_none (hlength ▸ Nat.not_lt.1 hp)]

/-- A cell that can be bound to a function is of the class of the function. -/
lemma Binds.class?_eq (hn : n ≤ maxClassVariables) (h : Binds cell f pins) : cell.class? = f.class? := by
  obtain ⟨perm, mask, permutes, -, rfl⟩ := h.exists_sources
  obtain ⟨_, hcell, -⟩ := TruthTable.exists_canonical? hn cell
  have equivalent := TruthTable.equivalent_onTable permutes cell
  rw [(binds_sources_iff permutes).1 h] at equivalent
  obtain ⟨t, hf⟩ := (TruthTable.equivalent_iff_canonical hcell).1 equivalent
  rw [TruthTable.class?, TruthTable.class?, hcell, hf]
  rfl

/-! ## The order of the search -/

/-- A mask has no bits beyond the variables. -/
lemma countBits_mask (hmask : mask < 2 ^ n) :
    TruthTable.countBits n mask = (List.range n).countP mask.testBit := by
  obtain ⟨rest, hrest⟩ := Nat.exists_eq_add_of_le n.lt_two_pow_self.le
  rw [countBits_eq, hrest, countP_range_add, Nat.add_eq_left, List.countP_eq_zero]
  intro i _
  rw [Nat.testBit_lt_two_pow (hmask.trans_le (Nat.pow_le_pow_right (by decide) (Nat.le_add_right n i)))]
  decide

/-- As many pins are complemented as variables are. -/
lemma countP_sources (h : (Transform.mk perm mask false).Permutes n) (hmask : mask < 2 ^ n) :
    (sources perm mask).countP (·.inverted) = TruthTable.countBits n mask := by
  have hsources : sources perm mask =
      ((sources perm mask).map (·.leaf)).map fun i => ⟨i, mask.testBit i⟩ := by
    simp [sources]
  rw [hsources, List.countP_map, leaves_sources, countBits_mask hmask]
  exact h.permutes_inverse.countP_eq _

lemma mem_masksByWeight : mask ∈ masksByWeight n ↔ mask < 2 ^ n := by
  refine ⟨lt_of_mem_masksByWeight, fun h => List.mem_flatMap.2 ⟨TruthTable.countBits n mask, ?_, ?_⟩⟩
  · have hle := List.countP_le_length (l := List.range n) (p := mask.testBit)
    rw [← countBits_mask h, List.length_range] at hle
    exact List.mem_range.2 (Nat.lt_succ_of_le hle)
  · exact List.mem_filter.2 ⟨List.mem_range.2 h, beq_self_eq_true _⟩

/-- Fewer complemented variables come first. -/
lemma masksByWeight_sorted (n : Nat) : (masksByWeight n).Pairwise fun a b =>
    TruthTable.countBits n a ≤ TruthTable.countBits n b := by
  have weight : ∀ {w mask : Nat}, (mask ∈ (List.range (2 ^ n)).filter fun mask =>
      TruthTable.countBits n mask == w) → TruthTable.countBits n mask = w := fun h =>
    beq_iff_eq.1 (List.mem_filter.1 h).2
  refine List.pairwise_flatMap.2 ⟨fun w _ => ?_, ?_⟩
  · exact List.pairwise_of_forall_mem_list fun a ha b hb => ((weight ha).trans (weight hb).symm).le
  · refine List.pairwise_lt_range.imp fun hlt a ha b hb => ?_
    rw [weight ha, weight hb]
    exact hlt.le

/-- A binding with the complemented variables of a mask is found. -/
lemma bindAt?_ne_none (h : (Transform.mk perm mask false).Permutes n)
    (made : (Transform.mk perm mask false).onTable cell = f) : bindAt? cell f mask ≠ none := by
  intro hnone
  exact List.find?_eq_none.1 (Option.map_eq_none_iff.1 hnone) perm (Permutation.mem_all.2 h)
    (beq_iff_eq.2 made)

/-- No binding has fewer complemented pins than the one that is found. -/
theorem bind?_least (h : bind? cell f = some pins)
    (other : Binds cell f pins') : pins.countP (·.inverted) ≤ pins'.countP (·.inverted) := by
  rw [bind?_eq] at h
  obtain ⟨perm', mask', permutes', hmask', rfl⟩ := other.exists_sources
  obtain ⟨before, mask, after, hmasks, hfound, missed⟩ := List.findSome?_eq_some_iff.1 h
  have sorted := masksByWeight_sorted n
  have hmem := mem_masksByWeight.2 hmask'
  have hmask : mask < 2 ^ n := mem_masksByWeight.1 (hmasks ▸ by simp)
  rw [hmasks] at sorted hmem
  obtain ⟨perm, permutes, rfl, -⟩ := exists_perm_of_bindAt hfound
  rw [countP_sources permutes hmask, countP_sources permutes' hmask']
  rcases List.mem_append.1 hmem with hbefore | hafter
  · exact absurd (missed mask' hbefore)
      (bindAt?_ne_none permutes' ((binds_sources_iff permutes').1 other))
  · rcases List.mem_cons.1 hafter with rfl | hafter
    · exact Nat.le_refl _
    · exact (List.pairwise_cons.1 (List.pairwise_append.1 sorted).2.1).1 mask' hafter

/-- A binding is found if there is one. -/
theorem exists_bind? (h : Binds cell f pins) :
    ∃ found, bind? cell f = some found := by
  obtain ⟨perm, mask, permutes, hmask, rfl⟩ := h.exists_sources
  refine Option.ne_none_iff_exists'.1 fun hnone => ?_
  rw [bind?_eq] at hnone
  exact bindAt?_ne_none permutes ((binds_sources_iff permutes).1 h)
    (List.findSome?_eq_none_iff.1 hnone mask (mem_masksByWeight.2 hmask))

end Match

namespace Library

variable {store : Store} {l : Library} {c : LibraryCell} {n : Nat} {f : TruthTable n}

/-! ## The classes of a library -/

/-- What a library lists is what a search through its cells would find: the cells of each class, and whether
there is an inverter. -/
structure Indexed (l : Library) : Prop where
  ordered : Catalogue.Ordered l.classes
  cellsOf_eq : ∀ key, l.cellsOf key = (List.range l.cells.size).filter fun i =>
    (l.cells[i]?.bind fun c => c.function.class?) = some key
  inverter : l.inverter.isSome = true ↔ ∃ c ∈ l.cells, c.Complements

lemma indexed_empty : Indexed {} where
  ordered := .nil
  cellsOf_eq _ := rfl
  inverter := by simp

lemma Indexed.cellsOf_push (h : l.Indexed) (key : WordTable) : (l.push c).cellsOf key =
    l.cellsOf key ++ if c.function.class? = some key then [l.cells.size] else [] := by
  show (Catalogue.lookup (l.push c).classes key).getD [] = _
  rw [Library.push]
  dsimp only
  cases hclass : c.function.class? with
  | none => simp [cellsOf, Catalogue.lookup]
  | some k =>
      dsimp only
      rw [h.ordered.lookup_alterClass]
      by_cases hk : k = key
      · subst hk
        simp [cellsOf, Catalogue.lookup]
      · simp [cellsOf, Catalogue.lookup, hk]

/-- One more cell is listed last in its class, and counts if it is an inverter. -/
lemma Indexed.push (h : l.Indexed) (c : LibraryCell) : (l.push c).Indexed where
  ordered := by
    rw [Library.push]
    dsimp only
    split
    · exact h.ordered.alterClass
    · exact h.ordered
  cellsOf_eq key := by
    have hsize : (l.push c).cells.size = l.cells.size + 1 := by simp [Library.push]
    rw [h.cellsOf_push, h.cellsOf_eq, hsize, List.range_succ, List.filter_append]
    refine congrArg₂ _ (List.filter_congr fun i hi => ?_) ?_
    · rw [Library.push, Array.getElem?_push_lt (List.mem_range.1 hi),
        Array.getElem?_eq_getElem (List.mem_range.1 hi)]
    · simp [Library.push, List.filter_singleton]
  inverter := by
    have hcells : (∃ e ∈ (l.push c).cells, e.Complements) ↔
        l.inverter.isSome = true ∨ isInverter c = true := by
      rw [h.inverter, LibraryCell.isInverter_iff]
      simp [Library.push, Array.mem_push, or_and_right, exists_or]
    rw [hcells, Library.push]
    dsimp only
    cases hold : l.inverter with
    | none => cases isInverter c <;> simp [inverterCell?, hold]
    | some i =>
        -- there is an inverter already, whichever of the two is the smaller one
        simp only [Option.isSome_some, true_or, iff_true]
        split <;> rfl

/-- A library that is read from a file lists its cells. -/
theorem indexed_ofBytes {start : Store} {file : List UInt8}
    (h : ofBytes start file = .ok (store, .ok l)) : l.Indexed := by
  refine ofBytes_keeps (P := fun _ l => l.Indexed) (fun _ h hregister => ?_) indexed_empty h
  obtain ⟨c, -, -, rfl⟩ := exists_push_of_register hregister
  exact h.push c

/-! ## All matches -/

/-- A match has a number of complemented pins that no binding of its cell goes below. -/
lemma inversions_le {m : CellMatch} (h : m ∈ l.matchesOf f)
    (hc : l.cells[m.cell]? = some c) {pins : List PinSource} (binds : Match.Binds c.function f pins) :
    m.inversions ≤ pins.countP (·.inverted) := by
  obtain ⟨-, -, -, hbound, -⟩ := mem_matchesOf.1 h
  obtain ⟨-, e, g, he, hg, hbind⟩ := bindCell?_eq_some_iff.1 hbound
  cases hc.symm.trans he
  exact Match.bind?_least hbind ((Match.binds_of_as? hg).2 binds)

/-- A cell that can be bound to a function is among the matches, if the inverters allow it. -/
lemma Indexed.exists_match (indexed : l.Indexed) (hn : n ≤ maxClassVariables) {i : Nat}
    (hc : l.cells[i]? = some c) {pins : List PinSource} (binds : Match.Binds c.function f pins)
    (allowed : pins.countP (·.inverted) = 0 ∨ l.inverter.isSome = true) :
    ∃ m ∈ l.matchesOf f, m.cell = i := by
  obtain ⟨name, type, implementation, inputs, function, costs⟩ := c
  obtain rfl : n = inputs := binds.arity
  obtain ⟨found, hfound⟩ := Match.exists_bind? binds
  obtain ⟨_, canonical, -⟩ := TruthTable.exists_canonical? hn f
  have hclass : f.class? = some _ := congrArg _ canonical
  have hself : f.any.as? n = some f := dif_pos rfl
  have hbound : l.bindCell? f i = some ⟨i, found⟩ :=
    bindCell?_eq_some_iff.2 ⟨rfl, _, f, hc, hself, hfound⟩
  refine ⟨⟨i, found⟩, mem_matchesOf.2 ⟨_, hclass, ?_, hbound, ?_⟩, rfl⟩
  · rw [indexed.cellsOf_eq, List.mem_filter, List.mem_range, hc, Option.bind_some, decide_eq_true_eq]
    exact ⟨(Array.getElem?_eq_some_iff.1 hc).1, (binds.class?_eq hn).trans hclass⟩
  · refine allowed.imp_left fun hzero => Nat.le_zero.1 ?_
    rw [← hzero]
    exact Match.bind?_least hfound binds

/-- The bindings of some cells stand in the order of the cells. -/
lemma map_cell_filterMap_sublist (numbers : List Nat) :
    ((numbers.filterMap (l.bindCell? f)).map (·.cell)).Sublist numbers := by
  induction numbers with
  | nil => exact .slnil
  | cons i numbers ih =>
      cases hbound : l.bindCell? f i with
      | none =>
          rw [List.filterMap_cons_none hbound]
          exact ih.cons i
      | some m =>
          rw [List.filterMap_cons_some hbound, List.map_cons, (bindCell?_eq_some_iff.1 hbound).1]
          exact ih.cons_cons i

lemma Indexed.matchesOf_sorted (indexed : l.Indexed) (f : TruthTable n) :
    ((l.matchesOf f).map (·.cell)).Pairwise (· < ·) := by
  rw [matchesOf]
  split
  · rename_i key _
    have ordered : (l.cellsOf key).Pairwise (· < ·) := by
      rw [indexed.cellsOf_eq]
      exact List.pairwise_lt_range.filter _
    exact ordered.sublist ((List.filter_sublist.map CellMatch.cell).trans
      (map_cell_filterMap_sublist _))
  · exact .nil

/-- The matches of a loaded library stand in the order of the cells, each cell at most once.  A match binds
its cell to the function with as few complemented pins as possible.  A cell is among the matches exactly if
it can be bound to the function without complemented pins, or at all where some cell complements its
input. -/
theorem matchesOf_exact {start : Store} {file : List UInt8}
    (loaded : ofBytes start file = .ok (store, .ok l)) (hn : n ≤ maxClassVariables) (f : TruthTable n) :
    ((l.matchesOf f).map (·.cell)).Pairwise (· < ·) ∧
      (∀ m ∈ l.matchesOf f, ∃ c, l.cells[m.cell]? = some c ∧ Match.Binds c.function f m.pins ∧
        ∀ pins, Match.Binds c.function f pins → m.inversions ≤ pins.countP (·.inverted)) ∧
      ∀ i c, l.cells[i]? = some c → ((∃ m ∈ l.matchesOf f, m.cell = i) ↔
        ∃ pins, Match.Binds c.function f pins ∧
          (pins.countP (·.inverted) = 0 ∨ ∃ e ∈ l.cells, e.Complements)) := by
  have indexed := indexed_ofBytes loaded
  rw [← indexed.inverter]
  refine ⟨indexed.matchesOf_sorted f, fun m hm => ?_, fun i c hc => ⟨?_, ?_⟩⟩
  · obtain ⟨c, hc, binds⟩ := exists_cell_of_mem_matchesOf hm
    exact ⟨c, hc, binds, fun pins => inversions_le hm hc⟩
  · rintro ⟨m, hm, rfl⟩
    obtain ⟨e, he, binds⟩ := exists_cell_of_mem_matchesOf hm
    cases hc.symm.trans he
    obtain ⟨-, -, -, -, allowed⟩ := mem_matchesOf.1 hm
    exact ⟨m.pins, binds, allowed⟩
  · rintro ⟨pins, binds, allowed⟩
    exact indexed.exists_match hn hc binds allowed

/-- The second variable without the first one is the difference with its pins swapped.  It can also be bound
with both pins complemented and not swapped; without an inverter, only the former is a match. -/
theorem matchesOf_exact_difference : ∃ store,
    ofBytes .empty Store.differenceFile = .ok (store, .ok Store.differences) ∧ 2 ≤ maxClassVariables ∧
      Match.Binds Store.difference.function (⟨0b0100⟩ : TruthTable 2) [⟨0, true⟩, ⟨1, true⟩] ∧
      Match.Binds Store.difference.function (⟨0b0100⟩ : TruthTable 2) [⟨1, false⟩, ⟨0, false⟩] ∧
      ∃ m ∈ Store.differences.matchesOf (⟨0b0100⟩ : TruthTable 2), m.cell = 0 ∧
        Match.Binds Store.difference.function (⟨0b0100⟩ : TruthTable 2) m.pins ∧ m.inversions ≤ 0 := by
  obtain ⟨store, loaded⟩ := Store.exists_differences
  have hn : 2 ≤ maxClassVariables := by decide
  have hc : Store.differences.cells[0]? = some Store.difference := rfl
  have straight : (Transform.mk [0, 1] 0b11 false).Permutes 2 := .refl _
  have swapped : (Transform.mk [1, 0] 0b00 false).Permutes 2 := .swap ..
  have complemented := (Match.binds_sources_iff straight).2
    (show Transform.onTable _ Store.difference.function = ⟨0b0100⟩ by decide)
  have binds := (Match.binds_sources_iff swapped).2
    (show Transform.onTable _ Store.difference.function = ⟨0b0100⟩ by decide)
  obtain ⟨-, sound, complete⟩ := matchesOf_exact loaded hn (⟨0b0100⟩ : TruthTable 2)
  obtain ⟨m, hm, hcell⟩ := (complete 0 _ hc).2 ⟨_, binds, .inl rfl⟩
  obtain ⟨e, he, found, least⟩ := sound m hm
  rw [hcell, hc] at he
  cases he
  exact ⟨store, loaded, hn, complemented, binds, m, hm, hcell, found, least _ binds⟩

end Library

end Gatework
