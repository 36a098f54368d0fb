import Gatework.Library.Match
import Gatework.Proofs.Npn.Canonical

/-!
# A match computes the function

A cell with its pins in another order and some variables complemented has the table of the function.
Read backwards, the function is the cell at what the pins are bound to (`Match.binds_sources_iff`).  The
search arranges the cell once and complements variables of the function; it finds what a loop over all
transforms finds that carries the complemented variables along (`Match.bind?_eq`).

**Main statement.** `Library.exists_cell_of_mem_matchesOf`.
-/

namespace Gatework

/-- What a pin reads when the variables have the given values. -/
def PinSource.value (σ : Nat → Bool) (pin : PinSource) : Bool := σ pin.leaf ^^ pin.inverted

namespace Match

/-- A cell computes a function with its pins bound: each variable drives one pin, as it is or
complemented. -/
structure Binds {k n : Nat} (cell : TruthTable k) (f : TruthTable n) (pins : List PinSource) : Prop where
  length : pins.length = k
  leaves : (pins.map (·.leaf)).Perm (List.range n)
  value : ∀ σ, f.value (encode n σ) =
    cell.value (encode k fun p => (pins.map (PinSource.value σ)).getD p false)

variable {n : Nat} {cell f : TruthTable n} {perm : List Nat} {mask : Nat} {pins : List PinSource}

lemma Binds.leaf_lt {k : Nat} {cell : TruthTable k} (h : Binds cell f pins) :
    ∀ pin ∈ pins, pin.leaf < n := fun _ hpin =>
  List.mem_range.1 (h.leaves.subset (List.mem_map_of_mem hpin))

/-- The name of the number of variables does not matter. -/
lemma binds_of_as? {k : Nat} {cell g : TruthTable k} (h : f.any.as? k = some g) :
    Binds cell g pins ↔ Binds cell f pins := by
  unfold AnyTable.as? at h
  split at h
  · rename_i hn
    cases hn
    cases h
    rfl
  · cases h

/-! ## Bindings are transforms -/

/-- Variable number `i` drives the pin at position `i` of the order. -/
lemma getElem?_sources (nodup : perm.Nodup) {p i : Nat} (hp : p < perm.length)
    (hi : perm[i]? = some p) : (sources perm mask)[p]? = some ⟨i, mask.testBit i⟩ := by
  simp [sources, hp, Transform.lastPosition_eq nodup hi]

/-- The pins are driven by the variables in the inverse order. -/
lemma leaves_sources (perm : List Nat) (mask : Nat) :
    (sources perm mask).map (·.leaf) = (Transform.mk perm mask false).inverse.perm := by
  simp [sources, Transform.inverse, Transform.numVars]

/-- The sources of the pins give the cell the assignment that the order and the mask lead to. -/
lemma source_eq_encode (h : (Transform.mk perm mask false).Permutes n) (σ : Nat → Bool) :
    (Transform.mk perm mask false).source (encode n σ) =
      encode n fun p => ((sources perm mask).map (PinSource.value σ)).getD p false := by
  refine eq_of_testBit (h.source_lt _) (encode_lt n _) fun p hp => ?_
  obtain ⟨i, hi⟩ := h.exists_position hp
  have hpin : (sources perm mask)[p]? = some ⟨i, mask.testBit i⟩ :=
    getElem?_sources h.nodup (h.length.symm ▸ hp) hi
  rw [h.testBit_source _ hi, testBit_encode hp, testBit_encode (h.lt_of_getElem? hi)]
  simp [hpin, PinSource.value]

/-- The cell is bound by the sources that belong to a transform exactly if the transform makes the function
of it. -/
theorem binds_sources_iff (h : (Transform.mk perm mask false).Permutes n) :
    Binds cell f (sources perm mask) ↔ (Transform.mk perm mask false).onTable cell = f := by
  have hvalue : ∀ σ, ((Transform.mk perm mask false).onTable cell).value (encode n σ) =
      cell.value (encode n fun p => ((sources perm mask).map (PinSource.value σ)).getD p false) := by
    intro σ
    rw [Transform.onTable, TruthTable.value_ofFn _ (encode_lt n σ), Bool.xor_false, source_eq_encode h]
  constructor
  · intro binds
    refine TruthTable.ext_value fun x hx => ?_
    rw [← encode_testBit hx, hvalue, binds.value]
  · rintro rfl
    exact ⟨by simpa [sources] using h.length, leaves_sources perm mask ▸ h.permutes_inverse, hvalue⟩

/-! ## The search -/

lemma lt_of_mem_masksByWeight (h : mask ∈ masksByWeight n) : mask < 2 ^ n := by
  obtain ⟨weight, -, hmask⟩ := List.mem_flatMap.1 h
  exact List.mem_range.1 (List.mem_filter.1 hmask).1

/-- The search complements variables of the function instead of those that the cell reads. -/
lemma onTable_eq_flipAll_iff (hmask : mask < 2 ^ n) :
    (Transform.mk perm 0 false).onTable cell = f.flipAll mask ↔
      (Transform.mk perm mask false).onTable cell = f := by
  have lt : ∀ {x}, x < 2 ^ n → x ^^^ mask < 2 ^ n := fun hx => Nat.xor_lt_two_pow hx hmask
  have back : ∀ x, x ^^^ mask ^^^ mask = x := fun x => by
    rw [Nat.xor_assoc, Nat.xor_self, Nat.xor_zero]
  have masked : ∀ x < 2 ^ n, ((Transform.mk perm mask false).onTable cell).value x =
      ((Transform.mk perm 0 false).onTable cell).value (x ^^^ mask) := by
    intro x hx
    rw [Transform.onTable, TruthTable.value_ofFn _ hx, Transform.onTable,
      TruthTable.value_ofFn _ (lt hx), Transform.source, Transform.source, Nat.xor_zero]
  constructor
  · intro h
    refine TruthTable.ext_value fun x hx => ?_
    rw [masked x hx, h, TruthTable.value_flipAll hmask (lt hx), back]
  · rintro rfl
    refine TruthTable.ext_value fun x hx => ?_
    rw [TruthTable.value_flipAll hmask hx, masked _ (lt hx), back]

/-- The binding by the first order of the inputs that, with the variables of the mask complemented, makes
the function of the cell. -/
def bindAt? (cell f : TruthTable n) (mask : Nat) : Option (List PinSource) :=
  ((Permutation.all n).find? fun perm => (Transform.mk perm mask false).onTable cell == f).map
    (sources · mask)

/-- The search is the loop over all transforms that do not complement the output. -/
theorem bind?_eq (cell f : TruthTable n) : bind? cell f = (masksByWeight n).findSome? (bindAt? cell f) := by
  rw [bind?, ← List.head?_filterMap, ← List.head?_filterMap]
  refine congrArg List.head? (List.filterMap_congr fun mask hmask => ?_)
  have same : (fun perm => (Transform.mk perm 0 false).onTable cell == f.flipAll mask) =
      fun perm => (Transform.mk perm mask false).onTable cell == f := by
    funext perm
    rw [Bool.eq_iff_iff, beq_iff_eq, beq_iff_eq]
    exact onTable_eq_flipAll_iff (lt_of_mem_masksByWeight hmask)
  dsimp only
  rw [bindAt?, ← same, arrangements, List.find?_map, Option.map_map]
  rfl

lemma exists_perm_of_bindAt (h : bindAt? cell f mask = some pins) :
    ∃ perm, (Transform.mk perm mask false).Permutes n ∧ sources perm mask = pins ∧
      (Transform.mk perm mask false).onTable cell = f := by
  obtain ⟨perm, hfind, hpins⟩ := Option.map_eq_some_iff.1 h
  exact ⟨perm, Permutation.steps_perm (List.mem_of_find?_eq_some hfind), hpins,
    beq_iff_eq.1 (List.find?_some hfind :)⟩

/-- A bound cell computes the function. -/
theorem bind?_sound (h : bind? cell f = some pins) : Binds cell f pins := by
  rw [bind?_eq] at h
  obtain ⟨mask, -, h⟩ := List.exists_of_findSome?_eq_some h
  obtain ⟨perm, permutes, rfl, made⟩ := exists_perm_of_bindAt h
  exact (binds_sources_iff permutes).2 made

end Match

namespace Library

variable {l : Library} {n : Nat} {f : TruthTable n} {m : CellMatch}

/-- A bound cell is a cell of the library with as many inputs as the function has variables. -/
lemma bindCell?_eq_some_iff {i : Nat} : l.bindCell? f i = some m ↔ m.cell = i ∧
    ∃ c g, l.cells[i]? = some c ∧ f.any.as? c.inputs = some g ∧
      Match.bind? c.function g = some m.pins := by
  simp only [bindCell?, Option.bind_eq_bind, Option.bind_eq_some_iff, Option.pure_def, Option.some_inj]
  constructor
  · rintro ⟨c, hc, g, hg, pins, hpins, rfl⟩
    exact ⟨rfl, c, g, hc, hg, hpins⟩
  · rintro ⟨rfl, c, g, hc, hg, hpins⟩
    exact ⟨c, hc, g, hg, m.pins, hpins, rfl⟩

/-- The matches are the bindings of the cells of the class that the inverters allow. -/
lemma mem_matchesOf : m ∈ l.matchesOf f ↔ ∃ key, f.class? = some key ∧ m.cell ∈ l.cellsOf key ∧
    l.bindCell? f m.cell = some m ∧ (m.inversions = 0 ∨ l.inverter.isSome = true) := by
  cases hkey : f.class? with
  | none => simp [matchesOf, hkey]
  | some key =>
      simp only [matchesOf, hkey, List.mem_filter, List.mem_filterMap, Option.some_inj,
        exists_eq_left', Bool.or_eq_true, beq_iff_eq]
      constructor
      · rintro ⟨⟨i, hi, hbound⟩, allowed⟩
        obtain rfl := (bindCell?_eq_some_iff.1 hbound).1
        exact ⟨hi, hbound, allowed⟩
      · rintro ⟨hi, hbound, allowed⟩
        exact ⟨⟨m.cell, hi, hbound⟩, allowed⟩

/-- A match names a cell of the library that computes the function with its pins bound so. -/
theorem exists_cell_of_mem_matchesOf (h : m ∈ l.matchesOf f) :
    ∃ c, l.cells[m.cell]? = some c ∧ Match.Binds c.function f m.pins := by
  obtain ⟨-, -, -, hbound, -⟩ := mem_matchesOf.1 h
  obtain ⟨-, c, g, hc, hg, hbind⟩ := bindCell?_eq_some_iff.1 hbound
  exact ⟨c, hc, (Match.binds_of_as? hg).1 (Match.bind?_sound hbind)⟩

end Library

end Gatework
