import Gatework.Proofs.Builder.Meaning

/-!
# Simplified cells have the same value

A builder may leave out operands of a cell, or reuse a cell with the operands in another order.  Both
are facts about the values of gates.

* `foldCell_value`: what is left of a cell after folding has the value of the cell, if the constants
  among its operands are what they are taken for.
* `Cell.portsIn_normal`: a cell and its normal form have the same value.
-/

namespace Gatework

lemma Link.read_invert (v : Valuation) (l : Link) : l.invert.read v = !l.read v := by
  simp [Link.read, Link.invert, Link.invertIf]

lemma Link.read_invertIf (v : Valuation) (l : Link) (flag : Bool) :
    (l.invertIf flag).read v = (l.read v ^^ flag) := by
  simp [Link.read, Link.invertIf]

namespace Gate

lemma all_id_eq (xs : List Bool) : xs.all id = !decide (false ∈ xs) := by
  induction xs with
  | nil => rfl
  | cons x xs ih => cases x <;> simp [ih]

lemma any_id_eq (xs : List Bool) : xs.any id = decide (true ∈ xs) := by
  induction xs with
  | nil => rfl
  | cons x xs ih => cases x <;> simp [ih]

/-- The parity of a list, started from another value. -/
lemma foldl_xor (xs : List Bool) (b : Bool) :
    xs.foldl Bool.xor b = (b ^^ xs.foldl Bool.xor false) := by
  induction xs generalizing b with
  | nil => simp
  | cons x xs ih =>
      rw [List.foldl_cons, List.foldl_cons, ih, ih (Bool.xor false x)]
      simp

lemma foldl_xor_perm {xs ys : List Bool} (h : xs.Perm ys) :
    xs.foldl Bool.xor false = ys.foldl Bool.xor false :=
  h.foldl_eq' (fun x _ y _ z => by cases x <;> cases y <;> cases z <;> rfl) false

/-- The value of a gate whose operands may be reordered. -/
lemma value_perm {g : Gate} (hg : g.traits.commutative = true) {xs ys : List Bool}
    (h : xs.Perm ys) : g.value xs = g.value ys := by
  cases g with
  | input | output | zero | one | buf | not => cases hg
  | and | nand => simp only [value, all_id_eq, h.mem_iff]
  | or | nor => simp only [value, any_id_eq, h.mem_iff]
  | xor | xnor => simp only [value, foldl_xor_perm h]
  | maj => simp only [value, h.length_eq, h.count_eq]

/-- The gates that may be regrouped. -/
lemma eq_of_regroupable {g : Gate} (hg : g.traits.regroupable = true) :
    g = and ∨ g = or ∨ g = xor := by
  cases g with
  | and | or | xor => simp
  | input | output | zero | one | buf | not | nand | nor | xnor | maj => cases hg

lemma value_singleton {g : Gate} (hg : g.traits.regroupable = true) (x : Bool) :
    g.value [x] = x := by
  rcases eq_of_regroupable hg with rfl | rfl | rfl <;> simp [value]

lemma arity_of_regroupable {g : Gate} (hg : g.traits.regroupable = true) :
    g ≠ input ∧ g ≠ output ∧ g.arity = (2, maxArity) := by
  rcases eq_of_regroupable hg with rfl | rfl | rfl <;> decide

/-- The value of a gate that may be regrouped. -/
lemma value_flatten {g : Gate} (hg : g.traits.regroupable = true) (xss : List (List Bool)) :
    g.value xss.flatten = g.value (xss.map fun xs => g.value xs) := by
  induction xss with
  | nil => rfl
  | cons xs xss ih =>
      rcases eq_of_regroupable hg with rfl | rfl | rfl
      · simp_all [value]
      · simp_all [value]
      · simp only [value] at ih ⊢
        rw [List.flatten_cons, List.foldl_append, foldl_xor, ih, List.map_cons, List.foldl_cons,
          foldl_xor _ (Bool.xor false _)]
        simp

end Gate

/-- A cell and its normal form have the same value. -/
lemma Cell.portsIn_normal (m : Meaning) (v : Valuation) (c : Cell) :
    c.normal.portsIn m v = c.portsIn m v := by
  unfold Cell.normal
  split
  · rename_i hcomm
    cases hkind : c.kind.symbol with
    | cell =>
        rw [CellKind.commutative, hkind] at hcomm
        cases hcomm
    | gate g =>
        rw [CellKind.commutative, hkind] at hcomm
        have hperm := (List.mergeSort_perm c.links fun a b => (a.order b).isLE).map (Link.read v)
        simp only [Cell.portsIn, Cell.ports, hkind, Gate.value_perm hcomm hperm]
  · rfl

namespace Builder

variable {b : Builder} {m : Meaning} {v : Valuation}

/-- The constants among some operands are what they are taken for. -/
def ConstantsIn (b : Builder) (v : Valuation) (links : List Link) : Prop :=
  ∀ l ∈ links, ∀ value, b.constantValue? l = some value → l.read v = value

/-- Folding a conjunction or disjunction keeps whether an operand decides it. -/
lemma mem_foldLattice (absorbing : Bool) (kept links : List Link) (h : b.ConstantsIn v links) :
    (b.foldLattice absorbing kept links).elim True (fun result => absorbing ∈ result.map (Link.read v)) ↔
      absorbing ∈ (kept ++ links).map (Link.read v) := by
  induction links generalizing kept with
  | nil => simp [foldLattice]
  | cons l links ih =>
      have ih := fun kept => ih kept fun k hk => h k (by simp [hk])
      rw [foldLattice]
      split
      · rename_i value hvalue
        have hread := h l (by simp) value hvalue
        split
        · rename_i heq
          simp [← heq, ← hread]
        · rename_i hne
          rw [ih]
          simp only [List.map_append, List.map_cons, List.mem_append, List.mem_cons, hread,
            Ne.symm hne, false_or]
      · split
        · rename_i hinv
          have hmem : l.invert ∈ kept := by simpa using hinv
          simp only [Option.elim_none, true_iff]
          by_cases hread : l.read v = absorbing
          · simp [← hread]
          · have : l.invert.read v = absorbing := by
              rw [Link.read_invert]
              exact Bool.not_eq_eq_eq_not.2 (Bool.eq_not_of_ne hread)
            exact List.mem_map.2 ⟨l.invert, by simp [hmem], this⟩
        · split
          · rename_i hin
            have hmem : l ∈ kept := by simpa using hin
            rw [ih]
            simp only [List.map_append, List.map_cons, List.mem_append, List.mem_cons]
            have := List.mem_map_of_mem (f := Link.read v) hmem
            constructor
            · tauto
            · rintro (h | rfl | h) <;> tauto
          · rw [ih]
            simp

/-- Folding an exclusive disjunction keeps the parity. -/
lemma foldParity_eq (kept : List Link) (parity : Bool) (links : List Link)
    (h : b.ConstantsIn v links) :
    (((b.foldParity kept parity links).1.map (Link.read v)).foldl Bool.xor false ^^
        (b.foldParity kept parity links).2) =
      (((kept ++ links).map (Link.read v)).foldl Bool.xor false ^^ parity) := by
  induction links generalizing kept parity with
  | nil => simp [foldParity]
  | cons l links ih =>
      have ih := fun kept parity => ih kept parity fun k hk => h k (by simp [hk])
      -- the operand moves in front of all others
      have front : ((kept ++ l :: links).map (Link.read v)).foldl Bool.xor false =
          (l.read v ^^ ((kept ++ links).map (Link.read v)).foldl Bool.xor false) := by
        rw [Gate.foldl_xor_perm (List.perm_middle.map (Link.read v)), List.map_cons, List.foldl_cons,
          Gate.foldl_xor]
        simp
      rw [foldParity]
      split
      · rename_i value hvalue
        rw [ih, front, h l (by simp) value hvalue]
        cases value <;> cases parity <;> simp
      · split
        · rename_i k hk
          have hmem := List.mem_of_find?_eq_some hk
          have hpos : k.positive = l.positive := by simpa using List.find?_some hk
          have hread : k.read v = (l.read v ^^ (k.inverted ^^ l.inverted)) := by
            have hentry : k.entry = l.entry := (Link.mk.inj hpos).1
            have hport : k.port = l.port := (Link.mk.inj hpos).2.1
            simp only [Link.read, hentry, hport]
            cases k.inverted <;> cases l.inverted <;> simp
          have hkept : ((kept ++ links).map (Link.read v)).foldl Bool.xor false =
              (k.read v ^^ ((kept.erase k ++ links).map (Link.read v)).foldl Bool.xor false) := by
            have hperm := ((List.perm_cons_erase hmem).append_right links).map (Link.read v)
            rw [Gate.foldl_xor_perm hperm, List.cons_append, List.map_cons, List.foldl_cons,
              Gate.foldl_xor]
            simp
          rw [ih, front, hkept, hread]
          cases l.read v <;> cases k.inverted <;> cases l.inverted <;> cases parity <;> simp
        · rw [ih]
          simp

/-- The value of what is left of a cell after folding. -/
def Folded.value (m : Meaning) (v : Valuation) (kind : CellKind) : Folded → Bool
  | .link l => l.read v
  | .constant value => value
  | .cell links inverted => ((Cell.mk kind links).portsIn m v).headD false ^^ inverted

/-- A conjunction or disjunction is decided by one operand. -/
lemma lattice_value {kind : CellKind} {g : Gate} (hkind : kind.symbol = .gate g) {absorbing : Bool}
    {links : List Link}
    (hg : ∀ xs, g.value xs = if absorbing ∈ xs then absorbing else !absorbing)
    (h : b.ConstantsIn v links) :
    (foldCell.lattice b absorbing links).value m v kind = g.value (links.map (Link.read v)) := by
  have hmem := mem_foldLattice absorbing [] links h
  rw [List.nil_append] at hmem
  rw [hg]
  unfold foldCell.lattice
  split
  · rename_i hfold
    rw [hfold] at hmem
    rw [if_pos (hmem.1 trivial)]
    rfl
  · rename_i hfold
    rw [hfold] at hmem
    rw [if_neg (by simpa using hmem)]
    rfl
  · rename_i l hfold
    rw [hfold] at hmem
    simp only [← hmem, Option.elim_some, List.map_singleton, List.mem_singleton, Folded.value]
    cases l.read v <;> cases absorbing <;> rfl
  · rename_i kept _ hfold
    rw [hfold] at hmem
    simp only [Folded.value, Cell.portsIn, Cell.ports, hkind, List.headD_cons, Bool.xor_false, hg]
    simp only [← hmem, Option.elim_some]

/-- What is left of a cell after folding has the value of the cell. -/
theorem foldCell_value (kind : CellKind) {links : List Link} (h : b.ConstantsIn v links) :
    (b.foldCell kind.symbol links).value m v kind = ((Cell.mk kind links).portsIn m v).headD false := by
  have ports : ∀ {g : Gate}, kind.symbol = .gate g →
      ((Cell.mk kind links).portsIn m v).headD false = g.value (links.map (Link.read v)) := by
    intro g hkind
    simp only [Cell.portsIn, Cell.ports, hkind, List.headD_cons]
  unfold foldCell
  split
  · rename_i hkind
    rw [ports hkind]
    rfl
  · rename_i hkind
    rw [ports hkind, lattice_value hkind (fun xs => ?_) h]
    rw [Gate.value, Gate.all_id_eq]
    split <;> simp_all
  · rename_i hkind
    rw [ports hkind, lattice_value hkind (fun xs => ?_) h]
    rw [Gate.value, Gate.any_id_eq]
    split <;> simp_all
  · rename_i hkind
    have hparity := foldParity_eq [] false _ h
    rw [List.nil_append, Bool.xor_false] at hparity
    rw [ports hkind]
    simp only [Gate.value, ← hparity]
    split
    · rename_i parity hfold
      simp [hfold, Folded.value]
    · rename_i l parity hfold
      simp [hfold, Folded.value, Link.read_invertIf]
    · rename_i kept parity _ hfold
      simp [hfold, Folded.value, Cell.portsIn, Cell.ports, hkind, Gate.value]
  · simp [Folded.value]

end Builder

end Gatework
