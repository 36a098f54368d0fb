import Mathlib.Order.Compare
import Gatework.Npn.Catalogue
import Gatework.Proofs.TruthTable

/-!
# The classes of a catalogue

The classes stand in increasing order of their tables, each once.  Listing one more network changes
the networks of one class and keeps the order, and a look-up finds what was listed
(`networksOf?_listed`).
-/

namespace Gatework

namespace WordTable

lemma compareWords_eq (as bs : List UInt64) : compareWords as bs = compare as bs := by
  induction as generalizing bs with
  | nil => cases bs <;> rfl
  | cons a as ih =>
      cases bs with
      | nil => rfl
      | cons b bs =>
          rw [compareWords, ih, List.compare_eq_compareLex, List.compareLex_cons_cons]

lemma order_eq :
    order = compareLex (compareOn (·.numVars)) (compareOn (·.words.reverse)) := by
  funext s t
  rw [order, compareWords_eq]
  rfl

instance : Std.TransCmp order := order_eq ▸ inferInstance

lemma eq_of_order {s t : WordTable} (h : s.order t = .eq) : s = t := by
  rw [order, Ordering.then_eq_eq, Nat.compare_eq_eq, compareWords_eq, Std.compare_eq_iff_eq] at h
  cases s
  cases t
  simpa using h

/-- A table of at most six variables is determined by its word. -/
lemma ofTable_injective {n : Nat} (hn : n ≤ maxClassVariables) {f g : TruthTable n}
    (h : ofTable f = ofTable g) : f = g := by
  have hn : n ≤ 6 := hn
  have hlt : ∀ t : TruthTable n, t.toNat < 2 ^ 64 := fun t =>
    t.bits.isLt.trans_le (Nat.pow_le_pow_right (by decide)
      (Nat.pow_le_pow_right (n := 2) (by decide) hn))
  have hword : UInt64.ofNat f.toNat = UInt64.ofNat g.toNat := by
    simpa [ofTable, TruthTable.words, wordCount, hn, wordsOfNat] using h
  have := congrArg UInt64.toNat hword
  rw [UInt64.toNat_ofNat_of_lt' (hlt f), UInt64.toNat_ofNat_of_lt' (hlt g)] at this
  exact TruthTable.ext (BitVec.eq_of_toNat_eq this)

end WordTable

namespace Catalogue

variable {classes : List (WordTable × List Nat)} {key k : WordTable} {f : List Nat → List Nat}

/-! ## Changing one class -/

/-- The classes stand in increasing order. -/
def Ordered (classes : List (WordTable × List Nat)) : Prop :=
  classes.Pairwise fun a b => a.1.order b.1 = .lt

/-- The networks of a class in a list. -/
def lookup (classes : List (WordTable × List Nat)) (key : WordTable) : Option (List Nat) :=
  (classes.find? (·.1 == key)).map (·.2)

lemma lookup_cons (entry : WordTable × List Nat) :
    lookup (entry :: classes) key = if entry.1 = key then some entry.2 else lookup classes key := by
  rw [lookup, List.find?_cons]
  by_cases h : entry.1 = key
  · simp [h]
  · simp [h, beq_false_of_ne h, lookup]

lemma lookup_eq_none (h : ∀ entry ∈ classes, entry.1 ≠ key) : lookup classes key = none := by
  simpa [lookup] using h

lemma mem_of_lookup {networks : List Nat} (h : lookup classes key = some networks) :
    (key, networks) ∈ classes := by
  obtain ⟨⟨k, _⟩, hentry, rfl⟩ := Option.map_eq_some_iff.1 h
  have hkey : k = key := by simpa using List.find?_some hentry
  exact hkey ▸ List.mem_of_find?_eq_some hentry

/-- A table in front of the first class is none of the classes. -/
lemma Ordered.ne_of_lt (ordered : Ordered classes) {entry : WordTable × List Nat}
    (hlt : ∀ head ∈ classes.head?, key.order head.1 = .lt) (h : entry ∈ classes) : entry.1 ≠ key := by
  rintro rfl
  cases classes with
  | nil => cases h
  | cons head rest =>
      have hlt := hlt head rfl
      rcases List.mem_cons.1 h with rfl | h
      · simp [Std.ReflCmp.compare_self] at hlt
      · have := Std.TransCmp.lt_trans hlt ((List.pairwise_cons.1 ordered).1 entry h)
        simp [Std.ReflCmp.compare_self] at this

lemma Ordered.lookup_eq (ordered : Ordered classes) {entry : WordTable × List Nat}
    (h : entry ∈ classes) : lookup classes entry.1 = some entry.2 := by
  induction classes with
  | nil => cases h
  | cons head rest ih =>
      obtain ⟨hhead, hrest⟩ := List.pairwise_cons.1 ordered
      rw [lookup_cons]
      rcases List.mem_cons.1 h with rfl | h
      · rw [if_pos rfl]
      · rw [if_neg, ih hrest h]
        intro heq
        have := hhead entry h
        rw [heq] at this
        simp [Std.ReflCmp.compare_self] at this

/-- A class is as before, or it is the changed one. -/
lemma mem_alterClass {entry : WordTable × List Nat} (h : entry ∈ alterClass key f classes) :
    entry ∈ classes ∨ entry.1 = key ∧ ∃ old, entry.2 = f old ∧ (old = [] ∨ (key, old) ∈ classes) := by
  induction classes with
  | nil =>
      rw [List.mem_singleton.1 h]
      exact .inr ⟨rfl, [], rfl, .inl rfl⟩
  | cons head rest ih =>
      rw [alterClass] at h
      split at h
      · rcases List.mem_cons.1 h with rfl | h
        · exact .inr ⟨rfl, [], rfl, .inl rfl⟩
        · exact .inl h
      · rename_i horder
        obtain rfl := WordTable.eq_of_order horder
        rcases List.mem_cons.1 h with rfl | h
        · exact .inr ⟨rfl, _, rfl, .inr (.head _)⟩
        · exact .inl (.tail _ h)
      · rcases List.mem_cons.1 h with rfl | h
        · exact .inl (.head _)
        · refine (ih h).imp (.tail _) fun ⟨hkey, old, hentry, hold⟩ => ?_
          exact ⟨hkey, old, hentry, hold.imp_right (.tail _)⟩

lemma Ordered.alterClass (ordered : Ordered classes) : Ordered (alterClass key f classes) := by
  induction classes with
  | nil => exact List.pairwise_singleton _ _
  | cons head rest ih =>
      obtain ⟨hhead, hrest⟩ := List.pairwise_cons.1 ordered
      rw [Catalogue.alterClass]
      split
      · rename_i horder
        refine List.pairwise_cons.2 ⟨fun entry hentry => ?_, ordered⟩
        rcases List.mem_cons.1 hentry with rfl | hentry
        · exact horder
        · exact Std.TransCmp.lt_trans horder (hhead entry hentry)
      · exact List.pairwise_cons.2 ⟨hhead, hrest⟩
      · rename_i horder
        refine List.pairwise_cons.2 ⟨fun entry hentry => ?_, ih hrest⟩
        rcases mem_alterClass hentry with hentry | ⟨hkey, -⟩
        · exact hhead entry hentry
        · rw [hkey]
          exact Std.OrientedCmp.lt_of_gt horder

/-- Changing one class changes the networks of that class only. -/
lemma Ordered.lookup_alterClass (ordered : Ordered classes) :
    lookup (Catalogue.alterClass key f classes) k =
      if key = k then some (f ((lookup classes key).getD [])) else lookup classes k := by
  induction classes with
  | nil =>
      rw [Catalogue.alterClass, lookup_cons]
      rfl
  | cons head rest ih =>
      obtain ⟨hhead, hrest⟩ := List.pairwise_cons.1 ordered
      rw [Catalogue.alterClass]
      split
      · rename_i horder
        have hne : ∀ entry ∈ head :: rest, entry.1 ≠ key := fun entry =>
          ordered.ne_of_lt (by simpa using horder)
        rw [lookup_cons, lookup_eq_none hne]
        rfl
      · rename_i horder
        obtain rfl := WordTable.eq_of_order horder
        simp only [lookup_cons, if_true, Option.getD_some]
        split <;> rfl
      · rename_i horder
        have hne : head.1 ≠ key := by
          rintro rfl
          simp [Std.ReflCmp.compare_self] at horder
        rw [lookup_cons, lookup_cons, lookup_cons, ih hrest, if_neg hne]
        by_cases hk : key = k
        · rw [if_pos hk, if_pos hk, if_neg (hk ▸ hne)]
        · rw [if_neg hk, if_neg hk]

/-! ## Listing one more network -/

variable {c : Catalogue} {imprint : List UInt8} {position : Nat}

/-- The catalogue with one more network. -/
def listed (c : Catalogue) (key : WordTable) (imprint : List UInt8) (position : Nat) : Catalogue where
  classes := alterClass key (· ++ [position]) c.classes
  imprints := (imprint, position) :: c.imprints

/-- The positions of all networks, class by class. -/
def positions (c : Catalogue) : List Nat := c.classes.flatMap (·.2)

lemma networksOf?_listed (ordered : Ordered c.classes) :
    (c.listed key imprint position).networksOf? k =
      if key = k then some ((c.networksOf? key).getD [] ++ [position]) else c.networksOf? k :=
  ordered.lookup_alterClass

/-- One position is added. -/
lemma positions_listed : (c.listed key imprint position).positions.Perm (position :: c.positions) := by
  show ((alterClass key (· ++ [position]) c.classes).flatMap (·.2)).Perm
    (position :: c.classes.flatMap (·.2))
  generalize c.classes = classes
  induction classes with
  | nil => exact .refl _
  | cons head rest ih =>
      rw [alterClass]
      split
      · exact .refl _
      · simp only [List.flatMap_cons, List.append_assoc]
        exact List.perm_middle
      · simp only [List.flatMap_cons]
        exact (ih.append_left head.2).trans List.perm_middle

/-- What is true of all listed networks and of one more is true of all then. -/
lemma forall_listed {P : WordTable → Nat → Prop}
    (h : ∀ entry ∈ c.classes, ∀ p ∈ entry.2, P entry.1 p) (hnew : P key position) :
    ∀ entry ∈ (c.listed key imprint position).classes, ∀ p ∈ entry.2, P entry.1 p := by
  intro entry hentry p hp
  rcases mem_alterClass hentry with hentry | ⟨hkey, old, hnetworks, hold⟩
  · exact h entry hentry p hp
  · rw [hkey]
    rw [hnetworks] at hp
    rcases List.mem_append.1 hp with hp | hp
    · rcases hold with rfl | hold
      · cases hp
      · exact h _ hold p hp
    · rwa [List.mem_singleton.1 hp]

end Catalogue

end Gatework
