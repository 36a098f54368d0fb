import Std.Data.HashMap.Lemmas
import Gatework.Proofs.Evaluation

/-!
# The function of a cone

`Separated` says that the leaves separate an entry from the inputs.  A cone is evaluated entry by
entry, each once, with the leaves as variables.

* `Store.tabulateCone_sound`: the table holds the value of the root wherever a valuation obeys the cells
  between the leaves and the root.  The valuation need not obey the leaves themselves, so the table can
  be read at any assignment of the leaves.
* `Store.tabulateCone_stored`: the words of the table are those of the root, with the bits behind the
  assignments cleared.
* `Store.tabulateCone_ok_or_input`: as long as the cells above the leaves can be evaluated, either there
  is a table, and the leaves separate the root from the inputs, or the evaluation ends at an input that
  can be reached without passing a leaf (`Bypasses`).
-/

namespace Gatework

/-- Every path from an entry down to an input passes through a leaf. -/
inductive Separated (cells : Array Cell) (leaves : List Nat) : Nat → Prop
  | leaf {e : Nat} (he : e ∈ leaves) : Separated cells leaves e
  | cell {e : Nat} {c : Cell} (hc : cells[e]? = some c) (hinput : c.isInput = false)
      (drivers : ∀ d ∈ c.drivers, Separated cells leaves d) : Separated cells leaves e

/-- There is a path from one entry down to another one that does not pass any leaf. -/
inductive Bypasses (cells : Array Cell) (leaves : List Nat) : Nat → Nat → Prop
  | refl {e : Nat} (he : e ∉ leaves) : Bypasses cells leaves e e
  | step {e d i : Nat} {c : Cell} (he : e ∉ leaves) (hc : cells[e]? = some c) (hd : d ∈ c.drivers)
      (rest : Bypasses cells leaves d i) : Bypasses cells leaves e i

/-- A path down from an entry that is separated from the inputs does not get around the leaves. -/
lemma Separated.isInput_of_bypasses {cells : Array Cell} {leaves : List Nat} {e i : Nat} {c : Cell}
    (h : Separated cells leaves e) (bypass : Bypasses cells leaves e i) (hi : cells[i]? = some c) :
    c.isInput = false := by
  induction bypass with
  | refl he =>
      cases h with
      | leaf hleaf => exact absurd hleaf he
      | cell hc hinput _ =>
          cases hi.symm.trans hc
          exact hinput
  | step he hc hd _ ih =>
      cases h with
      | leaf hleaf => exact absurd hleaf he
      | cell hc' _ drivers =>
          cases hc.symm.trans hc'
          exact ih (drivers _ hd) hi

/-- A valuation gives the leaves of a cone the values of an assignment and obeys the cells above
them, among the entries of a set that contains everything they read. -/
structure ConeSolution (m : Meaning) (cells : Array Cell) (leaves : List Nat) (x : Nat)
    (v : Valuation) (S : Nat → Prop) : Prop where
  leaf : ∀ (k : Nat) e, leaves[k]? = some e → (v e).head? = some (x.testBit k)
  obeys : ∀ e, S e → e ∉ leaves → ∀ c, cells[e]? = some c → c.isInput = false → v e = c.portsIn m v
  closed : ∀ e, S e → e ∉ leaves → ∀ c, cells[e]? = some c → ∀ d ∈ c.drivers, S d

namespace Store

/-! ## Leaves -/

section Leaves

variable {leaves : List Nat} {e : Nat} {ports : Ports}

lemma getElem?_foldl_insert (pairs : List (Nat × Signal)) (values : ConeValues)
    (h : (pairs.foldl (fun m (leaf, s) => m.insert leaf [s]) values)[e]? = some ports) :
    values[e]? = some ports ∨ ∃ s, (e, s) ∈ pairs ∧ ports = [s] := by
  induction pairs generalizing values with
  | nil => exact .inl h
  | cons pair pairs ih =>
      rcases ih _ h with h | ⟨s, hs, rfl⟩
      · rw [Std.HashMap.getElem?_insert] at h
        split at h
        · rename_i he
          cases h
          exact .inr ⟨pair.2, by simp [← beq_iff_eq.1 he], rfl⟩
        · exact .inl h
      · exact .inr ⟨s, by simp [hs], rfl⟩

lemma mem_foldl_insert (pairs : List (Nat × Signal)) (values : ConeValues)
    (h : e ∈ values ∨ e ∈ pairs.map (·.1)) :
    e ∈ pairs.foldl (fun m (leaf, s) => m.insert leaf [s]) values := by
  induction pairs generalizing values with
  | nil => simpa using h
  | cons pair pairs ih =>
      refine ih _ ?_
      rcases h with h | h
      · exact .inl (Std.HashMap.mem_insert.2 (.inr h))
      · rcases List.mem_cons.1 h with rfl | h
        · exact .inl (Std.HashMap.mem_insert.2 (.inl (by simp)))
        · exact .inr h

/-- Leaf number `k` is variable `k`. -/
lemma getElem?_leafValues (h : (leafValues leaves)[e]? = some ports) :
    ∃ k : Nat, leaves[k]? = some e ∧ ports = [.ofWords (TruthTable.var leaves.length k).words] := by
  rcases getElem?_foldl_insert _ _ h with h | ⟨s, hs, rfl⟩
  · simp at h
  · obtain ⟨k, hk⟩ := List.mem_iff_getElem?.1 hs
    obtain ⟨hleaf, hsignal⟩ := List.getElem?_zip_eq_some.1 hk
    have hlt := (List.getElem?_eq_some_iff.1 hleaf).1
    rw [assignments, List.getElem?_map, List.getElem?_range hlt] at hsignal
    exact ⟨k, hleaf, congrArg (fun s => [s]) (Option.some.inj hsignal).symm⟩

lemma mem_leafValues (he : e ∈ leaves) : e ∈ leafValues leaves := by
  refine mem_foldl_insert _ _ (.inr ?_)
  rwa [List.map_fst_zip (by simp)]

end Leaves

/-! ## Soundness -/

section

variable {cells : Array Cell} {composite : CompositeMeaning} {m : Meaning} {width root : Nat}
  {leaves : List Nat} {x : Nat} {v : Valuation} {S : Nat → Prop}

/-- The evaluated part of a cone contains the leaves and is right about its entries. -/
structure VisitedAt (leaves : List Nat) (width x : Nat) (v : Valuation) (values : ConeValues) :
    Prop where
  leaves_mem : ∀ e ∈ leaves, e ∈ values
  at_entry : ∀ e ports, values[e]? = some ports → PortsAt width x ports (v e)

lemma VisitedAt.read {values : ConeValues} (h : VisitedAt leaves width x v values) {l : Link}
    {s : Signal} (hs : readCone values l = .ok s) :
    s.width = width ∧ (x < width → s.value x = l.read v) := by
  unfold readCone at hs
  split at hs
  · rename_i ports hports
    exact (h.at_entry l.entry ports hports).read hs
  · cases hs

lemma VisitedAt.insert {values : ConeValues} (h : VisitedAt leaves width x v values) {e : Nat}
    {ports : Ports} (hports : PortsAt width x ports (v e)) :
    VisitedAt leaves width x v (values.insert e ports) where
  leaves_mem d hd := Std.HashMap.mem_insert.2 (.inr (h.leaves_mem d hd))
  at_entry d p hp := by
    rw [Std.HashMap.getElem?_insert] at hp
    split at hp
    · rename_i he
      cases hp
      exact beq_iff_eq.1 he ▸ hports
    · exact h.at_entry d p hp

lemma visitedAt_leafValues (hx : x < 2 ^ leaves.length)
    (hleaf : ∀ (k : Nat) e, leaves[k]? = some e → (v e).head? = some (x.testBit k)) :
    VisitedAt leaves (64 * wordCount leaves.length) x v (leafValues leaves) where
  leaves_mem _ := mem_leafValues
  at_entry e ports h := by
    obtain ⟨k, hk, rfl⟩ := getElem?_leafValues h
    refine ⟨by simpa using width_ofWords_words _, fun _ => ?_⟩
    obtain ⟨rest, hrest⟩ := List.head?_eq_some_iff.1 (hleaf k e hk)
    rw [hrest, List.map_singleton, value_ofWords_words _ hx, TruthTable.value_var hx]
    exact List.prefix_append [x.testBit k] rest

/-- A visit keeps the evaluated part right. -/
lemma visitCone_sound (sound : composite.Sound width m)
    (solution : ConeSolution m cells leaves x v S) (fuel : Nat) {values values' : ConeValues}
    {e : Nat} (he : S e) (h : VisitedAt leaves width x v values)
    (hvisit : visitCone cells composite width root fuel values e = .ok values') :
    VisitedAt leaves width x v values' := by
  induction fuel generalizing values values' e with
  | zero => cases hvisit
  | succ fuel ih =>
      unfold visitCone at hvisit
      split at hvisit
      · cases hvisit
        exact h
      rename_i hnew
      have hleaf : e ∉ leaves := fun hmem => hnew (Std.HashMap.contains_iff_mem.2 (h.leaves_mem e hmem))
      split at hvisit
      · cases hvisit
      rename_i c hc
      split at hvisit
      · cases hvisit
      rename_i hinput
      obtain ⟨below, hbelow, hvisit⟩ := bind_eq_ok_iff.1 hvisit
      obtain ⟨operands, hoperands, hvisit⟩ := bind_eq_ok_iff.1 hvisit
      obtain ⟨ports, hports, hvisit⟩ := bind_eq_ok_iff.1 hvisit
      cases hvisit
      have visited : VisitedAt leaves width x v below := by
        refine foldlM_invariant _ h (fun d hd s s' hs hd' => ?_) hbelow
        exact ih (solution.closed e he hleaf c hc d (List.mem_reverse.1 hd)) hs hd'
      refine visited.insert ?_
      rw [solution.obeys e he hleaf c hc (Bool.eq_false_iff.2 hinput)]
      exact Cell.evaluate_sound sound (signalsAt_of_mapM hoperands fun l _ s => visited.read) hports

/-- The table of a cone holds the value of its root. -/
theorem tabulateCone_sound {store : Store} {t : TruthTable leaves.length}
    (h : store.tabulateCone cells root leaves = .ok t) (hx : x < 2 ^ leaves.length)
    (solution : ConeSolution store.ports cells leaves x v S) (hroot : S root) :
    t.value x = (v root).headD false := by
  simp only [tabulateCone] at h
  split at h
  · cases h
  · obtain ⟨values, hvalues, h⟩ := bind_eq_ok_iff.1 h
    obtain ⟨s, hs, h⟩ := bind_eq_ok_iff.1 h
    cases h
    have visited := visitCone_sound (store.meaning_sound _) solution _ hroot
      (visitedAt_leafValues hx solution.leaf) hvalues
    obtain ⟨hwidth, hvalue⟩ := visited.read hs
    rw [value_ofWords hwidth hx, hvalue (WordTable.lt_wordCount_bits hx)]
    cases hv : v root <;> simp [Link.read, Link.of, hv]

/-! ## Words -/

/-- Every signal in the evaluated part of a cone has the width. -/
def Uniform (width : Nat) (values : ConeValues) : Prop :=
  ∀ (e : Nat) ports, values[e]? = some ports → ∀ s ∈ ports, s.width = width

lemma uniform_leafValues (leaves : List Nat) :
    Uniform (64 * wordCount leaves.length) (leafValues leaves) := by
  intro e ports h
  obtain ⟨k, -, rfl⟩ := getElem?_leafValues h
  simpa using width_ofWords_words _

lemma Uniform.readCone {values : ConeValues} (h : Uniform width values) {l : Link} {s : Signal}
    (hs : readCone values l = .ok s) : s.width = width := by
  unfold Store.readCone at hs
  split at hs
  · rename_i ports hports
    unfold Ports.read at hs
    split at hs
    · rename_i t ht
      cases hs
      rw [Signal.width_invertIf]
      exact h _ ports hports t (List.mem_of_getElem? ht)
    · cases hs
  · cases hs

/-- A visit adds signals of the same width. -/
lemma Uniform.visitCone (sound : composite.Sound width m) (fuel : Nat) {values values' : ConeValues}
    {e : Nat} (h : Uniform width values)
    (hvisit : visitCone cells composite width root fuel values e = .ok values') :
    Uniform width values' := by
  induction fuel generalizing values values' e with
  | zero => cases hvisit
  | succ fuel ih =>
      unfold Store.visitCone at hvisit
      split at hvisit
      · cases hvisit
        exact h
      split at hvisit
      · cases hvisit
      split at hvisit
      · cases hvisit
      obtain ⟨below, hbelow, hvisit⟩ := bind_eq_ok_iff.1 hvisit
      obtain ⟨operands, hoperands, hvisit⟩ := bind_eq_ok_iff.1 hvisit
      obtain ⟨ports, hports, hvisit⟩ := bind_eq_ok_iff.1 hvisit
      cases hvisit
      have uniform : Uniform width below :=
        foldlM_invariant _ h (fun _ _ _ _ hs hd => ih hs hd) hbelow
      have hwidths : ∀ s ∈ operands, s.width = width := fun s hs => by
        obtain ⟨l, -, hl⟩ := exists_of_forall₂_right (forall₂_of_mapM_eq_ok hoperands) s hs
        exact uniform.readCone hl
      have added := (Cell.evaluate_sound sound ⟨hwidths, fun _ => rfl⟩ hports :
        PortsAt width 0 ports _).width_eq
      intro d p hp
      rw [Std.HashMap.getElem?_insert] at hp
      split at hp
      · cases hp
        exact added
      · exact uniform d p hp

/-- The words of the table of a cone are what the words of its root form if all assignments of the leaves
are simulated. -/
theorem tabulateCone_stored {store : Store} {t : TruthTable leaves.length}
    (h : store.tabulateCone cells root leaves = .ok t) :
    ∃ values s, Store.visitCone cells (store.meaning (64 * wordCount leaves.length))
        (64 * wordCount leaves.length) root (cells.size + 1) (leafValues leaves) root = .ok values ∧
      Store.readCone values (.of root) = .ok s ∧
      WordTable.ofWords leaves.length s.words = .ok (.ofTable t) := by
  simp only [tabulateCone] at h
  split at h
  · cases h
  rename_i hn
  obtain ⟨values, hvalues, h⟩ := bind_eq_ok_iff.1 h
  obtain ⟨s, hs, h⟩ := bind_eq_ok_iff.1 h
  cases h
  refine ⟨values, s, hvalues, hs, WordTable.ofWords_ofTable ?_ ?_⟩
  · exact (Nat.not_lt.1 hn).trans_lt (by decide)
  · have hwidth := ((uniform_leafValues leaves).visitCone (store.meaning_sound _) _ hvalues).readCone hs
    rw [Signal.words, length_wordsOfNat, hwidth, Nat.mul_div_cancel_left _ (by decide)]

/-! ## Success -/

/-- The entries of a cone above its leaves can be evaluated, and have lower rank the deeper they
are. -/
structure ConeEvaluable (store : Store) (cells : Array Cell) (leaves : List Nat) (S : Nat → Prop)
    (rank : Nat → Nat) : Prop where
  cell : ∀ e, S e → e ∉ leaves → ∃ c, cells[e]? = some c ∧ c.isInput = false ∧
    store.EvaluableBelow store.subnets.size c ∧
    ∀ l ∈ c.links, l.port = 0 ∧ S l.entry ∧ rank l.entry < rank e

/-- The evaluated part of a cone contains the leaves, and every entry in it has a first port. -/
structure Visited (leaves : List Nat) (width : Nat) (values : ConeValues) : Prop where
  leaves_mem : ∀ e ∈ leaves, e ∈ values
  at_entry : ∀ (e : Nat) (ports : Ports), values[e]? = some ports → ports ≠ [] ∧ ∀ s ∈ ports, s.width = width

lemma visited_leafValues (leaves : List Nat) :
    Visited leaves (64 * wordCount leaves.length) (leafValues leaves) where
  leaves_mem _ := mem_leafValues
  at_entry e ports h := by
    obtain ⟨k, -, rfl⟩ := getElem?_leafValues h
    exact ⟨by simp, by simpa using width_ofWords_words _⟩

lemma Visited.exists_readCone {values : ConeValues} (h : Visited leaves width values) {l : Link}
    (hport : l.port = 0) (hmem : l.entry ∈ values) :
    ∃ s, readCone values l = .ok s ∧ s.width = width := by
  obtain ⟨ports, hports⟩ :=
    Option.isSome_iff_exists.1 (Std.HashMap.isSome_getElem?_iff_mem.2 hmem)
  obtain ⟨hne, hwidth⟩ := h.at_entry _ ports hports
  obtain ⟨s, rest, rfl⟩ := List.exists_cons_of_ne_nil hne
  refine ⟨s.invertIf l.inverted, ?_, by simpa using hwidth s (by simp)⟩
  simp [readCone, hports, Ports.read, hport]

lemma Visited.insert {values : ConeValues} (h : Visited leaves width values) {e : Nat}
    {ports : Ports} (hne : ports ≠ []) (hwidth : ∀ s ∈ ports, s.width = width) :
    Visited leaves width (values.insert e ports) where
  leaves_mem d hd := Std.HashMap.mem_insert.2 (.inr (h.leaves_mem d hd))
  at_entry d p hp := by
    rw [Std.HashMap.getElem?_insert] at hp
    split at hp
    · cases hp
      exact ⟨hne, hwidth⟩
    · exact h.at_entry d p hp

/-- The entries of a cone above its leaves that are no inputs can be evaluated, and have lower rank the
deeper they are. -/
def ConeRanked (store : Store) (cells : Array Cell) (leaves : List Nat) (S : Nat → Prop)
    (rank : Nat → Nat) : Prop :=
  ∀ e, S e → e ∉ leaves → ∃ c, cells[e]? = some c ∧ (c.isInput = false →
    store.EvaluableBelow store.subnets.size c ∧
      ∀ l ∈ c.links, l.port = 0 ∧ S l.entry ∧ rank l.entry < rank e)

/-- The evaluated part of a cone is separated from the inputs. -/
structure Explored (cells : Array Cell) (leaves : List Nat) (width : Nat) (values : ConeValues) : Prop
    extends Visited leaves width values where
  separated : ∀ e ∈ values, Separated cells leaves e

lemma explored_leafValues (cells : Array Cell) (leaves : List Nat) :
    Explored cells leaves (64 * wordCount leaves.length) (leafValues leaves) where
  toVisited := visited_leafValues leaves
  separated e he := by
    obtain ⟨ports, hports⟩ := Option.isSome_iff_exists.1 (Std.HashMap.isSome_getElem?_iff_mem.2 he)
    obtain ⟨k, hk, -⟩ := getElem?_leafValues hports
    exact .leaf (List.mem_of_getElem? hk)

/-- An entry whose drivers have been visited can be evaluated. -/
lemma Explored.exists_evaluate {store : Store} {values : ConeValues} {e : Nat} {c : Cell}
    (h : Explored cells leaves width values) (hc : cells[e]? = some c) (hinput : c.isInput = false)
    (hcell : store.EvaluableBelow store.subnets.size c) (port : ∀ l ∈ c.links, l.port = 0)
    (hdrivers : ∀ d ∈ c.drivers, d ∈ values) : ∃ operands ports,
      c.links.mapM (readCone values) = .ok operands ∧
      c.evaluate (store.meaning width) width operands = .ok ports ∧
      Explored cells leaves width (values.insert e ports) := by
  obtain ⟨operands, hoperands, hall⟩ :=
    @exists_mapM_eq_ok _ _ _ (readCone values) (fun _ s => s.width = width) c.links fun l hl =>
      h.exists_readCone (port l hl) (hdrivers l.entry (List.mem_map_of_mem hl))
  have hwidths : ∀ s ∈ operands, s.width = width := by
    intro s hs
    obtain ⟨l, -, h⟩ := exists_of_forall₂_right hall s hs
    exact h
  obtain ⟨ports, hports, hlen⟩ := Cell.exists_evaluate (store.meaning_total width) hinput hcell
    operands hall.length_eq.symm hwidths
  have hwidth := (Cell.evaluate_sound (store.meaning_sound width)
    ⟨hwidths, fun _ => rfl⟩ hports : PortsAt width 0 ports _).width_eq
  have hne : ports ≠ [] := List.ne_nil_of_length_pos (hlen ▸ hcell.numPorts_pos)
  refine ⟨operands, ports, hoperands, hports, h.toVisited.insert hne hwidth, fun d hd => ?_⟩
  rcases Std.HashMap.mem_insert.1 hd with he | hd
  · rw [← beq_iff_eq.1 he]
    exact .cell hc hinput fun d hd => h.separated d (hdrivers d hd)
  · exact h.separated d hd

/-- A visit keeps what was evaluated and adds the entry, or it ends at an input. -/
lemma visitCone_ok_or_input (root : Nat) {store : Store} {rank : Nat → Nat}
    (ranked : ConeRanked store cells leaves S rank) (fuel : Nat) {values : ConeValues}
    {e : Nat} (he : S e) (hfuel : e ∈ leaves ∨ rank e < fuel) (hpos : 0 < fuel)
    (h : Explored cells leaves width values) :
    (∃ values', visitCone cells (store.meaning width) width root fuel values e = .ok values' ∧
      Explored cells leaves width values' ∧ (∀ d ∈ values, d ∈ values') ∧ e ∈ values') ∨
    ∃ fault, visitCone cells (store.meaning width) width root fuel values e = .error fault ∧
      ∃ i c, fault = .inputNotLeaf i root ∧ Bypasses cells leaves e i ∧ cells[i]? = some c ∧
        c.isInput = true := by
  induction fuel generalizing values e with
  | zero => exact absurd hpos (lt_irrefl 0)
  | succ fuel ih =>
      unfold visitCone
      by_cases hmem : e ∈ values
      · exact .inl ⟨values, by rw [if_pos (Std.HashMap.contains_iff_mem.2 hmem)], h, fun _ => id, hmem⟩
      have hleaf : e ∉ leaves := fun hin => hmem (h.leaves_mem e hin)
      rw [if_neg (by simpa using hmem)]
      obtain ⟨c, hc, hranked⟩ := ranked e he hleaf
      simp only [hc]
      by_cases hinput : c.isInput = true
      · rw [if_pos hinput]
        exact .inr ⟨_, rfl, e, c, rfl, .refl hleaf, hc, hinput⟩
      obtain ⟨hcell, hlinks⟩ := hranked (Bool.eq_false_iff.2 hinput)
      have hrank := hfuel.resolve_left hleaf
      rw [if_neg hinput]
      have drivers := @foldlM_eq_ok_or_error _ _ _
        (visitCone cells (store.meaning width) width root fuel) c.drivers.reverse values
        (fun done values' => Explored cells leaves width values' ∧ (∀ d ∈ values, d ∈ values') ∧
          ∀ d ∈ done, d ∈ values')
        (fun fault => ∃ i c, fault = .inputNotLeaf i root ∧ Bypasses cells leaves e i ∧
          cells[i]? = some c ∧ c.isInput = true) ⟨h, fun _ => id, by simp⟩ (by
            rintro done d rest values' hsplit ⟨hvisited, hkept, hdone⟩
            have hd : d ∈ c.drivers := List.mem_reverse.1 (by rw [hsplit]; simp)
            obtain ⟨l, hl, rfl⟩ := List.mem_map.1 hd
            obtain ⟨-, hS, hlt⟩ := hlinks l hl
            rcases ih hS (.inr (by omega)) (by omega) hvisited with
              ⟨next, hnext, hvisited', hkept', hmem'⟩ | ⟨fault, hfault, i, c', rfl, bypass, hi⟩
            · refine .inl ⟨next, hnext, hvisited', fun d hd => hkept' d (hkept d hd), ?_⟩
              intro d hd
              rcases List.mem_append.1 hd with hd | hd
              · exact hkept' d (hdone d hd)
              · rwa [List.mem_singleton.1 hd]
            · exact .inr ⟨_, hfault, i, c', rfl, .step hleaf hc hd bypass, hi⟩)
      rcases drivers with ⟨below, hbelow, visited, hkept, hdrivers⟩ | ⟨fault, hfault, hinput⟩
      · obtain ⟨operands, ports, hoperands, hports, explored⟩ := visited.exists_evaluate hc
          (Bool.eq_false_iff.2 hinput) hcell (fun l hl => (hlinks l hl).1)
          fun d hd => hdrivers d (List.mem_reverse.2 hd)
        refine .inl ⟨below.insert e ports, ?_, explored, fun d hd => ?_, by simp⟩
        · rw [hbelow, ok_bind, hoperands, ok_bind, hports]
          rfl
        · exact Std.HashMap.mem_insert.2 (.inr (hkept d hd))
      · refine .inr ⟨fault, ?_, hinput⟩
        rw [hfault]
        rfl

/-- The cone of few enough leaves has a table, or its leaves do not separate it from the inputs. -/
theorem tabulateCone_ok_or_input {store : Store} {rank : Nat → Nat}
    (ranked : ConeRanked store cells leaves S rank) (hroot : S root)
    (hrank : rank root ≤ cells.size) (hn : leaves.length ≤ maxEvaluatedVariables) :
    (Separated cells leaves root ∧ ∃ t, store.tabulateCone cells root leaves = .ok t) ∨
    ∃ i c, Bypasses cells leaves root i ∧ cells[i]? = some c ∧ c.isInput = true ∧
      store.tabulateCone cells root leaves = .error (.inputNotLeaf i root) := by
  simp only [tabulateCone, if_neg (Nat.not_lt.2 hn)]
  rcases visitCone_ok_or_input root ranked (cells.size + 1) hroot (.inr (Nat.lt_succ_of_le hrank))
    (Nat.succ_pos _) (explored_leafValues cells leaves) with
    ⟨values, hvalues, explored, -, hmem⟩ | ⟨fault, hfault, i, c, rfl, bypass, hi, hinput⟩
  · obtain ⟨s, hs, -⟩ := explored.exists_readCone (l := .of root) rfl hmem
    refine .inl ⟨explored.separated root hmem, .ofWords leaves.length s.words, ?_⟩
    rw [hvalues, ok_bind, hs]
    rfl
  · refine .inr ⟨i, c, bypass, hi, hinput, ?_⟩
    rw [hfault]
    rfl

/-- A path down from an entry of an evaluable cone does not end at an input. -/
lemma ConeEvaluable.isInput_of_bypasses {store : Store} {rank : Nat → Nat}
    (evaluable : ConeEvaluable store cells leaves S rank) {e i : Nat} {c : Cell} (he : S e)
    (bypass : Bypasses cells leaves e i) (hi : cells[i]? = some c) : c.isInput = false := by
  induction bypass with
  | refl hleaf =>
      obtain ⟨c', hc', hinput, -⟩ := evaluable.cell _ he hleaf
      cases hi.symm.trans hc'
      exact hinput
  | step hleaf hc hd _ ih =>
      obtain ⟨c', hc', -, -, hlinks⟩ := evaluable.cell _ he hleaf
      cases hc.symm.trans hc'
      obtain ⟨l, hl, rfl⟩ := List.mem_map.1 hd
      exact ih (hlinks l hl).2.1 hi

/-- The cone of few enough leaves has a table if it contains no input. -/
theorem exists_tabulateCone {store : Store} {rank : Nat → Nat}
    (evaluable : ConeEvaluable store cells leaves S rank) (hroot : S root)
    (hrank : rank root ≤ cells.size) (hn : leaves.length ≤ maxEvaluatedVariables) :
    ∃ t, store.tabulateCone cells root leaves = .ok t := by
  have ranked : ConeRanked store cells leaves S rank := fun e he hleaf => by
    obtain ⟨c, hc, -, hcell⟩ := evaluable.cell e he hleaf
    exact ⟨c, hc, fun _ => hcell⟩
  rcases tabulateCone_ok_or_input ranked hroot hrank hn with ⟨-, ht⟩ | ⟨i, c, bypass, hi, hinput, -⟩
  · exact ht
  · rw [evaluable.isInput_of_bypasses hroot bypass hi] at hinput
    cases hinput

end

end Store

end Gatework
