import Mathlib.Data.List.Nodup
import Gatework.Proofs.Cut.Domination
import Gatework.Proofs.Increasing
import Gatework.Proofs.Runs
import Gatework.Proofs.Values

/-!
# What the enumeration of cuts computes

The cuts of an entry are a function of its cell and of the cuts of its drivers (`Cell.cuts`), so the
cuts of a network are the solution along its order (`cutsAlong`).

* `Cell.mem_candidates`: before any cut is dropped, the cuts of a cell besides the trivial one are the
  small enough unions of one cut for each link.
* `CutSets.exists_foldlM_recompute`: recomputing entries, each after what it reads, brings the cuts of
  all of them up to date and leaves the others alone.
* `CutSets.exists_enumerate`: the enumeration succeeds and gives the solution.
-/

namespace Gatework

/-- The cuts of a cell over the cuts of its drivers. -/
def Cell.cuts (options : CutOptions) (entry : Nat) (c : Cell) (f : Nat → List Cut) : List Cut :=
  if c.isTerminal || c.isConst then [.trivial entry]
  else
    let leafLists := (c.drivers.map f).foldl (CutSets.extend options.size) [[]]
    let found := CutSets.minimal ((leafLists.filter (!·.isEmpty)).map (Cut.mk entry))
    .trivial entry :: match options.limit with
      | some limit => found.take limit
      | none => found

/-- The cuts of an entry over the cuts of its drivers. -/
def entryCuts (options : CutOptions) (cells : Array Cell) (entry : Nat) (f : Nat → List Cut) :
    List Cut :=
  (cells[entry]?).elim [] fun c => c.cuts options entry f

/-- The cuts of the entries of a network that are listed in topological order. -/
def cutsAlong (options : CutOptions) (cells : Array Cell) : List Nat → Nat → List Cut :=
  along (entryCuts options cells) []

variable {options : CutOptions} {cells : Array Cell} {entry : Nat} {c : Cell}
  {f g : Nat → List Cut}

lemma Cell.cuts_congr (h : ∀ d ∈ c.drivers, f d = g d) :
    c.cuts options entry f = c.cuts options entry g := by
  simp only [Cell.cuts, List.map_congr_left h]

lemma local_entryCuts : Local (driversIn cells) (entryCuts options cells) := by
  intro id f g h
  rw [entryCuts, entryCuts]
  cases hc : cells[id]? with
  | none => rfl
  | some c => exact Cell.cuts_congr fun d hd => h d (by rwa [driversIn_eq hc])

/-- Along a topological order every entry gets its cuts over those of its drivers. -/
lemma cutsAlong_eq {xs : List Nat} (nodup : xs.Nodup)
    (topological : Topological (driversIn cells) xs) : ∀ id ∈ xs,
      cutsAlong options cells xs id = entryCuts options cells id (cutsAlong options cells xs) :=
  along_eq local_entryCuts nodup topological

section Candidates

variable {size : Nat} {partials : List (List Nat)} {lists : List (List Cut)} {leaves : List Nat}
  {cuts : List Cut} {cut : Cut}

namespace CutSets

/-- The union of a leaf list with the leaves of several cuts. -/
def joined (leaves : List Nat) (cuts : List Cut) : List Nat :=
  cuts.foldl (fun leaves cut => Increasing.union leaves cut.leaves) leaves

lemma mem_joined {x : Nat} : x ∈ joined leaves cuts ↔ x ∈ leaves ∨ ∃ cut ∈ cuts, x ∈ cut.leaves := by
  induction cuts generalizing leaves with
  | nil => simp [joined]
  | cons cut cuts ih =>
      rw [show joined leaves (cut :: cuts) = joined (Increasing.union leaves cut.leaves) cuts from rfl,
        ih, Increasing.mem_union, or_assoc, List.exists_mem_cons_iff]

lemma pairwise_joined (h : leaves.Pairwise (· < ·)) : (joined leaves cuts).Pairwise (· < ·) := by
  induction cuts generalizing leaves with
  | nil => exact h
  | cons cut cuts ih => exact ih (Increasing.pairwise_union h)

lemma length_le_joined : leaves.length ≤ (joined leaves cuts).length := by
  induction cuts generalizing leaves with
  | nil => exact le_refl _
  | cons cut cuts ih => exact (Increasing.length_le_union leaves cut.leaves).trans ih

lemma mem_extend {driver : List Cut} : leaves ∈ extend size partials driver ↔
    leaves.length ≤ size ∧
      ∃ p ∈ partials, ∃ cut ∈ driver, leaves = Increasing.union p cut.leaves := by
  simp only [extend, List.mem_eraseDups, List.mem_filter, List.mem_flatMap, List.mem_map,
    decide_eq_true_eq, eq_comm (a := leaves), and_comm]

/-- Adding the drivers one after the other gives all small unions of one cut for each.  That a partial
union was small enough needs no mention: it is part of the whole one. -/
lemma mem_foldl_extend : leaves ∈ lists.foldl (extend size) partials ↔
    ∃ p ∈ partials, ∃ cuts, List.Forall₂ (· ∈ ·) cuts lists ∧ leaves = joined p cuts ∧
      (lists ≠ [] → leaves.length ≤ size) := by
  induction lists generalizing partials with
  | nil => simp [joined]
  | cons driver lists ih =>
      rw [List.foldl_cons, ih]
      constructor
      · rintro ⟨q, hq, cuts, hcuts, rfl, hsize⟩
        obtain ⟨hq, p, hp, cut, hcut, rfl⟩ := mem_extend.1 hq
        refine ⟨p, hp, cut :: cuts, .cons hcut hcuts, rfl, fun _ => ?_⟩
        by_cases hnil : lists = []
        · subst hnil
          cases hcuts
          exact hq
        · exact hsize hnil
      · rintro ⟨p, hp, _, hcuts, rfl, hsize⟩
        obtain ⟨cut, cuts, hcut, hrest, rfl⟩ := List.forall₂_cons_right_iff.1 hcuts
        have hlength := hsize (List.cons_ne_nil _ _)
        refine ⟨_, mem_extend.2 ⟨?_, p, hp, cut, hcut, rfl⟩, cuts, hrest, rfl, fun _ => hlength⟩
        exact length_le_joined.trans hlength

lemma nodup_foldl_extend (h : partials.Nodup) : (lists.foldl (extend size) partials).Nodup := by
  induction lists generalizing partials with
  | nil => exact h
  | cons driver lists ih => exact ih (nodup_eraseDups _)

/-- The cuts that a bound on their number leaves. -/
def limited (limit : Option Nat) (cuts : List Cut) : List Cut :=
  match limit with
  | some limit => cuts.take limit
  | none => cuts

lemma limited_sublist (limit : Option Nat) (cuts : List Cut) : (limited limit cuts).Sublist cuts := by
  cases limit with
  | none => exact List.Sublist.refl cuts
  | some limit => exact List.take_sublist limit cuts

end CutSets

namespace Cell

/-- The cuts of a cell besides the trivial one, before any is dropped. -/
def candidates (size entry : Nat) (c : Cell) (f : Nat → List Cut) : List Cut :=
  if c.isTerminal || c.isConst then []
  else (((c.drivers.map f).foldl (CutSets.extend size) [[]]).filter (!·.isEmpty)).map (Cut.mk entry)

lemma cuts_eq : c.cuts options entry f = .trivial entry ::
    CutSets.limited options.limit (CutSets.minimal (c.candidates options.size entry f)) := by
  rw [cuts, candidates]
  split
  · cases options.limit <;> simp [CutSets.limited, CutSets.minimal]
  · rfl

lemma mem_candidates : cut ∈ c.candidates size entry f ↔
    c.isTerminal = false ∧ c.isConst = false ∧ cut.root = entry ∧ cut.leaves ≠ [] ∧
      cut.leaves.length ≤ size ∧ ∃ cuts, List.Forall₂ (fun cut d => cut ∈ f d) cuts c.drivers ∧
        cut.leaves = CutSets.joined [] cuts := by
  rw [candidates]
  split
  · rename_i hkind
    rcases Bool.or_eq_true_iff.1 hkind with h | h <;> simp [h]
  · rename_i hkind
    obtain ⟨hterm, hconst⟩ := Bool.or_eq_false_iff.1 (Bool.eq_false_iff.2 hkind)
    obtain ⟨root, leaves⟩ := cut
    simp only [List.mem_map, List.mem_filter, CutSets.mem_foldl_extend, Cut.mk.injEq, hterm, hconst,
      true_and, Bool.not_eq_true', List.isEmpty_eq_false_iff, List.mem_singleton, exists_eq_left,
      List.forall₂_map_right_iff]
    constructor
    · rintro ⟨leaves, ⟨⟨cuts, hcuts, hleaves, hsize⟩, hne⟩, rfl, rfl⟩
      refine ⟨rfl, hne, hsize fun hnil => hne ?_, cuts, hcuts, hleaves⟩
      rw [List.map_eq_nil_iff.1 hnil] at hcuts
      cases hcuts
      exact hleaves
    · rintro ⟨rfl, hne, hsize, cuts, hcuts, hleaves⟩
      exact ⟨leaves, ⟨⟨cuts, hcuts, hleaves, fun _ => hsize⟩, hne⟩, rfl, rfl⟩

/-- A cut is trivial, or it joins one cut for each link. -/
lemma eq_trivial_or_mem_candidates (h : cut ∈ c.cuts options entry f) :
    cut = .trivial entry ∨ cut ∈ c.candidates options.size entry f := by
  rw [cuts_eq] at h
  refine (List.mem_cons.1 h).imp_right fun h => ?_
  exact (List.mem_filter.1 ((CutSets.limited_sublist _ _).subset h)).1

lemma pairwise_of_mem_candidates (h : cut ∈ c.candidates size entry f) :
    cut.leaves.Pairwise (· < ·) := by
  obtain ⟨-, -, -, -, -, cuts, -, hleaves⟩ := mem_candidates.1 h
  exact hleaves ▸ CutSets.pairwise_joined List.Pairwise.nil

lemma drivers_ne_nil_of_mem_candidates (h : cut ∈ c.candidates size entry f) : c.drivers ≠ [] := by
  obtain ⟨-, -, -, hne, -, cuts, hcuts, hleaves⟩ := mem_candidates.1 h
  intro hnil
  rw [hnil] at hcuts
  cases hcuts
  exact hne hleaves

/-- Every leaf is a leaf of a cut of a driver. -/
lemma leaf_of_mem_candidates (h : cut ∈ c.candidates size entry f) :
    ∀ leaf ∈ cut.leaves, ∃ d ∈ c.drivers, ∃ part ∈ f d, leaf ∈ part.leaves := by
  obtain ⟨-, -, -, -, -, cuts, hcuts, hleaves⟩ := mem_candidates.1 h
  intro leaf hleaf
  rw [hleaves, CutSets.mem_joined] at hleaf
  obtain ⟨part, hpart, hleaf⟩ := hleaf.resolve_left (by simp)
  obtain ⟨d, hd, hpart⟩ := exists_of_forall₂_right hcuts.flip part hpart
  exact ⟨d, hd, part, hpart, hleaf⟩

/-- Every driver has a cut with no other leaves. -/
lemma subset_of_mem_candidates (h : cut ∈ c.candidates size entry f) :
    ∀ d ∈ c.drivers, ∃ part ∈ f d, part.leaves ⊆ cut.leaves := by
  obtain ⟨-, -, -, -, -, cuts, hcuts, hleaves⟩ := mem_candidates.1 h
  intro d hd
  obtain ⟨part, hpart, hmem⟩ := exists_of_forall₂_right hcuts d hd
  refine ⟨part, hmem, fun x hx => ?_⟩
  rw [hleaves, CutSets.mem_joined]
  exact .inr ⟨part, hpart, hx⟩

lemma nodup_candidates : (c.candidates size entry f).Nodup := by
  rw [candidates]
  split
  · exact List.nodup_nil
  · refine List.Nodup.map (fun _ _ h => (Cut.mk.inj h).2) (List.Nodup.filter _ ?_)
    exact CutSets.nodup_foldl_extend (List.pairwise_singleton _ _)

end Cell

end Candidates

namespace CutSets

variable {sets : CutSets} {T : Nat → Prop}

/-- The cuts kept for some entries are those of a function. -/
def Holds (sets : CutSets) (f : Nat → List Cut) (T : Nat → Prop) : Prop :=
  ∀ id, T id → sets.cuts[id]? = some (f id)

lemma get_eq_ok_iff {cuts : List Cut} : sets.get entry = .ok cuts ↔
    sets.cuts[entry]? = some cuts := by
  unfold get
  cases sets.cuts[entry]? <;> simp

lemma compute_eq (h : sets.Holds f T) (reads : ∀ d ∈ c.drivers, T d) :
    sets.compute entry c = .ok (c.cuts sets.options entry f) := by
  rw [compute, Cell.cuts]
  split
  · rfl
  · rw [mapM_eq_ok fun d hd => get_eq_ok_iff.2 (h d (reads d hd))]
    rfl

/-- Recomputing an entry whose drivers are up to date. -/
lemma exists_recompute (h : sets.Holds f T) (hc : cells[entry]? = some c)
    (reads : ∀ d ∈ c.drivers, T d) (solved : f entry = c.cuts sets.options entry f) :
    ∃ sets', sets.recompute cells entry = .ok sets' ∧ sets'.options = sets.options ∧
      sets'.Holds f fun id => T id ∨ id = entry := by
  set grown : CutSets :=
    { sets with cuts := sets.cuts ++ Array.replicate (cells.size - sets.cuts.size) [] }
  have old : grown.Holds f T := by
    intro id hid
    have hlt := (Array.getElem?_eq_some_iff.1 (h id hid)).1
    exact (Array.getElem?_append_left hlt).trans (h id hid)
  have hentry : entry < grown.cuts.size := by
    have := (Array.getElem?_eq_some_iff.1 hc).1
    simp only [grown, Array.size_append, Array.size_replicate]
    omega
  refine ⟨{ grown with cuts := grown.cuts.setIfInBounds entry (f entry) }, ?_, rfl, ?_⟩
  · have computed : grown.compute entry c = .ok (f entry) := by
      rw [compute_eq old reads, solved]
    simp only [recompute, hc]
    rw [computed]
    rfl
  · intro id hid
    by_cases e : entry = id
    · subst e
      exact Array.getElem?_setIfInBounds_self_of_lt hentry
    · exact (Array.getElem?_setIfInBounds_ne e).trans (old id (hid.resolve_right (Ne.symm e)))

/-- Recomputing entries in an order in which each comes after the stale entries that it reads. -/
theorem exists_foldlM_recompute {xs : List Nat} (h : sets.Holds f T)
    (hcells : ∀ id ∈ xs, id < cells.size)
    (solved : ∀ id ∈ xs, f id = entryCuts sets.options cells id f)
    (reads : ∀ done id rest, xs = done ++ id :: rest → ∀ d ∈ driversIn cells id, T d ∨ d ∈ done) :
    ∃ sets', xs.foldlM (fun sets id => sets.recompute cells id) sets = .ok sets' ∧
      sets'.options = sets.options ∧ sets'.Holds f fun id => T id ∨ id ∈ xs := by
  refine exists_foldlM_eq_ok (fun done (s : CutSets) =>
    s.options = sets.options ∧ s.Holds f fun id => T id ∨ id ∈ done) ?_ ?_
  · exact ⟨rfl, fun id hid => h id (hid.resolve_right (by simp))⟩
  · rintro done id rest s hxs ⟨hoptions, hs⟩
    have hid : id ∈ xs := by simp [hxs]
    obtain ⟨c, hc⟩ : ∃ c, cells[id]? = some c := ⟨_, Array.getElem?_eq_getElem (hcells id hid)⟩
    have hsolved := solved id hid
    rw [entryCuts, hc, ← hoptions] at hsolved
    have hreads := reads done id rest hxs
    rw [driversIn_eq hc] at hreads
    obtain ⟨s', hs', hoptions', holds⟩ := exists_recompute hs hc hreads hsolved
    refine ⟨s', hs', hoptions'.trans hoptions, fun x hx => holds x ?_⟩
    simpa [or_assoc] using hx

/-- The enumeration succeeds in a topological order, and it gives the solution. -/
theorem exists_enumerate {xs : List Nat} (size : 0 < options.size) (nodup : xs.Nodup)
    (topological : Topological (driversIn cells) xs) (hcells : ∀ id ∈ xs, id < cells.size)
    (reads : ∀ id ∈ xs, ∀ d ∈ driversIn cells id, d ∈ xs) :
    ∃ sets, enumerate options cells xs = .ok sets ∧ sets.options = options ∧
      sets.Holds (cutsAlong options cells xs) (· ∈ xs) := by
  have start : (⟨options, Array.replicate cells.size []⟩ : CutSets).Holds
      (cutsAlong options cells xs) fun _ => False := fun _ h => h.elim
  obtain ⟨sets, hrun, hoptions, holds⟩ := exists_foldlM_recompute start hcells
    (cutsAlong_eq nodup topological) fun done id rest hxs d hd => by
      have hmem := reads id (by simp [hxs]) d hd
      rw [hxs] at hmem topological
      exact .inr (topological.mem_front hd hmem)
  refine ⟨sets, ?_, hoptions, fun id hid => holds id (.inr hid)⟩
  rw [enumerate, if_neg (Nat.pos_iff_ne_zero.1 size)]
  exact hrun

end CutSets

end Gatework
