import Mathlib.Data.Finset.Card
import Mathlib.Order.Minimal
import Gatework.Proofs.Cut.Enumeration
import Gatework.Proofs.Network

/-!
# The enumerated cuts are the minimal ones

`FullCut` says what the small enough cuts of an entry are when none is dropped on the way.  The
enumeration drops two kinds of leaf lists: partial unions that are too large, and cuts that contain
another one.  Neither loses a minimal cut.  A partial union is contained in the whole one, so it is
small enough if the whole one is.  And a cut of a driver may be exchanged for one below it: the union
only gets smaller.  So every full cut contains one that is listed (`Network.exists_listed`), by induction
along the order.

With a bound on the number of cuts some are missing, but what is listed is still a full cut
(`Network.fullCut_of_listed`), and none contains another one.

**Main statement.** `Network.exists_enumerate_minimal`.
-/

namespace Gatework

/-- The leaf sets of the cuts of an entry: the entry alone, and every union of one cut for each link that
has at most `size` leaves. -/
inductive FullCut (cells : Array Cell) (size : Nat) : Nat → Finset Nat → Prop
  | self (entry : Nat) : FullCut cells size entry {entry}
  | union {entry : Nat} {c : Cell} {leaves : Finset Nat} {parts : List (Finset Nat)}
      (cell : cells[entry]? = some c) (terminal : c.isTerminal = false) (const : c.isConst = false)
      (reads : c.links ≠ []) (full : List.Forall₂ (FullCut cells size) c.drivers parts)
      (union : ∀ x, x ∈ leaves ↔ ∃ part ∈ parts, x ∈ part) (small : leaves.card ≤ size) :
      FullCut cells size entry leaves

variable {cells : Array Cell} {options : CutOptions} {size entry : Nat} {c : Cell}
  {f : Nat → List Cut} {cut other : Cut} {leaves : Finset Nat}

namespace Cell

/-- A union of full cuts of the drivers is a full cut. -/
lemma fullCut_of_mem_candidates (hc : cells[entry]? = some c)
    (sound : ∀ d ∈ c.drivers, ∀ part ∈ f d, FullCut cells size d part.leaves.toFinset)
    (h : cut ∈ c.candidates size entry f) : FullCut cells size entry cut.leaves.toFinset := by
  have reads := drivers_ne_nil_of_mem_candidates h
  obtain ⟨hterm, hconst, -, -, hsize, cuts, hcuts, hleaves⟩ := mem_candidates.1 h
  refine @FullCut.union cells size entry c _ (cuts.map fun part => part.leaves.toFinset) hc hterm
    hconst (fun hnil => reads (by simp [drivers, hnil])) ?_ (fun x => ?_) ?_
  · rw [List.forall₂_map_right_iff]
    exact ((List.forall₂_and_left _ _).2 ⟨sound, hcuts.flip⟩).imp fun d part h => h.1 part h.2
  · simp [hleaves, CutSets.mem_joined]
  · exact (List.toFinset_card_le _).trans hsize

/-- Each full cut of a list contains one of those on offer. -/
lemma exists_parts {ds : List Nat} {parts : List (Finset Nat)}
    (h : List.Forall₂ (fun d part => ∃ cut ∈ f d, cut.leaves ≠ [] ∧ cut.leaves.toFinset ⊆ part) ds
      parts) : ∃ cuts, List.Forall₂ (fun cut d => cut ∈ f d) cuts ds ∧
        ∀ cut ∈ cuts, cut.leaves ≠ [] ∧ ∃ part ∈ parts, cut.leaves.toFinset ⊆ part := by
  induction h with
  | nil => exact ⟨[], .nil, by simp⟩
  | @cons d part ds parts hd _ ih =>
      obtain ⟨cut, hcut, hne, sub⟩ := hd
      obtain ⟨cuts, hcuts, hparts⟩ := ih
      refine ⟨cut :: cuts, .cons hcut hcuts, List.forall_mem_cons.2 ⟨⟨hne, part, by simp, sub⟩, ?_⟩⟩
      intro cut hcut
      obtain ⟨hne, part, hpart, sub⟩ := hparts cut hcut
      exact ⟨hne, part, by simp [hpart], sub⟩

/-- If every full cut of a driver contains a listed one, then every full cut of the cell contains a
candidate: the union of what is listed below its parts. -/
lemma exists_candidate (hc : cells[entry]? = some c)
    (complete : ∀ d ∈ c.drivers, ∀ part, FullCut cells size d part →
      ∃ cut ∈ f d, cut.leaves ≠ [] ∧ cut.leaves.toFinset ⊆ part)
    (h : FullCut cells size entry leaves) (proper : leaves ≠ {entry}) :
    ∃ cut ∈ c.candidates size entry f, cut.leaves.toFinset ⊆ leaves := by
  cases h with
  | self => exact absurd rfl proper
  | @union _ c' _ parts hc' hterm hconst reads full hunion small =>
      cases hc.symm.trans hc'
      obtain ⟨cuts, hcuts, hparts⟩ := exists_parts
        (((List.forall₂_and_left _ _).2 ⟨complete, full⟩).imp fun d part h => h.1 part h.2)
      have sub : (CutSets.joined [] cuts).toFinset ⊆ leaves := by
        intro x hx
        rw [List.mem_toFinset, CutSets.mem_joined] at hx
        obtain ⟨cut, hcut, hx⟩ := hx.resolve_left (by simp)
        obtain ⟨-, part, hpart, sub⟩ := hparts cut hcut
        exact (hunion x).2 ⟨part, hpart, sub (List.mem_toFinset.2 hx)⟩
      have sorted : (CutSets.joined [] cuts).Pairwise (· < ·) :=
        CutSets.pairwise_joined List.Pairwise.nil
      refine ⟨⟨entry, CutSets.joined [] cuts⟩, mem_candidates.2 ⟨hterm, hconst, rfl, ?_, ?_, cuts,
        hcuts, rfl⟩, sub⟩
      · obtain ⟨l, ls, hlinks⟩ := List.exists_cons_of_ne_nil reads
        rw [drivers, hlinks, List.map_cons] at hcuts
        obtain ⟨cut, cuts, -, -, rfl⟩ := List.forall₂_cons_right_iff.1 hcuts
        obtain ⟨x, hx⟩ := List.exists_mem_of_ne_nil _ (hparts cut (by simp)).1
        exact List.ne_nil_of_mem (CutSets.mem_joined.2 (.inr ⟨cut, by simp, hx⟩))
      · rw [← List.toFinset_card_of_nodup (sorted.imp fun hlt => Nat.ne_of_lt hlt)]
        exact (Finset.card_le_card sub).trans small

end Cell

namespace Network

variable {N : Network}

/-- The leaves of a full cut are not behind its entry. -/
lemma idxOf_le_of_fullCut (N : Network) : ∀ entry ∈ N.order, ∀ leaves,
    FullCut N.cells size entry leaves → ∀ leaf ∈ leaves,
      N.order.idxOf leaf ≤ N.order.idxOf entry := by
  refine N.induction_order fun entry _ c hc ih leaves h leaf hleaf => ?_
  cases h with
  | self => rw [Finset.mem_singleton.1 hleaf]
  | union hc' _ _ _ full hunion _ =>
      cases hc.symm.trans hc'
      obtain ⟨part, hpart, hleaf⟩ := (hunion leaf).1 hleaf
      obtain ⟨d, hd, hpart⟩ := exists_of_forall₂_right full part hpart
      obtain ⟨-, hlt, hle⟩ := ih d hd
      exact (hle part hpart leaf hleaf).trans hlt.le

/-- The cuts of an entry, as the enumeration finds them. -/
def listed (N : Network) (options : CutOptions) : Nat → List Cut :=
  cutsAlong options N.cells N.order

lemma listed_eq (h : entry ∈ N.order) (hc : N.cells[entry]? = some c) :
    N.listed options entry = c.cuts options entry (N.listed options) := by
  rw [listed, cutsAlong_eq N.nodup_order N.topological_order entry h, entryCuts, hc]
  rfl

/-- What is listed is a full cut. -/
theorem fullCut_of_listed (N : Network) (options : CutOptions) : ∀ entry ∈ N.order,
    ∀ cut ∈ N.listed options entry, FullCut N.cells options.size entry cut.leaves.toFinset := by
  refine N.induction_order fun entry hentry c hc ih cut hcut => ?_
  rw [listed_eq hentry hc] at hcut
  rcases Cell.eq_trivial_or_mem_candidates hcut with rfl | hcut
  · exact .self entry
  · exact Cell.fullCut_of_mem_candidates hc (fun d hd => (ih d hd).2.2) hcut

/-- A candidate is a full cut and not the trivial one: its leaves are in front of the entry. -/
lemma proper_of_mem_candidates (h : entry ∈ N.order) (hc : N.cells[entry]? = some c)
    (hcut : cut ∈ c.candidates options.size entry (N.listed options)) :
    FullCut N.cells options.size entry cut.leaves.toFinset ∧ cut.leaves.toFinset ≠ {entry} := by
  refine ⟨Cell.fullCut_of_mem_candidates hc
    (fun d hd => N.fullCut_of_listed options d (reads_front h hc hd).1) hcut, fun heq => ?_⟩
  have hleaf : entry ∈ cut.leaves := by
    rw [← List.mem_toFinset, heq]
    exact Finset.mem_singleton_self entry
  obtain ⟨d, hd, part, hpart, hleaf⟩ := Cell.leaf_of_mem_candidates hcut entry hleaf
  obtain ⟨hmem, hlt⟩ := reads_front h hc hd
  have hle := N.idxOf_le_of_fullCut d hmem _ (N.fullCut_of_listed options d hmem part hpart) entry
    (List.mem_toFinset.2 hleaf)
  omega

/-- Without a bound on their number, every full cut contains a listed one. -/
theorem exists_listed (N : Network) (unlimited : options.limit = none) : ∀ entry ∈ N.order, ∀ leaves,
    FullCut N.cells options.size entry leaves →
      ∃ cut ∈ N.listed options entry, cut.leaves ≠ [] ∧ cut.leaves.toFinset ⊆ leaves := by
  refine N.induction_order fun entry hentry c hc ih leaves h => ?_
  rw [listed_eq hentry hc, Cell.cuts_eq, unlimited]
  by_cases proper : leaves = {entry}
  · exact ⟨.trivial entry, by simp, by simp [Cut.trivial], by simp [Cut.trivial, proper]⟩
  · obtain ⟨cut, hcut, sub⟩ := Cell.exists_candidate hc (fun d hd => (ih d hd).2.2) h proper
    obtain ⟨kept, hkept, sub'⟩ := CutSets.exists_minimal (fun cut hcut =>
      (Cell.pairwise_of_mem_candidates hcut).imp fun hlt => Nat.ne_of_lt hlt) hcut
    obtain ⟨-, -, -, hne, -⟩ := Cell.mem_candidates.1 (List.mem_filter.1 hkept).1
    refine ⟨kept, List.mem_cons_of_mem _ hkept, hne, fun x hx => sub ?_⟩
    exact List.mem_toFinset.2 (sub' (List.mem_toFinset.1 hx))

/-- The candidates that are kept are the minimal full cuts besides the trivial one. -/
lemma exists_mem_minimal_iff (unlimited : options.limit = none) (h : entry ∈ N.order)
    (hc : N.cells[entry]? = some c) :
    (∃ cut ∈ CutSets.minimal (c.candidates options.size entry (N.listed options)),
      cut.leaves.toFinset = leaves) ↔
    Minimal (fun leaves => FullCut N.cells options.size entry leaves ∧ leaves ≠ {entry}) leaves := by
  have complete : ∀ leaves, FullCut N.cells options.size entry leaves → leaves ≠ {entry} →
      ∃ cut ∈ c.candidates options.size entry (N.listed options), cut.leaves.toFinset ⊆ leaves :=
    fun leaves => Cell.exists_candidate hc fun d hd =>
      N.exists_listed unlimited d (reads_front h hc hd).1
  have nodup : ∀ cut ∈ c.candidates options.size entry (N.listed options), cut.leaves.Nodup :=
    fun cut hcut => (Cell.pairwise_of_mem_candidates hcut).imp fun hlt => Nat.ne_of_lt hlt
  constructor
  · rintro ⟨cut, hcut, rfl⟩
    obtain ⟨hmem, least⟩ := (CutSets.mem_minimal nodup).1 hcut
    refine ⟨proper_of_mem_candidates h hc hmem, fun smaller hsmaller sub => ?_⟩
    obtain ⟨other, hother, below⟩ := complete smaller hsmaller.1 hsmaller.2
    have hsize := least other hother fun x hx =>
      List.mem_toFinset.1 (sub (below (List.mem_toFinset.2 hx)))
    have hcard : cut.leaves.toFinset.card ≤ other.leaves.toFinset.card := by
      rwa [List.toFinset_card_of_nodup (nodup cut hmem),
        List.toFinset_card_of_nodup (nodup other hother)]
    rw [← Finset.eq_of_subset_of_card_le (below.trans sub) hcard]
    exact below
  · intro minimal
    obtain ⟨cut, hcut, sub⟩ := complete leaves minimal.prop.1 minimal.prop.2
    obtain ⟨kept, hkept, below⟩ := CutSets.exists_minimal nodup hcut
    have sub' : kept.leaves.toFinset ⊆ leaves := fun x hx =>
      sub (List.mem_toFinset.2 (below (List.mem_toFinset.1 hx)))
    refine ⟨kept, hkept, Finset.Subset.antisymm sub' ?_⟩
    exact minimal.le_of_le (proper_of_mem_candidates h hc (List.mem_filter.1 hkept).1) sub'

/-- The enumeration succeeds.  Of every living entry it lists the trivial cut first, and then, without
repetition, the minimal full cuts besides it; with a bound on their number, so many full cuts of which
none contains another one. -/
theorem exists_enumerate_minimal (N : Network) (size : 0 < options.size) :
    ∃ sets, CutSets.enumerate options N.cells N.order = .ok sets ∧ ∀ entry ∈ N.order,
      ∃ rest, sets.get entry = .ok (.trivial entry :: rest) ∧ rest.Nodup ∧
        (∀ cut ∈ .trivial entry :: rest, cut.root = entry ∧ cut.leaves.Pairwise (· < ·) ∧
          ∀ i, cut.signature.toNat.testBit i = true ↔ ∃ leaf ∈ cut.leaves, leaf % 64 = i) ∧
        match options.limit with
        | none => ∀ leaves, (∃ cut ∈ rest, cut.leaves.toFinset = leaves) ↔
            Minimal (fun leaves => FullCut N.cells options.size entry leaves ∧ leaves ≠ {entry}) leaves
        | some limit => rest.length ≤ limit ∧
            (∀ cut ∈ rest, FullCut N.cells options.size entry cut.leaves.toFinset) ∧
            ∀ cut ∈ rest, ∀ other ∈ rest, cut.leaves ⊆ other.leaves → cut = other := by
  obtain ⟨sets, hrun, -, holds⟩ := CutSets.exists_enumerate size N.nodup_order N.topological_order
    (fun entry h => lt_size h) fun entry h d hd => by
      obtain ⟨c, hc⟩ := exists_cell h
      exact (reads_front h hc (by rwa [driversIn_eq hc] at hd)).1
  refine ⟨sets, hrun, fun entry h => ?_⟩
  obtain ⟨c, hc⟩ := exists_cell h
  set candidates := c.candidates options.size entry (N.listed options)
  have kept : ∀ cut ∈ CutSets.limited options.limit (CutSets.minimal candidates),
      cut ∈ CutSets.minimal candidates := fun cut hcut =>
    (CutSets.limited_sublist _ _).subset hcut
  have found : ∀ cut ∈ CutSets.limited options.limit (CutSets.minimal candidates),
      cut ∈ candidates := fun cut hcut => (List.mem_filter.1 (kept cut hcut)).1
  refine ⟨CutSets.limited options.limit (CutSets.minimal candidates), ?_, ?_, ?_, ?_⟩
  · rw [CutSets.get_eq_ok_iff, holds entry h, ← Cell.cuts_eq, ← listed_eq h hc]
    rfl
  · exact (CutSets.limited_sublist _ _).nodup (Cell.nodup_candidates.filter _)
  · intro cut hcut
    refine ⟨?_, ?_, cut.testBit_signature⟩
    · rcases List.mem_cons.1 hcut with rfl | hcut
      · rfl
      · exact (Cell.mem_candidates.1 (found cut hcut)).2.2.1
    · rcases List.mem_cons.1 hcut with rfl | hcut
      · exact List.pairwise_singleton _ _
      · exact Cell.pairwise_of_mem_candidates (found cut hcut)
  · split
    · rename_i unlimited
      intro leaves
      rw [unlimited]
      exact exists_mem_minimal_iff unlimited h hc
    · rename_i limit hlimit
      refine ⟨?_, fun cut hcut => (proper_of_mem_candidates h hc (found cut hcut)).1, ?_⟩
      · rw [hlimit]
        exact List.length_take_le _ _
      · intro cut hcut other hother
        exact CutSets.eq_of_subset_of_mem_minimal (fun _ h => (Cell.mem_candidates.1 h).2.2.1)
          (fun _ => Cell.pairwise_of_mem_candidates) (kept cut hcut) (kept other hother)

/-- The two minimal cuts of an entry that reads an input directly and through another entry. -/
theorem exists_enumerate_minimal_reconvergent : ∃ sets,
    CutSets.enumerate {} reconvergent.cells (List.range 5) = .ok sets ∧
    sets.get 3 = .ok [.trivial 3, ⟨3, [0, 2]⟩, ⟨3, [0, 1]⟩] ∧
    ∀ leaves, (leaves = {0, 2} ∨ leaves = {0, 1}) ↔
      Minimal (fun leaves => FullCut reconvergent.cells 4 3 leaves ∧ leaves ≠ {3}) leaves := by
  obtain ⟨sets, hrun, found⟩ := @exists_enumerate_minimal {} (.subnet reconvergent) (by decide)
  obtain ⟨rest, hget, -, -, minimal⟩ := found 3 (by decide)
  have computed : (CutSets.enumerate {} reconvergent.cells (List.range 5) >>= fun sets => sets.get 3) =
      .ok [.trivial 3, ⟨3, [0, 2]⟩, ⟨3, [0, 1]⟩] := by cbv
  replace hrun : CutSets.enumerate {} reconvergent.cells (List.range 5) = .ok sets := hrun
  rw [hrun, ok_bind] at computed
  obtain rfl : [⟨3, [0, 2]⟩, ⟨3, [0, 1]⟩] = rest :=
    (List.cons.inj (Except.ok.inj (computed.symm.trans hget))).2
  refine ⟨sets, hrun, computed, fun leaves => ?_⟩
  have listed := minimal leaves
  simp only [List.mem_cons, List.not_mem_nil, or_false, exists_eq_or_imp, exists_eq_left,
    List.toFinset_cons, List.toFinset_nil, insert_empty_eq, eq_comm (b := leaves)] at listed
  exact listed

end Network

end Gatework
