import Mathlib.Data.Finset.SDiff
import Gatework.Proofs.Builder.Addition
import Gatework.Proofs.Cut.Domination
import Gatework.Proofs.Cut.Leaves
import Gatework.Proofs.Network
import Gatework.Proofs.Types

/-!
# The leaves of reconvergence cuts

A cut grows in rounds (`Reconvergence.Round`), each of which replaces a leaf by what it reads and was
not visited before.  While it grows, everything that was visited is a leaf or reads only what was
visited, constants apart (`Reconvergence.Frontier`).  So the leaves and the constants separate what was
visited from the inputs at every time (`Reconvergence.Frontier.separated`).  Where constants read nothing,
as those of the built-in types do, the leaves are enough (`Separated.of_constants`).  The roots are visited
from the start, so one that another root reads is no new leaf, and a root that is listed twice is expanded
twice.

Each round removes a leaf and visits what it adds, so there are at most as many rounds as there are
roots and entries: the growth ends when no leaf can be expanded within the size
(`Reconvergence.exists_rounds_grow`).

**Main statements.** `Network.exists_reconvergenceLeaves` for a list of roots, and
`WellFormed.exists_reconvergenceCut` for the cut of one living entry of a builder.
-/

namespace Gatework

lemma length_eraseDups_le (xs : List Nat) : xs.eraseDups.length ≤ xs.length :=
  (List.subperm_of_subset (nodup_eraseDups xs) fun _ => List.mem_eraseDups.1).length_le

/-- A constant is no terminal. -/
lemma Cell.isTerminal_of_isConst {c : Cell} (h : c.isConst = true) : c.isTerminal = false := by
  by_contra hterm
  rw [Bool.not_eq_false, isTerminal, Bool.or_eq_true] at hterm
  rcases hterm with hterm | hterm <;>
    rw [isConst, show c.kind.symbol = _ from beq_iff_eq.1 hterm] at h <;> cases h

/-- Constants that read nothing are separated from the inputs without being leaves. -/
lemma Separated.of_constants {N : Network} {leaves : List Nat} {entry : Nat}
    (h : Separated N.cells (leaves ++ N.constants) entry)
    (operands : ∀ e ∈ N.constants, ∀ c, N.cells[e]? = some c → c.links = []) :
    Separated N.cells leaves entry := by
  induction h with
  | @leaf e he =>
      rcases List.mem_append.1 he with hleaf | hmem
      · exact .leaf hleaf
      · obtain ⟨c, hc, hconst⟩ := (Option.any_eq_true _ _).1 (List.mem_filter.1 hmem).2
        refine .cell hc (Bool.or_eq_false_iff.1 (Cell.isTerminal_of_isConst hconst)).1 fun d hd => ?_
        rw [Cell.drivers, operands e hmem c hc] at hd
        cases hd
  | cell hc hinput _ ih => exact .cell hc hinput ih

/-- An entry is another one or is among its direct or indirect drivers. -/
def Network.Reaches (N : Network) : Nat → Nat → Prop :=
  Relation.ReflTransGen fun entry d => d ∈ driversIn N.cells entry

namespace Reconvergence

variable {N : Network} {cells : Array Cell} {roots : List Nat} {size : Nat}
  {visited leaves added : List Nat} {leaf : Nat}

/-! ## Rounds -/

/-- The leaf that is chosen so far is the one to start with, or it is one of the list and its expansion
is what it adds. -/
lemma expansion?_of_foldl_cheapest {best : Option (Nat × List Nat)}
    (h : leaves.foldl (fun best leaf =>
        match expansion? cells visited leaf, best with
        | none, best => best
        | some added, none => some (leaf, added)
        | some added, some (other, least) =>
            if added.length < least.length then some (leaf, added) else some (other, least))
        best = some (leaf, added)) :
    best = some (leaf, added) ∨ leaf ∈ leaves ∧ expansion? cells visited leaf = some added := by
  induction leaves generalizing best with
  | nil => exact .inl h
  | cons x xs ih =>
      rcases ih h with h | ⟨hmem, hexp⟩
      · dsimp only at h
        cases hexp : expansion? cells visited x with
        | none =>
            rw [hexp] at h
            exact .inl h
        | some found =>
            rw [hexp] at h
            cases best with
            | none =>
                cases h
                exact .inr ⟨by simp, hexp⟩
            | some pair =>
                dsimp only at h
                split at h
                · cases h
                  exact .inr ⟨by simp, hexp⟩
                · exact .inl h
      · exact .inr ⟨List.mem_cons_of_mem x hmem, hexp⟩

/-- The leaf that is chosen is one of the leaves, and its expansion is what it adds. -/
lemma expansion?_of_cheapest?
    (h : cheapest? cells visited leaves = some (leaf, added)) :
    leaf ∈ leaves ∧ expansion? cells visited leaf = some added :=
  (expansion?_of_foldl_cheapest h).resolve_left (by simp)

/-- What a leaf adds are the entries it reads, apart from constants and from what was visited. -/
lemma exists_of_expansion? (h : expansion? cells visited leaf = some added) :
    ∃ c, cells[leaf]? = some c ∧ c.isInput = false ∧
      ∀ d, d ∈ added.eraseDups ↔ d ∈ c.drivers ∧ d ∉ visited ∧
        (cells[d]?).any Cell.isConst = false := by
  unfold expansion? at h
  split at h
  · cases h
  · rename_i c hc
    split at h
    · cases h
    · rename_i hinner
      refine ⟨c, hc, (Bool.or_eq_false_iff.1 (Bool.eq_false_iff.2 hinner)).1, fun d => ?_⟩
      rw [List.mem_eraseDups, ← Option.some.inj h]
      simp [List.mem_filter]

/-- One round of growth: the cheapest leaf is replaced by what it adds, if the cut stays small enough.
A state is what was visited and the leaves. -/
inductive Round (cells : Array Cell) (size : Nat) : List Nat × List Nat → List Nat × List Nat → Prop
  | expand {visited leaves added : List Nat} {leaf : Nat}
      (cheapest : cheapest? cells visited leaves = some (leaf, added))
      (fits : added.length + leaves.length - 1 ≤ size) : Round cells size (visited, leaves)
        (visited ++ added.eraseDups, leaves.erase leaf ++ added.eraseDups)

/-- What a round does: it replaces a leaf that is no input by its new drivers. -/
lemma exists_of_round {s : List Nat × List Nat} (h : Round cells size (visited, leaves) s) :
    ∃ leaf c fresh, leaf ∈ leaves ∧ cells[leaf]? = some c ∧ c.isInput = false ∧ fresh.Nodup ∧
      (∀ d, d ∈ fresh ↔ d ∈ c.drivers ∧ d ∉ visited ∧ (cells[d]?).any Cell.isConst = false) ∧
      fresh.length + leaves.length ≤ size + 1 ∧
      s = (visited ++ fresh, leaves.erase leaf ++ fresh) := by
  obtain @⟨_, _, added, leaf, hcheapest, hfits⟩ := h
  obtain ⟨hleaf, hexp⟩ := expansion?_of_cheapest? hcheapest
  obtain ⟨c, hc, hinput, hadded⟩ := exists_of_expansion? hexp
  have hlength := length_eraseDups_le added
  have hpos := List.length_pos_of_mem hleaf
  exact ⟨leaf, c, added.eraseDups, hleaf, hc, hinput, nodup_eraseDups added, hadded, by omega, rfl⟩

/-- What was expanded is never a leaf again. -/
lemma Round.stays_out {s t : List Nat × List Nat} {v : Nat} (h : Round cells size s t)
    (hs : v ∈ s.1 ∧ v ∉ s.2) : v ∈ t.1 ∧ v ∉ t.2 := by
  obtain ⟨leaf, c, fresh, -, -, -, -, hfresh, -, rfl⟩ := exists_of_round h
  refine ⟨List.mem_append_left _ hs.1, fun hv => ?_⟩
  rcases List.mem_append.1 hv with hv | hv
  · exact hs.2 (List.mem_of_mem_erase hv)
  · exact ((hfresh v).1 hv).2.1 hs.1

/-! ## The frontier -/

/-- The state of a growing cut. -/
structure Frontier (N : Network) (roots : List Nat) (size : Nat) (visited leaves : List Nat) : Prop where
  roots_sub : roots ⊆ visited
  sub : leaves ⊆ visited
  length : leaves.length ≤ size
  mem_order : ∀ v ∈ visited, v ∈ N.order
  below : ∀ v ∈ visited, ∃ root ∈ roots, N.Reaches root v
  const : ∀ v ∈ visited, v ∈ roots ∨ (N.cells[v]?).any Cell.isConst = false
  closed : ∀ v ∈ visited, v ∉ leaves → ∃ c, N.cells[v]? = some c ∧ c.isInput = false ∧
    ∀ d ∈ c.drivers, d ∈ visited ∨ (N.cells[d]?).any Cell.isConst = true

lemma frontier_start (alive : ∀ root ∈ roots, root ∈ N.order) (hsize : roots.length ≤ size) :
    Frontier N roots size roots roots where
  roots_sub := fun _ => id
  sub := fun _ => id
  length := hsize
  mem_order := alive
  below _ hv := ⟨_, hv, .refl⟩
  const _ hv := .inl hv
  closed _ hv hleaf := absurd hv hleaf

/-- A round keeps the properties of a growing cut. -/
lemma Frontier.round {s : List Nat × List Nat} (h : Frontier N roots size visited leaves)
    (hround : Round N.cells size (visited, leaves) s) : Frontier N roots size s.1 s.2 := by
  obtain ⟨leaf, c, fresh, hleaf, hc, hinput, -, hfresh, hlength, rfl⟩ := exists_of_round hround
  have horder := h.mem_order leaf (h.sub hleaf)
  have hreads : ∀ v ∈ fresh, v ∈ c.drivers := fun v hv => ((hfresh v).1 hv).1
  refine {
    roots_sub := fun x hx => List.mem_append_left _ (h.roots_sub hx)
    sub := fun x hx => ?_
    length := ?_
    mem_order := fun v hv => ?_
    below := fun v hv => ?_
    const := fun v hv => ?_
    closed := fun v hv hout => ?_ }
  · rcases List.mem_append.1 hx with hx | hx
    · exact List.mem_append_left _ (h.sub (List.mem_of_mem_erase hx))
    · exact List.mem_append_right _ hx
  · have hpos := List.length_pos_of_mem hleaf
    rw [List.length_append, List.length_erase_of_mem hleaf]
    omega
  · rcases List.mem_append.1 hv with hv | hv
    · exact h.mem_order v hv
    · exact (Network.reads_front horder hc (hreads v hv)).1
  · rcases List.mem_append.1 hv with hv | hv
    · exact h.below v hv
    · obtain ⟨root, hroot, path⟩ := h.below leaf (h.sub hleaf)
      exact ⟨root, hroot, path.tail (by rw [driversIn_eq hc]; exact hreads v hv)⟩
  · rcases List.mem_append.1 hv with hv | hv
    · exact h.const v hv
    · exact .inr ((hfresh v).1 hv).2.2
  · by_cases e : v = leaf
    · subst e
      refine ⟨c, hc, hinput, fun d hd => ?_⟩
      by_cases hmem : d ∈ visited
      · exact .inl (List.mem_append_left _ hmem)
      · by_cases hconst : (N.cells[d]?).any Cell.isConst = true
        · exact .inr hconst
        · exact .inl (List.mem_append_right _ ((hfresh d).2 ⟨hd, hmem, by simpa using hconst⟩))
    · have hold : v ∈ visited := (List.mem_append.1 hv).resolve_right fun hnew =>
        hout (List.mem_append_right _ hnew)
      have hinside : v ∉ leaves := fun hmem =>
        hout (List.mem_append_left _ ((List.mem_erase_of_ne e).2 hmem))
      obtain ⟨e, he, hinput, hdrivers⟩ := h.closed v hold hinside
      exact ⟨e, he, hinput, fun d hd => (hdrivers d hd).imp_left (List.mem_append_left _)⟩

/-- Any number of rounds keeps them. -/
lemma Frontier.rounds {s t : List Nat × List Nat} (h : Frontier N roots size s.1 s.2)
    (run : Relation.ReflTransGen (Round N.cells size) s t) : Frontier N roots size t.1 t.2 := by
  induction run with
  | refl => exact h
  | tail _ hround ih => exact ih.round hround

/-- The entries that a growing cut may still visit. -/
def unvisited (N : Network) (visited : List Nat) : Finset Nat :=
  Finset.range N.cells.size \ visited.toFinset

/-- A round takes a leaf away, apart from what becomes a leaf by being visited. -/
lemma Frontier.round_decreases {s : List Nat × List Nat} (h : Frontier N roots size visited leaves)
    (hround : Round N.cells size (visited, leaves) s) :
    s.2.length + (unvisited N s.1).card < leaves.length + (unvisited N visited).card := by
  have hnext := h.round hround
  obtain ⟨leaf, c, fresh, hleaf, -, -, nodup, hfresh, -, rfl⟩ := exists_of_round hround
  have hsplit : unvisited N (visited ++ fresh) = unvisited N visited \ fresh.toFinset := by
    rw [unvisited, unvisited, List.toFinset_append, sdiff_sdiff_left]
    rfl
  have hsub : fresh.toFinset ⊆ unvisited N visited := by
    intro d hd
    rw [List.mem_toFinset] at hd
    have hlt := Network.lt_size (hnext.mem_order d (List.mem_append_right _ hd))
    simp [unvisited, hlt, ((hfresh d).1 hd).2.1]
  have hcard : (unvisited N (visited ++ fresh)).card + fresh.length = (unvisited N visited).card := by
    rw [hsplit, ← List.toFinset_card_of_nodup nodup, Finset.card_sdiff_add_card_eq_card hsub]
  have hpos := List.length_pos_of_mem hleaf
  simp only [List.length_append, List.length_erase_of_mem hleaf]
  omega

/-- With enough fuel the growth ends when there is no further round. -/
theorem exists_rounds_grow (h : Frontier N roots size visited leaves) {fuel : Nat}
    (hfuel : leaves.length + (unvisited N visited).card ≤ fuel) :
    ∃ visited', Relation.ReflTransGen (Round N.cells size) (visited, leaves)
        (visited', grow N.cells size fuel visited leaves) ∧
      ∀ s, ¬ Round N.cells size (visited', grow N.cells size fuel visited leaves) s := by
  induction fuel generalizing visited leaves with
  | zero =>
      refine ⟨visited, .refl, fun s hround => ?_⟩
      have := h.round_decreases hround
      omega
  | succ fuel ih =>
      unfold grow
      split
      · rename_i hnone
        refine ⟨visited, .refl, ?_⟩
        rintro _ @⟨_, _, _, _, hcheapest, -⟩
        rw [hnone] at hcheapest
        cases hcheapest
      · rename_i leaf added hsome
        split
        · rename_i hlarge
          refine ⟨visited, .refl, ?_⟩
          rintro _ @⟨_, _, _, _, hcheapest, hfits⟩
          cases hsome.symm.trans hcheapest
          exact absurd hfits (Nat.not_le.2 hlarge)
        · rename_i hfits
          have hround : Round N.cells size (visited, leaves) _ := .expand hsome (Nat.not_lt.1 hfits)
          have hless := h.round_decreases hround
          obtain ⟨visited', run, settled⟩ := ih (h.round hround) (by omega)
          exact ⟨visited', .head hround run, settled⟩

/-- The leaves of a growing cut and the constants separate everything that was visited from the
inputs. -/
lemma Frontier.separated (h : Frontier N roots size visited leaves) :
    ∀ v ∈ N.order, v ∈ visited → Separated N.cells (leaves ++ N.constants) v := by
  refine N.induction_order fun v hv c hc ih hvisited => ?_
  by_cases hleaf : v ∈ leaves
  · exact .leaf (List.mem_append_left _ hleaf)
  obtain ⟨e, he, hinput, hdrivers⟩ := h.closed v hvisited hleaf
  cases hc.symm.trans he
  refine .cell hc hinput fun d hd => ?_
  obtain ⟨hmem, -, hd'⟩ := ih d hd
  rcases hdrivers d hd with hd | hconst
  · exact hd' hd
  · exact .leaf (List.mem_append_right _ (List.mem_filter.2 ⟨hmem, hconst⟩))

/-! ## The leaves -/

/-- The leaves that a list of roots is left with: constants alone leave the roots themselves. -/
def kept (roots grown : List Nat) : List Nat := if grown.isEmpty then roots else grown

lemma sub_kept (roots grown : List Nat) : grown ⊆ kept roots grown := by
  cases grown <;> simp [kept]

lemma kept_ne_nil (hroots : roots ≠ []) (grown : List Nat) : kept roots grown ≠ [] := by
  cases grown <;> simp [kept, hroots]

lemma Frontier.kept_sub (h : Frontier N roots size visited leaves) : kept roots leaves ⊆ visited := by
  rw [kept]
  split
  · exact h.roots_sub
  · exact h.sub

lemma Frontier.length_kept (h : Frontier N roots size visited leaves) (hsize : roots.length ≤ size) :
    (kept roots leaves).length ≤ size := by
  rw [kept]
  split
  · exact hsize
  · exact h.length

/-- The growth from a list of living roots ends with a frontier, and its leaves are listed. -/
lemma exists_grown (alive : ∀ root ∈ roots, root ∈ N.order) (hsize : roots.length ≤ size) :
    ∃ visited grown, Relation.ReflTransGen (Round N.cells size) (roots, roots) (visited, grown) ∧
      (∀ s, ¬ Round N.cells size (visited, grown) s) ∧ Frontier N roots size visited grown ∧
      reconvergenceLeaves N.cells roots size = .ok (Increasing.ofList (kept roots grown)) := by
  have start := frontier_start alive hsize
  have hfuel : roots.length + (unvisited N roots).card ≤ N.cells.size + roots.length + 1 := by
    have : (unvisited N roots).card ≤ N.cells.size :=
      (Finset.card_le_card Finset.sdiff_subset).trans (Finset.card_range _).le
    omega
  obtain ⟨visited, run, settled⟩ := exists_rounds_grow start hfuel
  refine ⟨visited, _, run, settled, start.rounds run, ?_⟩
  have hall : roots.all (· < N.cells.size) = true := by
    simpa using fun root hroot => Network.lt_size (alive root hroot)
  rw [reconvergenceLeaves, if_neg (Nat.not_lt.2 hsize), if_pos hall]
  rfl

end Reconvergence

namespace Network

open Reconvergence

variable {N : Network} {roots : List Nat} {size : Nat}

/-- There are leaves for every list of living roots that fits.  They are no more than fit, and all of
them are roots or among their direct or indirect drivers.  A path from a root down to an input passes
through one of them or through a constant, and through one of them if the constants read nothing.  No
constant is among them that is not a root.  They are what is left when there is no further round. -/
theorem exists_reconvergenceLeaves (alive : ∀ root ∈ roots, root ∈ N.order) (hroots : roots ≠ [])
    (hsize : roots.length ≤ size) :
    ∃ leaves, reconvergenceLeaves N.cells roots size = .ok leaves ∧
      leaves ≠ [] ∧ leaves.Pairwise (· < ·) ∧ leaves.length ≤ size ∧
      (∀ leaf ∈ leaves, ∃ root ∈ roots, N.Reaches root leaf) ∧
      (∀ root ∈ roots, ∀ i c, Bypasses N.cells (leaves ++ N.constants) root i →
        N.cells[i]? = some c → c.isInput = false) ∧
      ((∀ e ∈ N.constants, ∀ c, N.cells[e]? = some c → c.links = []) →
        ∀ root ∈ roots, ∀ i c, Bypasses N.cells leaves root i → N.cells[i]? = some c →
          c.isInput = false) ∧
      (∀ leaf ∈ leaves, ∀ c, N.cells[leaf]? = some c → c.isConst = true → leaf ∈ roots) ∧
      ∃ visited grown, Relation.ReflTransGen (Round N.cells size) (roots, roots) (visited, grown) ∧
        (∀ s, ¬ Round N.cells size (visited, grown) s) ∧
        ∀ x, x ∈ leaves ↔ x ∈ if grown.isEmpty then roots else grown := by
  obtain ⟨visited, grown, run, settled, frontier, hleaves⟩ := exists_grown alive hsize
  have hmem : ∀ {x}, x ∈ Increasing.ofList (kept roots grown) ↔ x ∈ kept roots grown :=
    Increasing.mem_ofList
  have separated : ∀ root ∈ roots,
      Separated N.cells (Increasing.ofList (kept roots grown) ++ N.constants) root := fun root hroot => by
    refine (frontier.separated root (alive root hroot) (frontier.roots_sub hroot)).mono fun x hx => ?_
    exact List.mem_append.2 ((List.mem_append.1 hx).imp_left fun hx => hmem.2 (sub_kept roots grown hx))
  refine ⟨_, hleaves, ?_, Increasing.pairwise_union List.Pairwise.nil,
    Increasing.length_ofList_le.trans (frontier.length_kept hsize), fun leaf hleaf => ?_,
    fun root hroot i c => (separated root hroot).isInput_of_bypasses,
    fun operands root hroot i c => ((separated root hroot).of_constants operands).isInput_of_bypasses,
    fun leaf hleaf c hc hconst => ?_, visited, grown, run, settled, fun x => ?_⟩
  · obtain ⟨x, hx⟩ := List.exists_mem_of_ne_nil _ (kept_ne_nil hroots grown)
    exact List.ne_nil_of_mem (hmem.2 hx)
  · exact frontier.below leaf (frontier.kept_sub (hmem.1 hleaf))
  · refine (frontier.const leaf (frontier.kept_sub (hmem.1 hleaf))).resolve_right ?_
    simp [hc, hconst]
  · exact hmem

/-- Two conjunctions, one of them with a constant, and their conjunction. -/
def absorbing : Subnet where
  cells := #[.input, .input, ⟨.ofGate .one, []⟩, ⟨.ofGate .and, [.of 0, .of 1]⟩,
    ⟨.ofGate .and, [.of 1, .of 2]⟩, ⟨.ofGate .and, [.of 3, .of 4]⟩, .output (.of 5)]
  numInputs := 2
  numOutputs := 1
  valid := by decide

/-- A root that is listed twice and reads another root: both are expanded down to the inputs, and the
constant is not listed. -/
theorem exists_reconvergenceLeaves_absorbing :
    (∀ root ∈ [5, 3, 5], root ∈ (subnet absorbing).order) ∧ [5, 3, 5] ≠ [] ∧ [5, 3, 5].length ≤ 3 ∧
    reconvergenceLeaves absorbing.cells [5, 3, 5] 3 = .ok [0, 1] ∧
    (subnet absorbing).constants = [2] ∧
    ∀ root ∈ [5, 3, 5], ∀ i c, Bypasses absorbing.cells [0, 1] root i →
      absorbing.cells[i]? = some c → c.isInput = false := by
  have alive : ∀ root ∈ [5, 3, 5], root ∈ (subnet absorbing).order := by decide
  have constants : (subnet absorbing).constants = [2] := by decide
  have operands : ∀ e ∈ (subnet absorbing).constants, ∀ c, absorbing.cells[e]? = some c →
      c.links = [] := by
    rw [constants]
    rintro e he c hc
    obtain rfl := List.mem_singleton.1 he
    cases hc
    rfl
  have hrun : reconvergenceLeaves absorbing.cells [5, 3, 5] 3 = .ok [0, 1] := by decide
  obtain ⟨leaves, hleaves, -, -, -, -, -, separates, -⟩ := exists_reconvergenceLeaves
    alive (by decide) (show [5, 3, 5].length ≤ 3 by decide)
  obtain rfl : [0, 1] = leaves := Except.ok.inj (hrun.symm.trans hleaves)
  exact ⟨alive, by decide, by decide, hrun, constants, separates operands⟩

/-- A constant of a type of its own may read an input.  The cut of the conjunction does not expand the
constant, and its only leaf does not separate the conjunction from this input. -/
theorem reconvergenceLeaves_miss_tied_input :
    (Store.empty.addType Store.tie).1.Hosts Store.tied ∧ 3 ∈ (subnet Store.tied).order ∧
      reconvergenceLeaves Store.tied.cells [3] 2 = .ok [1] ∧
      Bypasses Store.tied.cells [1] 3 0 ∧ Store.tied.cells[0]? = some .input := by
  have bypass : Bypasses Store.tied.cells [1] 3 0 :=
    .step (by decide) rfl (show 2 ∈ [2, 1] by decide) <|
      .step (by decide) rfl (show 0 ∈ [0] by decide) (.refl (by decide))
  exact ⟨Store.hosts_tied, by decide, by decide, bypass, rfl⟩

end Network

namespace Builder

open Reconvergence

variable {b : Builder} {root size : Nat}

/-- What a living entry reaches is the entry itself or stands in front of it. -/
lemma WellFormed.front_of_reaches (wf : b.WellFormed) (hroot : root ∈ b.order) {v : Nat}
    (h : (Network.builder b wf).Reaches root v) : v = root ∨ b.IsDriver v ∧ b.Precedes v root := by
  induction h with
  | refl => exact .inl rfl
  | @tail x y _ hreads ih =>
      have hx : x ∈ b.order := by
        rcases ih with rfl | ⟨-, precedes⟩
        · exact hroot
        · exact (wf.arranged.precedes_iff.1 precedes).1
      have driver := wf.arranged.isDriver_of_reads x hx y hreads
      have precedes := precedes_of_reads wf.arranged hx hreads
      rcases ih with rfl | ⟨-, hfront⟩
      · exact .inr ⟨driver, precedes⟩
      · exact .inr ⟨driver, wf.precedes_trans precedes hfront⟩

/-- A root that is alone is a leaf before the first round only. -/
lemma eq_or_notMem_of_rounds {cells : Array Cell} {visited grown : List Nat}
    (run : Relation.ReflTransGen (Round cells size) ([root], [root]) (visited, grown)) :
    grown = [root] ∨ root ∉ grown := by
  rcases run.cases_head with heq | ⟨s, hround, run⟩
  · exact .inl (congrArg Prod.snd heq).symm
  · obtain ⟨leaf, c, fresh, hleaf, -, -, -, hfresh, -, rfl⟩ := exists_of_round hround
    have out : root ∈ [root] ++ fresh ∧ root ∉ [root].erase leaf ++ fresh := by
      refine ⟨by simp, fun hmem => ?_⟩
      rw [List.mem_singleton.1 hleaf, List.erase_cons_head, List.nil_append] at hmem
      exact ((hfresh root).1 hmem).2.1 (by simp)
    exact .inr (run.rec (motive := fun t _ => root ∈ t.1 ∧ root ∉ t.2) out
      fun _ hround ih => hround.stays_out ih).2

/-- There is a reconvergence cut for every living entry.  If it is not trivial, its leaves are in front
of the entry, and they separate it from the inputs where all constants are cells without operands. -/
theorem WellFormed.exists_reconvergenceCut (wf : b.WellFormed) (hroot : root ∈ b.order)
    (hsize : 0 < size) : ∃ cut, reconvergenceCut b.cells root size = .ok cut ∧
      (cut.isTrivial = false → b.ProperCut size root cut ∧
        ∀ store, b.InnerRegular store True → Separated b.cells cut.leaves root) := by
  have alive : ∀ r ∈ [root], r ∈ (Network.builder b wf).order :=
    List.forall_mem_singleton.2 hroot
  obtain ⟨visited, grown, run, -, frontier, hleaves⟩ := @exists_grown _ _ size alive hsize
  refine ⟨.of root (Increasing.ofList (kept [root] grown)), ?_, fun proper => ?_⟩
  · rw [reconvergenceCut, show reconvergenceLeaves b.cells [root] size = _ from hleaves]
    rfl
  have hmem : ∀ {x}, x ∈ (Cut.of root (Increasing.ofList (kept [root] grown))).leaves ↔
      x ∈ kept [root] grown := by
    intro x
    rw [Cut.of, Increasing.mem_ofList, Increasing.mem_ofList]
  have hkept : kept [root] grown ≠ [root] := fun e => by
    rw [e] at proper
    simp [Cut.isTrivial, Cut.of, Increasing.ofList, Increasing.union, Increasing.insert] at proper
  have hfull : kept [root] grown = grown := if_neg fun hempty => hkept (if_pos hempty)
  have hlength : (Cut.of root (Increasing.ofList (kept [root] grown))).leaves.length ≤ size :=
    Increasing.length_ofList_le.trans (Increasing.length_ofList_le.trans (frontier.length_kept hsize))
  refine ⟨⟨rfl, Increasing.nodup_ofList, hlength, fun leaf hleaf => ?_⟩, fun store regular => ?_⟩
  · rw [hmem] at hleaf
    obtain ⟨r, hr, path⟩ := frontier.below leaf (frontier.kept_sub hleaf)
    rw [List.mem_singleton.1 hr] at path
    refine (wf.front_of_reaches hroot path).resolve_left fun e => ?_
    rw [hfull] at hkept hleaf
    exact ((eq_or_notMem_of_rounds run).resolve_left hkept) (e ▸ hleaf)
  · have separated := frontier.separated root hroot (frontier.roots_sub (by simp))
    refine (separated.of_constants fun d hd c hc => ?_).mono fun x hx => hmem.2 (sub_kept [root] grown hx)
    obtain ⟨horder, hconst⟩ := List.mem_filter.1 hd
    rw [show (Network.builder b wf).cells[d]? = some c from hc, Option.any_some] at hconst
    exact (regular d (mem_inner horder hc (Cell.isTerminal_of_isConst hconst)) c hc).constant trivial hconst

end Builder

end Gatework
