import Gatework.Proofs.Mapping.Preservation

/-!
# Choices that cover the outputs

A choice covers the outputs if everything that they need has a realisation.  Whether a covering choice can
be built does not depend on the choice: candidates use complemented pins only if the library has an
inverter, so only the outputs may meet a complemented link that nothing serves.

**Main statement.** `Problem.Admits.ofChoice_spec`.
-/

namespace Gatework

namespace MappedNetwork

/-- What the outputs need under a choice. -/
inductive Needs (net : Subnet) (choice : Choice) : Nat → Prop
  | output {o : Nat} (h : o ∈ net.outputs) : Needs net choice o
  | read {e leaf : Nat} {r : Realization} (h : Needs net choice e)
      (hr : choice.getD e none = some r) (hleaf : leaf ∈ r.leaves) : Needs net choice leaf

/-- Everything that the outputs need has a realisation. -/
def Covers (net : Subnet) (choice : Choice) : Prop :=
  ∀ e, Needs net choice e → ∃ r, choice.getD e none = some r

/-- What a choice takes reads entries in front only. -/
def ReadsBelow (net : Subnet) (choice : Choice) : Prop :=
  ∀ e < net.size, ∀ r, choice.getD e none = some r → ∀ leaf ∈ r.leaves, leaf < e

variable {net : Subnet} {choice : Choice} {e : Nat}

lemma lt_size_of_mem_outputs (h : e ∈ net.outputs) : e < net.size := by
  rw [← net.filter_outputs] at h
  exact List.mem_range.1 (List.mem_filter.1 h).1

lemma outputStart_le_of_mem_outputs (h : e ∈ net.outputs) : net.outputStart ≤ e := by
  rw [← net.filter_outputs] at h
  exact of_decide_eq_true (List.mem_filter.1 h).2

lemma Needs.lt_size (h : Needs net choice e) (below : ReadsBelow net choice) : e < net.size := by
  induction h with
  | output h => exact lt_size_of_mem_outputs h
  | read _ hr hleaf ih => exact (below _ ih _ hr _ hleaf).trans ih

/-- A choice that takes more of what is needed needs more. -/
lemma Needs.mono {choice' : Choice} (h : Needs net choice e) (more : ∀ e r, Needs net choice e →
    choice.getD e none = some r → choice'.getD e none = some r) : Needs net choice' e := by
  induction h with
  | output h => exact .output h
  | read he hr hleaf ih => exact .read ih (more _ _ he hr) hleaf

/-- The exploration finds what the outputs need. -/
lemma mem_reachable_iff_needs (below : ReadsBelow net choice) :
    e ∈ reachable (fun v => (choice.getD v none).elim [] Realization.leaves) net.size net.outputs ↔
      Needs net choice e := by
  constructor
  · intro h
    obtain ⟨root, hroot, path⟩ := exists_path_of_mem_reachable h
    clear h
    induction path with
    | refl => exact .output hroot
    | @tail v w _ hstep ih =>
        cases hr : choice.getD v none with
        | none =>
            rw [hr] at hstep
            cases hstep
        | some r =>
            rw [hr] at hstep
            exact .read ih hr hstep
  · intro h
    induction h with
    | output h => exact mem_reachable_of_root h (lt_size_of_mem_outputs h)
    | @read v leaf r hv hr hleaf ih =>
        refine mem_reachable_of_next ih ?_ ((Needs.read hv hr hleaf).lt_size below)
        rw [hr]
        exact hleaf

/-- The entries that are found are those that the outputs need, and they are found exactly if the choice
covers the outputs. -/
lemma neededEntries_spec (below : ReadsBelow net choice) :
    match neededEntries net choice with
    | .ok needed => Covers net choice ∧ ∀ e, e ∈ needed ↔ Needs net choice e
    | .error _ => ¬Covers net choice := by
  have found := fun e => mem_reachable_iff_needs (e := e) below
  simp only [neededEntries]
  split
  · rename_i heq
    split at heq
    · cases heq
    · rename_i hnone
      cases heq
      refine ⟨fun e he => ?_, found⟩
      have hsome := List.find?_eq_none.1 hnone e ((found e).2 he)
      exact Option.ne_none_iff_exists'.1 (by simpa using hsome)
  · rename_i heq
    split at heq
    · rename_i entry hentry
      intro covers
      obtain ⟨r, hr⟩ := covers entry ((found entry).1 (List.mem_of_find?_eq_some hentry))
      have hnone := List.find?_some hentry
      rw [hr] at hnone
      cases hnone
    · cases heq

lemma eq_noAdmissibleCut {e : MapError} (h : neededEntries net choice = .error e) :
    ∃ entry, e = .noAdmissibleCut entry := by
  simp only [neededEntries] at h
  split at h
  · cases h
    exact ⟨_, rfl⟩
  · cases h

end MappedNetwork

/-- A realisation by a cell uses a cell of the library, with a link for each pin. -/
def Realization.Fits (library : Library) : Realization → Prop
  | .cell c pins => ∃ cell, library.cells[c]? = some cell ∧ pins.length = cell.inputs
  | _ => True

lemma Subnet.RealizedBy.fits {net : Subnet} {store : Store} {library : Library} {entry : Nat}
    {r : Realization} (h : net.RealizedBy store library entry r) : r.Fits library := by
  cases h with
  | input h => trivial
  | output start below value => trivial
  | inner inputs outputs below value =>
      cases r with
      | cell c pins =>
          obtain ⟨cell, hcell, hpins⟩ := Option.bind_eq_some_iff.1 (value fun _ => false)
          refine ⟨cell, hcell, ?_⟩
          split at hpins
          · rename_i hlength
            exact hlength.1
          · cases hpins
      | _ => trivial

lemma Subnet.RealizedBy.below {net : Subnet} {store : Store} {library : Library} {entry : Nat}
    {r : Realization} (h : net.RealizedBy store library entry r) : ∀ leaf ∈ r.leaves, leaf < entry := by
  intro leaf hleaf
  cases h with
  | input h => cases hleaf
  | output start below value =>
      rw [List.mem_singleton.1 hleaf]
      exact below.1
  | inner inputs outputs below value => exact (below leaf hleaf).1

open MappedNetwork

/-- With no inverter no candidate has a complemented pin. -/
lemma Library.served_of_mem_matchesOf {l : Library} {n : Nat} {f : TruthTable n} {m : CellMatch}
    (h : m ∈ l.matchesOf f) {pin : PinSource} (hpin : pin ∈ m.pins) (hinverted : pin.inverted = true) :
    l.inverter.isSome = true := by
  obtain ⟨-, -, -, -, hzero | hsome⟩ := mem_matchesOf.1 h
  · exact absurd hinverted (List.countP_eq_zero.1 hzero pin hpin)
  · exact hsome

namespace Problem

variable {library : Library} {leaves : List Nat} {r : Realization} {l : Link}

lemma served_of_mem_realizationsOn {f : TruthTable leaves.length}
    (h : r ∈ realizationsOn library leaves f) (hl : l ∈ r.links) : l.Served library := by
  simp only [realizationsOn] at h
  split at h
  · unfold realizations at h
    split at h
    · rw [List.mem_singleton.1 h] at hl
      cases hl
    · split at h
      · rw [List.mem_singleton.1 h] at hl
        cases hl
      · split at h
        · obtain ⟨leaf, -, rfl⟩ := List.mem_map.1 h
          cases hl
        · obtain ⟨m, hm, rfl⟩ := List.mem_map.1 h
          obtain ⟨pin, hpin, rfl⟩ := List.mem_map.1 hl
          exact fun hinverted => Library.served_of_mem_matchesOf hm hpin
            (by simpa [Link.invertIf, Link.of] using hinverted)
  · cases h

variable {net : Subnet} {store : Store} {options : MapOptions} {p : Problem} {entry : Nat}
  {choice : Choice}

/-- What is known of everything that an entry may be realised by: it fits the library and reads entries
in front only, and an output stays one. -/
structure Suits (p : Problem) (e : Nat) (r : Realization) : Prop where
  fits : r.Fits p.library
  below : ∀ leaf ∈ r.leaves, leaf < e
  output : e ∈ p.net.outputs → p.fixed? e = some r ∧ ∃ l, r = .output l

/-- Whatever an entry may be realised by suits it. -/
def Sound (p : Problem) : Prop := ∀ e r, p.AdmitsAt e (some r) → p.Suits e r

lemma sound_of (h : of store net library options = .ok p) (mappable : store.Mappable net) :
    p.Sound := by
  intro e r hr
  have realizedBy := realizedBy_of_admitsAt h mappable hr
  obtain ⟨-, hnet, hlibrary, -⟩ := stated_of h
  refine ⟨hlibrary ▸ realizedBy.fits, realizedBy.below, fun ho => ?_⟩
  rw [hnet] at ho
  have hstart := outputStart_le_of_mem_outputs ho
  have hfixed : p.fixed? e = some r := by
    unfold AdmitsAt at hr
    split at hr
    · rename_i r' hfixed
      exact hfixed.trans hr.symm
    · obtain ⟨c, hc, rfl⟩ := hr r rfl
      obtain ⟨cell, -, hcell, hterm, -⟩ := exists_cuts_of_mem h hc
      have := ((Subnet.isTerminal_eq_false_iff hcell).1 hterm).2
      omega
  refine ⟨hfixed, ?_⟩
  cases realizedBy with
  | input hin =>
      have := net.numInputs_le_outputStart
      omega
  | output start below value => exact ⟨_, rfl⟩
  | inner inputs outputs below value => omega

lemma admitsAt_of_mem {e : Nat} {c : Candidate} (hfixed : p.fixed? e = none)
    (hmem : c ∈ p.candidatesAt e) : p.AdmitsAt e (some c.realization) := by
  rw [AdmitsAt, hfixed]
  rintro _ ⟨⟩
  exact ⟨c, hmem, rfl⟩

/-- Whatever an entry may be realised by reads entries in front only. -/
def Ordered (p : Problem) : Prop := ∀ e r, p.AdmitsAt e (some r) → ∀ leaf ∈ r.leaves, leaf < e

lemma Sound.ordered (sound : p.Sound) : p.Ordered := fun e r hr => (sound e r hr).below

/-- The leaves of a cut are in front of its root, whatever ports the links read. -/
lemma ordered_of (h : of store net library options = .ok p) : p.Ordered := by
  intro e r hr leaf hleaf
  unfold AdmitsAt at hr
  split at hr
  · rename_i r' hfixed
    cases hr
    obtain ⟨c, hc, hreal⟩ := Option.bind_eq_some_iff.1 hfixed
    unfold Cell.realization? at hreal
    split at hreal
    · cases hreal
      cases hleaf
    · obtain ⟨l, hl, rfl⟩ := Option.map_eq_some_iff.1 hreal
      cases List.mem_singleton.1 hleaf
      exact (p.net.obeys hc).lt_of_reads l.entry (List.mem_map_of_mem (List.mem_of_head? hl))
    · cases hreal
      cases hleaf
    · cases hreal
      cases hleaf
    · cases hreal
  · obtain ⟨candidate, hmem, rfl⟩ := hr r rfl
    exact (realizedBy_of_mem h hmem).below leaf hleaf

lemma Ordered.readsBelow (ordered : p.Ordered) (admits : p.Admits choice) : ReadsBelow p.net choice :=
  fun e he r hr => ordered e r (hr ▸ admits e he)

/-- A choice among the candidates reads entries in front only. -/
lemma Admits.readsBelow (admits : p.Admits choice) (sound : p.Sound) : ReadsBelow p.net choice :=
  sound.ordered.readsBelow admits

/-- Candidates are served. -/
lemma served_of_mem (h : of store net library options = .ok p) {c : Candidate}
    (hmem : c ∈ p.candidatesAt entry) (hl : l ∈ c.realization.links) : l.Served library := by
  obtain ⟨cell, found, -, -, -, hfound, hrun⟩ := exists_cuts_of_mem h hmem
  obtain ⟨cut, -, -, f, -, hr⟩ := mem_candidatesOf hrun hfound
  exact served_of_mem_realizationsOn hr hl

/-- The complemented outputs of a problem are served. -/
def Served (p : Problem) : Prop :=
  ∀ entry < p.net.size, ∀ r, p.fixed? entry = some r → ∀ l ∈ r.links, l.Served p.library

/-- Of the entries that leave no choice, only outputs have links. -/
lemma mem_outputs_of_links (hfixed : (net.cells[entry]?).bind Cell.realization? = some r)
    (hl : l ∈ r.links) : entry ∈ net.outputs := by
  obtain ⟨c, hc, hreal⟩ := Option.bind_eq_some_iff.1 hfixed
  have hout : c.isOutput = true := by
    unfold Cell.realization? at hreal
    split at hreal
    · cases hreal
      cases hl
    · rename_i hkind
      exact beq_iff_eq.2 hkind
    · cases hreal
      cases hl
    · cases hreal
      cases hl
    · cases hreal
  rw [← net.filter_outputs]
  exact List.mem_filter.2 ⟨List.mem_range.2 (Subnet.lt_size hc),
    decide_eq_true ((net.obeys hc).isOutput_iff.1 hout)⟩

/-- What needs to be served among what the outputs need are complemented outputs. -/
lemma Admits.served_iff (admits : p.Admits choice) (h : of store net library options = .ok p) :
    (∀ e < net.size, Needs net choice e → ServedAt library choice e) ↔ p.Served := by
  obtain ⟨-, hnet, hlibrary, -⟩ := stated_of h
  constructor
  · intro served entry hentry r hr l hl
    have hadmits := admits entry hentry
    rw [AdmitsAt, hr] at hadmits
    rw [fixed?, hnet] at hr
    rw [hlibrary]
    exact served entry (hnet ▸ hentry) (.output (mem_outputs_of_links hr hl)) r hadmits l hl
  · intro served e he _ r hr l hl
    have hadmits := admits e (hnet ▸ he)
    unfold AdmitsAt at hadmits
    split at hadmits
    · rename_i r' hfixed
      cases hr.symm.trans hadmits
      exact hlibrary ▸ served e (hnet ▸ he) r hfixed l hl
    · obtain ⟨candidate, hmem, rfl⟩ := hadmits r hr
      exact served_of_mem h hmem hl

/-- The network of a choice can be built exactly if the choice covers the outputs and the complemented
outputs are served, which does not depend on the choice; and an entry is missed exactly if the choice does
not cover the outputs. -/
theorem Admits.ofChoice_spec (admits : p.Admits choice) (installed : library.Installed store)
    (mappable : store.Mappable net) (h : of store net library options = .ok p) :
    ∃ result, ofChoice store net library choice = .ok result ∧
      ((∃ mapped, result = .ok mapped) ↔ Covers net choice ∧ p.Served) ∧
      ((∃ entry, result = .error (.noAdmissibleCut entry)) ↔ ¬Covers net choice) := by
  obtain ⟨result, hresult, -, hok, hmissed⟩ := MappedNetwork.ofChoice_spec installed
    (fun _ hentry => admits.input h hentry) fun _ hentry _ hr => admits.realizedBy h mappable hentry hr
  have below : ReadsBelow net choice := net_of h ▸ admits.readsBelow (sound_of h mappable)
  have needed := neededEntries_spec below
  refine ⟨result, hresult, ?_, ?_⟩
  · rw [hok, ← admits.served_iff h]
    cases hneeded : neededEntries net choice with
    | error e =>
        rw [hneeded] at needed
        exact ⟨nofun, fun h => absurd h.1 needed⟩
    | ok found =>
        rw [hneeded] at needed
        obtain ⟨covers, hfound⟩ := needed
        constructor
        · rintro ⟨_, ⟨⟩, served⟩
          exact ⟨covers, fun e he hneeds => served e he ((hfound e).2 hneeds)⟩
        · rintro ⟨-, served⟩
          exact ⟨found, rfl, fun e he hmem => served e he ((hfound e).1 hmem)⟩
  · simp only [hmissed]
    cases hneeded : neededEntries net choice with
    | error e =>
        rw [hneeded] at needed
        obtain ⟨entry, rfl⟩ := eq_noAdmissibleCut hneeded
        exact ⟨fun _ => needed, fun _ => ⟨entry, rfl⟩⟩
    | ok found =>
        rw [hneeded] at needed
        exact ⟨nofun, fun uncovered => absurd needed.1 uncovered⟩

end Problem

end Gatework
