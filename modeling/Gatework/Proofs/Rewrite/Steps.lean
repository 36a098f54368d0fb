import Gatework.Proofs.Builder.Walk
import Gatework.Proofs.Cut.Reconvergence
import Gatework.Proofs.Cut.Refresh

/-!
# The steps of a pass

What a pass keeps whatever the cells compute: the builder stays well-formed and the cuts stay those of
the builder.

* `Fresh.exists_cutsAt`: the cuts that are tried have their leaves in front of the entry.
* `Fresh.exists_refreshed`: after a replacement the cuts are those of the new builder.
* `visit_cases`, `apply_eq_ok_iff`: what a visit can do.
* `walk_invariant`: what every visit keeps is kept by a pass.
-/

namespace Gatework

namespace Rewrite

open Builder

/-- The cuts that a pass has listed are those of the builder.  It lists none only if it looks for
reconvergence at each entry. -/
structure Serves (options : RewriteOptions) (b : Builder) (cuts : Option CutSets) : Prop where
  source : cuts = none → options.source = .reconvergence
  current : ∀ sets, cuts = some sets → sets.options = options.cuts ∧ sets.Current b

/-- The builder of a state is well-formed, and the cuts serve it. -/
structure Fresh (options : RewriteOptions) (s : State) : Prop where
  wellFormed : s.builder.WellFormed
  cuts : Serves options s.builder s.cuts

/-- The cuts at a living entry that are not trivial have few leaves, which are in front of it and
separate it from the inputs.  Where they are found by reconvergence, this takes constants without
operands. -/
lemma Fresh.exists_cutsAt {options : RewriteOptions} {s : State} (h : Fresh options s)
    (size : 0 < options.cuts.size) {entry : Nat} (hentry : entry ∈ s.builder.order) :
    ∃ cuts, cutsAt options s entry = .ok cuts ∧ ∀ cut ∈ cuts, cut.isTrivial = false →
      s.builder.ProperCut options.cuts.size entry cut ∧
        ∀ store, s.builder.InnerRegular store (options.source = .reconvergence) →
          Separated s.builder.cells cut.leaves entry := by
  unfold cutsAt
  cases hcuts : s.cuts with
  | none =>
      obtain ⟨cut, hcut, proper⟩ := h.wellFormed.exists_reconvergenceCut hentry size
      refine ⟨[cut], by simp only [hcut]; rfl, fun c hc htrivial => ?_⟩
      obtain rfl := List.mem_singleton.1 hc
      obtain ⟨proper, separated⟩ := proper htrivial
      exact ⟨proper, fun store regular =>
        separated store (regular.mono fun _ => h.cuts.source hcuts)⟩
  | some sets =>
      obtain ⟨hoptions, current⟩ := h.cuts.current sets hcuts
      refine ⟨_, CutSets.get_eq_ok_iff.2 (current entry hentry), fun cut hcut htrivial => ?_⟩
      obtain ⟨proper, separated⟩ := current.proper h.wellFormed hentry
        (CutSets.get_eq_ok_iff.2 (current entry hentry)) hcut htrivial
      exact ⟨hoptions ▸ proper, fun _ _ => separated⟩

/-- The state while the cuts of an entry are tried: only the store and two counters change. -/
structure Tried (s s' : State) : Prop where
  builder : s'.builder = s.builder
  cuts : s'.cuts = s.cuts
  stats : s'.stats = { s.stats with
    visited := s'.stats.visited, resynthesized := s'.stats.resynthesized }

lemma Tried.refl (s : State) : Tried s s := ⟨rfl, rfl, rfl⟩

lemma Tried.trans {s s' s'' : State} (h : Tried s s') (h' : Tried s' s'') : Tried s s'' where
  builder := h'.builder.trans h.builder
  cuts := h'.cuts.trans h.cuts
  stats := by rw [h'.stats, h.stats]

variable {options : RewriteOptions} {s s' : State} {m : Resynthesizer} {entry : Nat} {cut : Cut}
  {mismatch : Option FunctionalMismatch}

lemma Fresh.tried (h : Fresh options s) (tried : Tried s s') : Fresh options s' where
  wellFormed := tried.builder ▸ h.wellFormed
  cuts := by
    rw [tried.builder, tried.cuts]
    exact h.cuts

/-- Current cuts are brought up to date. -/
lemma Fresh.exists_refreshed (h : Fresh options s) {r : Replacement} {shown : Link}
    {full b' : Builder} {inn inn' kept : List Nat} {count : Nat} {c : Cell}
    (layout : Layout s.builder s.builder.inputs (inn ++ r.root :: inn') s.builder.outputs)
    (replaced : Replaced r shown s.builder full b' s.builder.inputs inn inn' s.builder.outputs kept
      count c) :
    ∃ cuts, refreshed s.cuts b' r.root s.builder.size = .ok cuts ∧ Serves options b' cuts := by
  cases hold : s.cuts with
  | none => exact ⟨none, rfl, fun _ => h.cuts.source hold, by simp⟩
  | some sets =>
      obtain ⟨hoptions, current⟩ := h.cuts.current sets hold
      obtain ⟨sets', hrefresh, hoptions', current'⟩ := replaced.exists_refreshCuts layout current
      refine ⟨some sets', by rw [refreshed, hrefresh]; rfl, nofun, ?_⟩
      rintro _ ⟨⟩
      exact ⟨hoptions'.trans hoptions, current'⟩

/-! ## What a step can do -/

/-- The result of trying a cut. -/
lemma tried_of_tryCut {found : Option Candidate} (h : tryCut m options s cut = .ok (s', found)) :
    Tried s s' ∧ ∀ c ∈ found, c.cut = cut ∧ s.builder.predict c.replacement = .ok c.effect := by
  obtain ⟨table, -, h⟩ := bind_eq_ok_iff.1 h
  obtain ⟨⟨store, result⟩, -, h⟩ := bind_eq_ok_iff.1 h
  cases result with
  | none =>
      cases h
      exact ⟨⟨rfl, rfl, rfl⟩, by simp⟩
  | some net =>
      dsimp only at h
      split at h
      · cases h
      · obtain ⟨effect, predicted, h⟩ := bind_eq_ok_iff.1 h
        cases h
        refine ⟨⟨rfl, rfl, rfl⟩, fun c hc => ?_⟩
        cases hc
        exact ⟨rfl, predicted⟩

/-- A candidate that may be carried out: it replaces the cone of one of the cuts of the entry, and the
effect predicted for it is good enough. -/
structure Offered (options : RewriteOptions) (s : State) (cuts : List Cut) (c : Candidate) :
    Prop where
  listed : c.cut ∈ cuts
  predicted : s.builder.predict c.replacement = .ok c.effect
  accepted : accepts options c.effect = true

lemma Offered.tried {cuts : List Cut} {c : Candidate} (h : Offered options s cuts c)
    (tried : Tried s s') : Offered options s' cuts c where
  listed := h.listed
  predicted := tried.builder ▸ h.predicted
  accepted := h.accepted

/-- The result of trying some cuts. -/
lemma tried_of_considerCuts {cuts : List Cut} {best : Option Candidate}
    (h : cuts.foldlM (considerCut m options) (s, none) = .ok (s', best)) :
    Tried s s' ∧ ∀ c ∈ best, Offered options s' cuts c := by
  refine foldlM_invariant (fun state : State × Option Candidate =>
    Tried s state.1 ∧ ∀ c ∈ state.2, Offered options state.1 cuts c) ⟨.refl s, by simp⟩ ?_ h
  rintro cut hcut ⟨s₁, best₁⟩ ⟨s₂, best₂⟩ ⟨tried, offered⟩ hstep
  obtain ⟨⟨s₂, found⟩, htry, hstep⟩ := bind_eq_ok_iff.1 hstep
  obtain ⟨tried', hfound⟩ := tried_of_tryCut htry
  have old : ∀ c ∈ best₁, Offered options s₂ cuts c := fun c hc => (offered c hc).tried tried'
  cases found with
  | none =>
      cases hstep
      exact ⟨tried.trans tried', old⟩
  | some candidate =>
      cases hstep
      refine ⟨tried.trans tried', fun c hc => ?_⟩
      dsimp only at hc
      split at hc
      · rename_i better
        cases hc
        obtain ⟨rfl, predicted⟩ := hfound candidate rfl
        exact ⟨hcut, tried'.builder ▸ predicted, (Bool.and_eq_true_iff.1 better).1⟩
      · exact old c hc

/-- What it takes to carry out a candidate. -/
lemma apply_eq_ok_iff {c : Candidate} : apply options s c = .ok (s', mismatch) ↔
    ∃ b' cuts, s.builder.replace c.replacement = .ok b' ∧
      refreshed s.cuts b' c.cut.root s.builder.size = .ok cuts ∧
      s' = { s with
        builder := b', cuts, stats := { s.stats with rewritten := s.stats.rewritten + 1 } } ∧
      checkCone options s' c = .ok mismatch := by
  unfold apply
  simp only [bind_eq_ok_iff]
  constructor
  · rintro ⟨b', hb', cuts, hcuts, found, hfound, h⟩
    cases h
    exact ⟨b', cuts, hb', hcuts, rfl, hfound⟩
  · rintro ⟨b', cuts, hb', hcuts, rfl, hfound⟩
    exact ⟨b', hb', cuts, hcuts, mismatch, hfound, rfl⟩

/-- What a visit can do: it leaves the builder as it is, or it carries out a candidate that it was
offered at an inner cell. -/
theorem visit_cases (h : visit m options s entry = .ok (s', mismatch)) :
    (Tried s s' ∧ mismatch = none) ∨ ∃ s₁ cuts c, Tried s s₁ ∧
      (s.builder.cells[entry]?).any Cell.isTerminal = false ∧ cutsAt options s entry = .ok cuts ∧
      Offered options s₁ (cuts.filter (!·.isTrivial)) c ∧
      apply options s₁ c = .ok (s', mismatch) := by
  unfold visit at h
  split at h
  · cases h
  rename_i cell hcell
  split at h
  · cases h
    exact .inl ⟨.refl s, rfl⟩
  rename_i hkind
  simp only [Bool.or_eq_true, not_or, Bool.not_eq_true] at hkind
  obtain ⟨cuts, hcuts, h⟩ := bind_eq_ok_iff.1 h
  obtain ⟨⟨s₁, best⟩, hbest, h⟩ := bind_eq_ok_iff.1 h
  obtain ⟨tried, offered⟩ := tried_of_considerCuts hbest
  have tried : Tried s s₁ := ⟨tried.builder, tried.cuts, tried.stats⟩
  cases best with
  | none =>
      cases h
      exact .inl ⟨tried, rfl⟩
  | some c =>
      refine .inr ⟨s₁, cuts, c, tried, ?_, hcuts, offered c rfl, h⟩
      rw [hcell]
      exact hkind.1

/-- What every visit of a living entry keeps holds at the end of a walk that finds no mismatch. -/
theorem walk_invariant (P : State → Prop)
    (step : ∀ s entry s', P s → s.builder.isAlive entry = true →
      visit m options s entry = .ok (s', none) → P s')
    {fuel : Nat} {cursor : Cursor} (start : P s)
    (h : walk m options fuel cursor s = .ok (s', none)) : P s' := by
  induction fuel generalizing s cursor with
  | zero => cases h
  | succ fuel ih =>
      obtain ⟨⟨next, cursor'⟩, hadvance, h⟩ := bind_eq_ok_iff.1 h
      cases next with
      | none =>
          cases h
          exact start
      | some entry =>
          obtain ⟨⟨s₁, found⟩, hvisit, h⟩ := bind_eq_ok_iff.1 h
          cases found with
          | some mismatch => cases h
          | none => exact ih (step s entry s₁ start (isAlive_of_advance hadvance) hvisit) h

/-- A pass begins with current cuts. -/
lemma exists_initialCuts {b : Builder} (h : WellFormed b) (pos : 0 < options.cuts.size) :
    ∃ cuts, initialCuts options b = .ok cuts ∧ Serves options b cuts := by
  unfold initialCuts
  cases hsource : options.source with
  | enumerated =>
      obtain ⟨sets, henum, hoptions, current⟩ := h.exists_enumerate pos
      refine ⟨some sets, by rw [henum]; rfl, nofun, ?_⟩
      rintro _ ⟨⟩
      exact ⟨hoptions, current⟩
  | reconvergence => exact ⟨none, rfl, fun _ => hsource, by simp⟩

/-- A pass that succeeds is a walk that finds no mismatch. -/
lemma rewrite_eq_ok_iff {b b' : Builder} {store store' : Store} {stats : RewriteStats} :
    b.rewrite store m options = .ok (store', b', .ok stats) ↔ 0 < options.cuts.size ∧
      ∃ cuts s, initialCuts options b = .ok cuts ∧
        walk m options (b.size + 1) (.start b) (start store b cuts) = .ok (s, none) ∧
        store' = s.store ∧ b' = s.builder ∧ stats = { s.stats with
          cellsAfter := s.builder.cellCount, depthAfter := s.builder.maxDepth } := by
  unfold Builder.rewrite
  split
  · rename_i hzero
    exact ⟨fun h => (nomatch h), fun h => absurd hzero h.1.ne'⟩
  rename_i hpos
  simp only [bind_eq_ok_iff]
  constructor
  · rintro ⟨cuts, hcuts, ⟨s, mismatch⟩, hwalk, h⟩
    cases mismatch with
    | some mismatch => cases h
    | none =>
        cases h
        exact ⟨Nat.pos_of_ne_zero hpos, cuts, s, hcuts, hwalk, rfl, rfl, rfl⟩
  · rintro ⟨-, cuts, s, hcuts, hwalk, rfl, rfl, rfl⟩
    exact ⟨cuts, hcuts, ⟨s, none⟩, hwalk, rfl⟩

end Rewrite

end Gatework
