import Gatework.Proofs.Rewrite.Function

/-!
# A pass never makes a network worse

A candidate is carried out only if its predicted effect is good enough, and predictions are exact.  So
every replacement takes cells away, or keeps their number where that is allowed.  For the depths one
more thought is needed: depths are monotone in the depths of what is read, so a root that does not get
deeper makes nothing above it deeper, however the paths meet again (`Replaced.depth_le`).

Nothing is said about what the cells compute: the pass may use any way to synthesise functions.

**Main statement.** `rewrite_improves`.
-/

namespace Gatework

lemma foldl_max_mono {xs : List Nat} {f g : Nat → Nat} (h : ∀ x ∈ xs, f x ≤ g x) {m n : Nat}
    (hmn : m ≤ n) : (xs.map f).foldl max m ≤ (xs.map g).foldl max n := by
  induction xs generalizing m n with
  | nil => exact hmn
  | cons x xs ih =>
      have := h x (by simp)
      exact ih (fun y hy => h y (by simp [hy])) (by omega)

/-- A cell is no deeper over drivers that are no deeper. -/
lemma Cell.depth_mono {c : Cell} {f g : Nat → Nat} (h : ∀ d ∈ c.drivers, f d ≤ g d) :
    c.depth f ≤ c.depth g := by
  have deepest := foldl_max_mono h (le_refl 0)
  unfold Cell.depth
  split <;> simp only [le_refl, Nat.add_le_add_iff_right, deepest]

namespace Builder

/-- If the root of a replacement gets no deeper, nothing that was there before does. -/
theorem Replaced.depth_le {r : Replacement} {shown : Link} {b full b' : Builder}
    {ins inn inn' outs kept : List Nat} {count : Nat} {c : Cell}
    (h : Replaced r shown b full b' ins inn inn' outs kept count c)
    (layout : Layout b ins (inn ++ r.root :: inn') outs) (settled : Settled b)
    (hroot : b'.depth r.root ≤ b.depth r.root) :
    ∀ id ∈ b'.order, id ∈ b.order → b'.depth id ≤ b.depth id := by
  have harr := layout.arranged_order
  refine (h.layout.wellFormed h.settled).induction_order fun id hid e he ih hold => ?_
  by_cases hne : id = r.root
  · exact hne ▸ hroot
  have he' : b.cells[id]? = some e := by
    rw [← he, h.same, h.getElem?_old (harr.lt_size hold) hne]
  rw [h.settled id hid e he, settled id hold e he']
  refine Cell.depth_mono fun d hd => ?_
  obtain ⟨-, -, -, hle⟩ := ih d hd
  refine hle (harr.mem_of_reads id hold d ?_)
  rwa [driversOf, he']

end Builder

namespace Rewrite

open Builder

/-- What a pass over `b` has achieved so far. -/
structure Improved (options : RewriteOptions) (b : Builder) (s : State) : Prop
    extends Fresh options s where
  outputs : s.builder.outputs = b.outputs
  cells : s.builder.cellCount + (if options.zeroCost then 0 else s.stats.rewritten) ≤ b.cellCount
  depths : options.depthAware = true → ∀ o ∈ b.outputs, s.builder.depth o ≤ b.depth o
  cellsBefore : s.stats.cellsBefore = b.cellCount
  depthBefore : s.stats.depthBefore = b.maxDepth

variable {options : RewriteOptions} {b : Builder} {s s' : State} {m : Resynthesizer} {entry : Nat}

lemma Improved.tried (h : Improved options b s) (tried : Tried s s') : Improved options b s' where
  toFresh := h.toFresh.tried tried
  outputs := tried.builder ▸ h.outputs
  cells := by
    rw [tried.stats, tried.builder]
    exact h.cells
  depths := by
    rw [tried.builder]
    exact h.depths
  cellsBefore := by
    rw [tried.stats]
    exact h.cellsBefore
  depthBefore := by
    rw [tried.stats]
    exact h.depthBefore

/-- What is accepted takes cells away, if it must, and does not make the root deeper, if it must not. -/
lemma accepts_iff {e : Effect} : accepts options e = true ↔
    e.size + (if options.zeroCost then 0 else 1) ≤ 0 ∧ (options.depthAware = true → e.depth ≤ 0) := by
  unfold accepts
  cases options.zeroCost <;> cases options.depthAware <;> simp <;> omega

/-- Carrying out an accepted candidate with leaves in front of its root is an improvement. -/
lemma Improved.apply (h : Improved options b s) {c : Candidate}
    {mismatch : Option FunctionalMismatch}
    (front : s.builder.InFront c.cut.leaves c.cut.root)
    (predicted : s.builder.predict c.replacement = .ok c.effect)
    (accepted : accepts options c.effect = true)
    (run : apply options s c = .ok (s', mismatch)) : Improved options b s' := by
  obtain ⟨b', cuts, hreplace, hcuts, rfl, -⟩ := apply_eq_ok_iff.1 run
  have wf := h.wellFormed
  obtain ⟨shown, full, inn, inn', kept, count, cell, hsplit, fits, hleaves, hshown, replaced⟩ :=
    wf.exists_replaced (r := c.replacement) front hreplace
  have layout := wf.layout
  rw [hsplit] at layout
  have single : c.replacement.net.numOutputs = 1 := by
    obtain ⟨⟨⟩, hcheck, -⟩ := bind_eq_ok_iff.1 hreplace
    exact (checkReplacement_eq_ok_iff.1 hcheck).1
  -- the prediction was exact
  have exactly := replaced.predict_eq layout wf.settled single fits hleaves hshown
  rw [predicted] at exactly
  obtain ⟨hsize, hdepth⟩ := accepts_iff.1 accepted
  rw [Except.ok.inj exactly] at hsize hdepth
  obtain ⟨cuts', hcuts', current⟩ := h.toFresh.exists_refreshed layout replaced
  cases hcuts.symm.trans hcuts'
  refine ⟨⟨replaced.layout.wellFormed replaced.settled, current⟩, ?_, ?_, fun aware o ho => ?_,
    h.cellsBefore, h.depthBefore⟩
  · exact replaced.layout.outputs_eq.trans h.outputs
  · have := h.cells
    dsimp only at hsize ⊢
    split at hsize <;> split at this <;> simp_all <;> omega
  · have hout : o ∈ s.builder.outputs := h.outputs ▸ ho
    have hroot : b'.depth c.replacement.root ≤ s.builder.depth c.replacement.root := by
      have := hdepth aware
      dsimp only at this
      omega
    refine (replaced.depth_le layout wf.settled hroot o ?_ ?_).trans (h.depths aware o ho)
    · exact replaced.layout.mem_order.2 (.inr (.inr hout))
    · exact layout.mem_order.2 (.inr (.inr hout))

/-- A visit is an improvement or changes nothing. -/
lemma Improved.visit (h : Improved options b s) (pos : 0 < options.cuts.size)
    (alive : s.builder.isAlive entry = true) {mismatch : Option FunctionalMismatch}
    (run : visit m options s entry = .ok (s', mismatch)) : Improved options b s' := by
  rcases visit_cases run with ⟨tried, -⟩ | ⟨s₁, cuts, c, tried, -, hcuts, offered, happly⟩
  · exact h.tried tried
  have hentry : entry ∈ s.builder.order := (h.wellFormed.arranged.isAlive_iff entry).1 alive
  obtain ⟨hcut, htrivial⟩ := List.mem_filter.1 offered.listed
  obtain ⟨cuts', hcuts', proper⟩ := h.toFresh.exists_cutsAt pos hentry
  cases hcuts.symm.trans hcuts'
  obtain ⟨proper, -⟩ := proper c.cut hcut (by simpa using htrivial)
  refine (h.tried tried).apply ?_ offered.predicted offered.accepted happly
  rw [tried.builder, proper.root_eq]
  exact proper.front

end Rewrite

open Rewrite

namespace Builder

/-- A pass that ends without a mismatch, whatever it synthesises, has taken away at least as many cells
as it made replacements, or, where replacements that keep the number of cells are allowed, has at least
not added any.  If the pass looks at depths, no output is deeper than it was. -/
theorem rewrite_improves {store store' : Store} {b b' : Builder} {m : Resynthesizer}
    {options : RewriteOptions} {stats : RewriteStats} (h : WellFormed b)
    (run : b.rewrite store m options = .ok (store', b', .ok stats)) :
    stats.cellsBefore = b.cellCount ∧ stats.cellsAfter = b'.cellCount ∧
      stats.depthBefore = b.maxDepth ∧ stats.depthAfter = b'.maxDepth ∧
      stats.cellsAfter ≤ stats.cellsBefore ∧
      (options.zeroCost = false → stats.cellsAfter + stats.rewritten ≤ stats.cellsBefore) ∧
      (options.depthAware = true → b'.outputs = b.outputs ∧
        (∀ o ∈ b.outputs, b'.depth o ≤ b.depth o) ∧ stats.depthAfter ≤ stats.depthBefore) := by
  obtain ⟨pos, cuts, s, hcuts, hwalk, rfl, rfl, rfl⟩ := rewrite_eq_ok_iff.1 run
  obtain ⟨cuts', hcuts', current⟩ := exists_initialCuts h pos
  cases hcuts.symm.trans hcuts'
  have begun : Improved options b (start store b cuts) :=
    ⟨⟨h, current⟩, rfl, by simp [start], fun _ _ _ => le_refl _, rfl, rfl⟩
  have improved : Improved options b s :=
    walk_invariant (Improved options b) (fun s entry s' hs alive run => hs.visit pos alive run) begun
      hwalk
  have hcells := improved.cells
  refine ⟨improved.cellsBefore, rfl, improved.depthBefore, rfl, ?_, fun hzero => ?_, fun aware => ?_⟩
  · dsimp only
    rw [improved.cellsBefore]
    omega
  · dsimp only
    rw [improved.cellsBefore]
    simpa [hzero] using hcells
  · refine ⟨improved.outputs, improved.depths aware, ?_⟩
    dsimp only
    rw [improved.depthBefore, maxDepth, maxDepth, improved.outputs]
    exact foldl_max_mono (improved.depths aware) (le_refl 0)

/-- The absorption does not get worse. -/
theorem rewrite_improves_absorption : ∃ b store' b' stats, ofSubnet absorption = .ok b ∧
    b.rewrite .empty Method.sumOfProducts {} = .ok (store', b', .ok stats) ∧
      stats.cellsAfter + stats.rewritten ≤ stats.cellsBefore ∧
      stats.depthAfter ≤ stats.depthBefore := by
  obtain ⟨b, hb, wf, regular⟩ := exists_ofSubnet_absorption
  obtain ⟨s, stats, run, -⟩ := @WellFormed.exists_rewrite _ _ .sumOfProducts {} wf
    (regular.mono fun _ => trivial) trivial trivial (by decide) (by decide) (by decide)
  obtain ⟨-, -, -, -, -, fewer, depths⟩ := rewrite_improves wf run
  exact ⟨b, s.store, s.builder, stats, hb, run, fewer rfl, (depths rfl).2.2⟩

end Builder

end Gatework
