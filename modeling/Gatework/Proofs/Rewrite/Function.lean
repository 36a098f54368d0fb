import Gatework.Proofs.Builder.Prediction
import Gatework.Proofs.Builder.Walk
import Gatework.Proofs.Npn.Filling
import Gatework.Proofs.Rewrite.Cone
import Gatework.Proofs.Rewrite.Steps

/-!
# Rewriting keeps the function

A pass is followed step by step.  `Rewrite.Kept` is what every step keeps: the builder is well-formed,
its inner cells are regular, the cuts are current, the outputs show the links that they showed when the
pass began, and the entries of that time that are still there have the values that they had then on
their first ports.  An output may show another port of a cell, and nothing is said about that value.

* `Kept.exists_tryCut`: a cut that is tried gives a candidate that computes its function, or none.
* `Kept.exists_apply`: a candidate that is carried out passes the comparison.
* `Kept.exists_walk`: so the whole walk succeeds.

**Main statement.** `rewrite_keeps_function`.
-/

namespace Gatework

namespace Builder

variable {store store' : Store} {strict : Prop} {b : Builder}

/-- The values of a builder with regular inner cells do not change when the store grows. -/
lemma InnerRegular.values_extends (h : b.InnerRegular store strict) (grows : store.Extends store')
    (σ : Nat → Bool) : b.values store'.ports σ = b.values store.ports σ := by
  refine valuesAlong_meaning fun id hid c hc operands => ?_
  cases hterm : c.isTerminal with
  | true =>
      rw [Cell.isTerminal, Bool.or_eq_true] at hterm
      rcases hterm with hkind | hkind <;>
        simp only [Cell.ports, show c.kind.symbol = _ from beq_iff_eq.1 hkind]
  | false =>
      exact grows.ports_eq ((h id (mem_inner hid hc hterm) c hc).evaluable
        (Bool.or_eq_false_iff.1 hterm).1) operands

/-- Neither do the bits of the leaves of a cut. -/
lemma InnerRegular.leafCode_extends (h : b.InnerRegular store strict) (grows : store.Extends store')
    (σ : Nat → Bool) (leaves : List Nat) :
    b.leafCode store'.ports σ leaves = b.leafCode store.ports σ leaves := by
  rw [leafCode, leafCode, h.values_extends grows]

lemma InnerRegular.extends (h : b.InnerRegular store strict) (grows : store.Extends store') :
    b.InnerRegular store' strict :=
  fun id hid c hc => grows.regular (h id hid c hc)

/-- An inner cell is no output. -/
lemma WellFormed.notMem_outputs (h : b.WellFormed) {id : Nat} (hid : id ∈ b.inner) : id ∉ b.outputs := by
  intro hout
  obtain ⟨c, hc, hterm⟩ := h.layout.isInner id hid
  obtain ⟨l, hl⟩ := h.layout.isOutput id hout
  cases hc.symm.trans hl
  cases hterm

/-- What an entry reads is an input or an inner cell. -/
lemma WellFormed.mem_of_reads (h : b.WellFormed) {id d : Nat} (hid : id ∈ b.order)
    (hd : d ∈ b.driversOf id) : d ∈ b.inputs ++ b.inner := by
  obtain ⟨c, hc, hout⟩ := h.arranged.isDriver_of_reads id hid d hd
  rcases h.layout.mem_order.1 (h.arranged.mem_of_reads id hid d hd) with hmem | hmem | hmem
  · exact List.mem_append_left _ hmem
  · exact List.mem_append_right _ hmem
  · obtain ⟨l, hl⟩ := h.layout.isOutput d hmem
    cases hc.symm.trans hl
    cases hout

end Builder

namespace Rewrite

open Builder

/-- What a pass over `b` keeps, which began with `store`. -/
structure Kept (store : Store) (b : Builder) (m : Method) (options : RewriteOptions) (s : State) :
    Prop extends Fresh options s where
  grows : store.Extends s.store
  sound : m.Sound s.store
  first : m.Regular s.store (options.source = .reconvergence)
  regular : s.builder.InnerRegular s.store (options.source = .reconvergence)
  old : ∀ id ∈ b.order, id < s.builder.size
  inputs : s.builder.inputs = b.inputs
  outputs : s.builder.outputs = b.outputs
  shown : ∀ o ∈ b.outputs, s.builder.cells[o]? = b.cells[o]?
  same : ∀ σ, ∀ id ∈ b.order, id ∈ s.builder.order → id ∉ b.outputs →
    (s.builder.values s.store.ports σ id).getD 0 false = (b.values store.ports σ id).getD 0 false

/-- A candidate for the cone of `entry`: its network computes the function of the cut. -/
structure Fits (options : RewriteOptions) (s : State) (entry : Nat) (c : Candidate) : Prop where
  proper : s.builder.ProperCut options.cuts.size entry c.cut
  table : ∀ σ, c.table.value (s.builder.leafCode s.store.ports σ c.cut.leaves) =
    (s.builder.values s.store.ports σ entry).headD false
  implements : c.net.Implements s.store (options.source = .reconvergence) c.table

variable {store : Store} {b : Builder} {m : Method} {options : RewriteOptions} {s s' : State}
  {entry : Nat} {cut : Cut}

/-- Trying cuts keeps what the pass keeps. -/
lemma Kept.tried (h : Kept store b m options s) (tried : Tried s s')
    (grows : s.store.Extends s'.store) : Kept store b m options s' where
  toFresh := h.toFresh.tried tried
  grows := h.grows.trans grows
  sound := h.sound.extends grows
  first := h.first.extends grows
  regular := by
    rw [tried.builder]
    exact h.regular.extends grows
  old := tried.builder ▸ h.old
  inputs := tried.builder ▸ h.inputs
  outputs := tried.builder ▸ h.outputs
  shown := tried.builder ▸ h.shown
  same σ id hid hid' hout := by
    rw [tried.builder] at hid' ⊢
    rw [h.regular.values_extends grows, h.same σ id hid hid' hout]

lemma Fits.tried {c : Candidate} (h : Fits options s entry c)
    (regular : s.builder.InnerRegular s.store (options.source = .reconvergence)) (tried : Tried s s')
    (grows : s.store.Extends s'.store) :
    Fits options s' entry c where
  proper := tried.builder ▸ h.proper
  table σ := by
    rw [tried.builder, regular.leafCode_extends grows, regular.values_extends grows, h.table σ]
  implements := h.implements.extends grows

/-- A cut that is tried gives a candidate that fits, or none. -/
lemma Kept.exists_tryCut (h : Kept store b m options s) (size : options.cuts.size ≤ 16)
    (arity : options.maxArity ≤ Gatework.maxArity) (hentry : entry ∈ s.builder.inner)
    (proper : s.builder.ProperCut options.cuts.size entry cut)
    (separated : Separated s.builder.cells cut.leaves entry) :
    ∃ s' found, tryCut m options s cut = .ok (s', found) ∧ s.store.Extends s'.store ∧
      ∀ c ∈ found, Fits options s' entry c := by
  have wf := h.wellFormed
  have hn : cut.leaves.length ≤ 16 := proper.length.trans size
  obtain ⟨t, ht, hvalue⟩ := wf.exists_table h.regular hentry hn separated
  obtain ⟨store', found, hfound, grows, made⟩ :=
    Method.exists_resynthesize h.sound (hn.trans (by decide : 16 ≤ Cube.maxVariables)) arity t
  rw [tryCut, proper.root_eq, ht]
  simp only [ok_bind, hfound]
  cases found with
  | none => exact ⟨_, none, rfl, grows, by simp⟩
  | some net =>
      have implements : net.Implements store' (options.source = .reconvergence) t :=
        ⟨(made net rfl).1, (made net rfl).2 _ h.first⟩
      obtain ⟨inn, inn', -, layout, hfront⟩ :=
        wf.exists_layout hentry fun leaf hleaf => (proper.front leaf hleaf).2
      obtain ⟨shown, hshown⟩ := Replacement.exists_shown (r := ⟨net, cut.leaves, entry⟩)
        implements.numOutputs (Store.evaluable_of_regular implements.regular)
      obtain ⟨b', full, kept, count, c, -, replaced⟩ :=
        layout.replace (r := ⟨net, cut.leaves, entry⟩) wf.settled implements.numOutputs
          implements.numInputs hfront hshown
      have hpredict := replaced.predict_eq layout wf.settled implements.numOutputs
        implements.numInputs hfront hshown
      have hsize : net.numInputs = cut.size := implements.numInputs
      simp only [hsize, ne_eq, not_true_eq_false, if_false, hpredict, ok_bind]
      refine ⟨_, _, rfl, grows, fun c hc => ?_⟩
      cases hc
      refine ⟨proper, fun σ => ?_, implements⟩
      rw [h.regular.leafCode_extends grows, h.regular.values_extends grows]
      exact hvalue σ

/-- The best candidate among the cuts of an entry fits. -/
lemma Kept.exists_best (h : Kept store b m options s) (size : options.cuts.size ≤ 16)
    (arity : options.maxArity ≤ Gatework.maxArity) (hentry : entry ∈ s.builder.inner)
    {cuts : List Cut} (hcuts : ∀ cut ∈ cuts, s.builder.ProperCut options.cuts.size entry cut ∧
      Separated s.builder.cells cut.leaves entry) :
    ∃ s' best, cuts.foldlM (considerCut m options) (s, none) = .ok (s', best) ∧ Tried s s' ∧
      s.store.Extends s'.store ∧ ∀ c ∈ best, Fits options s' entry c := by
  suffices ∃ state : State × Option Candidate,
      cuts.foldlM (considerCut m options) (s, none) = .ok state ∧ Tried s state.1 ∧
        s.store.Extends state.1.store ∧ ∀ c ∈ state.2, Fits options state.1 entry c by
    obtain ⟨⟨s', best⟩, hrun, fits⟩ := this
    exact ⟨s', best, hrun, fits⟩
  refine exists_foldlM_eq_ok (fun _ (state : State × Option Candidate) => Tried s state.1 ∧
    s.store.Extends state.1.store ∧ ∀ c ∈ state.2, Fits options state.1 entry c)
    ⟨.refl s, .refl _, by simp⟩ ?_
  rintro done cut rest ⟨s₁, best₁⟩ hsplit ⟨tried, grows, fits⟩
  have kept := h.tried tried grows
  obtain ⟨proper, separated⟩ := hcuts cut (by simp [hsplit])
  rw [← tried.builder] at hentry proper separated
  obtain ⟨s₂, found, hrun, grows', fits'⟩ := kept.exists_tryCut size arity hentry proper separated
  have tried' := (tried_of_tryCut hrun).1
  have old : ∀ c ∈ best₁, Fits options s₂ entry c :=
    fun c hc => (fits c hc).tried kept.regular tried' grows'
  rw [considerCut]
  simp only [hrun, ok_bind]
  cases found with
  | none => exact ⟨_, rfl, tried.trans tried', grows.trans grows', old⟩
  | some c =>
      refine ⟨_, rfl, tried.trans tried', grows.trans grows', fun c' hc' => ?_⟩
      dsimp only at hc'
      split at hc'
      · exact fits' c' hc'
      · exact old c' hc'

section Carried

variable {c : Candidate} {shown : Link} {full b' : Builder} {inn inn' kept : List Nat}
  {count : Nat} {cell : Cell}

/-- A candidate that fits leaves the value at the root of its cone. -/
lemma Fits.agrees (fits : Fits options s c.cut.root c)
    (replaced : Replaced c.replacement shown s.builder full b' s.builder.inputs inn inn'
      s.builder.outputs kept count cell)
    (layout : Layout s.builder s.builder.inputs (inn ++ c.cut.root :: inn') s.builder.outputs)
    (front : ∀ leaf ∈ c.cut.leaves, leaf ∈ s.builder.inputs ++ inn)
    (hshown : c.replacement.shown = .ok shown) (σ : Nat → Bool) :
    (full.values s.store.ports σ c.cut.root).getD 0 false =
      (s.builder.values s.store.ports σ c.cut.root).getD 0 false := by
  have implements := fits.implements
  have single : c.replacement.net.numOutputs = 1 := implements.numOutputs
  have value := replaced.read_root (m := s.store.ports) (σ := σ) layout implements.numInputs front
    (Store.evaluable_of_regular implements.regular) hshown fun j _ => rfl
  have hvalue := implements.values fun i =>
    (s.builder.values s.store.ports σ (c.cut.leaves.getD i 0)).getD 0 false
  have table := fits.table σ
  simp only [leafCode, List.headD_eq_getD] at table
  exact value.trans ((List.singleton_inj.1
    ((Replacement.outputValues_eq single hshown).symm.trans hvalue)).trans table)

/-- A replacement that leaves the value at the root keeps what the pass keeps. -/
lemma Kept.replaced (h : Kept store b m options s)
    (replaced : Replaced c.replacement shown s.builder full b' s.builder.inputs inn inn'
      s.builder.outputs kept count cell)
    (layout : Layout s.builder s.builder.inputs (inn ++ c.cut.root :: inn') s.builder.outputs)
    (regular : b'.InnerRegular s.store (options.source = .reconvergence))
    (hroot : c.cut.root ∈ s.builder.inner)
    (agree : ∀ σ, (full.values s.store.ports σ c.cut.root).getD 0 false =
      (s.builder.values s.store.ports σ c.cut.root).getD 0 false)
    (fresh : Fresh options s') (hstore : s'.store = s.store) (hbuilder : s'.builder = b') :
    Kept store b m options s' := by
  obtain ⟨store₁, b₁, cuts₁, stats₁⟩ := s'
  obtain rfl : store₁ = s.store := hstore
  obtain rfl : b₁ = b' := hbuilder
  have wf := h.wellFormed
  refine ⟨fresh, h.grows, h.sound, h.first, regular, fun id hid => ?_,
    replaced.layout.inputs_eq.trans h.inputs, replaced.layout.outputs_eq.trans h.outputs,
    fun o ho => ?_, fun σ id hid hid' hout => ?_⟩
  · exact (h.old id hid).trans_le (replaced.size_eq ▸ Nat.le_add_right _ _)
  · have hmem : o ∈ s.builder.outputs := h.outputs ▸ ho
    have hne : o ≠ c.cut.root := fun e => wf.notMem_outputs hroot (e ▸ hmem)
    rw [← h.shown o ho, replaced.same]
    exact replaced.getElem?_old (wf.lt_size (wf.layout.mem_order.2 (.inr (.inr hmem)))) hne
  · have hold : id ∈ s.builder.order := by
      refine (replaced.mem_order_or_new layout hid').resolve_right fun hnew => ?_
      exact absurd (h.old id hid) (Nat.not_lt.2 hnew)
    rw [replaced.values_kept hid', ← h.same σ id hid hold hout]
    by_cases e : id = c.cut.root
    · rw [e]
      exact agree σ
    -- the outputs are left out, since they may show other ports of the root
    · have readable {x : Nat} (hx : x ∈ s.builder.inputs ++ s.builder.inner) :
          x ∈ s.builder.order := by
        rw [wf.layout.order_eq]
        exact List.mem_append_left _ hx
      refine congrArg (·.getD 0 false) (replaced.values_same_of_closed layout
        (S := (· ∈ s.builder.inputs ++ s.builder.inner)) (fun _ => readable)
        (fun x hx d hd => wf.mem_of_reads (readable hx) hd) (fun x hx e he l hl _ => ?_) (agree σ)
        ?_ e)
      · rcases List.mem_append.1 hx with hx | hx
        · cases he.symm.trans (wf.layout.isInput x hx)
          cases hl
        · exact (h.regular x hx e he).port l hl
      · rw [wf.layout.order_eq] at hold
        exact (List.mem_append.1 hold).resolve_right (h.outputs ▸ hout)

end Carried

/-- A candidate that fits is carried out, and the cone computes what it did. -/
lemma Kept.exists_apply (h : Kept store b m options s) (size : options.cuts.size ≤ 16)
    (hentry : entry ∈ s.builder.inner) {c : Candidate} (fits : Fits options s entry c) :
    ∃ s', apply options s c = .ok (s', none) ∧ Kept store b m options s' ∧
      Continues s.builder s'.builder := by
  have implements := fits.implements
  obtain rfl := fits.proper.root_eq
  obtain ⟨inn, inn', -, layout, hfront⟩ :=
    h.wellFormed.exists_layout hentry fun leaf hleaf => (fits.proper.front leaf hleaf).2
  obtain ⟨shown, hshown⟩ := Replacement.exists_shown (r := c.replacement) implements.numOutputs
    (Store.evaluable_of_regular implements.regular)
  obtain ⟨b', full, kept, count, cell, hrun, replaced⟩ := layout.replace (r := c.replacement)
    h.wellFormed.settled implements.numOutputs implements.numInputs hfront hshown
  obtain ⟨cuts, hcuts, current⟩ := h.exists_refreshed layout replaced
  have table : s.store.tabulateCone b'.cells c.cut.root c.cut.leaves = .ok c.table :=
    replaced.tabulateCone_eq layout hfront fits.proper.nodup (fits.proper.length.trans size) hshown
      implements
  refine ⟨_, apply_eq_ok_iff.2 ⟨b', cuts, hrun, hcuts, rfl, ?_⟩, ?_, .replace hrun⟩
  · unfold checkCone
    split
    · simp only [table, ok_bind, if_true]
      rfl
    · rfl
  · exact h.replaced replaced layout
      (replaced.innerRegular layout implements.numInputs hshown implements.regular h.regular) hentry
      (fits.agrees replaced layout hfront hshown)
      ⟨replaced.layout.wellFormed replaced.settled, current⟩ rfl rfl

lemma Tried.continues (h : Tried s s') : Continues s.builder s'.builder := by
  rw [h.builder]
  exact .refl _

/-- A visit succeeds and finds no mismatch. -/
lemma Kept.exists_visit (h : Kept store b m options s) (pos : 0 < options.cuts.size)
    (size : options.cuts.size ≤ 16) (arity : options.maxArity ≤ Gatework.maxArity)
    (alive : s.builder.isAlive entry = true) :
    ∃ s', visit m options s entry = .ok (s', none) ∧ Kept store b m options s' ∧
      Continues s.builder s'.builder := by
  have hmem : entry ∈ s.builder.order := (h.wellFormed.arranged.isAlive_iff entry).1 alive
  obtain ⟨c, hc⟩ : ∃ c, s.builder.cells[entry]? = some c :=
    ⟨_, Array.getElem?_eq_getElem (h.wellFormed.arranged.lt_size hmem)⟩
  rw [visit, hc]
  dsimp only
  split
  · exact ⟨s, rfl, h, (Tried.refl s).continues⟩
  rename_i hkind
  simp only [Bool.or_eq_true, not_or, Bool.not_eq_true] at hkind
  have hinner : entry ∈ s.builder.inner := List.mem_filter.2 ⟨hmem, by simpa [hc] using hkind.1⟩
  set s₁ : State := { s with stats := { s.stats with visited := s.stats.visited + 1 } }
  have counted : Tried s s₁ := ⟨rfl, rfl, rfl⟩
  have kept := h.tried counted (.refl _)
  obtain ⟨cuts, hcuts, proper⟩ := kept.toFresh.exists_cutsAt pos (counted.builder ▸ hmem)
  have tried₁ : ∀ cut ∈ cuts.filter (!·.isTrivial),
      s₁.builder.ProperCut options.cuts.size entry cut ∧
        Separated s₁.builder.cells cut.leaves entry := fun cut hcut => by
    obtain ⟨hcut, htrivial⟩ := List.mem_filter.1 hcut
    obtain ⟨proper, separated⟩ := proper cut hcut (by simpa using htrivial)
    exact ⟨proper, separated _ kept.regular⟩
  obtain ⟨s₂, best, hbest, tried, grows, fits⟩ := kept.exists_best size arity hinner tried₁
  have tried' := counted.trans tried
  simp only [hcuts, ok_bind, hbest]
  cases best with
  | none => exact ⟨s₂, rfl, h.tried tried' grows, tried'.continues⟩
  | some candidate =>
      have hinner₂ : entry ∈ s₂.builder.inner := tried'.builder ▸ hinner
      obtain ⟨s₃, hrun, kept', continues⟩ :=
        (h.tried tried' grows).exists_apply size hinner₂ (fits _ rfl)
      exact ⟨s₃, hrun, kept', tried'.builder ▸ continues⟩

/-- A walk that was begun ends, succeeds and finds no mismatch: it hands out entries of the builder in
which it began, one more in every round, so the rounds suffice that have more entries left than that
builder has. -/
lemma Kept.exists_walk (h : Kept store b m options s) (pos : 0 < options.cuts.size)
    (size : options.cuts.size ≤ 16) (arity : options.maxArity ≤ Gatework.maxArity) {b₀ : Builder}
    {cursor : Cursor} {seen passed ahead : List Nat}
    (visits : Visits b₀ s.builder cursor seen passed ahead) {fuel : Nat}
    (enough : b₀.order.length < seen.length + fuel) :
    ∃ s', walk m options fuel cursor s = .ok (s', none) ∧ Kept store b m options s' := by
  induction fuel generalizing s cursor seen passed ahead with
  | zero => exact absurd visits.sublist_order.length_le (Nat.not_le.2 enough)
  | succ fuel ih =>
      obtain ⟨next, cursor', _, _, hadvance, -, visits', alive, -⟩ := visits.exists_advance
      rw [walk, hadvance]
      cases next with
      | none => exact ⟨s, rfl, h⟩
      | some entry =>
          obtain ⟨s₁, hvisit, kept, continues⟩ := h.exists_visit pos size arity (alive entry rfl)
          obtain ⟨_, _, visits₁⟩ := visits'.continues continues
          have enough₁ : b₀.order.length < (seen ++ [entry]).length + fuel := by
            rw [List.length_append, List.length_singleton]
            omega
          obtain ⟨s₂, hwalk, kept₂⟩ := ih kept visits₁ enough₁
          refine ⟨s₂, ?_, kept₂⟩
          simp only [ok_bind, hvisit]
          exact hwalk

/-- An entry that an output shows was there when the pass began, and is still there. -/
lemma Kept.readable_of_output (kept : Kept store b m options s) (h : WellFormed b) {o : Nat} {l : Link}
    (ho : o ∈ b.outputs) (hl : b.cells[o]? = some (.output l)) :
    l.entry ∈ b.inputs ++ b.inner ∧ l.entry ∈ s.builder.order := by
  have hl' : s.builder.cells[o]? = some (.output l) := (kept.shown o ho).trans hl
  have ho' : o ∈ s.builder.order :=
    kept.wellFormed.layout.mem_order.2 (.inr (.inr (kept.outputs ▸ ho)))
  constructor
  · refine h.mem_of_reads (h.layout.mem_order.2 (.inr (.inr ho))) ?_
    rw [driversOf, hl]
    exact List.mem_singleton_self _
  · refine kept.wellFormed.arranged.mem_of_reads o ho' _ ?_
    rw [driversOf, hl']
    exact List.mem_singleton_self _

/-- An input or an inner cell that is still there keeps the value on its first port. -/
lemma Kept.first_eq (kept : Kept store b m options s) (h : WellFormed b) {id : Nat}
    (hid : id ∈ b.inputs ++ b.inner) (alive : id ∈ s.builder.order) (σ : Nat → Bool) :
    (s.builder.values s.store.ports σ id).getD 0 false = (b.values store.ports σ id).getD 0 false := by
  refine kept.same σ id ?_ alive fun hout => ?_
  · rw [h.layout.order_eq]
    exact List.mem_append_left _ hid
  · exact h.layout.arranged.linked.apart hid hout

/-- An output keeps its value if its link reads what it read. -/
lemma Kept.value_of_output (kept : Kept store b m options s) (h : WellFormed b) {o : Nat} {l : Link}
    (ho : o ∈ b.outputs) (hl : b.cells[o]? = some (.output l)) {σ : Nat → Bool}
    (read : l.read (s.builder.values s.store.ports σ) = l.read (b.values store.ports σ)) :
    (s.builder.values s.store.ports σ o).headD false = (b.values store.ports σ o).headD false := by
  have layout' := kept.wellFormed.layout
  rw [layout'.values_of_cell (List.mem_append_right _ (kept.outputs ▸ ho)) ((kept.shown o ho).trans hl),
    h.layout.values_of_cell (List.mem_append_right _ ho) hl]
  refine congrArg (·.headD false) (Cell.portsIn_congr_read fun k hk => ?_)
  rw [List.mem_singleton.1 hk]
  exact read

/-- An output that shows a first port keeps its value. -/
lemma Kept.value_of_first (kept : Kept store b m options s) (h : WellFormed b) {o : Nat} {l : Link}
    (ho : o ∈ b.outputs) (hl : b.cells[o]? = some (.output l)) (port : l.port = 0) (σ : Nat → Bool) :
    (s.builder.values s.store.ports σ o).headD false = (b.values store.ports σ o).headD false := by
  obtain ⟨readable, alive⟩ := kept.readable_of_output h ho hl
  refine kept.value_of_output h ho hl ?_
  rw [Link.read, Link.read, port]
  exact congrArg (· ^^ l.inverted) (kept.first_eq h readable alive σ)

end Rewrite

open Rewrite

namespace Builder

/-- A pass succeeds and finds no mismatch. -/
lemma WellFormed.exists_kept {store : Store} {b : Builder} {m : Method} {options : RewriteOptions}
    (h : WellFormed b) (regular : b.InnerRegular store (options.source = .reconvergence))
    (sound : m.Sound store) (first : m.Regular store (options.source = .reconvergence))
    (pos : 0 < options.cuts.size) (size : options.cuts.size ≤ 16)
    (arity : options.maxArity ≤ Gatework.maxArity) :
    ∃ s stats, b.rewrite store m options = .ok (s.store, s.builder, .ok stats) ∧
      Kept store b m options s := by
  obtain ⟨cuts, hcuts, current⟩ := exists_initialCuts h pos
  have kept : Kept store b m options (start store b cuts) :=
    ⟨⟨h, current⟩, .refl store, sound, first, regular, fun _ => h.lt_size, rfl, rfl, fun _ _ => rfl,
      fun _ _ _ _ _ => rfl⟩
  have enough : b.order.length < ([] : List Nat).length + (b.size + 1) := by
    have := h.arranged.length_le_size
    simp only [List.length_nil]
    omega
  obtain ⟨s, hwalk, kept⟩ := kept.exists_walk pos size arity (.start h) enough
  exact ⟨s, _, rewrite_eq_ok_iff.2 ⟨pos, cuts, s, hcuts, hwalk, rfl, rfl, rfl⟩, kept⟩

/-- What is left of a builder when a pass over it has ended. -/
structure Preserved (store : Store) (b : Builder) (s : State) : Prop where
  wellFormed : s.builder.WellFormed
  inputs : s.builder.inputs = b.inputs
  outputs : s.builder.outputs = b.outputs
  same : ∀ σ, s.builder.outputValues s.store.ports σ = b.outputValues store.ports σ

/-- A pass over a builder whose outputs show first ports keeps their values. -/
lemma WellFormed.exists_rewrite {store : Store} {b : Builder} {m : Method}
    {options : RewriteOptions} (h : WellFormed b)
    (regular : b.Regular store (options.source = .reconvergence)) (sound : m.Sound store)
    (first : m.Regular store (options.source = .reconvergence)) (pos : 0 < options.cuts.size)
    (size : options.cuts.size ≤ 16)
    (arity : options.maxArity ≤ Gatework.maxArity) :
    ∃ s stats, b.rewrite store m options = .ok (s.store, s.builder, .ok stats) ∧
      Preserved store b s := by
  obtain ⟨s, stats, hrun, kept⟩ := h.exists_kept regular.inner sound first pos size arity
  refine ⟨s, stats, hrun, kept.wellFormed, kept.inputs, kept.outputs, fun σ => ?_⟩
  rw [outputValues, outputValues, kept.outputs]
  refine List.map_congr_left fun o ho => ?_
  obtain ⟨l, hl⟩ := h.layout.isOutput o ho
  have port := (regular o (h.layout.mem_order.2 (.inr (.inr ho))) _ hl).port l (List.mem_singleton_self l)
  exact kept.value_of_first h ho hl port σ

/-- A pass over a builder with regular cells succeeds and finds no mismatch, whether it synthesises or
looks up what was stored in a catalogue.  Constants with operands are left out only where the pass looks
for reconvergence.  The inputs and the outputs stay, every output keeps its value for every assignment,
and so the subnet that is made afterwards computes what the builder did. -/
theorem rewrite_keeps_function {store : Store} {b : Builder} {m : Method} {options : RewriteOptions}
    (h : WellFormed b) (regular : b.Regular store (options.source = .reconvergence))
    (filled : ∀ c, m = .catalogue c → c.Filled store (options.source = .reconvergence))
    (pos : 1 ≤ options.cuts.size) (size : options.cuts.size ≤ 16) (arity : options.maxArity ≤ 255) :
    ∃ store' b' stats, b.rewrite store m options = .ok (store', b', .ok stats) ∧
      b'.inputs = b.inputs ∧ b'.outputs = b.outputs ∧
      (∀ σ, b'.outputValues store'.ports σ = b.outputValues store.ports σ) ∧
      ∃ net, b'.finish = .ok net ∧ Subnet.violation? net.cells net.numInputs net.numOutputs = none ∧
        net.numInputs = b.numInputs ∧ net.numOutputs = b.numOutputs ∧
        ∀ σ, net.outputValues store'.ports σ = b.outputValues store.ports σ := by
  have sound := Catalogue.sound_of_filled filled
  obtain ⟨s, stats, hrun, kept⟩ := h.exists_rewrite regular sound.1 sound.2 pos size arity
  obtain ⟨net, hnet, hin, hout, hvalues, -⟩ := kept.wellFormed.exists_finish
  refine ⟨s.store, s.builder, stats, hrun, kept.inputs, kept.outputs, kept.same, net, hnet, net.valid,
    ?_, ?_, fun σ => (hvalues _ σ).trans (kept.same σ)⟩
  · rw [hin, kept.inputs, h.layout.numInputs]
  · rw [hout, kept.outputs, h.layout.numOutputs]

lemma exists_ofSubnet_absorption : ∃ b, ofSubnet absorption = .ok b ∧ WellFormed b ∧
    b.Regular .empty True := by
  refine ⟨_, ofSubnet_absorption, wellFormed_ofSubnet ofSubnet_absorption, fun id _ c hc => ?_⟩
  have gate : ∀ g links, (∀ l ∈ links, l.port = 0) → Gate.isUnary g = false →
      (Cell.mk (.ofGate g) links).isConst = false → Store.Regular .empty True ⟨.ofGate g, links⟩ := by
    intro g links port unary const
    refine ⟨port, fun _ => (Store.evaluableBelow_gate rfl).2 fun h => ?_, fun _ h => ?_⟩
    · cases h.symm.trans unary
    · cases h.symm.trans const
  have hmem : c ∈ absorption.cells := Array.mem_of_getElem? (cells_absorber ▸ hc)
  simp only [absorption, List.mem_toArray, List.mem_cons, List.not_mem_nil, or_false] at hmem
  rcases hmem with rfl | rfl | rfl | rfl | rfl
  · exact Store.regular_input
  · exact Store.regular_input
  · exact gate _ _ (by decide) rfl rfl
  · exact gate _ _ (by decide) rfl rfl
  · exact Store.regular_output rfl

/-- The absorption is rewritten by sums of products. -/
theorem rewrite_keeps_function_absorption : ∃ b store' b' stats, ofSubnet absorption = .ok b ∧
    b.rewrite .empty Method.sumOfProducts {} = .ok (store', b', .ok stats) ∧
      ∀ σ, b'.outputValues store'.ports σ = b.outputValues Store.empty.ports σ := by
  obtain ⟨b, hb, wf, regular⟩ := exists_ofSubnet_absorption
  obtain ⟨store', b', stats, hrun, -, -, same, -⟩ := @rewrite_keeps_function _ _ .sumOfProducts {} wf
    (regular.mono fun _ => trivial) nofun (by decide) (by decide) (by decide)
  exact ⟨b, store', b', stats, hb, hrun, same⟩

/-- A pass that fails, read off its run without the state in which it stops. -/
lemma exists_rewrite_fault {net : Subnet} {store : Store} {m : Method} {options : RewriteOptions}
    {fault : Fault} (hrun : ((ofSubnet net).map fun b =>
      (b.cells, (b.rewrite store m options).map fun _ => ())) = .ok (net.cells, .error fault)) :
    ∃ b, ofSubnet net = .ok b ∧ b.cells = net.cells ∧ b.rewrite store m options = .error fault := by
  obtain ⟨b, hb, hpair⟩ := map_eq_ok_iff.1 hrun
  obtain ⟨hcells, hfault⟩ := Prod.mk.inj hpair
  refine ⟨b, hb, hcells, ?_⟩
  cases hrewrite : b.rewrite store m options with
  | ok r =>
      rw [hrewrite] at hfault
      cases hfault
  | error fault' =>
      rw [hrewrite] at hfault
      exact congrArg Except.error (Except.error.inj hfault)

/-- First ports and implemented composites do not suffice, even where all cells have as many operands as
their types take.  The pass stops at a cell whose implementation has a cell that nothing implements;
where it looks for reconvergence, it also stops at a constant that reads an input, which the cut does not
list, and at a buffer that reads nothing. -/
theorem rewrite_needs_regular_cells :
    (Store.veiledStore.Hosts Store.veiled ∧ ∃ b, ofSubnet Store.veiled = .ok b ∧ WellFormed b ∧
      (∀ c ∈ b.cells, (∀ l ∈ c.links, l.port = 0) ∧ Store.veiledStore.Implemented c) ∧
      b.rewrite Store.veiledStore Method.sumOfProducts {} = .error (.noImplementation "box")) ∧
    ((Store.empty.addType Store.tie).1.Hosts Store.tied ∧
      ∃ b, ofSubnet Store.tied = .ok b ∧ WellFormed b ∧
      (∀ c ∈ b.cells, (∀ l ∈ c.links, l.port = 0) ∧ c.kind.symbol ≠ .cell) ∧
      b.rewrite (Store.empty.addType Store.tie).1 Method.sumOfProducts { source := .reconvergence } =
        .error (.inputNotLeaf 0 3)) ∧
    ((Store.empty.addType Store.stub).1.Hosts Store.stubbed ∧
      ∃ b, ofSubnet Store.stubbed = .ok b ∧ WellFormed b ∧
      (∀ c ∈ b.cells, (∀ l ∈ c.links, l.port = 0) ∧ c.kind.symbol ≠ .cell) ∧
      b.rewrite (Store.empty.addType Store.stub).1 Method.sumOfProducts { source := .reconvergence } =
        .error .internal) := by
  obtain ⟨b, hb, hcells, hfault⟩ := @exists_rewrite_fault Store.veiled Store.veiledStore .sumOfProducts {}
    (.noImplementation "box") (by cbv)
  obtain ⟨b₁, hb₁, hcells₁, hfault₁⟩ := @exists_rewrite_fault Store.tied
    (Store.empty.addType Store.tie).1 .sumOfProducts { source := .reconvergence } (.inputNotLeaf 0 3)
    (by cbv)
  obtain ⟨b₂, hb₂, hcells₂, hfault₂⟩ := @exists_rewrite_fault Store.stubbed
    (Store.empty.addType Store.stub).1 .sumOfProducts { source := .reconvergence } .internal (by cbv)
  refine ⟨⟨Store.hosts_veiled, b, hb, wellFormed_ofSubnet hb, ?_, hfault⟩,
    ⟨Store.hosts_tied, b₁, hb₁, wellFormed_ofSubnet hb₁, ?_, hfault₁⟩,
    Store.hosts_stubbed, b₂, hb₂, wellFormed_ofSubnet hb₂, ?_, hfault₂⟩
  · rw [hcells]
    exact Store.implemented_veiled
  · rw [hcells₁]
    decide
  · rw [hcells₂]
    decide

end Builder

end Gatework
