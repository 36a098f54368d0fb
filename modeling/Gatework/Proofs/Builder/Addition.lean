import Gatework.Proofs.Builder.Carrying

/-!
# What construction steps add

Each step is shown to succeed on operands that may be read, and its result to have the value that the
step is for, whatever the builder simplifies, and to read a first port if the operands do.  `Step` says
what else a step does: it only adds inner cells, and these read first ports and can be evaluated.

* `addPositive_shows` for single cells, from which `addCell_shows` and `addConst_shows` follow,
* `addTree_shows` for trees of an associative gate.
-/

namespace Gatework

namespace Builder

/-- All living cells read first ports and can be evaluated, in the strict sense with constants that have
no operands. -/
def Regular (store : Store) (strict : Prop) (b : Builder) : Prop :=
  ∀ id ∈ b.order, ∀ c, b.cells[id]? = some c → store.Regular strict c

/-- All living inner cells do; outputs may show any port. -/
def InnerRegular (store : Store) (strict : Prop) (b : Builder) : Prop :=
  ∀ id ∈ b.inner, ∀ c, b.cells[id]? = some c → store.Regular strict c

lemma InnerRegular.mono {store : Store} {strict strict' : Prop} {b : Builder}
    (h : b.InnerRegular store strict) (weaker : strict' → strict) : b.InnerRegular store strict' :=
  fun id hid c hc => (h id hid c hc).mono weaker

lemma Regular.inner {store : Store} {strict : Prop} {b : Builder} (h : b.Regular store strict) :
    b.InnerRegular store strict :=
  fun id hid => h id (List.mem_filter.1 hid).1

lemma Regular.mono {store : Store} {strict strict' : Prop} {b : Builder} (h : b.Regular store strict)
    (weaker : strict' → strict) : b.Regular store strict' :=
  fun id hid c hc => (h id hid c hc).mono weaker

lemma mem_inner {b : Builder} {id : Nat} {c : Cell} (hid : id ∈ b.order) (hc : b.cells[id]? = some c)
    (inner : c.isTerminal = false) : id ∈ b.inner := by
  refine List.mem_filter.2 ⟨hid, ?_⟩
  rw [hc, Option.any_some, inner, Bool.not_false]

/-- The builder has grown by regular cells. -/
structure Step (store : Store) (b b' : Builder) : Prop where
  grown : Grown b b'
  regular : b.Regular store True → b'.Regular store True

namespace Step

variable {store : Store} {b b' b'' : Builder}

lemma refl (h : WellFormed b) : Step store b b := ⟨.refl h, id⟩

lemma trans (h : Step store b b') (h' : Step store b' b'') : Step store b b'' :=
  ⟨h.grown.trans h'.grown, fun hb => h'.regular (h.regular hb)⟩

lemma wellFormed (h : Step store b b') : WellFormed b' := h.grown.wellFormed

end Step

variable {store : Store} {strict : Prop} {b b' : Builder} {m : Meaning} {c : Cell} {kind : CellKind}
  {links : List Link}

namespace WellFormed

lemma mem_order_append (h : WellFormed b) (hc : c.isTerminal = false)
    (reads : ∀ l ∈ c.links, b.Readable l) {id : Nat} (hid : id ∈ (b.append c).2.order) :
    id ∈ b.order ∨ id = b.size := by
  obtain ⟨-, grown, inner, -⟩ := h.append hc reads
  rw [grown.wellFormed.layout.mem_order, grown.inputs, inner, grown.outputs] at hid
  rw [h.layout.mem_order]
  simp only [List.mem_append, List.mem_singleton] at hid
  tauto

/-- Regularity of the entries that were there and of the new one. -/
lemma regular_of_pushed (order : ∀ id ∈ b'.order, id ∈ b.order ∨ id = b.size)
    (hcells : b'.cells = b.cells.push c) (hc : store.Regular strict c) (regular : b.Regular store strict) :
    b'.Regular store strict := by
  intro id hid e he
  rw [hcells, Array.getElem?_push] at he
  split at he
  · cases he
    exact hc
  · rename_i hne
    exact regular id ((order id hid).resolve_right hne) e he

lemma regular_append (h : WellFormed b) (hc : c.isTerminal = false)
    (reads : ∀ l ∈ c.links, b.Readable l) (regular : store.Regular strict c) (hb : b.Regular store strict) :
    (b.append c).2.Regular store strict :=
  regular_of_pushed (fun _ => h.mem_order_append hc reads) (h.append hc reads).2.2.2 regular hb

lemma regular_place (h : WellFormed b) (hc : c.isTerminal = false)
    (reads : ∀ l ∈ c.links, b.Readable l) (regular : store.Regular strict c) (hb : b.Regular store strict) :
    (b.place c).2.Regular store strict := by
  unfold Builder.place
  split
  · exact hb
  · exact h.regular_append hc reads regular hb

end WellFormed

/-! ## Cells -/

lemma Shows.carries {l : Link} {f : (Nat → Bool) → Bool} (h : b.Shows m l f) : b.Carries m l f :=
  ⟨⟨h.readable, fun _ _ _ _ => h.port⟩, h.read⟩

lemma Carries.shows {l : Link} {f : (Nat → Bool) → Bool} (h : b.Carries m l f) (hport : l.port = 0) :
    b.Shows m l f :=
  ⟨h.readable, hport, h.read⟩

/-- Only gates that can do with any operands lose some of them. -/
lemma regular_simplified {kept : List Link} {inverted : Bool}
    (regular : store.Regular strict ⟨kind, links⟩) (h : b.simplified kind links = .cell kept inverted) :
    store.Regular strict ⟨kind, kept⟩ := by
  have ports : ∀ l ∈ kept, l.port = 0 := by
    intro l hl
    obtain ⟨k, hk, -, hport⟩ := exists_of_mem_simplified (b := b) l (by rwa [h])
    exact hport ▸ regular.port k hk
  have gate : ∀ g : Gate, g.isUnary = false → g.isConst = false → kind.symbol = .gate g →
      store.Regular strict ⟨kind, kept⟩ := by
    intro g hu hc hkind
    refine ⟨ports, fun _ => (Store.evaluableBelow_gate hkind).2 fun h => absurd h (by simp [hu]),
      fun _ h => absurd h ?_⟩
    simpa [Cell.isConst, hkind, Symbol.isConst] using hc
  unfold simplified at h
  split at h
  · unfold foldCell at h
    split at h
    · cases h
    · rename_i hkind
      exact gate .and rfl rfl hkind
    · rename_i hkind
      exact gate .or rfl rfl hkind
    · rename_i hkind
      exact gate .xor rfl rfl hkind
    · cases h
      exact regular
  · cases h
    exact regular

/-- What is left of a regular cell is placed as a regular cell. -/
lemma WellFormed.regular_placed (h : WellFormed b) (hkind : (Cell.mk kind []).isTerminal = false)
    (reads : ∀ l ∈ links, b.Readable l) (regular : store.Regular strict ⟨kind, links⟩)
    (hb : b.Regular store strict) : ((b.simplified kind links).placed b kind).2.Regular store strict := by
  cases hcase : b.simplified kind links with
  | link l => exact hb
  | constant value =>
      exact h.regular_place (c := ⟨.ofGate (.ofBool value), []⟩) (by cases value <;> rfl) (by simp)
        (Store.regular_const value) hb
  | cell kept inverted =>
      refine h.regular_place (c := ⟨kind, kept⟩) hkind (fun l hl => ?_)
        (regular_simplified regular hcase) hb
      obtain ⟨k, hk, hentry, -⟩ := exists_of_mem_simplified (b := b) l (by rwa [hcase])
      rw [Readable, ← hentry]
      exact reads k hk

/-- What is left of operands that read first ports is behind a first port. -/
lemma port_placed (ports : ∀ l ∈ links, l.port = 0) :
    ((b.simplified kind links).placed b kind).1.port = 0 := by
  have place : ∀ c : Cell, (b.place c).1.port = 0 := fun c => by
    unfold Builder.place
    split <;> rfl
  cases hcase : b.simplified kind links with
  | link l =>
      obtain ⟨k, hk, -, hport⟩ := @exists_of_mem_simplified b kind links l (by simp [hcase, Folded.links])
      exact hport ▸ ports k hk
  | constant value => exact place _
  | cell kept inverted => exact place _

/-- A cell that is not negative. -/
theorem addPositive_shows (store : Store) (h : WellFormed b) (hkind : (Cell.mk kind []).isTerminal = false)
    (reads : ∀ l ∈ links, b.Readable l) (regular : store.Regular True ⟨kind, links⟩) :
    ∃ l b', addPositive kind links b = .ok (l, b') ∧ Step store b b' ∧ b'.Shows m l
      fun σ => ((Cell.mk kind links).portsIn m (b.values m σ)).headD false := by
  have reducible : b.Reducible kind links := fun _ hbuf => by
    have hinput := (Bool.or_eq_false_iff.1 hkind).1
    exact (Store.evaluableBelow_gate hbuf).1 (regular.evaluable hinput) rfl
  have hrun : addPositive kind links b = .ok _ := h.addPositive_eq_ok_iff.2 ⟨reads, reducible, rfl⟩
  have proper : ∀ l ∈ links, b.Proper l := fun l hl => ⟨reads l hl, fun _ _ _ _ => regular.port l hl⟩
  exact ⟨_, _, hrun, ⟨grows_addPositive hkind links b _ _ h hrun,
    h.regular_placed hkind reads regular⟩,
    (addPositive_carries h hkind proper hrun).shows (port_placed regular.port)⟩

/-- Links show a list of functions, one each. -/
abbrev ShowsAll (b : Builder) (m : Meaning) (links : List Link) (fs : List ((Nat → Bool) → Bool)) :
    Prop := List.Forall₂ (b.Shows m) links fs

namespace ShowsAll

variable {fs : List ((Nat → Bool) → Bool)}

lemma grown (h : b.ShowsAll m links fs) (wf : WellFormed b) (grown : Grown b b') :
    b'.ShowsAll m links fs := h.imp fun _ _ hl => hl.grown wf grown

lemma carries (h : b.ShowsAll m links fs) : b.CarriesAll m links fs := h.imp fun _ _ hl => hl.carries

lemma readable (h : b.ShowsAll m links fs) : ∀ l ∈ links, b.Readable l := by
  induction h with
  | nil => simp
  | cons hl _ ih => exact List.forall_mem_cons.2 ⟨hl.readable, ih⟩

lemma port (h : b.ShowsAll m links fs) : ∀ l ∈ links, l.port = 0 := by
  induction h with
  | nil => simp
  | cons hl _ ih => exact List.forall_mem_cons.2 ⟨hl.port, ih⟩

lemma read (h : b.ShowsAll m links fs) (σ : Nat → Bool) :
    links.map (Link.read (b.values m σ)) = fs.map (· σ) := h.carries.read σ

lemma getElem? (h : b.ShowsAll m links fs) {i : Nat} (hi : i < links.length) :
    ∃ l f, links[i]? = some l ∧ fs[i]? = some f ∧ b.Shows m l f := by
  have hi' : i < fs.length := h.length_eq ▸ hi
  exact ⟨_, _, List.getElem?_eq_getElem hi, List.getElem?_eq_getElem hi',
    (List.forall₂_iff_get.1 h).2 i hi hi'⟩

end ShowsAll

/-- A gate whose number of operands is right. -/
theorem addCell_shows (store : Store) (h : WellFormed b) {g : Gate} (hin : g ≠ .input) (hout : g ≠ .output)
    {fs : List ((Nat → Bool) → Bool)} (hlinks : b.ShowsAll m links fs)
    (harity : g.arity.1 ≤ links.length ∧ links.length ≤ g.arity.2) :
    ∃ l b', addCell (.gate g) links b = .ok (l, b') ∧ Step store b b' ∧
      b'.Shows m l fun σ => g.value (fs.map (· σ)) := by
  have unary : g.positive.1.isUnary = true → links ≠ [] := by
    intro hu
    refine List.ne_nil_of_length_pos (lt_of_lt_of_le ?_ harity.1)
    cases g <;> first | decide | cases hu
  have constant : (Cell.mk (.ofGate g.positive.1) links).isConst = true → links = [] := by
    intro hconst
    refine List.length_eq_zero_iff.1 (Nat.le_zero.1 (harity.2.trans ?_))
    cases g <;> first | decide | cases hconst
  obtain ⟨l, b', hrun, step, shows⟩ := addPositive_shows store (m := m) h
    (isTerminal_positive g hin hout) hlinks.readable
    ⟨hlinks.port, fun _ => (Store.evaluableBelow_gate rfl).2 unary, fun _ => constant⟩
  have hcell : addCell (.gate g) links b = .ok (l.invertIf g.positive.2, b') :=
    addCell_eq_ok_iff.2 ⟨g, l, rfl, hin, hout, harity, hrun, rfl⟩
  refine ⟨_, b', hcell, step,
    ((addCell_carries h hlinks.carries.proper hcell).shows shows.port).congr fun σ => ?_⟩
  rw [hlinks.read σ]
  rfl

theorem addConst_shows (store : Store) (h : WellFormed b) (value : Bool) :
    ∃ l b', addConst value b = .ok (l, b') ∧ Step store b b' ∧ b'.Shows m l fun _ => value := by
  have hkind : (Cell.mk (.ofGate (.ofBool value)) []).isTerminal = false := by cases value <;> rfl
  obtain ⟨l, b', hrun, step, shows⟩ := addPositive_shows store (m := m) h hkind
    (by simp : ∀ l ∈ [], b.Readable l)
    (Store.regular_const value)
  exact ⟨l, b', hrun, step, shows.congr fun σ => by cases value <;> rfl⟩

/-! ## Trees -/

/-- Links that may be read show what they read. -/
lemma showsAll_self (reads : ∀ l ∈ links, b.Readable l) (ports : ∀ l ∈ links, l.port = 0) :
    b.ShowsAll m links (links.map fun l σ => l.read (b.values m σ)) := by
  rw [ShowsAll, List.forall₂_map_right_iff, List.forall₂_same]
  exact fun l hl => ⟨reads l hl, ports l hl, fun _ => rfl⟩

/-- A step for each element of a list, each of which may follow any growth. -/
lemma mapM_shows {α : Type} {f : α → Build Link} {F : α → (Nat → Bool) → Bool} {xs : List α}
    {start : Builder} (hstep : ∀ x ∈ xs, ∀ b, Grown start b →
      ∃ l b', f x b = .ok (l, b') ∧ Step store b b' ∧ b'.Shows m l (F x)) (hb : Grown start b) :
    ∃ ls b', xs.mapM f b = .ok (ls, b') ∧ Step store b b' ∧ b'.ShowsAll m ls (xs.map F) := by
  induction xs generalizing b with
  | nil => exact ⟨[], b, rfl, .refl hb.wellFormed, .nil⟩
  | cons x xs ih =>
      obtain ⟨l, b₁, hl, step, shows⟩ := hstep x (by simp) b hb
      obtain ⟨ls, b₂, hls, step', showsAll⟩ :=
        ih (fun y hy => hstep y (by simp [hy])) (hb.trans step.grown)
      refine ⟨l :: ls, b₂, ?_, step.trans step', .cons ?_ showsAll⟩
      · rw [List.mapM_cons, build_bind_eq_ok_iff]
        refine ⟨l, b₁, hl, build_bind_eq_ok_iff.2 ⟨ls, b₂, hls, rfl⟩⟩
      · exact shows.grown step.wellFormed step'.grown

/-- One level of a tree. -/
lemma joinGroups_shows (store : Store) (h : WellFormed b) {g : Gate} (hg : g.traits.regroupable = true)
    {groups : List (List Link)} (reads : ∀ group ∈ groups, ∀ l ∈ group, b.Readable l)
    (ports : ∀ group ∈ groups, ∀ l ∈ group, l.port = 0)
    (hlength : ∀ group ∈ groups, 1 ≤ group.length ∧ group.length ≤ maxArity) :
    ∃ ls b', joinGroups (.gate g) groups b = .ok (ls, b') ∧ Step store b b' ∧
      b'.ShowsAll m ls (groups.map fun group σ => g.value (group.map (Link.read (b.values m σ)))) := by
  refine mapM_shows (fun group hgroup b' hb' => ?_) (.refl h)
  have shows := (showsAll_self (m := m) (reads group hgroup) (ports group hgroup)).grown h hb'
  split
  · rename_i l
    cases shows with
    | cons hl _ =>
        exact ⟨l, b', rfl, .refl hb'.wellFormed, hl.congr fun σ => (Gate.value_singleton hg _).symm⟩
  · rename_i hne
    obtain ⟨hpos, hmax⟩ := hlength group hgroup
    have htwo : 2 ≤ group.length := by
      by_contra hlt
      obtain ⟨l, rfl⟩ := List.length_eq_one_iff.1 (show group.length = 1 by omega)
      exact hne l rfl
    obtain ⟨hin, hout, harity⟩ := Gate.arity_of_regroupable hg
    obtain ⟨l, b'', hrun, step, hl⟩ := addCell_shows store hb'.wellFormed hin hout shows
      (by rw [harity]; exact ⟨htwo, hmax⟩)
    exact ⟨l, b'', hrun, step, hl.congr fun σ => by rw [List.map_map]; rfl⟩

/-- All levels of a tree. -/
lemma joinLevels_shows (store : Store) {g : Gate} (hg : g.traits.regroupable = true) {width : Nat}
    (hwidth : 2 ≤ width ∧ width ≤ maxArity) (levels : Nat) (h : WellFormed b)
    (reads : ∀ l ∈ links, b.Readable l) (ports : ∀ l ∈ links, l.port = 0)
    (hpos : links ≠ []) (hlength : links.length ≤ levels + 1) :
    ∃ l b', joinLevels (.gate g) width levels links b = .ok (l, b') ∧ Step store b b' ∧
      b'.Shows m l fun σ => g.value (links.map (Link.read (b.values m σ))) := by
  have single : ∀ (levels : Nat) (l : Link) (b : Builder), WellFormed b → b.Readable l →
      l.port = 0 → ∃ l' b', joinLevels (.gate g) width levels [l] b = .ok (l', b') ∧
        Step store b b' ∧ b'.Shows m l' fun σ => g.value ([l].map (Link.read (b.values m σ))) := by
    intro levels l b h readable port
    refine ⟨l, b, by cases levels <;> rfl, .refl h, readable, port, fun σ => ?_⟩
    exact (Gate.value_singleton hg _).symm
  induction levels generalizing links b with
  | zero =>
      obtain ⟨l, rfl⟩ := List.length_eq_one_iff.1
        (Nat.le_antisymm hlength (List.length_pos_of_ne_nil hpos))
      exact single 0 l b h (reads l (by simp)) (ports l (by simp))
  | succ levels ih =>
      by_cases hone : links.length = 1
      · obtain ⟨l, rfl⟩ := List.length_eq_one_iff.1 hone
        exact single _ l b h (reads l (by simp)) (ports l (by simp))
      have htwo : 2 ≤ links.length := by
        have := List.length_pos_of_ne_nil hpos
        omega
      obtain ⟨ls, b₁, hls, step, shows⟩ := joinGroups_shows store (m := m) h hg
        (fun group (hgroup : group ∈ pieces (width - 1) links) l hl =>
          reads l (mem_of_mem_pieces hgroup hl))
        (fun group hgroup l hl => ports l (mem_of_mem_pieces hgroup hl))
        fun group hgroup => by
          have := length_of_mem_pieces links group hgroup
          omega
      have hlt := length_pieces_lt (show 1 ≤ width - 1 by omega) htwo
      have hlen : ls.length = (pieces (width - 1) links).length := by
        rw [shows.length_eq, List.length_map]
      have hne : ls ≠ [] := by
        refine List.ne_nil_of_length_pos (hlen ▸ List.length_pos_of_ne_nil fun hnil => hpos ?_)
        rw [← @flatten_pieces _ (width - 1) links, hnil, List.flatten_nil]
      obtain ⟨l, b₂, hl, step', hshows⟩ := ih step.wellFormed shows.readable shows.port hne
        (by omega)
      have hrun : joinLevels (.gate g) width (levels + 1) links b = .ok (l, b₂) := by
        rw [joinLevels]
        · exact build_bind_eq_ok_iff.2 ⟨ls, b₁, hls, hl⟩
        · rintro l rfl
          exact hone rfl
      exact ⟨l, b₂, hrun, step.trans step', (joinLevels_carries h hg
        (fun l hl => ⟨reads l hl, fun _ _ _ _ => ports l hl⟩) hrun).shows hshows.port⟩

/-- A tree of an associative gate. -/
theorem addTree_shows (store : Store) (h : WellFormed b) {g : Gate}
    (hg : g.traits.regroupable = true) {arity : Nat}
    (harity : arity ≤ maxArity ∨ links.length ≤ maxArity) {fs : List ((Nat → Bool) → Bool)}
    (hlinks : b.ShowsAll m links fs) :
    ∃ l b', addTree (.gate g) links arity b = .ok (l, b') ∧ Step store b b' ∧
      b'.Shows m l fun σ => g.value (fs.map (· σ)) := by
  have hregroup : (Symbol.gate g).traits.regroupable = true := hg
  have hwidth : max arity 2 ≤ maxArity ∨ links.length ≤ maxArity :=
    harity.imp_left fun h => max_le h (by decide)
  obtain ⟨hin, hout, hlimits⟩ := Gate.arity_of_regroupable hg
  unfold addTree
  simp only [hregroup, if_true]
  split
  · cases hlinks
    obtain ⟨l, b', hrun, step, shows⟩ := addConst_shows store (m := m) h
      (decide (Symbol.gate g = .gate .and))
    refine ⟨l, b', hrun, step, shows.congr fun σ => ?_⟩
    rcases Gate.eq_of_regroupable hg with rfl | rfl | rfl <;> rfl
  · rename_i l
    cases hlinks with
    | cons hl hrest =>
        cases hrest
        exact ⟨l, b, rfl, .refl h, hl.congr fun σ => (Gate.value_singleton hg _).symm⟩
  · rename_i hnil hsingle
    have htwo : 2 ≤ links.length := by
      by_contra hlt
      rcases Nat.lt_or_ge 0 links.length with hpos | hzero
      · obtain ⟨l, rfl⟩ := List.length_eq_one_iff.1 (show links.length = 1 by omega)
        exact hsingle l rfl
      · exact hnil (List.length_eq_zero_iff.1 (by omega))
    split
    · rename_i hle
      exact addCell_shows store h hin hout hlinks
        (by rw [hlimits]; exact ⟨htwo, hwidth.elim hle.trans id⟩)
    · rename_i hlt
      have hwidth : max arity 2 ≤ maxArity := hwidth.elim id (Nat.not_le.1 hlt).le.trans
      obtain ⟨l, b', hrun, step, shows⟩ := joinLevels_shows store (m := m) hg
        ⟨le_max_right .., hwidth⟩ links.length h hlinks.readable hlinks.port
        (List.ne_nil_of_length_pos (by omega)) (by omega)
      exact ⟨l, b', hrun, step, shows.congr fun σ => by rw [hlinks.read]⟩

/-! ## Terminals -/

namespace WellFormed

/-- A terminal leaves everything as it is. -/
lemma shows_of_pushed (h : WellFormed b) (h' : WellFormed b') (inputs : b.inputs <+: b'.inputs)
    (inner : b'.inner = b.inner) (outputs : b.outputs <+: b'.outputs)
    (hcells : b'.cells = b.cells.push c) :
    (∀ id ∈ b.order, id ∈ b'.order ∧ b'.cells[id]? = b.cells[id]? ∧
      ∀ σ, b'.values m σ id = b.values m σ id) ∧ ∀ l f, b.Shows m l f → b'.Shows m l f := by
  have alive : ∀ id ∈ b.order, id ∈ b'.order := by
    intro id hid
    rw [h'.layout.mem_order, inner]
    exact (h.layout.mem_order.1 hid).imp (fun h => inputs.subset h)
      (Or.imp_right fun h => outputs.subset h)
  have same : ∀ id ∈ b.order, b'.cells[id]? = b.cells[id]? := by
    intro id hid
    rw [hcells, Array.getElem?_push_lt (h.lt_size hid), Array.getElem?_eq_getElem (h.lt_size hid)]
  have values : ∀ id ∈ b.order, ∀ σ, b'.values m σ id = b.values m σ id := fun id hid σ =>
    h.values_eq h' inputs alive same hid
  refine ⟨fun id hid => ⟨alive id hid, same id hid, values id hid⟩,
    fun l f shows => ⟨?_, shows.port, fun σ => ?_⟩⟩
  · rw [Readable, inner]
    rcases List.mem_append.1 shows.readable with hl | hl
    · exact List.mem_append_left _ (inputs.subset hl)
    · exact List.mem_append_right _ hl
  · rw [← shows.read σ, Link.read, Link.read, values _ (h.mem_order shows.readable)]

/-- A new input has the value that the assignment gives to it. -/
theorem addInput_shows (store : Store) (h : WellFormed b) :
    ∃ b', Builder.addInput b = .ok (.of b.size, b') ∧ WellFormed b' ∧
      b'.inputs = b.inputs ++ [b.size] ∧ b'.inner = b.inner ∧ b'.outputs = b.outputs ∧
      b'.size = b.size + 1 ∧ (∀ l f, b.Shows m l f → b'.Shows m l f) ∧
      (b'.Shows m (.of b.size) fun σ => σ b.inputs.length) ∧
      (b.Regular store True → b'.Regular store True) := by
  obtain ⟨b', hrun, h', inputs, inner, outputs, -, hcells⟩ := h.addInput
  have hprefix : b.inputs <+: b'.inputs := inputs ▸ List.prefix_append ..
  obtain ⟨-, shows⟩ := h.shows_of_pushed (m := m) h' hprefix inner
    (outputs ▸ List.prefix_refl _) hcells
  have hnew : b.size ∉ b.inputs := fun hin =>
    lt_irrefl _ (h.lt_size (h.layout.mem_order.2 (.inl hin)))
  refine ⟨b', hrun, h', inputs, inner, outputs, by simp [Builder.size, hcells], shows,
    ⟨?_, rfl, fun σ => ?_⟩, regular_of_pushed (fun id hid => ?_) hcells Store.regular_input⟩
  · rw [Readable, inputs]
    simp [Link.of]
  · have hmem : b.size ∈ b'.inputs := by simp [inputs]
    simp [Link.read, Link.of, h'.layout.values_of_input hmem, inputs,
      List.idxOf_append_of_notMem hnew]
  · rw [h'.layout.mem_order, inputs, inner, outputs] at hid
    rw [h.layout.mem_order]
    simp only [List.mem_append, List.mem_singleton] at hid
    tauto

/-- A new output has the value of its link, whatever port the link reads. -/
theorem addOutput_reads (h : WellFormed b) {l : Link} (hl : b.Readable l) :
    ∃ b', Builder.addOutput l b = .ok (b.size, b') ∧ WellFormed b' ∧ b'.inputs = b.inputs ∧
      b'.outputs.length = b.outputs.length + 1 ∧ b'.cells = b.cells.push (.output l) ∧
      (∀ id ∈ b'.order, id ∈ b.order ∨ id = b.size) ∧
      (∀ m σ, b'.outputValues m σ = b.outputValues m σ ++ [l.read (b.values m σ)]) ∧
      ∀ m l f, b.Shows m l f → b'.Shows m l f := by
  obtain ⟨b', hrun, h', inputs, inner, outputs, -, hcells⟩ := h.addOutput hl
  have pushed := fun m => h.shows_of_pushed (m := m) h' (inputs ▸ List.prefix_refl _) inner
    (outputs ▸ List.prefix_append ..) hcells
  refine ⟨b', hrun, h', inputs, by simp [outputs], hcells, fun id hid => ?_, fun m σ => ?_,
    fun m => (pushed m).2⟩
  · rw [h'.layout.mem_order, inputs, inner, outputs] at hid
    rw [h.layout.mem_order]
    simp only [List.mem_append, List.mem_singleton] at hid
    tauto
  · rw [outputValues, outputs, List.map_append, outputValues]
    congr 1
    · refine List.map_congr_left fun o ho => ?_
      rw [((pushed m).1 o (h.layout.mem_order.2 (.inr (.inr ho)))).2.2 σ]
    · have hcell : b'.cells[b.size]? = some (.output l) := by simp [hcells, Builder.size]
      have hvalue := h'.layout.values_of_cell (m := m) (σ := σ) (by simp [outputs]) hcell
      have hread : l.read (b'.values m σ) = l.read (b.values m σ) := by
        rw [Link.read, Link.read, ((pushed m).1 l.entry (h.mem_order hl)).2.2 σ]
      simp only [List.map_singleton, hvalue, ← hread]
      simp [Cell.portsIn, Cell.ports, Cell.output, Gate.value]

/-- A new output shows the value of its link. -/
theorem addOutput_shows (store : Store) (h : WellFormed b) {l : Link} {f : (Nat → Bool) → Bool}
    (hl : b.Shows m l f) :
    ∃ b', Builder.addOutput l b = .ok (b.size, b') ∧ WellFormed b' ∧ b'.inputs = b.inputs ∧
      b'.outputs.length = b.outputs.length + 1 ∧
      (∀ σ, b'.outputValues m σ = b.outputValues m σ ++ [f σ]) ∧
      (∀ l f, b.Shows m l f → b'.Shows m l f) ∧ (b.Regular store True → b'.Regular store True) := by
  obtain ⟨b', hrun, h', inputs, outputs, hcells, order, values, shows⟩ := h.addOutput_reads hl.readable
  refine ⟨b', hrun, h', inputs, outputs, fun σ => ?_, shows m,
    regular_of_pushed order hcells (Store.regular_output hl.port)⟩
  rw [values, hl.read]

/-- Several new inputs. -/
lemma addInputs_shows (store : Store) (count : Nat) (h : WellFormed b) :
    ∃ links b', addInputs count b = .ok (links, b') ∧ WellFormed b' ∧
      b'.inputs.length = b.inputs.length + count ∧ b'.inner = b.inner ∧ b'.outputs = b.outputs ∧
      (∀ l f, b.Shows m l f → b'.Shows m l f) ∧
      b'.ShowsAll m links ((List.range' b.inputs.length count).map fun v σ => σ v) ∧
      (b.Regular store True → b'.Regular store True) := by
  induction count generalizing b with
  | zero => exact ⟨[], b, rfl, h, rfl, rfl, rfl, fun _ _ => id, .nil, id⟩
  | succ count ih =>
      obtain ⟨b₁, hrun, h₁, inputs, inner, outputs, -, kept, new, regular⟩ :=
        h.addInput_shows store (m := m)
      obtain ⟨links, b₂, hrun', h₂, inputs', inner', outputs', kept', shows, regular'⟩ := ih h₁
      have hlength : b₁.inputs.length = b.inputs.length + 1 := by simp [inputs]
      refine ⟨.of b.size :: links, b₂, ?_, h₂, by omega, inner'.trans inner, outputs'.trans outputs,
        fun l f hl => kept' l f (kept l f hl), .cons (kept' _ _ new) ?_,
        fun hb => regular' (regular hb)⟩
      · rw [addInputs, List.replicate_succ, List.mapM_cons, build_bind_eq_ok_iff]
        exact ⟨_, b₁, hrun, build_bind_eq_ok_iff.2 ⟨links, b₂, hrun', rfl⟩⟩
      · rwa [hlength] at shows

end WellFormed

end Builder

end Gatework
