import Gatework.Proofs.Builder.Folding

/-!
# What the link to a new cell carries

A builder that is asked for a cell may fold its operands, reuse a cell that is there, or do neither.
Whatever it does, the link that it returns has the value of the cell that was asked for.  Nothing is
assumed here about the ports that the operands read, except that a gate has only one.

* `Carries`: a link has the value of a function of the assignment.
* `Stands`: a link may be read in the place of a cell, port by port.
* `addPositive_stands` for single cells, `addCell_carries` for gates, `addTree_carries` for trees,
  `addInstance_carries` for copies of networks.
-/

namespace Gatework

/-- A link does not read a second port of a gate, which has only one, so that there is no such value. -/
def Link.Fits (cells : Array Cell) (l : Link) : Prop :=
  ∀ c g, cells[l.entry]? = some c → c.kind.symbol = .gate g → l.port = 0

/-- What `l` reads if its entry is replaced by what `place` reads: a first port is the port that
`place` reads. -/
def Link.through (place l : Link) : Link where
  entry := place.entry
  port := if l.port ≠ 0 then l.port else place.port
  inverted := place.inverted ^^ l.inverted

lemma Link.through_of_port {place l : Link} (hport : l.port = 0) :
    place.through l = place.invertIf l.inverted := by
  simp [Link.through, Link.invertIf, hport]

lemma Cell.kind_normal (c : Cell) : c.normal.kind = c.kind := by
  unfold Cell.normal
  split <;> rfl

/-- The value of a symbol.  What a composite computes is not said by its symbol. -/
def Symbol.value (operands : List Bool) : Symbol → Bool
  | .gate g => g.value operands
  | .cell => false

namespace Builder

variable {b b' : Builder} {m : Meaning} {c : Cell} {kind : CellKind} {l : Link} {links : List Link}
  {f : (Nat → Bool) → Bool}

/-- A link names an input or an inner cell, and a port that this has. -/
structure Proper (b : Builder) (l : Link) : Prop where
  readable : b.Readable l
  fits : l.Fits b.cells

lemma Proper.grown (h : b.Proper l) (wf : WellFormed b) (grown : Grown b b') : b'.Proper l where
  readable := h.readable.grown grown
  fits := by
    rw [Link.Fits, grown.cells _ (wf.lt_size (wf.mem_order h.readable))]
    exact h.fits

/-- Only the entry and the port matter. -/
lemma Proper.congr (h : b.Proper l) {k : Link} (entry : k.entry = l.entry) (port : k.port = l.port) :
    b.Proper k where
  readable := by
    rw [Readable, entry]
    exact h.readable
  fits := by
    rw [Link.Fits, entry, port]
    exact h.fits

/-- A link has the value of a function of the assignment. -/
structure Carries (b : Builder) (m : Meaning) (l : Link) (f : (Nat → Bool) → Bool) : Prop
    extends Proper b l where
  read : ∀ σ, l.read (b.values m σ) = f σ

namespace Carries

lemma grown (h : b.Carries m l f) (wf : WellFormed b) (grown : Grown b b') : b'.Carries m l f := by
  refine ⟨h.toProper.grown wf grown, fun σ => ?_⟩
  rw [← h.read σ, Link.read, Link.read, grown.values_eq wf (wf.mem_order h.readable)]

lemma congr (h : b.Carries m l f) {g : (Nat → Bool) → Bool} (same : ∀ σ, f σ = g σ) :
    b.Carries m l g :=
  ⟨h.toProper, fun σ => (h.read σ).trans (same σ)⟩

lemma invertIf (h : b.Carries m l f) (flag : Bool) :
    b.Carries m (l.invertIf flag) fun σ => f σ ^^ flag := by
  refine ⟨h.toProper.congr rfl rfl, fun σ => ?_⟩
  rw [Link.read_invertIf, h.read σ]

end Carries

lemma Proper.carries (h : b.Proper l) : b.Carries m l fun σ => l.read (b.values m σ) :=
  ⟨h, fun _ => rfl⟩

/-- Links carry a list of functions, one each. -/
abbrev CarriesAll (b : Builder) (m : Meaning) (links : List Link)
    (fs : List ((Nat → Bool) → Bool)) : Prop := List.Forall₂ (b.Carries m) links fs

namespace CarriesAll

variable {fs : List ((Nat → Bool) → Bool)}

lemma grown (h : b.CarriesAll m links fs) (wf : WellFormed b) (grown : Grown b b') :
    b'.CarriesAll m links fs := h.imp fun _ _ hl => hl.grown wf grown

lemma proper (h : b.CarriesAll m links fs) : ∀ l ∈ links, b.Proper l := by
  induction h with
  | nil => simp
  | cons hl _ ih => exact List.forall_mem_cons.2 ⟨hl.toProper, ih⟩

lemma read (h : b.CarriesAll m links fs) (σ : Nat → Bool) :
    links.map (Link.read (b.values m σ)) = fs.map (· σ) := by
  induction h with
  | nil => rfl
  | cons hl _ ih => rw [List.map_cons, List.map_cons, hl.read, ih]

end CarriesAll

/-! ## Placing a cell -/

namespace WellFormed

/-- The values of a cell that was appended. -/
lemma values_append (h : WellFormed b) (hc : c.isTerminal = false)
    (reads : ∀ l ∈ c.links, b.Readable l) (σ : Nat → Bool) :
    (b.append c).2.values m σ b.size = c.portsIn m (b.values m σ) := by
  obtain ⟨-, grown, inner, cells⟩ := h.append hc reads
  have hcell : (b.append c).2.cells[b.size]? = some c := by simp [cells, Builder.size]
  rw [grown.wellFormed.layout.values_of_cell (by simp [inner]) hcell]
  refine Cell.portsIn_congr fun d hd => grown.values_eq h ?_
  obtain ⟨l, hl, rfl⟩ := List.mem_map.1 hd
  exact h.mem_order (reads l hl)

/-- Behind the link to a cell, be it a new one or one that is reused, there is an inner cell of the same
kind with the same values on all ports. -/
lemma exists_place (h : WellFormed b) (hc : c.isTerminal = false)
    (reads : ∀ l ∈ c.links, b.Readable l) :
    ∃ id d, (b.place c).1 = .of id ∧ id ∈ (b.place c).2.inner ∧
      (b.place c).2.cells[id]? = some d ∧ d.kind = c.kind ∧
      ∀ m σ, (b.place c).2.values m σ id = c.portsIn m (b.values m σ) := by
  unfold Builder.place
  split
  · rename_i id hid
    split at hid
    · obtain ⟨hmem, d, hd, hnormal⟩ := h.layout.offered _ _ hid
      refine ⟨id, d, rfl, hmem, hd, ?_, fun m σ => ?_⟩
      · rw [← Cell.kind_normal d, hnormal, Cell.kind_normal]
      · rw [h.layout.values_of_cell (List.mem_append_left _ hmem) hd, ← Cell.portsIn_normal, hnormal,
          Cell.portsIn_normal]
    · cases hid
  · obtain ⟨hid, -, inner, cells⟩ := h.append hc reads
    exact ⟨b.size, c, congrArg Link.of hid, by simp [inner], by simp [cells, Builder.size], rfl,
      fun m σ => h.values_append hc reads σ⟩

/-- A link to a constant has the value that it is taken for. -/
lemma constantsIn (h : WellFormed b) (proper : ∀ l ∈ links, b.Proper l) (σ : Nat → Bool) :
    b.ConstantsIn (b.values m σ) links := by
  intro l hl value hvalue
  have inner : ∀ c, b.cells[l.entry]? = some c → c.isInput = false → l.entry ∈ b.inner := by
    intro c hc hinput
    refine (List.mem_append.1 (proper l hl).readable).resolve_left fun hin => ?_
    rw [h.layout.isInput l.entry hin] at hc
    cases hc
    cases hinput
  have gate : ∀ (g : Gate) t, g ≠ .input → (b.cells[l.entry]?).map Cell.kind = some ⟨.gate g, t⟩ →
      l.port = 0 ∧ ∃ xs, b.values m σ l.entry = [g.value xs] := by
    intro g t hg hkind
    obtain ⟨c, hc, hkind⟩ := Option.map_eq_some_iff.1 hkind
    have hkind : c.kind.symbol = .gate g := congrArg CellKind.symbol hkind
    have hinput : c.isInput = false := by simpa [Cell.isInput, hkind] using hg
    rw [h.layout.values_of_cell (List.mem_append_left _ (inner c hc hinput)) hc]
    exact ⟨(proper l hl).fits c g hc hkind, c.links.map (Link.read (b.values m σ)),
      by simp [Cell.portsIn, Cell.ports, hkind]⟩
  unfold constantValue? at hvalue
  split at hvalue
  · rename_i hkind
    obtain ⟨hport, xs, hxs⟩ := gate .zero _ (by decide) hkind
    rw [← Option.some.inj hvalue]
    simp [Link.read, hxs, hport, Gate.value]
  · rename_i hkind
    obtain ⟨hport, xs, hxs⟩ := gate .one _ (by decide) hkind
    rw [← Option.some.inj hvalue]
    simp [Link.read, hxs, hport, Gate.value]
  · cases hvalue

end WellFormed

/-! ## Standing for a cell -/

/-- A link may be read in the place of a cell of some kind with some values on its ports. -/
def Stands (b : Builder) (m : Meaning) (kind : CellKind) (place : Link)
    (ports : (Nat → Bool) → List Bool) : Prop :=
  ∀ l : Link, (∀ g, kind.symbol = .gate g → l.port = 0) →
    b.Carries m (place.through l) fun σ => (ports σ).getD l.port.toNat false ^^ l.inverted

section Stands

variable {place : Link} {ports : (Nat → Bool) → List Bool}

lemma Stands.grown (h : b.Stands m kind place ports) (wf : WellFormed b) (grown : Grown b b') :
    b'.Stands m kind place ports := fun l hl => (h l hl).grown wf grown

lemma Stands.carries (h : b.Stands m kind place ports) :
    b.Carries m place fun σ => (ports σ).headD false := by
  refine ((show place.through (.of 0) = place from ?_) ▸ h (.of 0) fun _ _ => rfl).congr fun σ => ?_
  · cases place
    simp [Link.through, Link.of]
  · cases ports σ <;> simp [Link.of]

/-- A gate has one port. -/
lemma Carries.stands (h : b.Carries m place f) {g : Gate} (hkind : kind.symbol = .gate g)
    (hports : ∀ σ, ports σ = [f σ]) : b.Stands m kind place ports := by
  intro l hl
  have hport := hl g hkind
  rw [Link.through_of_port hport]
  exact (h.invertIf l.inverted).congr fun σ => by simp [hports, hport]

/-- A cell stands for itself. -/
lemma stands_of {id : Nat} (hid : id ∈ b.inner) (hc : b.cells[id]? = some c) (hkind : c.kind = kind)
    (values : ∀ σ, b.values m σ id = ports σ) : b.Stands m kind (.of id) ports := by
  intro l hl
  have hthrough : (Link.of id).through l = { l with entry := id } := by
    by_cases hport : l.port = 0 <;> simp [Link.through, Link.of, hport]
  rw [hthrough]
  refine ⟨⟨List.mem_append_right _ hid, fun d g hd hg => ?_⟩, fun σ => ?_⟩
  · cases hc.symm.trans hd
    exact hl g (hkind ▸ hg)
  · rw [Link.read, values]

end Stands

lemma WellFormed.place_stands (h : WellFormed b) (hc : c.isTerminal = false)
    (reads : ∀ l ∈ c.links, b.Readable l) :
    (b.place c).2.Stands m c.kind (b.place c).1 fun σ => c.portsIn m (b.values m σ) := by
  obtain ⟨id, d, hplace, hid, hd, hkind, values⟩ := h.exists_place hc reads
  rw [hplace]
  exact stands_of hid hd hkind (values m)

/-! ## Single cells -/

/-- What is left of a cell has the value of the cell. -/
lemma WellFormed.simplified_value (h : WellFormed b) (kind : CellKind)
    (proper : ∀ l ∈ links, b.Proper l) (σ : Nat → Bool) :
    (b.simplified kind links).value m (b.values m σ) kind =
      ((Cell.mk kind links).portsIn m (b.values m σ)).headD false := by
  unfold simplified
  split
  · exact foldCell_value kind (h.constantsIn proper σ)
  · exact Bool.xor_false _

/-- The link to what is left of a cell carries the value of it. -/
lemma WellFormed.placed_carries (h : WellFormed b) (hkind : (Cell.mk kind []).isTerminal = false)
    (folded : Folded) (proper : ∀ l ∈ folded.links, b.Proper l) :
    (folded.placed b kind).2.Carries m (folded.placed b kind).1
      fun σ => folded.value m (b.values m σ) kind := by
  cases folded with
  | link l => exact (proper l (by simp [Folded.links])).carries
  | constant value =>
      refine (h.place_stands (c := ⟨.ofGate (.ofBool value), []⟩) (by cases value <;> rfl)
        (by simp)).carries.congr fun σ => ?_
      cases value <;> rfl
  | cell kept inverted =>
      exact (h.place_stands (c := ⟨kind, kept⟩) hkind fun l hl => (proper l hl).readable).carries.invertIf
        inverted

/-- The link to a new cell carries the value of the cell. -/
theorem addPositive_carries (h : WellFormed b) (hkind : (Cell.mk kind []).isTerminal = false)
    (proper : ∀ l ∈ links, b.Proper l) (hrun : addPositive kind links b = .ok (l, b')) :
    b'.Carries m l fun σ => ((Cell.mk kind links).portsIn m (b.values m σ)).headD false := by
  obtain ⟨-, -, hplaced⟩ := h.addPositive_eq_ok_iff.1 hrun
  have carries := h.placed_carries (m := m) hkind (b.simplified kind links) fun l hl => by
    obtain ⟨k, hk, hentry, hport⟩ := exists_of_mem_simplified l hl
    exact (proper k hk).congr hentry.symm hport.symm
  rw [hplaced] at carries
  exact carries.congr (h.simplified_value kind proper)

/-- The link to a new cell stands for the cell.  Composites are never folded, so that their other ports
are there as well. -/
theorem addPositive_stands (h : WellFormed b) (hkind : (Cell.mk kind []).isTerminal = false)
    (proper : ∀ l ∈ links, b.Proper l) (hrun : addPositive kind links b = .ok (l, b')) :
    b'.Stands m kind l fun σ => (Cell.mk kind links).portsIn m (b.values m σ) := by
  cases hsymbol : kind.symbol with
  | gate g =>
      refine (addPositive_carries h hkind proper hrun).stands hsymbol fun σ => ?_
      simp only [Cell.portsIn, Cell.ports, hsymbol, List.headD_cons]
  | cell =>
      obtain ⟨-, -, hplaced⟩ := h.addPositive_eq_ok_iff.1 hrun
      have hleft : b.simplified kind links = .cell links false := by
        rw [simplified, hsymbol]
        split <;> rfl
      rw [hleft] at hplaced
      cases hplaced
      have stands := h.place_stands (m := m) (c := ⟨kind, links⟩) hkind
        fun l hl => (proper l hl).readable
      rwa [show ∀ k : Link, k.invertIf false = k from fun k => by simp [Link.invertIf]]

/-! ## Gates -/

/-- The link to a new gate carries the value of the gate. -/
theorem addCell_carries (h : WellFormed b) {symbol : Symbol} (proper : ∀ l ∈ links, b.Proper l)
    (hrun : addCell symbol links b = .ok (l, b')) :
    b'.Carries m l fun σ => symbol.value (links.map (Link.read (b.values m σ))) := by
  obtain ⟨g, k, rfl, hin, hout, -, hk, rfl⟩ := addCell_eq_ok_iff.1 hrun
  refine ((addPositive_carries h (isTerminal_positive g hin hout) proper hk).invertIf
    g.positive.2).congr fun σ => ?_
  simp only [Cell.portsIn, Cell.ports, CellKind.symbol_ofGate, List.headD_cons, Symbol.value,
    ← Gate.value_positive]

theorem addConst_carries (h : WellFormed b) {value : Bool}
    (hrun : addConst value b = .ok (l, b')) : b'.Carries m l fun _ => value := by
  have hkind : (Cell.mk (.ofGate (.ofBool value)) []).isTerminal = false := by cases value <;> rfl
  refine (addPositive_carries h hkind (by simp) hrun).congr fun σ => ?_
  cases value <;> rfl

/-! ## Trees -/

/-- A step for each element of a list, each of which may follow any growth. -/
lemma mapM_carries {α : Type} {step : α → Build Link} {F : α → (Nat → Bool) → Bool} {xs : List α}
    {ls : List Link} {start : Builder} (grows : ∀ x ∈ xs, Grows (step x))
    (carries : ∀ x ∈ xs, ∀ b l b', Grown start b → step x b = .ok (l, b') → b'.Carries m l (F x))
    (hb : Grown start b) (hrun : xs.mapM step b = .ok (ls, b')) : b'.CarriesAll m ls (xs.map F) := by
  induction xs generalizing b ls with
  | nil =>
      cases hrun
      exact .nil
  | cons x xs ih =>
      obtain ⟨growsHead, growsTail⟩ := List.forall_mem_cons.1 grows
      obtain ⟨carriesHead, carriesTail⟩ := List.forall_mem_cons.1 carries
      rw [List.mapM_cons] at hrun
      obtain ⟨l, b₁, hl, hrun⟩ := build_bind_eq_ok_iff.1 hrun
      obtain ⟨ls, b₂, hls, hrun⟩ := build_bind_eq_ok_iff.1 hrun
      cases hrun
      have grown := growsHead b l b₁ hb.wellFormed hl
      have grown' : Grown b₁ b' :=
        grows_iff.2 (composes_grown.mapM fun x hx => grows_iff.1 (growsTail x hx)) b₁ ls b'
          grown.wellFormed hls
      exact .cons ((carriesHead b l b₁ hb hl).grown grown.wellFormed grown')
        (ih growsTail carriesTail (hb.trans grown) hls)

section Tree

variable {g : Gate} {width levels : Nat}

/-- One level of a tree. -/
lemma joinGroups_carries (h : WellFormed b) (hg : g.traits.regroupable = true)
    {groups : List (List Link)} {ls : List Link} (proper : ∀ group ∈ groups, ∀ l ∈ group, b.Proper l)
    (hrun : joinGroups (.gate g) groups b = .ok (ls, b')) :
    b'.CarriesAll m ls
      (groups.map fun group σ => g.value (group.map (Link.read (b.values m σ)))) := by
  refine mapM_carries (fun group _ => ?_) (fun group hgroup b₁ l b₂ grown hstep => ?_) (.refl h) hrun
  · split
    · exact grows_iff.2 (composes_grown.pure _)
    · exact grows_addCell _ _
  -- a group reads the same after the groups in front of it were joined
  have carries : b₁.CarriesAll m group (group.map fun l σ => l.read (b.values m σ)) := by
    rw [CarriesAll, List.forall₂_map_right_iff, List.forall₂_same]
    exact fun l hl => (proper group hgroup l hl).carries.grown h grown
  split at hstep
  · cases hstep
    cases carries with
    | cons hl _ => exact hl.congr fun σ => (Gate.value_singleton hg _).symm
  · refine (addCell_carries grown.wellFormed carries.proper hstep).congr fun σ => ?_
    rw [carries.read σ, List.map_map]
    rfl

/-- All levels of a tree. -/
lemma joinLevels_carries (h : WellFormed b) (hg : g.traits.regroupable = true)
    (proper : ∀ l ∈ links, b.Proper l)
    (hrun : joinLevels (.gate g) width levels links b = .ok (l, b')) :
    b'.Carries m l fun σ => g.value (links.map (Link.read (b.values m σ))) := by
  fun_induction joinLevels (.gate g) width levels links generalizing b with
  | case1 levels l =>
      cases hrun
      exact (proper l (by simp)).carries.congr fun σ => (Gate.value_singleton hg _).symm
  | case2 => cases hrun
  | case3 levels operands _ ih =>
      obtain ⟨ls, b₁, hls, hrun⟩ := build_bind_eq_ok_iff.1 hrun
      have carries := joinGroups_carries (m := m) h hg
        (fun group hgroup l hl => proper l (mem_of_mem_pieces hgroup hl)) hls
      have grown : Grown b b₁ := grows_joinGroups _ _ b ls b₁ h hls
      refine (ih ls grown.wellFormed carries.proper hrun).congr fun σ => ?_
      have flat := Gate.value_flatten hg
        ((pieces (width - 1) operands).map (List.map (Link.read (b.values m σ))))
      rw [← List.map_flatten, flatten_pieces, List.map_map] at flat
      rw [carries.read σ, List.map_map]
      exact flat.symm

end Tree

/-- The link to a new tree carries the value of the gate with all operands at once. -/
theorem addTree_carries (h : WellFormed b) {symbol : Symbol} {maxArity : Nat}
    (proper : ∀ l ∈ links, b.Proper l) (hrun : addTree symbol links maxArity b = .ok (l, b')) :
    b'.Carries m l fun σ => symbol.value (links.map (Link.read (b.values m σ))) := by
  unfold addTree at hrun
  split at hrun
  · rename_i hregroup
    obtain ⟨g, rfl⟩ : ∃ g, symbol = .gate g := by
      cases symbol with
      | gate g => exact ⟨g, rfl⟩
      | cell => cases hregroup
    have hg : g.traits.regroupable = true := hregroup
    dsimp only at hrun
    split at hrun
    · refine (addConst_carries h hrun).congr fun σ => ?_
      rcases Gate.eq_of_regroupable hg with rfl | rfl | rfl <;> rfl
    · cases hrun
      exact (proper _ (by simp)).carries.congr fun σ => (Gate.value_singleton hg _).symm
    · split at hrun
      · exact addCell_carries h proper hrun
      · exact joinLevels_carries h hg proper hrun
  · cases hrun

/-! ## Copies of networks -/

section InstanceCell

variable {places : Array Link} {shown : List Link} {r : (Array Link × List Link) × Builder}

lemma relink_eq_ok_iff {k : Link} :
    relink places l = .ok k ↔ ∃ place, places[l.entry]? = some place ∧ place.through l = k := by
  unfold relink
  split
  · rename_i hplace
    simp [hplace]
  · rename_i place hplace
    simp [hplace, Link.through]

/-! What copying an input, an output and an inner cell comes to. -/

lemma addInstanceCell_input_iff (hinput : c.isInput = true) :
    addInstanceCell links.toArray (places, shown) c b = .ok r ↔
      ∃ l, links[places.size]? = some l ∧ ((places.push l, shown), b) = r := by
  simp only [addInstanceCell, hinput, if_true, List.getElem?_toArray]
  cases links[places.size]? with
  | none => exact ⟨nofun, nofun⟩
  | some l =>
      constructor
      · exact fun h => ⟨l, rfl, Except.ok.inj h⟩
      · rintro ⟨_, h, hr⟩
        cases h
        exact congrArg _ hr

lemma addInstanceCell_output_iff (hout : c.isOutput = true) :
    addInstanceCell links.toArray (places, shown) c b = .ok r ↔
      ∃ l rest k, c.links = l :: rest ∧ relink places l = .ok k ∧
        ((places.push (.of 0), shown ++ [k]), b) = r := by
  have hinput : c.isInput = false := by
    rw [Cell.isInput, beq_iff_eq.1 hout]
    rfl
  simp only [addInstanceCell, hinput, Bool.false_eq_true, if_false, hout, if_true]
  cases c.links with
  | nil =>
      constructor
      · intro h
        cases h
      · rintro ⟨_, _, _, h, _⟩
        cases h
  | cons l rest =>
      refine build_lift_bind_eq_ok_iff.trans ⟨?_, ?_⟩
      · rintro ⟨k, hk, hr⟩
        exact ⟨l, rest, k, rfl, hk, Except.ok.inj hr⟩
      · rintro ⟨_, _, k, h, hk, hr⟩
        cases h
        exact ⟨k, hk, congrArg _ hr⟩

lemma addInstanceCell_inner_iff (hterm : c.isTerminal = false) :
    addInstanceCell links.toArray (places, shown) c b = .ok r ↔
      ∃ operands l b', c.links.mapM (relink places) = .ok operands ∧
        addPositive c.kind operands b = .ok (l, b') ∧ ((places.push l, shown), b') = r := by
  obtain ⟨hinput, hout⟩ := Bool.or_eq_false_iff.1 hterm
  simp only [addInstanceCell, hinput, hout, Bool.false_eq_true, if_false]
  refine build_lift_bind_eq_ok_iff.trans ⟨?_, ?_⟩
  · rintro ⟨operands, hoperands, hrun⟩
    obtain ⟨l, b', hl, hr⟩ := build_bind_eq_ok_iff.1 hrun
    exact ⟨operands, l, b', hoperands, hl, Except.ok.inj hr⟩
  · rintro ⟨operands, l, b', hoperands, hl, hr⟩
    exact ⟨operands, hoperands, build_bind_eq_ok_iff.2 ⟨l, b', hl, congrArg _ hr⟩⟩

end InstanceCell

/-- The first entries of a network have been rebuilt: for every entry but an output there is a link that
stands for it, and what the outputs show is carried by links. -/
structure Rebuilt (net : Subnet) (m : Meaning) (τ : (Nat → Bool) → Nat → Bool) (count : Nat)
    (places : Array Link) (shown : List Link) (b : Builder) : Prop where
  size : places.size = count
  stands : ∀ j < count, ∀ c, net.cells[j]? = some c → c.isOutput = false →
    ∃ place, places[j]? = some place ∧ b.Stands m c.kind place fun σ => net.values m (τ σ) j
  carries : b.CarriesAll m shown (((List.range count).filter (net.outputStart ≤ ·)).map
    fun o σ => (net.values m (τ σ) o).headD false)

namespace Rebuilt

variable {net : Subnet} {τ : (Nat → Bool) → Nat → Bool} {count : Nat} {places : Array Link}
  {shown : List Link} {place : Link}

/-- A link inside of the network becomes a link with the same value. -/
lemma relink_carries (h : Rebuilt net m τ count places shown b) (hc : net.cells[count]? = some c)
    (hl : l ∈ c.links) (fits : l.Fits net.cells) :
    ∃ k, relink places l = .ok k ∧ b.Carries m k fun σ => l.read (net.values m (τ σ)) := by
  obtain ⟨d, hd, hlt, -, hout⟩ := Subnet.exists_driver hc (List.mem_map_of_mem hl)
  obtain ⟨place, hplace, stands⟩ := h.stands l.entry hlt d hd hout
  exact ⟨_, relink_eq_ok_iff.2 ⟨place, hplace, rfl⟩, stands l fun g hg => fits d g hd hg⟩

/-- The operands of a cell become operands with the same values. -/
lemma exists_operands (h : Rebuilt net m τ count places shown b) (hc : net.cells[count]? = some c)
    (fits : ∀ l ∈ c.links, l.Fits net.cells) :
    ∃ operands, c.links.mapM (relink places) = .ok operands ∧
      b.CarriesAll m operands (c.links.map fun l σ => l.read (net.values m (τ σ))) := by
  obtain ⟨operands, hoperands, hall⟩ := @exists_mapM_eq_ok _ _ _ (relink places)
    (fun l k => b.Carries m k fun σ => l.read (net.values m (τ σ))) c.links
    fun l hl => h.relink_carries hc hl (fits l hl)
  refine ⟨operands, hoperands, ?_⟩
  rw [CarriesAll, List.forall₂_map_right_iff]
  exact hall.flip

lemma grown (h : Rebuilt net m τ count places shown b) (wf : WellFormed b) (hb' : Grown b b') :
    Rebuilt net m τ count places shown b' where
  size := h.size
  stands j hj c hc hout := by
    obtain ⟨place, hplace, stands⟩ := h.stands j hj c hc hout
    exact ⟨place, hplace, stands.grown wf hb'⟩
  carries := CarriesAll.grown h.carries wf hb'

/-- One more entry that is not an output. -/
lemma push (h : Rebuilt net m τ count places shown b) (hc : net.cells[count]? = some c)
    (hout : c.isOutput = false)
    (stands : b.Stands m c.kind place fun σ => net.values m (τ σ) count) :
    Rebuilt net m τ (count + 1) (places.push place) shown b where
  size := by simp [h.size]
  stands j hj e he hout := by
    rw [Array.getElem?_push, h.size]
    split
    · rename_i hj
      subst hj
      cases hc.symm.trans he
      exact ⟨place, rfl, stands⟩
    · exact h.stands j (by omega) e he hout
  carries := by
    have : ¬ net.outputStart ≤ count := fun hle => by
      rw [(net.obeys hc).isOutput_iff.2 hle] at hout
      cases hout
    simpa [List.range_succ, List.filter_append, this] using h.carries

/-- One more output. -/
lemma push_output (h : Rebuilt net m τ count places shown b) (hc : net.cells[count]? = some c)
    (hout : c.isOutput = true)
    (carries : b.Carries m l fun σ => (net.values m (τ σ) count).headD false) :
    Rebuilt net m τ (count + 1) (places.push place) (shown ++ [l]) b where
  size := by simp [h.size]
  stands j hj e he hout' := by
    have hne : j ≠ count := by
      rintro rfl
      cases hc.symm.trans he
      rw [hout] at hout'
      cases hout'
    rw [Array.getElem?_push, if_neg (h.size ▸ hne)]
    exact h.stands j (by omega) e he hout'
  carries := by
    have : net.outputStart ≤ count := (net.obeys hc).isOutput_iff.1 hout
    simp only [List.range_succ, List.filter_append, List.map_append]
    refine List.rel_append h.carries ?_
    simpa [this] using carries

/-- One more entry is rebuilt. -/
lemma step (h : Rebuilt net m τ count places shown b) (wf : WellFormed b)
    (hc : net.cells[count]? = some c) (fits : ∀ l ∈ c.links, l.Fits net.cells)
    (hlinks : ∀ (j : Nat) l, links[j]? = some l → b.Carries m l fun σ => τ σ j)
    {places' : Array Link} {shown' : List Link}
    (hrun : addInstanceCell links.toArray (places, shown) c b = .ok ((places', shown'), b')) :
    Rebuilt net m τ (count + 1) places' shown' b' := by
  cases hinput : c.isInput with
  | true =>
      obtain ⟨l, hl, hr⟩ := (addInstanceCell_input_iff hinput).1 hrun
      cases hr
      have hlt : count < net.numInputs := (net.obeys hc).isInput_iff.1 hinput
      have hkind : c.kind.symbol = .gate .input := beq_iff_eq.1 hinput
      refine h.push hc (by simp [Cell.isOutput, hkind]) ?_
      exact (hlinks count l (h.size ▸ hl)).stands hkind fun σ => Subnet.values_of_lt hlt
  | false =>
      cases hout : c.isOutput with
      | true =>
          obtain ⟨l, rest, k, hlist, hk, hr⟩ := (addInstanceCell_output_iff hout).1 hrun
          cases hr
          have hmem : l ∈ c.links := by simp [hlist]
          obtain ⟨k', hk', carries⟩ := h.relink_carries hc hmem (fits l hmem)
          cases hk.symm.trans hk'
          refine h.push_output hc hout (carries.congr fun σ => ?_)
          rw [Subnet.values_of_output hc hout hlist, List.headD_cons]
      | false =>
          have hterm : c.isTerminal = false := Bool.or_eq_false_iff.2 ⟨hinput, hout⟩
          have hge := Subnet.numInputs_le hc hinput
          obtain ⟨operands, place, _, hoperands, hplace, hr⟩ := (addInstanceCell_inner_iff hterm).1 hrun
          cases hr
          obtain ⟨operands', hoperands', carries⟩ := h.exists_operands hc fits
          cases hoperands.symm.trans hoperands'
          have grown := grows_addPositive hterm operands b place b' wf hplace
          refine (h.grown wf grown).push hc hout fun k hk => ?_
          have same : ∀ σ, net.values m (τ σ) count =
              (Cell.mk c.kind operands).portsIn m (b.values m σ) := fun σ => by
            rw [Subnet.values_of_le hge hc, Cell.portsIn, Cell.portsIn, carries.read, List.map_map]
            rfl
          exact (addPositive_stands wf hterm carries.proper hplace k hk).congr fun σ => by
            simp only [same]

end Rebuilt

/-- The links that a copy of a network returns carry the values of its outputs. -/
theorem addInstance_carries (h : WellFormed b) {net : Subnet} {shown : List Link}
    (proper : ∀ l ∈ links, b.Proper l) (fits : ∀ c ∈ net.cells, ∀ l ∈ c.links, l.Fits net.cells)
    (hrun : addInstance net links b = .ok (shown, b')) :
    b'.CarriesAll m shown (net.outputs.map fun o σ =>
      (net.values m (fun j => (links.map (Link.read (b.values m σ))).getD j false) o).headD false) := by
  unfold addInstance at hrun
  split at hrun
  · obtain ⟨⟨places, _⟩, _, hloop, hrun⟩ := build_bind_eq_ok_iff.1 hrun
    cases hrun
    obtain ⟨-, rebuilt⟩ := build_foldlM_invariant (fun done state b₁ => Grown b b₁ ∧
      Rebuilt net m (fun σ j => (links.map (Link.read (b.values m σ))).getD j false) done.length
        state.1 state.2 b₁) ⟨.refl h, rfl, by simp, .nil⟩ (by
        rintro done c rest ⟨places, shown⟩ b₁ ⟨places', shown'⟩ b₂ hcells ⟨grown, rebuilt⟩ hstep
        have hc : net.cells[done.length]? = some c := by
          rw [← Array.getElem?_toList, hcells]
          simp
        refine ⟨grown.trans (grows_addInstanceCell _ _ _ b₁ _ b₂ grown.wellFormed hstep), ?_⟩
        rw [List.length_append, List.length_singleton]
        refine rebuilt.step grown.wellFormed hc (fits c (Array.mem_of_getElem? hc)) (fun j l hl => ?_)
          hstep
        refine ((proper l (List.mem_of_getElem? hl)).carries.grown h grown).congr fun σ => ?_
        simp [List.getD_eq_getElem?_getD, hl]) hloop
    have := rebuilt.carries
    rwa [Array.length_toList, show net.cells.size = net.size from rfl, net.filter_outputs] at this
  · cases hrun

end Builder

end Gatework
