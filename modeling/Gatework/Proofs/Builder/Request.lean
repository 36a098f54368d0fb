import Gatework.Proofs.Builder.Carrying
import Gatework.Proofs.Builder.Invariant

/-!
# Requests keep their meaning

A `Request` is one call that adds to a builder: a gate, a cell of a registered type, a constant, a tree
of a gate, or a copy of a network.  `Request.values` is what is asked for, whatever the options of the
builder are and whatever cells it holds already.

**Main statement.** `Request.run_meaning`: a request that is met returns links with the values that were
asked for, and leaves the values of all other entries alone.  It rests on the `Carries` of the single
steps and on `Grown.values_eq`.
-/

namespace Gatework

namespace Builder

/-- What a builder can be asked to add. -/
inductive Request where
  | gate (symbol : Symbol) (links : List Link)
  | ofType (type : Nat) (links : List Link)
  | const (value : Bool)
  | tree (symbol : Symbol) (links : List Link) (maxArity : Nat)
  | copy (net : Subnet) (links : List Link)

namespace Request

/-- The operands of a request. -/
def links : Request → List Link
  | gate _ links | ofType _ links | tree _ links _ | copy _ links => links
  | const _ => []

/-- The construction step that a request asks for. -/
def run (store : Store) : Request → Build (List Link)
  | gate symbol links => return [← addCell symbol links]
  | ofType type links => return [← addOfType store type links]
  | const value => return [← addConst value]
  | tree symbol links maxArity => return [← addTree symbol links maxArity]
  | copy net links => addInstance net links

/-- The values that a request asks for, when its operands have the given values: those of a gate, of the
first output of the network that implements a composite, or of the outputs of a network. -/
def values (store : Store) (operands : List Bool) : Request → List Bool
  | gate symbol _ | tree symbol _ _ => [symbol.value operands]
  | ofType type _ =>
      match store.types[type]? with
      | some t =>
          match t.symbol with
          | .gate g => [g.value operands]
          | .cell => [(store.ports type operands).headD false]
      | none => []
  | const value => [value]
  | copy net _ => net.outputValues store.ports fun j => operands.getD j false

/-- The composite that a request adds, if it is one. -/
def composite? (store : Store) : Request → Option Nat
  | ofType type _ => if (store.types[type]?).map (·.symbol) = some .cell then some type else none
  | _ => none

/-- The operands of a request may be read, and neither they nor the links inside of a network that is
copied read a second port of a gate. -/
structure Proper (r : Request) (b : Builder) : Prop where
  links : ∀ l ∈ r.links, b.Proper l
  inside : ∀ net ls, r = .copy net ls → ∀ c ∈ net.cells, ∀ l ∈ c.links, l.Fits net.cells

end Request

variable {store : Store} {b b' : Builder} {m : Meaning} {links ls : List Link} {l : Link}
  {r : Request}

/-- The link to a new cell of a registered type carries the value of the gate or of the composite. -/
theorem addOfType_carries (h : WellFormed b) {type : Nat} (proper : ∀ l ∈ links, b.Proper l)
    (hrun : addOfType store type links b = .ok (l, b')) :
    ∃ f, b'.Carries store.ports l f ∧ ∀ σ, [f σ] = (Request.ofType type links).values store
      (links.map (Link.read (b.values store.ports σ))) := by
  obtain ⟨t, ht, ⟨g, hsymbol, hcell⟩ | ⟨hsymbol, -, hcell⟩⟩ := addOfType_eq_ok_iff.1 hrun
  · refine ⟨_, addCell_carries h proper hcell, fun σ => ?_⟩
    simp [Request.values, ht, hsymbol, Symbol.value]
  · refine ⟨_, addPositive_carries h (isTerminal_kindAt hsymbol) proper hcell, fun σ => ?_⟩
    simp [Request.values, ht, hsymbol, Cell.portsIn, Cell.ports, CellType.kindAt]

/-- The link to a new composite gives access to all of its ports. -/
theorem addOfType_stands (h : WellFormed b) {type : Nat} (proper : ∀ l ∈ links, b.Proper l)
    (hsymbol : (store.types[type]?).map (·.symbol) = some .cell)
    (hrun : addOfType store type links b = .ok (l, b')) :
    b'.Stands m ⟨.cell, type⟩ l fun σ => m type (links.map (Link.read (b.values m σ))) := by
  obtain ⟨t, ht, ⟨g, hgate, -⟩ | ⟨hcomposite, -, hcell⟩⟩ := addOfType_eq_ok_iff.1 hrun
  · simp [ht, hgate] at hsymbol
  · have stands := addPositive_stands (m := m) h (isTerminal_kindAt hcomposite) proper hcell
    rwa [CellType.kindAt, hcomposite] at stands

namespace Request

/-- A request for one link. -/
lemma eq_singleton_of_run {x : Build Link} (hrun : (do return [← x] : Build (List Link)) b = .ok (ls, b')) :
    ∃ l, x b = .ok (l, b') ∧ ls = [l] := by
  obtain ⟨l, _, hl, hrun⟩ := build_bind_eq_ok_iff.1 hrun
  cases hrun
  exact ⟨l, hl, rfl⟩

/-- A request comes down to single cells. -/
lemma relates_run {R : Builder → Builder → Prop} (h : Cellwise R) (store : Store) (r : Request) :
    Relates R (r.run store) := by
  have single : ∀ {x : Build Link}, Relates R x → Relates R (do return [← x] : Build (List Link)) :=
    fun hx => h.bind hx fun _ => h.pure _
  cases r with
  | gate symbol links => exact single (h.addCell symbol links)
  | ofType type links => exact single (h.addOfType store type links)
  | const value => exact single (h.addConst value)
  | tree symbol links maxArity => exact single (h.addTree symbol links maxArity)
  | copy net links => exact h.addInstance net links

/-- A request only adds inner cells. -/
lemma grows_run (store : Store) (r : Request) : Grows (r.run store) :=
  grows_iff.2 (relates_run cellwise_grown store r)

/-- The links that a request returns carry the values that it asks for. -/
lemma run_carries (h : WellFormed b) (proper : r.Proper b) (hrun : r.run store b = .ok (ls, b')) :
    ∃ fs, b'.CarriesAll store.ports ls fs ∧
      ∀ σ, fs.map (· σ) = r.values store (r.links.map (Link.read (b.values store.ports σ))) := by
  cases r with
  | gate symbol links =>
      obtain ⟨l, hl, rfl⟩ := eq_singleton_of_run hrun
      exact ⟨[_], .cons (addCell_carries h proper.links hl) .nil, fun σ => rfl⟩
  | ofType type links =>
      obtain ⟨l, hl, rfl⟩ := eq_singleton_of_run hrun
      obtain ⟨f, carries, values⟩ := addOfType_carries h proper.links hl
      exact ⟨[f], .cons carries .nil, values⟩
  | const value =>
      obtain ⟨l, hl, rfl⟩ := eq_singleton_of_run hrun
      exact ⟨[_], .cons (addConst_carries h hl) .nil, fun σ => rfl⟩
  | tree symbol links maxArity =>
      obtain ⟨l, hl, rfl⟩ := eq_singleton_of_run hrun
      exact ⟨[_], .cons (addTree_carries h proper.links hl) .nil, fun σ => rfl⟩
  | copy net links =>
      refine ⟨_, addInstance_carries h proper.links (proper.inside net links rfl) hrun, fun σ => ?_⟩
      rw [List.map_map]
      rfl

/-- The link that a request for a composite returns stands for it. -/
lemma run_stands (h : WellFormed b) (proper : r.Proper b) {type : Nat}
    (composite : r.composite? store = some type) (hrun : r.run store b = .ok (ls, b')) :
    ∀ l ∈ ls, b'.Stands store.ports ⟨.cell, type⟩ l
      fun σ => store.ports type (r.links.map (Link.read (b.values store.ports σ))) := by
  cases r with
  | gate symbol links => exact absurd composite nofun
  | const value => exact absurd composite nofun
  | tree symbol links maxArity => exact absurd composite nofun
  | copy net links => exact absurd composite nofun
  | ofType t links =>
      simp only [composite?, Option.ite_none_right_eq_some, Option.some.injEq] at composite
      obtain ⟨hsymbol, rfl⟩ := composite
      obtain ⟨l, hl, rfl⟩ := eq_singleton_of_run hrun
      rw [List.forall_mem_singleton]
      exact addOfType_stands h proper.links hsymbol hl

/-- Whatever a builder simplifies and shares, the links that it returns have the values that were asked
for, a composite on all of its ports, and all entries that were there keep their values. -/
theorem run_meaning (h : WellFormed b) (proper : r.Proper b)
    (hrun : r.run store b = .ok (ls, b')) :
    WellFormed b' ∧ b'.inputs = b.inputs ∧ (∀ l ∈ ls, b'.Proper l) ∧
      (∀ σ, ls.map (Link.read (b'.values store.ports σ)) =
        r.values store (r.links.map (Link.read (b.values store.ports σ)))) ∧
      (∀ type, r.composite? store = some type → ∀ l ∈ ls, b'.Stands store.ports ⟨.cell, type⟩ l
        fun σ => store.ports type (r.links.map (Link.read (b.values store.ports σ)))) ∧
      ∀ id ∈ b.order, id ∈ b'.order ∧
        ∀ σ, b'.values store.ports σ id = b.values store.ports σ id := by
  have grown : Grown b b' := grows_run store r b ls b' h hrun
  obtain ⟨fs, carries, values⟩ := run_carries h proper hrun
  refine ⟨grown.wellFormed, grown.inputs, carries.proper, fun σ => ?_,
    fun type composite => run_stands h proper composite hrun,
    fun id hid => ⟨grown.mem_order h hid, fun σ => grown.values_eq h hid⟩⟩
  rw [carries.read σ, values σ]

end Request

/-! ## A half adder that is shared -/

/-- Two inputs of a builder that simplifies and shares. -/
def wires : Builder :=
  match (addInputs 2).run (.empty .simplifying) with
  | .ok (_, b) => b
  | .error _ => .empty {}

/-- The half adder of the two inputs as one cell. -/
def halfCell : Cell := ⟨⟨.cell, 13⟩, [.of 0, .of 1]⟩

/-- The builder with the half adder. -/
def sharedHalf : Builder := (wires.append halfCell).2

/-- The carry of the half adder and one of its operands, with the carry twice. -/
def carryTwice : Request :=
  .gate (.gate .nand) [{ entry := 2, port := 1 }, .of 0, { entry := 2, port := 1 }]

lemma reachable_wires : Reachable wires := .addInput (.addInput (.empty .simplifying) rfl) rfl

lemma inputs_wires : wires.inputs = [0, 1] := by cbv

lemma readable_wires : ∀ l ∈ halfCell.links, wires.Readable l := by
  intro l hl
  rw [Readable, inputs_wires]
  refine List.mem_append_left _ ?_
  revert l
  decide

lemma grown_sharedHalf : Grown wires sharedHalf ∧ sharedHalf.inner = wires.inner ++ [2] ∧
    sharedHalf.cells = wires.cells.push halfCell :=
  (reachable_wires.wellFormed.append (c := halfCell) rfl readable_wires).2

lemma proper_carryTwice : carryTwice.Proper sharedHalf := by
  obtain ⟨grown, inner, cells⟩ := grown_sharedHalf
  have zero : sharedHalf.Proper (.of 0) :=
    ⟨(readable_wires (.of 0) (by decide)).grown grown, fun _ _ _ _ => rfl⟩
  have carry : sharedHalf.Proper { entry := 2, port := 1 } := by
    refine ⟨List.mem_append_right _ (by simp [inner]), fun c g hc hg => ?_⟩
    have hcell : sharedHalf.cells[2]? = some halfCell := by rw [cells]; rfl
    cases hcell.symm.trans hc
    cases hg
  refine ⟨fun l hl => ?_, fun net ls h => nomatch h⟩
  have hl : l = { entry := 2, port := 1 } ∨ l = .of 0 ∨ l = { entry := 2, port := 1 } := by
    simpa [carryTwice, Request.links] using hl
  rcases hl with rfl | rfl | rfl
  · exact carry
  · exact zero
  · exact carry

lemma ports_half (x y : Bool) : halfStore.ports 13 [x, y] = [x ^^ y, x && y] := by
  rw [Store.ports, @Store.portsBelow_eq halfStore _ 0 13 halfAdder (by with_unfolding_all rfl)
    (by with_unfolding_all decide) (by with_unfolding_all rfl)]
  cases x <;> cases y <;> cbv

/-- The values of the operands: the carry, the first input, and the carry again. -/
lemma read_carryTwice (σ : Nat → Bool) :
    carryTwice.links.map (Link.read (sharedHalf.values halfStore.ports σ)) =
      [σ 0 && σ 1, σ 0, σ 0 && σ 1] := by
  have wf := reachable_wires.wellFormed
  have input : ∀ i ∈ [0, 1], wires.values halfStore.ports σ i = [σ i] := by
    intro i hi
    rw [wf.layout.values_of_input (inputs_wires ▸ hi), inputs_wires]
    revert i
    simp
  have zero : sharedHalf.values halfStore.ports σ 0 = [σ 0] := by
    rw [grown_sharedHalf.1.values_eq wf, input 0 (by decide)]
    exact wf.layout.mem_order.2 (.inl (inputs_wires ▸ by decide))
  have half : sharedHalf.values halfStore.ports σ 2 = [σ 0 ^^ σ 1, σ 0 && σ 1] := by
    rw [← ports_half]
    refine (wf.values_append (c := halfCell) rfl readable_wires σ).trans ?_
    simp [Cell.portsIn, Cell.ports, halfCell, Link.read, Link.of, input]
  simp [carryTwice, Request.links, Link.read, Link.of, zero, half]

/-- The repeated operand is left out, and the complement goes onto the link. -/
theorem Request.run_meaning_carryTwice :
    ∃ ls b', carryTwice.run halfStore sharedHalf = .ok (ls, b') ∧ WellFormed b' ∧
      ∀ σ, ls.map (Link.read (b'.values halfStore.ports σ)) = [!(σ 0 && σ 1)] := by
  have wf : WellFormed sharedHalf := grown_sharedHalf.1.wellFormed
  have hrun : addCell (.gate .nand) carryTwice.links sharedHalf = .ok _ := addCell_eq_ok_iff.2
    ⟨.nand, _, rfl, by decide, by decide, by decide,
      wf.addPositive_eq_ok_iff.2 ⟨fun l hl => (proper_carryTwice.links l hl).readable,
        reducible_of_ne_nil (by decide), rfl⟩, rfl⟩
  have hrun : carryTwice.run halfStore sharedHalf = .ok _ :=
    build_bind_eq_ok_iff.2 ⟨_, _, hrun, rfl⟩
  obtain ⟨wf', -, -, meaning, -⟩ := Request.run_meaning wf proper_carryTwice hrun
  refine ⟨_, _, hrun, wf', fun σ => ?_⟩
  rw [meaning σ, read_carryTwice]
  cases σ 0 <;> cases σ 1 <;> rfl

end Builder

end Gatework
