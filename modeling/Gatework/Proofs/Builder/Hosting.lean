import Gatework.Npn.Transform
import Gatework.Proofs.Builder.Depths
import Gatework.Proofs.Builder.Exchange
import Gatework.Proofs.Builder.Request
import Gatework.Proofs.Builder.Width
import Gatework.Proofs.Types

/-!
# Building networks that a store houses

A builder checks the number of operands when it is asked for a cell, folding leaves a composite as it is
and a gate with as many operands as it takes, and copies are made of networks whose cells the store has
types for.  So the store has types for the cells of whatever is built.  A copy may fold cells of a type
that was registered under the symbol of a gate, with bounds of its own; what is left of them keeps to the
bounds of the gate, and `Store.Takes` says no more about it.

* `housed_addCell`, `housed_addOfType`, `housed_addInstance`: the single steps.
* `Request.housed_run`: every request.
* `Shaped.replace` and `Shaped.ofSubnet`: replacements of cones and copies of whole networks.
* `Store.Houses.onSubnet`: a transformed network is housed if the network is.
-/

namespace Gatework

namespace Store

/-- The store has the type of the cells of a kind, and the type takes this many operands, or more than
folding has left. -/
def Takes (store : Store) (kind : CellKind) (arity : Nat) : Prop :=
  ∃ type, store.types[kind.type]? = some type ∧ type.symbol = kind.symbol ∧
    (type.minInputs ≤ arity ∨ 2 ≤ arity ∧ kind.symbol.traits.regroupable = true) ∧
    arity ≤ type.maxInputs

/-- The store has types for all cells of a network. -/
def Houses (store : Store) (net : Subnet) : Prop :=
  ∀ c ∈ net.cells, store.Takes c.kind c.links.length

variable {store store' : Store} {net : Subnet} {g : Gate} {arity : Nat}

lemma takes_of_accepts {type : CellType} {t : Nat} (h : store.types[t]? = some type)
    (accepts : type.accepts arity = true) : store.Takes (type.kindAt t) arity := by
  rw [CellType.accepts, Bool.and_eq_true, decide_eq_true_iff, decide_eq_true_iff] at accepts
  exact ⟨type, h, rfl, .inl accepts.1, accepts.2⟩

lemma Hosts.houses (h : store.Hosts net) : store.Houses net := by
  intro c hc
  obtain ⟨type, admits⟩ := h c hc
  exact admits.kind ▸ takes_of_accepts admits.listed admits.arity

lemma Extends.takes (h : Extends store store') {kind : CellKind} (takes : store.Takes kind arity) :
    store'.Takes kind arity :=
  takes.imp fun _ ⟨listed, rest⟩ => ⟨h.types _ _ listed, rest⟩

lemma Extends.houses (h : Extends store store') (houses : store.Houses net) : store'.Houses net :=
  fun c hc => h.takes (houses c hc)

lemma Extends.takes_gate_iff (gates : Store.empty.Extends store) :
    store.Takes (.ofGate g) arity ↔ g.arity.1 ≤ arity ∧ arity ≤ g.arity.2 := by
  constructor
  · rintro ⟨type, htype, -, low, high⟩
    cases (gates.type_of_gate g).symm.trans htype
    refine ⟨low.elim id fun ⟨two, regroupable⟩ => ?_, high⟩
    rw [(Gate.arity_of_regroupable regroupable).2.2]
    exact two
  · exact fun ⟨low, high⟩ => ⟨_, gates.type_of_gate g, rfl, .inl low, high⟩

end Store

namespace Builder

variable {b b' : Builder} {c : Cell} {kind : CellKind} {links : List Link}

/-! ## Folding -/

/-- Folding leaves a cell as it is, or a gate that takes any number of operands from two on. -/
lemma foldCell_cases {symbol : Symbol} {kept : List Link} {inverted : Bool}
    (h : b.foldCell symbol links = .cell kept inverted) :
    kept = links ∨ 2 ≤ kept.length ∧ symbol.traits.regroupable = true := by
  have two : ∀ kept : List Link, kept ≠ [] → (∀ l, kept ≠ [l]) → 2 ≤ kept.length := by
    intro kept hnil hsingle
    rcases kept with - | ⟨k, - | ⟨l, kept⟩⟩
    · exact absurd rfl hnil
    · exact absurd rfl (hsingle k)
    · simp
  have lattice : ∀ absorbing, foldCell.lattice b absorbing links = .cell kept inverted →
      2 ≤ kept.length := by
    intro absorbing h
    unfold foldCell.lattice at h
    split at h
    · cases h
    · cases h
    · cases h
    · rename_i hnil hsingle _
      cases h
      exact two _ (fun e => hnil (by rw [e])) fun l e => hsingle l (by rw [e])
  unfold foldCell at h
  split at h
  · cases h
  · exact .inr ⟨lattice _ h, rfl⟩
  · exact .inr ⟨lattice _ h, rfl⟩
  · split at h
    · cases h
    · cases h
    · rename_i hnil hsingle hkept
      cases h
      exact .inr ⟨two _ hnil hsingle, rfl⟩
  · cases h
    exact .inl rfl

section Steps

variable {store : Store} (gates : Store.empty.Extends store)

/-- A construction step that adds cells that the store has types for. -/
def KeepsHoused (store : Store) {α : Type} (x : Build α) : Prop := KeepsShaped store.Takes x

lemma composes_housed (store : Store) :
    Composes fun b b' => b.Shaped store.Takes → b'.Shaped store.Takes := composes_shaped _

/-- Folding leaves a number of operands that the type takes. -/
lemma takes_of_simplified (takes : store.Takes kind links.length) {kept : List Link} {inverted : Bool}
    (h : b.simplified kind links = .cell kept inverted) : store.Takes kind kept.length := by
  obtain ⟨type, htype, symbol, low, high⟩ := takes
  have fewer : kept.length ≤ type.maxInputs := (length_simplified_le h).trans high
  unfold simplified at h
  split at h
  · rcases foldCell_cases h with rfl | many
    · exact ⟨type, htype, symbol, low, fewer⟩
    · exact ⟨type, htype, symbol, .inr many, fewer⟩
  · cases h
    exact ⟨type, htype, symbol, low, fewer⟩

include gates

lemma takes_const (value : Bool) : store.Takes (.ofGate (.ofBool value)) 0 :=
  gates.takes_gate_iff.2 (by cases value <;> decide)

/-! ## Steps -/

lemma housed_addPositive (takes : store.Takes kind links.length) :
    KeepsHoused store (addPositive kind links) :=
  shaped_addPositive (takes_const gates) fun _ _ _ h => takes_of_simplified takes h

/-- A gate is added only if it takes the operands. -/
theorem housed_addCell (symbol : Symbol) (links : List Link) :
    KeepsHoused store (addCell symbol links) := by
  rintro b l b' hrun
  obtain ⟨g, k, rfl, -, -, arity, hk, rfl⟩ := addCell_eq_ok_iff.1 hrun
  have positive : g.positive.1.arity = g.arity := by cases g <;> rfl
  exact housed_addPositive gates (gates.takes_gate_iff.2 (positive ▸ arity)) b k b' hk

/-- A cell of a registered type is added only if the type takes the operands. -/
theorem housed_addOfType (type : Nat) (links : List Link) :
    KeepsHoused store (addOfType store type links) := by
  rintro b l b' hrun
  obtain ⟨t, ht, ⟨g, -, hcell⟩ | ⟨-, accepts, hcell⟩⟩ := addOfType_eq_ok_iff.1 hrun
  · exact housed_addCell gates _ links b l b' hcell
  · exact housed_addPositive gates (Store.takes_of_accepts ht accepts) b l b' hcell

lemma housed_addConst (value : Bool) : KeepsHoused store (addConst value) :=
  housed_addPositive gates (takes_const gates value)

lemma takes_input : store.Takes (.ofGate .input) 0 := gates.takes_gate_iff.2 (by decide)

lemma takes_output : store.Takes (.ofGate .output) 1 := gates.takes_gate_iff.2 (by decide)

lemma housed_addInput : KeepsHoused store addInput := shaped_addInput (takes_input gates)

lemma housed_addInputs (count : Nat) : KeepsHoused store (addInputs count) :=
  shaped_addInputs (takes_input gates) count

lemma housed_addOutput (l : Link) : KeepsHoused store (addOutput l) :=
  shaped_addOutput (takes_output gates) l

/-- A copy of a network that the store houses is housed. -/
theorem housed_addInstance {net : Subnet} (houses : store.Houses net) (links : List Link) :
    KeepsHoused store (addInstance net links) := by
  refine (composes_housed store).addInstance (fun c hc _ operands hlength => ?_) links
  exact housed_addPositive gates (hlength ▸ houses c hc)

/-- Whatever is asked for, if copies are made of networks that the store houses. -/
theorem Request.housed_run (r : Request) (copied : ∀ net ls, r = .copy net ls → store.Houses net) :
    KeepsHoused store (r.run store) := by
  have composes := composes_housed store
  cases r with
  | gate symbol links => exact composes.bind (housed_addCell gates symbol links) fun _ => composes.pure _
  | ofType type links => exact composes.bind (housed_addOfType gates type links) fun _ => composes.pure _
  | const value => exact composes.bind (housed_addConst gates value) fun _ => composes.pure _
  | tree symbol links maxArity =>
      exact composes.bind (composes.addTree (fun group _ => housed_addCell gates symbol group)
        (housed_addConst gates) links) fun _ => composes.pure _
  | copy net links => exact housed_addInstance gates (copied net links rfl) links

/-! ## Whole networks -/

/-- A network that was put into a builder is still housed there. -/
lemma Shaped.ofSubnet {net : Subnet} (houses : store.Houses net) (hrun : ofSubnet net = .ok b) :
    b.Shaped store.Takes := by
  obtain ⟨⟨⟨⟩, _⟩, hrun, hb⟩ := bind_eq_ok_iff.1 hrun
  cases hb
  have cells : ∀ c ∈ net.cells, KeepsHoused store (copyCell c) := by
    intro c hc
    unfold copyCell
    split
    · exact (housed_addInput gates).discard
    · split
      · split
        · exact (housed_addOutput gates _).discard
        · exact relates_throw _
      · rintro b _ b' hrun h
        cases hrun
        exact h.push (houses c hc) (cells_append b c)
  have start : (Builder.empty {}).Shaped store.Takes := by simp [Shaped, Builder.empty]
  exact (composes_housed store).forM (fun c hc => cells c (Array.mem_toList_iff.1 hc)) _ _ _ hrun start

end Steps

/-! ## Replacements -/

@[simp] lemma cells_collect (b : Builder) (waiting : List Nat) : (b.collect waiting).cells = b.cells := by
  fun_induction b.collect waiting with
  | case1 b => rfl
  | case2 b id waiting _ ih => rw [ih, remove_eq]; rfl
  | case3 b id waiting _ ih => exact ih

lemma cells_rewriteCell (b : Builder) (root : Nat) (c : Cell) :
    (b.rewriteCell root c).cells = b.cells.setIfInBounds root c := by
  show ((b.exchange root c).collect _).cells = _
  rw [cells_collect, exchange_eq]

section Replacement

variable {P : CellKind → Nat → Prop}

lemma Shaped.rewriteCell (h : b.Shaped P) (hc : P c.kind c.links.length) (root : Nat) :
    (b.rewriteCell root c).Shaped P := by
  intro e he
  rw [cells_rewriteCell] at he
  rcases Array.mem_or_eq_of_mem_setIfInBounds he with he | rfl
  · exact h e he
  · exact hc

lemma Shaped.updateDepths (h : b.Shaped P) {root : Nat} (hrun : b.updateDepths root = .ok b') :
    b'.Shaped P := by
  obtain ⟨depths, -, rfl⟩ := exists_of_updateDepths hrun
  exact h

/-- One cell of a replacement is copied, or kept for the root. -/
lemma Shaped.replaceCell {r : Replacement} {rootPosition : Option Nat}
    {state state' : Builder × Array Link × Option Cell} {x : Cell × Nat}
    (h : state.1.Shaped P ∧ ∀ c, state.2.2 = some c → P c.kind c.links.length)
    (hx : P x.1.kind x.1.links.length)
    (step : Builder.replaceCell r rootPosition state x = .ok state') :
    state'.1.Shaped P ∧ ∀ c, state'.2.2 = some c → P c.kind c.links.length := by
  obtain ⟨b, places, rootCell⟩ := state
  obtain ⟨links, hlinks, step⟩ := bind_eq_ok_iff.1 step
  have copy : P x.1.kind links.length := (mapM_eq_ok_iff.1 hlinks).length_eq ▸ hx
  dsimp only at step
  split at step
  · cases step
    refine ⟨h.1, fun c hc => ?_⟩
    cases hc
    exact copy
  · cases step
    exact ⟨h.1.push (c := { x.1 with links }) copy (congrArg Builder.cells (offer_eq ..)), h.2⟩

/-- The cells of a replacement are those of the replacing network and at most one buffer. -/
theorem Shaped.replace {r : Replacement} (h : b.Shaped P)
    (hnet : ∀ c ∈ r.net.cells, P c.kind c.links.length) (hbuf : P (.ofGate .buf) 1)
    (hrun : b.replace r = .ok b') : b'.Shaped P := by
  obtain ⟨⟨⟩, -, hrun⟩ := bind_eq_ok_iff.1 hrun
  obtain ⟨shown, -, hrun⟩ := bind_eq_ok_iff.1 hrun
  obtain ⟨⟨b₁, places, rootCell⟩, hcopy, hrun⟩ := bind_eq_ok_iff.1 hrun
  have copied : b₁.Shaped P ∧ ∀ c, rootCell = some c → P c.kind c.links.length := by
    refine foldlM_invariant (fun s : Builder × Array Link × Option Cell =>
      s.1.Shaped P ∧ ∀ c, s.2.2 = some c → P c.kind c.links.length) ⟨h, by simp⟩ ?_ hcopy
    intro x hx s s' hs hstep
    have hmem : x.1 ∈ r.net.cells.toList :=
      List.fst_mem_of_mem_zipIdx (List.mem_of_mem_take (List.mem_of_mem_drop hx))
    exact Shaped.replaceCell hs (hnet x.1 (Array.mem_toList_iff.1 hmem)) hstep
  dsimp only at hrun
  split at hrun
  · exact (copied.1.rewriteCell (copied.2 _ rfl) _).updateDepths hrun
  · obtain ⟨l, -, hrun⟩ := bind_eq_ok_iff.1 hrun
    exact (copied.1.rewriteCell (c := ⟨.ofGate .buf, [l]⟩) hbuf _).updateDepths hrun

end Replacement

end Builder

open Builder

/-- A transformed network is housed if the network is. -/
theorem Store.Houses.onSubnet {store : Store} {net net' : Subnet} (h : store.Houses net)
    (gates : Store.empty.Extends store) {t : Transform} (run : t.onSubnet net = .ok net') :
    store.Houses net' := by
  unfold Transform.onSubnet at run
  split at run
  · cases run
  split at run
  · cases run
  split at run
  swap
  · cases run
  have composes := composes_housed store
  refine shaped_toSubnet (composes.bind (housed_addInputs gates _) fun inputs => ?_) run
  refine composes.bind (housed_addInstance gates h _) fun shown => ?_
  split
  · exact (housed_addOutput gates _).discard
  · exact relates_throw _

end Gatework
