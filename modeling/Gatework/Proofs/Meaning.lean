import Gatework.Evaluation
import Gatework.Proofs.Signal
import Gatework.Proofs.Subnet

/-!
# What the cells of a store compute

A composite computes what the subnet that implements it computes, which may use composites in turn.
The positions of the implementations fall, so `Store.ports` is defined by recursion on a bound for
them.

`Store.Evaluable` says when a network can be evaluated at all: every composite in it, at any depth, has
an implementation with as many inputs as the cell has links and at least one output, no link reads a
port that its driver does not have, and a gate that shows its first operand has one.

**Main statement.** `Store.Extends.values_eq`: what an evaluable network computes does not change when
the store grows.
-/

namespace Gatework

namespace Store

/-- The position of the subnet that implements a type of cells. -/
def implementation? (store : Store) (type : Nat) : Option Nat :=
  (store.types[type]?).bind (·.implementation)

/-- What the composites compute whose implementations are at positions below `limit`. -/
def portsBelow (store : Store) (limit : Nat) : Meaning := fun type operands =>
  match store.implementation? type with
  | none => []
  | some i =>
      if _h : i < limit then
        match store.subnets[i]? with
        | none => []
        | some net => net.outputValues (portsBelow store i) fun j => operands.getD j false
      else []
termination_by limit

/-- What the composites of a store compute. -/
def ports (store : Store) : Meaning := store.portsBelow store.subnets.size

/-- The number of ports of a kind of cells. -/
def numPorts (store : Store) (kind : CellKind) : Nat :=
  match kind.symbol with
  | .gate _ => 1
  | .cell => ((store.implementation? kind.type).bind fun i => store.subnets[i]?).elim 0 (·.numOutputs)

lemma numPorts_gate {store : Store} {kind : CellKind} {g : Gate} (h : kind.symbol = .gate g) :
    store.numPorts kind = 1 := by
  rw [numPorts, h]

lemma numPorts_of_isInput {store : Store} {c : Cell} (h : c.isInput = true) :
    store.numPorts c.kind = 1 := numPorts_gate (beq_iff_eq.1 h)

lemma numPorts_composite {store : Store} {kind : CellKind} (h : kind.symbol = .cell) :
    store.numPorts kind =
      ((store.implementation? kind.type).bind fun i => store.subnets[i]?).elim 0 (·.numOutputs) := by
  rw [numPorts, h]

/-- The links of a cell read ports that their drivers have. -/
def InRange (store : Store) (cells : Array Cell) (c : Cell) : Prop :=
  ∀ l ∈ c.links, ∀ d, cells[l.entry]? = some d → l.port.toNat < store.numPorts d.kind

/-- A cell can be evaluated with implementations at positions below `limit`. -/
def EvaluableBelow (store : Store) (limit : Nat) (c : Cell) : Prop :=
  match c.kind.symbol with
  | .gate g => g.isUnary = true → c.links ≠ []
  | .cell => ∃ i net, store.implementation? c.kind.type = some i ∧ store.subnets[i]? = some net ∧
      net.numInputs = c.links.length ∧ 0 < net.numOutputs ∧ ∃ _h : i < limit,
      ∀ (j : Nat) e, net.cells[j]? = some e → e.isInput = false →
        EvaluableBelow store i e ∧ store.InRange net.cells e
termination_by limit

/-- A network can be evaluated with implementations at positions below `limit`. -/
def NetBelow (store : Store) (limit : Nat) (net : Subnet) : Prop :=
  ∀ (j : Nat) e, net.cells[j]? = some e → e.isInput = false →
    store.EvaluableBelow limit e ∧ store.InRange net.cells e

/-- A network can be evaluated. -/
def Evaluable (store : Store) (net : Subnet) : Prop := store.NetBelow store.subnets.size net

section Below

variable {store : Store} {limit limit' i t : Nat} {strict : Prop} {net : Subnet} {c : Cell}

lemma portsBelow_eq (himpl : store.implementation? t = some i) (hi : i < limit)
    (hnet : store.subnets[i]? = some net) (operands : List Bool) :
    store.portsBelow limit t operands =
      net.outputValues (store.portsBelow i) fun j => operands.getD j false := by
  rw [portsBelow]
  simp only [himpl, dif_pos hi, hnet]

lemma evaluableBelow_gate {g : Gate} (hkind : c.kind.symbol = .gate g) :
    store.EvaluableBelow limit c ↔ (g.isUnary = true → c.links ≠ []) := by
  rw [EvaluableBelow, hkind]

lemma evaluableBelow_composite (hkind : c.kind.symbol = .cell) :
    store.EvaluableBelow limit c ↔ ∃ i net, store.implementation? c.kind.type = some i ∧
      store.subnets[i]? = some net ∧ net.numInputs = c.links.length ∧ 0 < net.numOutputs ∧
      i < limit ∧ store.NetBelow i net := by
  rw [EvaluableBelow, hkind]
  simp only [exists_prop, NetBelow]

/-- Only the kind and the number of operands matter. -/
lemma EvaluableBelow.congr {c' : Cell} (h : store.EvaluableBelow limit c) (hkind : c'.kind = c.kind)
    (hlength : c'.links.length = c.links.length) : store.EvaluableBelow limit c' := by
  cases hc : c.kind.symbol with
  | gate g =>
      refine (evaluableBelow_gate (hkind ▸ hc)).2 fun hu => ?_
      have := (evaluableBelow_gate hc).1 h hu
      exact List.ne_nil_of_length_pos (hlength ▸ List.length_pos_of_ne_nil this)
  | cell =>
      rw [evaluableBelow_composite (hkind ▸ hc), hkind, hlength]
      exact (evaluableBelow_composite hc).1 h

lemma EvaluableBelow.mono (h : store.EvaluableBelow limit c) (hle : limit ≤ limit') :
    store.EvaluableBelow limit' c := by
  cases hkind : c.kind.symbol with
  | gate g => exact (evaluableBelow_gate hkind).2 ((evaluableBelow_gate hkind).1 h)
  | cell =>
      obtain ⟨i, net, himpl, hnet, hin, hout, hi, hbelow⟩ := (evaluableBelow_composite hkind).1 h
      exact (evaluableBelow_composite hkind).2
        ⟨i, net, himpl, hnet, hin, hout, hi.trans_le hle, hbelow⟩

/-- An evaluable cell has a port. -/
lemma EvaluableBelow.numPorts_pos (h : store.EvaluableBelow limit c) :
    0 < store.numPorts c.kind := by
  cases hkind : c.kind.symbol with
  | gate g => exact (numPorts_gate hkind).symm ▸ Nat.one_pos
  | cell =>
      obtain ⟨i, net, himpl, hnet, -, hout, -⟩ := (evaluableBelow_composite hkind).1 h
      simpa [numPorts_composite hkind, himpl, hnet] using hout

/-- Where all links read the first port and all cells can be evaluated, the network can be. -/
lemma evaluable_of_port_zero (cells : ∀ c ∈ net.cells, c.isInput = false →
      store.EvaluableBelow store.subnets.size c)
    (ports : ∀ c ∈ net.cells, ∀ l ∈ c.links, l.port = 0) : store.Evaluable net := by
  intro j c hc hinput
  have hmem := Array.mem_of_getElem? hc
  refine ⟨cells c hmem hinput, fun l hl d hd => ?_⟩
  rw [ports c hmem l hl]
  by_cases hd' : d.isInput = true
  · rw [numPorts_of_isInput hd']
    exact Nat.one_pos
  · exact (cells d (Array.mem_of_getElem? hd) (Bool.eq_false_iff.2 hd')).numPorts_pos

/-- A cell reads first ports only and can be evaluated.  In the strict sense it has no operands if it is
a constant. -/
structure Regular (store : Store) (strict : Prop) (c : Cell) : Prop where
  port : ∀ l ∈ c.links, l.port = 0
  evaluable : c.isInput = false → store.EvaluableBelow store.subnets.size c
  constant : strict → c.isConst = true → c.links = []

/-- What is regular in one sense is so in every weaker one. -/
lemma Regular.mono {strict' : Prop} (h : store.Regular strict c) (weaker : strict' → strict) :
    store.Regular strict' c :=
  ⟨h.port, h.evaluable, fun hs => h.constant (weaker hs)⟩

lemma evaluable_of_regular (h : ∀ c ∈ net.cells, store.Regular strict c) : store.Evaluable net :=
  evaluable_of_port_zero (fun c hc => (h c hc).evaluable) fun c hc => (h c hc).port

lemma regular_input : store.Regular strict .input :=
  ⟨by simp [Cell.input], fun h => absurd h (by decide), fun _ _ => rfl⟩

lemma regular_output {l : Link} (hport : l.port = 0) : store.Regular strict (.output l) :=
  ⟨by simpa [Cell.output] using hport, fun _ =>
    (evaluableBelow_gate rfl).2 fun _ => by simp [Cell.output], fun _ h => nomatch h⟩

lemma regular_const (value : Bool) : store.Regular strict ⟨.ofGate (.ofBool value), []⟩ :=
  ⟨by simp, fun _ => (evaluableBelow_gate rfl).2 (by cases value <;> exact nofun), fun _ _ => rfl⟩

/-- An evaluable cell computes the same with any large enough bound. -/
lemma EvaluableBelow.ports_eq (h : store.EvaluableBelow limit c) (hle : limit ≤ limit')
    (operands : List Bool) :
    c.ports (store.portsBelow limit) operands = c.ports (store.portsBelow limit') operands := by
  cases hkind : c.kind.symbol with
  | gate g => simp only [Cell.ports, hkind]
  | cell =>
      obtain ⟨i, net, himpl, hnet, -, -, hi, -⟩ := (evaluableBelow_composite hkind).1 h
      simp only [Cell.ports, hkind, portsBelow_eq himpl hi hnet,
        portsBelow_eq himpl (hi.trans_le hle) hnet]

end Below

/-! ## Growing stores -/

/-- The second store has all cell types and subnets of the first at the same positions. -/
structure Extends (store store' : Store) : Prop where
  types : ∀ (i : Nat) t, store.types[i]? = some t → store'.types[i]? = some t
  subnets : ∀ (i : Nat) net, store.subnets[i]? = some net → store'.subnets[i]? = some net

@[simp] lemma types_intern (store : Store) (text : String) :
    (store.intern text).1.types = store.types := by
  unfold intern
  split <;> rfl

@[simp] lemma subnets_intern (store : Store) (text : String) :
    (store.intern text).1.subnets = store.subnets := by
  unfold intern
  split <;> rfl

@[simp] lemma types_addType (store : Store) (type : CellType) :
    (store.addType type).1.types = store.types.push type := by
  rw [addType, types_registerType, types_intern]

@[simp] lemma subnets_addType (store : Store) (type : CellType) :
    (store.addType type).1.subnets = store.subnets := by
  rw [addType, subnets_registerType, subnets_intern]

/-- A new type is found at its position. -/
lemma getElem?_addType (store : Store) (type : CellType) :
    (store.addType type).1.types[(store.addType type).2]? = some type := by
  simp [addType]

namespace Extends

variable {store store' store'' : Store} {limit : Nat} {strict : Prop} {net : Subnet} {c : Cell}

lemma refl (store : Store) : Extends store store := ⟨fun _ _ h => h, fun _ _ h => h⟩

lemma trans (h : Extends store store') (h' : Extends store' store'') : Extends store store'' :=
  ⟨fun i t ht => h'.types i t (h.types i t ht), fun i net hn => h'.subnets i net (h.subnets i net hn)⟩

lemma addSubnet (store : Store) (net : Subnet) : Extends store (store.addSubnet net).1 where
  types _ _ h := h
  subnets i e h := by
    have hi := Arena.lt_size_of_getElem? h
    simpa [Store.addSubnet, Arena.getElem?_push, hi.ne] using h

lemma addType (store : Store) (type : CellType) : Extends store (store.addType type).1 where
  types i t h := by
    have hi := Arena.lt_size_of_getElem? h
    rw [types_addType, Arena.getElem?_push_lt hi, h]
  subnets i e h := by rwa [subnets_addType]

lemma size_le (h : Extends store store') : store.subnets.size ≤ store'.subnets.size := by
  by_contra hlt
  have hlt := Nat.not_le.1 hlt
  exact lt_irrefl _ (Arena.lt_size_of_getElem? (h.subnets _ _ (Arena.getElem?_eq_getElem hlt)))

lemma implementation? (h : Extends store store') {t i : Nat}
    (himpl : store.implementation? t = some i) : store'.implementation? t = some i := by
  obtain ⟨type, htype, hi⟩ := Option.bind_eq_some_iff.1 himpl
  rw [Store.implementation?, h.types t type htype]
  exact hi

lemma numPorts_le (h : Extends store store') (kind : CellKind) :
    store.numPorts kind ≤ store'.numPorts kind := by
  cases hkind : kind.symbol with
  | gate g => rw [numPorts_gate hkind, numPorts_gate hkind]
  | cell =>
      rw [numPorts_composite hkind, numPorts_composite hkind]
      cases hi : (store.implementation? kind.type).bind fun i => store.subnets[i]? with
      | none => exact Nat.zero_le _
      | some net =>
          obtain ⟨i, himpl, hnet⟩ := Option.bind_eq_some_iff.1 hi
          simp [h.implementation? himpl, h.subnets i net hnet]

lemma inRange (h : Extends store store') {cells : Array Cell} (hc : store.InRange cells c) :
    store'.InRange cells c :=
  fun l hl d hd => (hc l hl d hd).trans_le (h.numPorts_le d.kind)

/-- What can be evaluated can be evaluated in a larger store. -/
lemma evaluableBelow (h : Extends store store') (hc : store.EvaluableBelow limit c) :
    store'.EvaluableBelow limit c := by
  induction limit using Nat.strong_induction_on generalizing c with
  | _ limit ih =>
      cases hkind : c.kind.symbol with
      | gate g => exact (evaluableBelow_gate hkind).2 ((evaluableBelow_gate hkind).1 hc)
      | cell =>
          obtain ⟨i, net, himpl, hnet, hin, hout, hi, hbelow⟩ :=
            (evaluableBelow_composite hkind).1 hc
          refine (evaluableBelow_composite hkind).2 ⟨i, net, h.implementation? himpl,
            h.subnets i net hnet, hin, hout, hi, fun j e he hinput => ?_⟩
          obtain ⟨hcell, hrange⟩ := hbelow j e he hinput
          exact ⟨ih i hi hcell, h.inRange hrange⟩

lemma netBelow (h : Extends store store') (hnet : store.NetBelow limit net) :
    store'.NetBelow limit net := fun j e he hinput =>
  ⟨h.evaluableBelow (hnet j e he hinput).1, h.inRange (hnet j e he hinput).2⟩

/-- An evaluable cell computes the same in a larger store. -/
lemma portsBelow_eq (h : Extends store store') (hc : store.EvaluableBelow limit c)
    (operands : List Bool) :
    c.ports (store'.portsBelow limit) operands = c.ports (store.portsBelow limit) operands := by
  induction limit using Nat.strong_induction_on generalizing c operands with
  | _ limit ih =>
      cases hkind : c.kind.symbol with
      | gate g => simp only [Cell.ports, hkind]
      | cell =>
          obtain ⟨i, net, himpl, hnet, -, -, hi, hbelow⟩ :=
            (evaluableBelow_composite hkind).1 hc
          simp only [Cell.ports, hkind, Store.portsBelow_eq himpl hi hnet,
            Store.portsBelow_eq (h.implementation? himpl) hi (h.subnets i net hnet)]
          have same : ∀ σ, net.values (store'.portsBelow i) σ = net.values (store.portsBelow i) σ := by
            refine fun σ => valuesAlong_meaning fun j _ e he operands => ?_
            by_cases hinput : e.isInput = true
            · have hgate : e.kind.symbol = .gate .input := beq_iff_eq.1 hinput
              simp only [Cell.ports, hgate]
            · exact ih i hi (hbelow j e he (Bool.eq_false_iff.2 hinput)).1 operands
          simp only [Subnet.outputValues, same]

lemma evaluable (h : Extends store store') (hnet : store.Evaluable net) : store'.Evaluable net :=
  fun j e he hinput =>
    ⟨(h.evaluableBelow (hnet j e he hinput).1).mono h.size_le, h.inRange (hnet j e he hinput).2⟩

lemma regular (h : Extends store store') (hc : store.Regular strict c) : store'.Regular strict c :=
  ⟨hc.port, fun hinput => (h.evaluableBelow (hc.evaluable hinput)).mono h.size_le, hc.constant⟩

/-- A cell computes the same in a larger store. -/
lemma ports_eq (h : Extends store store') (hc : store.EvaluableBelow store.subnets.size c)
    (operands : List Bool) : c.ports store'.ports operands = c.ports store.ports operands := by
  rw [ports, ← (h.evaluableBelow hc).ports_eq h.size_le, h.portsBelow_eq hc, ports]

/-- What an evaluable network computes does not change when the store grows. -/
theorem values_eq (h : Extends store store') (hnet : store.Evaluable net) (σ : Nat → Bool) :
    net.values store'.ports σ = net.values store.ports σ := by
  refine valuesAlong_meaning fun j _ e he operands => ?_
  by_cases hinput : e.isInput = true
  · have hgate : e.kind.symbol = .gate .input := beq_iff_eq.1 hinput
    simp only [Cell.ports, hgate]
  · exact h.ports_eq (hnet j e he (Bool.eq_false_iff.2 hinput)).1 operands

lemma outputValues_eq (h : Extends store store') (hnet : store.Evaluable net) (σ : Nat → Bool) :
    net.outputValues store'.ports σ = net.outputValues store.ports σ := by
  rw [Subnet.outputValues, Subnet.outputValues, h.values_eq hnet]

end Extends

end Store

end Gatework
