import Mathlib.Logic.Function.Iterate
import Mathlib.Logic.Relation
import Mathlib.Order.WellFounded
import Gatework.Activity.Estimated
import Gatework.Proofs.Evaluation
import Gatework.Proofs.Gates

/-!
# Evaluation through composites ends

The evaluators of this library bound the positions of the implementations that they go into.  Here the
same recursions are taken without the bound, one level of composites at a time: a `step` says what
composites mean if those inside of their implementations mean what is given.

A store is `Layered` if a stored network uses only implementations that were stored before it.

* `Layered.wellFounded`: there is no endless descent from networks into their parts.
* `Layered.iterate_eq`: whatever composites are taken to mean at first, after more steps than there are
  networks they mean what the bounded recursion gives.
* `Layered.step_eq`: this meaning satisfies the recursion without a bound.

The three recursions are those of the signals (`meaningStep`), of the estimated probabilities
(`Estimate.compositeStep`) and of the Boolean values (`portsStep`).
-/

namespace Gatework

namespace Store

/-- A network implements one of the composites among the cells of another one. -/
def IsPart (store : Store) (part net : Subnet) : Prop :=
  ∃ c ∈ net.cells, ∃ i, c.kind.symbol = .cell ∧ store.implementation? c.kind.type = some i ∧
    store.subnets[i]? = some part

/-- A network is another one, or a part of it at any depth. -/
def Within (store : Store) : Subnet → Subnet → Prop := Relation.ReflTransGen store.IsPart

/-- Implementations are stored, and a stored network uses only such as were stored before it. -/
structure Layered (store : Store) : Prop where
  stored : ∀ t i, store.implementation? t = some i → i < store.subnets.size
  falls : ∀ (i : Nat) (net : Subnet), store.subnets[i]? = some net → ∀ c ∈ net.cells, ∀ j,
    c.kind.symbol = .cell → store.implementation? c.kind.type = some j → j < i

/-- A step gives a composite a meaning that depends only on what the composites inside of its
implementation mean. -/
def Local {α : Type} (store : Store) (step : (Nat → α) → Nat → α) : Prop :=
  ∀ m m' t, (∀ (i : Nat) (net : Subnet), store.implementation? t = some i → store.subnets[i]? = some net →
    ∀ c ∈ net.cells, c.kind.symbol = .cell → m c.kind.type = m' c.kind.type) → step m t = step m' t

/-- What `below` gives for a bound above the position of an implementation is one step from what it gives
for this position. -/
def Unfolds {α : Type} (store : Store) (step : (Nat → α) → Nat → α) (below : Nat → Nat → α) : Prop :=
  ∀ limit t, (∀ i, store.implementation? t = some i → i < limit) →
    below limit t = step (below ((store.implementation? t).getD 0)) t

lemma implementation?_of_type {store : Store} {t : Nat} {type : CellType}
    (htype : store.types[t]? = some type) : store.implementation? t = type.implementation := by
  rw [implementation?, htype]
  rfl

namespace Layered

variable {store : Store} (layered : store.Layered)
include layered

/-- Descending from networks into their parts comes to an end. -/
theorem wellFounded : WellFounded store.IsPart := by
  have stored : ∀ (i : Nat) (net : Subnet), store.subnets[i]? = some net → Acc store.IsPart net := by
    intro i
    induction i using Nat.strong_induction_on with
    | _ i ih =>
        intro net hnet
        refine ⟨net, ?_⟩
        rintro part ⟨c, hc, j, hkind, himpl, hpart⟩
        exact ih j (layered.falls i net hnet c hc j hkind himpl) part hpart
  refine ⟨fun net => ⟨net, ?_⟩⟩
  rintro part ⟨c, -, j, -, -, hpart⟩
  exact stored j part hpart

variable {α : Type} {step : (Nat → α) → Nat → α} {below : Nat → Nat → α}

/-- After more steps than there are stored networks, nothing of the start is left. -/
theorem iterate_eq (hlocal : store.Local step) (unfolds : store.Unfolds step below) (base : Nat → α)
    {n : Nat} (hn : store.subnets.size < n) : step^[n] base = below store.subnets.size := by
  have bound := layered.stored
  -- `n` steps are enough for the implementations at positions below `n - 1`, and one for the types
  -- that have none
  have reached : ∀ n t, 0 < n → (∀ i, store.implementation? t = some i → i + 1 < n) →
      step^[n] base t = below store.subnets.size t := by
    intro n
    induction n with
    | zero => exact fun t h => absurd h (Nat.lt_irrefl 0)
    | succ n ih =>
        intro t _ himpl
        rw [Function.iterate_succ_apply', unfolds _ t (bound t)]
        refine hlocal _ _ t fun i net hi hnet c hc hkind => ?_
        have hin : i < n := Nat.lt_of_succ_lt_succ (himpl i hi)
        have falls : ∀ j, store.implementation? c.kind.type = some j → j < i := fun j =>
          layered.falls i net hnet c hc j hkind
        rw [ih _ (by omega) fun j hj => by have := falls j hj; omega, unfolds _ _ (bound _), hi,
          Option.getD_some, unfolds i _ falls]
  funext t
  refine reached n t (by omega) fun i hi => ?_
  have := bound t i hi
  omega

/-- One step more changes nothing. -/
theorem step_eq (hlocal : store.Local step) (unfolds : store.Unfolds step below) :
    step (below store.subnets.size) = below store.subnets.size := by
  have reached := fun k => layered.iterate_eq hlocal unfolds (below store.subnets.size)
    (show store.subnets.size < store.subnets.size + (k + 1) by omega)
  have next := reached 1
  rwa [Function.iterate_succ', Function.comp_apply, reached 0] at next

end Layered

/-! ## Signals -/

/-- One level of the evaluation of composites: the implementation is simulated, with `composite` for the
composites inside of it. -/
def meaningStep (store : Store) (width : Nat) (composite : CompositeMeaning) : CompositeMeaning :=
  fun type operands =>
    match store.types[type]? with
    | none => .error .internal
    | some t =>
        match t.implementation with
        | none => .error (.noImplementation t.name)
        | some i =>
            match store.subnets[i]? with
            | none => .error .internal
            | some net => do
                let values ← net.simulate composite width operands
                net.outputSignals values

variable {store : Store} {width : Nat}

lemma local_meaningStep (store : Store) (width : Nat) : store.Local (store.meaningStep width) := by
  intro m m' t same
  funext operands
  unfold meaningStep
  cases htype : store.types[t]? with
  | none => rfl
  | some type =>
      cases himpl : type.implementation with
      | none => simp only [himpl]
      | some i =>
          cases hnet : store.subnets[i]? with
          | none => simp only [himpl, hnet]
          | some net =>
              have hi := (implementation?_of_type htype).trans himpl
              have cells : ∀ c ∈ net.cells, ∀ operands,
                  c.evaluate m width operands = c.evaluate m' width operands := by
                intro c hc operands
                cases hkind : c.kind.symbol with
                | gate g => exact Cell.evaluate_eq_of_gate hkind operands
                | cell => simp only [Cell.evaluate, hkind, same i net hi hnet c hc hkind]
              simp only [himpl, hnet, Subnet.simulate_congr cells]

lemma unfolds_meaningBelow (store : Store) (width : Nat) :
    store.Unfolds (store.meaningStep width) (store.meaningBelow width) := by
  intro limit t himpl
  funext operands
  rw [meaningBelow, meaningStep]
  cases htype : store.types[t]? with
  | none => rfl
  | some type =>
      cases hi : type.implementation with
      | none => simp only [hi]
      | some i =>
          have himpl' := (implementation?_of_type htype).trans hi
          rw [himpl']
          simp only [hi]
          exact dif_pos (himpl i himpl')

/-! ## Estimated probabilities -/

end Store

namespace Estimate

/-- Only the composites of a network depend on what composites are estimated at. -/
lemma network_congr {composite composite' : CompositeEstimate} {net : Subnet}
    (same : ∀ c ∈ net.cells, c.kind.symbol = .cell → composite c.kind.type = composite' c.kind.type)
    (inputs : List Float) : network composite net inputs = network composite' net inputs := by
  have same : ∀ c ∈ net.cells.toList, c.kind.symbol = .cell →
      composite c.kind.type = composite' c.kind.type := fun c hc => same c (Array.mem_toList_iff.1 hc)
  unfold network
  generalize net.cells.toList = cs at same
  generalize (#[] : Array Float) = known
  induction cs generalizing known with
  | nil => rfl
  | cons c cs ih =>
      have next : cell composite inputs known c = cell composite' inputs known c := by
        unfold cell
        cases hkind : c.kind.symbol with
        | gate g => rfl
        | cell => simp only [same c (List.mem_cons_self ..) hkind]
      rw [List.foldlM_cons, List.foldlM_cons, next]
      exact congrArg _ (funext fun known => ih (fun d hd => same d (List.mem_cons_of_mem _ hd)) known)

/-- One level of the estimate for composites: the implementation is estimated, with `composite` for the
composites inside of it. -/
def compositeStep (store : Store) (composite : CompositeEstimate) : CompositeEstimate :=
  fun type operands =>
    match store.types[type]? with
    | none => .error .internal
    | some t =>
        match t.implementation with
        | none => .ok 0.5
        | some i =>
            match store.subnets[i]? with
            | none => .error .internal
            | some net => do
                let known ← network composite net operands
                match known[net.outputStart]? with
                | some p => .ok p
                | none => .error .internal

lemma local_compositeStep (store : Store) : store.Local (compositeStep store) := by
  intro m m' t same
  funext operands
  unfold compositeStep
  cases htype : store.types[t]? with
  | none => rfl
  | some type =>
      cases himpl : type.implementation with
      | none => simp only [himpl]
      | some i =>
          cases hnet : store.subnets[i]? with
          | none => simp only [himpl, hnet]
          | some net =>
              have hi := (Store.implementation?_of_type htype).trans himpl
              simp only [himpl, hnet, network_congr (same i net hi hnet)]

lemma unfolds_compositeBelow (store : Store) :
    store.Unfolds (compositeStep store) (compositeBelow store) := by
  intro limit t himpl
  funext operands
  rw [compositeBelow, compositeStep]
  cases htype : store.types[t]? with
  | none => rfl
  | some type =>
      cases hi : type.implementation with
      | none => simp only [hi]
      | some i =>
          have himpl' := (Store.implementation?_of_type htype).trans hi
          rw [himpl']
          simp only [hi]
          exact dif_pos (himpl i himpl')

end Estimate

namespace Store

/-! ## Boolean values -/

/-- One level of the values of composites: those of the outputs of the implementation, with `m` for the
composites inside of it. -/
def portsStep (store : Store) (m : Meaning) : Meaning := fun type operands =>
  match store.implementation? type with
  | none => []
  | some i =>
      match store.subnets[i]? with
      | none => []
      | some net => net.outputValues m fun j => operands.getD j false

variable {store : Store}

lemma local_portsStep (store : Store) : store.Local store.portsStep := by
  intro m m' t same
  funext operands
  unfold portsStep
  cases hi : store.implementation? t with
  | none => rfl
  | some i =>
      cases hnet : store.subnets[i]? with
      | none => simp only [hnet]
      | some net =>
          have values : ∀ σ, net.values m σ = net.values m' σ := by
            refine fun σ => valuesAlong_meaning fun j _ c hc operands => ?_
            cases hkind : c.kind.symbol with
            | gate g => simp only [Cell.ports, hkind]
            | cell =>
                simp only [Cell.ports, hkind, same i net hi hnet c (Array.mem_of_getElem? hc) hkind]
          simp only [hnet, Subnet.outputValues, values]

lemma unfolds_portsBelow (store : Store) : store.Unfolds store.portsStep store.portsBelow := by
  intro limit t himpl
  funext operands
  rw [portsBelow, portsStep]
  cases hi : store.implementation? t with
  | none => rfl
  | some i =>
      exact dif_pos (himpl i hi)

/-- A composite computes what the network that implements it computes. -/
theorem Layered.ports_eq (layered : store.Layered) {t i : Nat} {part : Subnet}
    (himpl : store.implementation? t = some i) (hpart : store.subnets[i]? = some part)
    (operands : List Bool) :
    store.ports t operands = part.outputValues store.ports fun j => operands.getD j false := by
  rw [ports, ← layered.step_eq (local_portsStep store) (unfolds_portsBelow store)]
  simp only [portsStep, himpl, hpart]
  rw [layered.step_eq (local_portsStep store) (unfolds_portsBelow store)]

/-- A composite is evaluated by simulating the network that implements it. -/
theorem Layered.meaning_eq (layered : store.Layered) {t i : Nat} {part : Subnet}
    (himpl : store.implementation? t = some i) (hpart : store.subnets[i]? = some part) (width : Nat)
    (operands : List Signal) :
    store.meaning width t operands = (do
      let values ← part.simulate (store.meaning width) width operands
      part.outputSignals values) := by
  obtain ⟨type, htype, hi⟩ := Option.bind_eq_some_iff.1 himpl
  rw [meaning, ← layered.step_eq (local_meaningStep store width) (unfolds_meaningBelow store width)]
  simp only [meaningStep, htype, hi, hpart]
  rw [layered.step_eq (local_meaningStep store width) (unfolds_meaningBelow store width)]

end Store

end Gatework
