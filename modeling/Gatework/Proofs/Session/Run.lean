import Gatework.Library.Basic
import Gatework.Npn.Archive
import Gatework.Proofs.Composites
import Gatework.Proofs.Session.Sources

/-!
# Sessions

A session is a store together with the builders that are open.  `Session.Step` says what one call can do
to it: add texts, types and networks to the store, load a library or a catalogue, open a builder, change
it, or finish it into the store.  `Session.Reached` holds of the sessions that calls lead to.

`Store.Coherent` is the invariant of the store: it begins with the gates, it has types for the cells of
its own networks, and every implementation was stored before its type.  When a network is stored, the
types of its cells are registered already, and their implementations stand at lower positions.

**Main statement.** `Session.Reached.composites_end`: in every store of a session there is no endless
descent from a network into the implementations of its composites, and the evaluation of composites, taken
without any bound, comes to its result after as many steps as there are networks.
-/

namespace Gatework

namespace Store

/-- A store begins with the gates, its networks are of its types and use only implementations that were
stored before them, and a composite takes as many operands as its implementation has inputs, as far as a
pin count can tell. -/
structure Coherent (store : Store) : Prop where
  gates : Store.empty.Extends store
  layered : store.Layered
  houses : ∀ net ∈ store.subnets, store.Houses net
  pins : ∀ (t i : Nat) type (net : Subnet), store.types[t]? = some type →
    type.implementation = some i → store.subnets[i]? = some net →
    type.minInputs = net.numInputs % pinLimit ∧ type.maxInputs = net.numInputs % pinLimit

/-- A store that has come of another one by adding records. -/
structure Develops (store store' : Store) : Prop where
  grows : store.Extends store'
  coherent : store.Coherent → store'.Coherent

variable {store store' store'' : Store} {net : Subnet} {type : CellType}

namespace Coherent

lemma empty : Store.empty.Coherent where
  gates := .refl _
  layered := by
    refine ⟨fun t i himpl => ?_, fun i net hnet => by simp [Store.empty] at hnet⟩
    obtain ⟨type, htype, hi⟩ := Option.bind_eq_some_iff.1 himpl
    obtain ⟨g, -, rfl⟩ := exists_gate_of_mem (Arena.mem_of_getElem? htype)
    cases hi
  houses := by simp [Store.empty]
  pins t i type net _ _ hnet := by simp [Store.empty] at hnet

/-- A network that is stored uses implementations at lower positions only. -/
lemma addSubnet (h : store.Coherent) (houses : store.Houses net) :
    (store.addSubnet net).1.Coherent where
  gates := h.gates.trans (.addSubnet store net)
  layered := by
    refine ⟨fun t i himpl => ?_, fun i part hpart c hc j hkind himpl => ?_⟩
    · show i < (store.subnets.push net).size
      rw [Arena.size_push]
      exact (h.layered.stored t i himpl).trans (Nat.lt_succ_self _)
    · have hpart : (store.subnets.push net)[i]? = some part := hpart
      rw [Arena.getElem?_push] at hpart
      split at hpart
      · rename_i hi
        exact hi ▸ h.layered.stored _ j himpl
      · exact h.layered.falls i part hpart c hc j hkind himpl
  houses part hpart := by
    rcases Arena.mem_push.1 hpart with hpart | rfl
    · exact (Extends.addSubnet store net).houses (h.houses part hpart)
    · exact (Extends.addSubnet store part).houses houses
  pins t i type part htype himpl hpart := by
    have hi : i < store.subnets.size :=
      h.layered.stored t i ((implementation?_of_type htype).trans himpl)
    have hpart : (store.subnets.push net)[i]? = some part := hpart
    rw [Arena.getElem?_push, if_neg hi.ne] at hpart
    exact h.pins t i type part htype himpl hpart

lemma intern (h : store.Coherent) (text : String) : (store.intern text).1.Coherent := by
  have types := types_intern store text
  have subnets := subnets_intern store text
  have implementation : ∀ t, (store.intern text).1.implementation? t = store.implementation? t :=
    fun t => by rw [implementation?, implementation?, types]
  have grows : store.Extends (store.intern text).1 :=
    ⟨fun i t => by rw [types]; exact id, fun i e => by rw [subnets]; exact id⟩
  refine ⟨h.gates.trans grows, ⟨fun t i => ?_, fun i net => ?_⟩, fun net hnet => ?_, fun t i => ?_⟩
  · rw [implementation, subnets]
    exact h.layered.stored t i
  · simp only [implementation, subnets]
    exact h.layered.falls i net
  · exact grows.houses (h.houses net (subnets ▸ hnet))
  · rw [types, subnets]
    exact h.pins t i

/-- The networks of the store do not use a type that is registered behind them. -/
lemma addType (h : store.Coherent)
    (implements : ∀ i, type.implementation = some i → ∃ net, store.subnets[i]? = some net ∧
      type.minInputs = net.numInputs % pinLimit ∧ type.maxInputs = net.numInputs % pinLimit) :
    (store.addType type).1.Coherent := by
  have grows := Extends.addType store type
  have types : (store.addType type).1.types = store.types.push type := by simp [Store.addType]
  have subnets : (store.addType type).1.subnets = store.subnets := by simp [Store.addType]
  -- what is registered now is either an old type or the new one
  have listed : ∀ (t : Nat) u, (store.addType type).1.types[t]? = some u →
      store.types[t]? = some u ∨ u = type := by
    intro t u hu
    rw [types, Arena.getElem?_push] at hu
    split at hu
    · exact .inr (Option.some.inj hu).symm
    · exact .inl hu
  refine ⟨h.gates.trans grows, ⟨fun t i himpl => ?_, ?_⟩, fun net hnet => ?_, ?_⟩
  · rw [subnets]
    obtain ⟨u, hu, hi⟩ := Option.bind_eq_some_iff.1 himpl
    rcases listed t u hu with hu | rfl
    · exact h.layered.stored t i ((implementation?_of_type hu).trans hi)
    · obtain ⟨net, hnet, -⟩ := implements i hi
      exact Arena.lt_size_of_getElem? hnet
  · intro i net hnet c hc j hkind himpl
    rw [subnets] at hnet
    obtain ⟨u, hu, -⟩ := h.houses net (Arena.mem_of_getElem? hnet) c hc
    have hj := (implementation?_of_type (grows.types _ u hu)).symm.trans himpl
    exact h.layered.falls i net hnet c hc j hkind ((implementation?_of_type hu).trans hj)
  · exact grows.houses (h.houses net (subnets ▸ hnet))
  · intro t i u net hu hi hnet
    rw [subnets] at hnet
    rcases listed t u hu with hu | rfl
    · exact h.pins t i u net hu hi hnet
    · obtain ⟨net', hnet', hpins⟩ := implements i hi
      cases hnet.symm.trans hnet'
      exact hpins

end Coherent

namespace Develops

lemma refl (store : Store) : Develops store store := ⟨.refl store, id⟩

lemma trans (h : Develops store store') (h' : Develops store' store'') : Develops store store'' where
  grows := h.grows.trans h'.grows
  coherent coherent := h'.coherent (h.coherent coherent)

lemma addSubnet (houses : store.Coherent → store.Houses net) :
    Develops store (store.addSubnet net).1 where
  grows := .addSubnet store net
  coherent coherent := coherent.addSubnet (houses coherent)

lemma intern (store : Store) (text : String) : Develops store (store.intern text).1 where
  grows := by
    refine ⟨fun i t => ?_, fun i e => ?_⟩
    · rw [types_intern]
      exact id
    · rw [subnets_intern]
      exact id
  coherent coherent := coherent.intern text

lemma addType (implements : ∀ i, type.implementation = some i → ∃ net, store.subnets[i]? = some net ∧
      type.minInputs = net.numInputs % pinLimit ∧ type.maxInputs = net.numInputs % pinLimit) :
    Develops store (store.addType type).1 where
  grows := .addType store type
  coherent coherent := coherent.addType implements

lemma addComposite (name : String) {i : Nat} (hnet : store.subnets[i]? = some net)
    (costs : Option CellCosts) : Develops store (store.addComposite name i net costs).1 :=
  .addType fun j hj => by
    cases hj
    exact ⟨net, hnet, rfl, rfl⟩

/-! ### Libraries -/

/-- A cell of a library is implemented by a network of gates, which is stored first. -/
lemma register {l l' : Library} {d : CellDescription} {function : TruthTable d.inputs.length}
    (run : l.register store d function = .ok (store', l')) : Develops store store' := by
  obtain ⟨net, hnet, run⟩ := bind_eq_ok_iff.1 run
  cases run
  refine (addSubnet fun coherent => ?_).trans (addComposite d.name ?_ (some d.costs))
  · exact ((SumOfProducts.ofGates_synthesize hnet).hosts coherent.gates).houses
  · simp [Store.addSubnet]

lemma registerAll {ds : List CellDescription} {l : Library} {result : Except LoadError Library}
    (run : Library.registerAll store l ds = .ok (store', result)) : Develops store store' := by
  induction ds generalizing store l with
  | nil =>
      cases run
      exact refl _
  | cons d ds ih =>
      rw [Library.registerAll] at run
      split at run
      · obtain ⟨⟨store₁, l₁⟩, hregister, run⟩ := bind_eq_ok_iff.1 run
        exact (register hregister).trans (ih run)
      · cases run
        exact refl _

/-- Loading a library, be it to the end or up to a flawed cell. -/
lemma library {file : List UInt8} {result : Except LoadError Library}
    (run : Library.ofBytes store file = .ok (store', result)) : Develops store store' := by
  unfold Library.ofBytes at run
  split at run
  · exact registerAll run
  · cases run
    exact refl _

/-! ### Catalogues -/

/-- Loading a catalogue, be it to the end or up to a flawed network. -/
lemma catalogue {file : List UInt8} {result : Except LoadError Catalogue}
    (run : Catalogue.ofBytes store file = (store', result)) : Develops store store' := by
  have image : ∀ (state : Store × Catalogue × List Nat) (image : Image),
      (∃ state', Archive.restoreImage state image = .ok state' ∧ Develops state.1 state'.1) ∨
        ∃ e, Archive.restoreImage state image = .error e ∧ Develops state.1 e.1 := by
    rintro ⟨store, c, positions⟩ image
    unfold Archive.restoreImage
    dsimp only
    cases hnet : image.restore store with
    | error e => exact .inr ⟨(store, e), rfl, refl store⟩
    | ok net =>
        refine .inl ⟨_, rfl, ?_⟩
        exact addSubnet fun _ => (restore_eq_ok_iff.1 hnet).2.1.houses
  have classes : ∀ (state : Store × Catalogue) (entry : WordTable × List Image),
      (∃ state', Archive.restoreClass state entry = .ok state' ∧ Develops state.1 state'.1) ∨
        ∃ e, Archive.restoreClass state entry = .error e ∧ Develops state.1 e.1 := by
    rintro ⟨store, c⟩ entry
    rcases @foldlM_eq_ok_or_error _ _ _ Archive.restoreImage entry.2 (store, c, [])
      (fun _ s => Develops store s.1) (fun e => Develops store e.1) (refl _) (fun _ x _ s _ hs => by
        rcases image s x with ⟨s', hs', h⟩ | ⟨e, he, h⟩
        · exact .inl ⟨s', hs', hs.trans h⟩
        · exact .inr ⟨e, he, hs.trans h⟩) with ⟨⟨store', c', positions⟩, hrun, h⟩ | ⟨e, hrun, h⟩
    · refine .inl ⟨(store', { c' with
        classes := Catalogue.alterClass entry.1 (fun _ => positions) c'.classes }), ?_, h⟩
      rw [Archive.restoreClass, hrun]
      rfl
    · refine .inr ⟨e, ?_, h⟩
      rw [Archive.restoreClass, hrun]
      rfl
  unfold Catalogue.ofBytes at run
  split at run
  · cases run
    exact refl _
  · rename_i a _
    rcases @foldlM_eq_ok_or_error _ _ _ Archive.restoreClass a.classes (store, .empty)
      (fun _ s => Develops store s.1) (fun e => Develops store e.1) (refl _) (fun _ x _ s _ hs => by
        rcases classes s x with ⟨s', hs', h⟩ | ⟨e, he, h⟩
        · exact .inl ⟨s', hs', hs.trans h⟩
        · exact .inr ⟨e, he, hs.trans h⟩) with ⟨⟨store', c'⟩, hrun, h⟩ | ⟨⟨store', e⟩, hrun, h⟩
    · rw [hrun] at run
      cases run
      exact h
    · rw [hrun] at run
      cases run
      exact h

end Develops

end Store

/-! ## Calls -/

/-- A store and the builders that are open. -/
structure Session where
  store : Store
  drafts : List Builder

namespace Session

open Builder

/-- The session at its beginning. -/
def start : Session := ⟨.empty, []⟩

/-- The session with another store. -/
def withStore (s : Session) (store : Store) : Session := { s with store }

/-- The session with one more builder.  A builder that is changed stays open as it was. -/
def withDraft (s : Session) (b : Builder) : Session := { s with drafts := b :: s.drafts }

/-- One call. -/
inductive Step (s : Session) : Session → Prop where
  | intern (text : String) : Step s (s.withStore (s.store.intern text).1)
  | composite (name : String) {i : Nat} {net : Subnet} (costs : Option CellCosts) :
      s.store.subnets[i]? = some net →
      Step s (s.withStore (s.store.addComposite name i net costs).1)
  | bare {type : CellType} : type.implementation = none →
      Step s (s.withStore (s.store.addType type).1)
  | network {net : Subnet} : s.store.Makes net → Step s (s.withStore (s.store.addSubnet net).1)
  | library {file : List UInt8} {store : Store} {result : Except LoadError Library} :
      Library.ofBytes s.store file = .ok (store, result) → Step s (s.withStore store)
  | catalogue {file : List UInt8} {store : Store} {result : Except LoadError Catalogue} :
      Catalogue.ofBytes s.store file = (store, result) → Step s (s.withStore store)
  | draft (options : BuilderOptions) : Step s (s.withDraft (.empty options))
  | edit {net : Subnet} {b : Builder} : net ∈ s.store.subnets → ofSubnet net = .ok b →
      Step s (s.withDraft b)
  | addInput {b b' : Builder} {l : Link} : b ∈ s.drafts → addInput b = .ok (l, b') →
      Step s (s.withDraft b')
  | addOutput {b b' : Builder} {l : Link} {i : Nat} : b ∈ s.drafts → addOutput l b = .ok (i, b') →
      Step s (s.withDraft b')
  | request {b b' : Builder} {r : Request} {ls : List Link} : b ∈ s.drafts →
      (∀ net links, r = .copy net links → net ∈ s.store.subnets) →
      r.run s.store b = .ok (ls, b') → Step s (s.withDraft b')
  | replace {b b' : Builder} {r : Replacement} : b ∈ s.drafts → r.net ∈ s.store.subnets →
      b.replace r = .ok b' → Step s (s.withDraft b')
  | finish {b : Builder} {net : Subnet} : b ∈ s.drafts → b.finish = .ok net →
      Step s (s.withStore (s.store.addSubnet net).1)

/-- The sessions that calls lead to. -/
def Reached (s : Session) : Prop := Relation.ReflTransGen Session.Step start s

/-- The store of a session is coherent and has types for the cells of all open builders. -/
structure Sound (s : Session) : Prop where
  store : s.store.Coherent
  drafts : ∀ b ∈ s.drafts, b.Shaped s.store.Takes

namespace Sound

variable {s s' : Session} {b : Builder} {store : Store}

lemma start : start.Sound := ⟨.empty, nofun⟩

lemma withStore (h : s.Sound) (develops : s.store.Develops store) : (s.withStore store).Sound :=
  ⟨develops.coherent h.store, fun b hb c hc => develops.grows.takes (h.drafts b hb c hc)⟩

lemma withDraft (h : s.Sound) (shaped : b.Shaped s.store.Takes) : (s.withDraft b).Sound :=
  ⟨h.store, List.forall_mem_cons.2 ⟨shaped, h.drafts⟩⟩

/-- No call breaks the invariant. -/
theorem step (h : s.Sound) (step : Session.Step s s') : s'.Sound := by
  have gates := h.store.gates
  cases step with
  | intern text => exact h.withStore (.intern _ text)
  | composite name costs hnet => exact h.withStore (.addComposite name hnet costs)
  | bare bare =>
      refine h.withStore (.addType fun i hi => ?_)
      rw [bare] at hi
      cases hi
  | network made =>
      exact h.withStore (.addSubnet fun coherent => made.houses coherent.gates coherent.houses)
  | library run => exact h.withStore (.library run)
  | catalogue run => exact h.withStore (.catalogue run)
  | draft options => exact h.withDraft (by simp [Shaped, Builder.empty])
  | edit hnet run => exact h.withDraft (.ofSubnet gates (h.store.houses _ hnet) run)
  | addInput hb run => exact h.withDraft (housed_addInput gates _ _ _ run (h.drafts _ hb))
  | addOutput hb run => exact h.withDraft (housed_addOutput gates _ _ _ _ run (h.drafts _ hb))
  | request hb copied run =>
      have housed := Request.housed_run gates _ fun net ls hr => h.store.houses net (copied net ls hr)
      exact h.withDraft (housed _ _ _ run (h.drafts _ hb))
  | replace hb hnet run =>
      have takes := h.store.houses _ hnet
      exact h.withDraft ((h.drafts _ hb).replace takes (gates.takes_gate_iff.2 (by decide)) run)
  | finish hb run => exact h.withStore (.addSubnet fun _ => (h.drafts _ hb).finish run)

end Sound

variable {s : Session}

/-- The invariant holds throughout a session. -/
theorem Reached.sound (h : s.Reached) : s.Sound := by
  induction h with
  | refl => exact .start
  | tail _ step ih => exact ih.step step

/-- In a store that calls lead to, evaluation through composites comes to an end: no network has an endless
descent of parts, and the recursions of the signals and of the estimated probabilities, taken without a
bound, have their results after more steps than there are networks, whatever they start from. -/
theorem Reached.composites_end (h : s.Reached) :
    WellFounded s.store.IsPart ∧
      (∀ width base n, s.store.subnets.size < n →
        (s.store.meaningStep width)^[n] base = s.store.meaning width) ∧
      ∀ base n, s.store.subnets.size < n →
        (Estimate.compositeStep s.store)^[n] base =
          Estimate.compositeBelow s.store s.store.subnets.size := by
  have layered := h.sound.store.layered
  refine ⟨layered.wellFounded, fun width base n hn => ?_, fun base n hn => ?_⟩
  · exact layered.iterate_eq (Store.local_meaningStep _ width) (Store.unfolds_meaningBelow _ width)
      base hn
  · exact layered.iterate_eq (Estimate.local_compositeStep _) (Estimate.unfolds_compositeBelow _)
      base hn

/-! ## Crossed wires -/

/-- A session in which two crossed wires were stored, registered as a type of cells, and used, together
with a type of buffers. -/
def crossedWires : Session := ⟨(Store.crossingStore.addSubnet Store.crossed).1, []⟩

lemma reached_crossing : Session.Reached ⟨Store.crossingStore, []⟩ := by
  have stored : Session.Step start ⟨(Store.empty.addSubnet Store.crossing).1, []⟩ :=
    .network (.image (Store.restore_eq_ok_iff.2
      ⟨rfl, Store.hosts_crossing, Store.encodable_crossing.type⟩))
  have registered : Session.Step ⟨(Store.empty.addSubnet Store.crossing).1, []⟩
      ⟨((Store.empty.addSubnet Store.crossing).1.addComposite "cross" 0 Store.crossing none).1, []⟩ :=
    .composite "cross" none rfl
  have repeating : Session.Step
      ⟨((Store.empty.addSubnet Store.crossing).1.addComposite "cross" 0 Store.crossing none).1, []⟩
      ⟨Store.crossingStore, []⟩ := .bare rfl
  exact .tail (.tail (.tail .refl stored) registered) repeating

lemma reached_crossedWires : crossedWires.Reached :=
  reached_crossing.tail <|
    .network (.image (Store.restore_eq_ok_iff.2
      ⟨rfl, Store.hosts_crossed, Store.encodable_crossed.type⟩))

lemma subnets_crossedWires : crossedWires.store.subnets =
    (Arena.empty.push Store.crossing).push Store.crossed := by
  simp [crossedWires, Store.crossingStore, Store.addComposite, Store.addSubnet, Store.empty]

/-- The crossing is a part of the network that uses it, and three steps are enough. -/
theorem Reached.composites_end_crossedWires :
    WellFounded crossedWires.store.IsPart ∧
      crossedWires.store.IsPart Store.crossing Store.crossed ∧
      ∀ width base,
        (crossedWires.store.meaningStep width)^[3] base = crossedWires.store.meaning width := by
  obtain ⟨wellFounded, signals, -⟩ := reached_crossedWires.composites_end
  have himpl : crossedWires.store.implementation? 13 = some 0 :=
    Store.implementation?_of_type Store.type_crossingStore
  refine ⟨wellFounded, ?_, fun width base => signals width base 3 ?_⟩
  · refine ⟨⟨⟨.cell, 13⟩, [.of 1, (Link.of 0).invert]⟩, by simp [Store.crossed], 0, rfl, himpl, ?_⟩
    rw [subnets_crossedWires]
    rfl
  · rw [subnets_crossedWires]
    decide

end Session

end Gatework
