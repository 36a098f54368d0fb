import Gatework.Proofs.Library.Names

/-!
# Loading after a failure

The loader registers the cells of a description one after the other and stops at the first that has a flaw.
It does not take back what it registered before: the store is left as it is when only the cells in front of
the flawed one are loaded (`Library.exists_of_registerAll_error`).  Whether cells can be loaded depends on
their descriptions and on which names lead nowhere (`Library.registerAll_eq_ok_iff`), so a corrected
description is accepted later exactly if it would have been before and has none of the names that are taken
by now.

**Main statement.** `Library.registerAll_leaves`.
-/

namespace Gatework

namespace Library

variable {store store' : Store} {l l' : Library} {d : CellDescription} {ds loaded : List CellDescription}

/-- The cells can be loaded into a store: no description has a flaw by itself, no name leads to a type, and
no name occurs twice. -/
structure Loadable (store : Store) (ds : List CellDescription) : Prop where
  sound : ∀ d ∈ ds, d.flaw? maxClassVariables = none
  free : ∀ d ∈ ds, store.findType? d.name = none
  distinct : (ds.map (·.name)).Nodup

/-- What loading cells adds to a store: a type and an implementation for each cell, and the names. -/
structure Leaves (store : Store) (loaded : List CellDescription) (store' : Store) : Prop where
  retains : store.Retains store'
  types : store'.types.size = store.types.size + loaded.length
  subnets : store'.subnets.size = store.subnets.size + loaded.length
  names : ∀ n, store'.findType? n =
    (store.findType? n).or (((loaded.map (·.name)).idxOf? n).map (store.types.size + ·))
  interned : ∀ text, (store'.textIndex.find? text).isSome = true ↔
    (store.textIndex.find? text).isSome = true ∨ text ∈ loaded.map (·.name)

/-! ## One cell -/

lemma loadable_cons_iff : Loadable store (d :: ds) ↔
    flaw? store d = none ∧ Loadable store ds ∧ ∀ e ∈ ds, e.name ≠ d.name := by
  have distinct : d.name ∉ ds.map (·.name) ↔ ∀ e ∈ ds, e.name ≠ d.name := by simp
  rw [flaw?_eq_none_iff]
  constructor
  · rintro ⟨hsound, hfree, hdistinct⟩
    obtain ⟨hd, hsound⟩ := List.forall_mem_cons.1 hsound
    obtain ⟨hname, hfree⟩ := List.forall_mem_cons.1 hfree
    obtain ⟨hnew, hdistinct⟩ := List.nodup_cons.1 hdistinct
    exact ⟨⟨hd, hname⟩, ⟨hsound, hfree, hdistinct⟩, distinct.1 hnew⟩
  · rintro ⟨⟨hd, hname⟩, ⟨hsound, hfree, hdistinct⟩, hnew⟩
    exact ⟨List.forall_mem_cons.2 ⟨hd, hsound⟩, List.forall_mem_cons.2 ⟨hname, hfree⟩,
      List.nodup_cons.2 ⟨distinct.2 hnew, hdistinct⟩⟩

/-- A description without a flaw has a function. -/
lemma exists_function (h : flaw? store d = none) :
    ∃ function, TruthTable.ofHex? d.inputs.length d.table = some function := by
  by_contra hnone
  have hnone : (TruthTable.ofHex? d.inputs.length d.table).isNone = true := by
    rw [Option.isNone_iff_eq_none, Option.eq_none_iff_forall_ne_some]
    exact fun f hf => hnone ⟨f, hf⟩
  have := (flaw?_eq_none_iff.1 h).1
  rw [CellDescription.flaw?, if_neg (Nat.not_lt.2 (length_inputs_of_flaw? h)), if_pos hnone] at this
  cases this

/-- A cell without a flaw is loaded, and then come the others. -/
lemma registerAll_cons (h : flaw? store d = none) : ∃ (net : Subnet) (c : LibraryCell), ∀ ds,
    registerAll store l (d :: ds) =
      registerAll ((store.addSubnet net).1.addComposite d.name store.subnets.size net (some d.costs)).1
        (l.push c) ds := by
  obtain ⟨function, hfunction⟩ := exists_function h
  obtain ⟨net, c, -, -, hregister⟩ := exists_register l store function (length_inputs_of_flaw? h)
  refine ⟨net, c, fun ds => ?_⟩
  simp only [registerAll, h, hfunction, hregister, ok_bind]

/-- A cell with a flaw is where loading ends. -/
lemma registerAll_flawed {flaw : CellFlaw} (h : flaw? store d = some flaw) (ds : List CellDescription) :
    registerAll store l (d :: ds) = .ok (store, .error (.malformed (.libraryCell d.name flaw))) := by
  simp only [registerAll, h, Option.getD_some]

lemma leaves_nil (store : Store) : Leaves store [] store where
  retains := .refl store
  types := rfl
  subnets := rfl
  names n := by simp
  interned text := by simp

/-- One more cell in front of those that are loaded. -/
lemma Leaves.cons {net : Subnet} (h : Leaves
      ((store.addSubnet net).1.addComposite d.name store.subnets.size net (some d.costs)).1 loaded store') :
    Leaves store (d :: loaded) store' where
  retains := ((Store.Retains.addSubnet store net).trans (.addType _ _)).trans h.retains
  types := by
    rw [h.types, Store.addComposite, Store.types_addType, Arena.size_push, List.length_cons,
      Nat.add_right_comm]
    rfl
  subnets := by
    rw [h.subnets, Store.addComposite, Store.subnets_addType, Store.addSubnet, Arena.size_push,
      List.length_cons, Nat.add_right_comm]
    rfl
  names n := by
    have hfound : ((store.addSubnet net).1.addComposite d.name store.subnets.size net
        (some d.costs)).1.findType? n =
          (store.findType? n).or (if n = d.name then some store.types.size else none) :=
      Store.findType?_addType ..
    rw [h.names, hfound, Store.addComposite, Store.types_addType, Arena.size_push, Option.or_assoc,
      List.map_cons, List.idxOf?_cons]
    congr 1
    by_cases hn : n = d.name
    · simp [hn]
    · simp [hn, Ne.symm hn, Function.comp_def, Store.addSubnet, Nat.add_comm, Nat.add_left_comm]
  interned text := by
    have hinterned : ((store.addSubnet net).1.addComposite d.name store.subnets.size net
        (some d.costs)).1.textIndex.find? text =
          (store.textIndex.find? text).or (if text = d.name then some store.texts.size else none) :=
      Store.find?_intern ..
    rw [h.interned, hinterned, List.map_cons, List.mem_cons, Option.isSome_or, Bool.or_eq_true, or_assoc]
    by_cases hn : text = d.name <;> simp [hn]

/-- After cells were loaded, others can be loaded if they could be before and their names are others. -/
lemma Leaves.loadable_iff (h : Leaves store loaded store') :
    Loadable store' ds ↔ Loadable store ds ∧ ∀ d ∈ ds, d.name ∉ loaded.map (·.name) := by
  have free : ∀ n, store'.findType? n = none ↔ store.findType? n = none ∧ n ∉ loaded.map (·.name) := by
    intro n
    rw [h.names, Option.or_eq_none_iff, Option.map_eq_none_iff, List.idxOf?_eq_none_iff]
  constructor
  · rintro ⟨sound, hfree, distinct⟩
    exact ⟨⟨sound, fun d hd => ((free _).1 (hfree d hd)).1, distinct⟩,
      fun d hd => ((free _).1 (hfree d hd)).2⟩
  · rintro ⟨⟨sound, hfree, distinct⟩, others⟩
    exact ⟨sound, fun d hd => (free _).2 ⟨hfree d hd, others d hd⟩, distinct⟩

/-! ## All cells -/

/-- Loading cells leaves behind what they stand for. -/
lemma leaves_of_registerAll (h : registerAll store l ds = .ok (store', .ok l')) :
    Leaves store ds store' := by
  induction ds generalizing store l with
  | nil =>
      cases h
      exact leaves_nil _
  | cons d ds ih =>
      cases hflaw : flaw? store d with
      | none =>
          obtain ⟨net, c, hcons⟩ := registerAll_cons (l := l) hflaw
          exact (ih ((hcons ds).symm.trans h)).cons
      | some flaw =>
          cases (registerAll_flawed hflaw ds).symm.trans h

/-- Loading ends at the first cell with a flaw, with what the cells in front of it leave behind. -/
lemma exists_of_registerAll_error {e : LoadError} (h : registerAll store l ds = .ok (store', .error e)) :
    ∃ loaded d rest, ds = loaded ++ d :: rest ∧ (∃ l', registerAll store l loaded = .ok (store', .ok l')) ∧
      ∃ flaw, flaw? store' d = some flaw ∧ e = .malformed (.libraryCell d.name flaw) := by
  induction ds generalizing store l with
  | nil => cases h
  | cons d ds ih =>
      cases hflaw : flaw? store d with
      | none =>
          obtain ⟨net, c, hcons⟩ := registerAll_cons (l := l) hflaw
          obtain ⟨loaded, d', rest, rfl, ⟨l', hloaded⟩, hend⟩ := ih ((hcons ds).symm.trans h)
          exact ⟨d :: loaded, d', rest, rfl, ⟨l', (hcons loaded).trans hloaded⟩, hend⟩
      | some flaw =>
          cases (registerAll_flawed hflaw ds).symm.trans h
          exact ⟨[], d, ds, rfl, ⟨l, rfl⟩, flaw, hflaw, rfl⟩

/-- Cells are loaded exactly if they can be. -/
lemma registerAll_eq_ok_iff :
    (∃ store' l', registerAll store l ds = .ok (store', .ok l')) ↔ Loadable store ds := by
  induction ds generalizing store l with
  | nil => exact ⟨fun _ => ⟨by simp, by simp, .nil⟩, fun _ => ⟨store, l, rfl⟩⟩
  | cons d ds ih =>
      cases hflaw : flaw? store d with
      | none =>
          obtain ⟨net, c, hcons⟩ := registerAll_cons (l := l) hflaw
          have one : Leaves store [d] ((store.addSubnet net).1.addComposite d.name store.subnets.size net
              (some d.costs)).1 := (leaves_nil _).cons
          rw [hcons, ih, one.loadable_iff, loadable_cons_iff, List.map_singleton]
          simp only [List.mem_singleton, hflaw, true_and]
      | some flaw =>
          refine ⟨fun ⟨_, _, h⟩ => ?_, fun loadable => ?_⟩
          · cases (registerAll_flawed hflaw ds).symm.trans h
          · cases hflaw.symm.trans (loadable_cons_iff.1 loadable).1

/-- Loading that fails at some cell leaves the store as loading the cells in front of it does: everything
that was in the store is still there, and these cells with their implementations and names are there too.
Whatever is to be loaded then, a corrected description too, is loaded exactly if it would have been loaded
into the store before and has none of the names of these cells. -/
theorem registerAll_leaves {e : LoadError} (h : registerAll store {} ds = .ok (store', .error e)) :
    ∃ loaded d rest, ds = loaded ++ d :: rest ∧
      (∃ flaw, flaw? store' d = some flaw ∧ e = .malformed (.libraryCell d.name flaw)) ∧
      (∃ l, registerAll store {} loaded = .ok (store', .ok l)) ∧ Leaves store loaded store' ∧
      ∀ ds', (∃ s l, registerAll store' {} ds' = .ok (s, .ok l)) ↔
        (∃ s l, registerAll store {} ds' = .ok (s, .ok l)) ∧
          ∀ d' ∈ ds', d'.name ∉ loaded.map (·.name) := by
  obtain ⟨loaded, d, rest, hds, ⟨l, hloaded⟩, hend⟩ := exists_of_registerAll_error h
  have leaves := leaves_of_registerAll hloaded
  refine ⟨loaded, d, rest, hds, hend, ⟨l, hloaded⟩, leaves, fun ds' => ?_⟩
  rw [registerAll_eq_ok_iff, registerAll_eq_ok_iff]
  exact leaves.loadable_iff

/-! ## A conjunction and a disjunction -/

/-- A cell of two inputs. -/
def twoInput (name table : String) (delay : List Float32) : CellDescription :=
  ⟨name, ["a", "b"], table, ⟨3, delay, [], []⟩⟩

/-- The disjunction has too few delays. -/
lemma exists_stopped : ∃ store' l,
    registerAll .empty {} [twoInput "and2" "8" [1, 1]] = .ok (store', .ok l) ∧
      registerAll .empty {} [twoInput "and2" "8" [1, 1], twoInput "or2" "e" [1]] =
        .ok (store', .error (.malformed (.libraryCell "or2" (.wrongCount "delay" 1 2)))) := by
  have sound : flaw? .empty (twoInput "and2" "8" [1, 1]) = none := by decide +kernel
  obtain ⟨net, c, hcons⟩ := registerAll_cons (l := {}) sound
  have flawed : ∀ store, flaw? store (twoInput "or2" "e" [1]) = some (.wrongCount "delay" 1 2) := by
    intro store
    have hflaw : (twoInput "or2" "e" [1]).flaw? maxClassVariables =
        some (.wrongCount "delay" 1 2) := by decide +kernel
    rw [flaw?, hflaw]
    rfl
  exact ⟨_, _, hcons [], (hcons _).trans (registerAll_flawed (flawed _) [])⟩

lemma loadable_twoInputs :
    Loadable .empty [twoInput "and2" "8" [1, 1], twoInput "or2" "e" [1, 1]] where
  sound := by decide +kernel
  free := by decide +kernel
  distinct := by decide +kernel

/-- The disjunction stops the loading, and a cell with another name is loaded afterwards. -/
theorem registerAll_leaves_twoInputs : ∃ store' e,
    registerAll .empty {} [twoInput "and2" "8" [1, 1], twoInput "or2" "e" [1]] =
        .ok (store', .error e) ∧
      ∃ s l, registerAll store' {} [twoInput "nor2" "1" [1, 1]] = .ok (s, .ok l) := by
  obtain ⟨store', -, -, hstopped⟩ := exists_stopped
  obtain ⟨loaded, d, rest, hds, -, -, -, retry⟩ := registerAll_leaves hstopped
  refine ⟨store', _, hstopped, (retry _).2 ⟨registerAll_eq_ok_iff.2 ⟨?_, ?_, ?_⟩, ?_⟩⟩
  · decide +kernel
  · decide +kernel
  · decide +kernel
  · have names : loaded.map (·.name) ⊆ ["and2", "or2"] := by
      intro name hname
      have hall := congrArg (List.map CellDescription.name) hds
      rw [List.map_append] at hall
      have hin := List.mem_append_left ((d :: rest).map (·.name)) hname
      rwa [← hall] at hin
    intro d' hd' hmem
    rw [List.mem_singleton.1 hd'] at hmem
    exact absurd (names hmem) (by decide)

/-- The conjunction stays when the loading stops at the disjunction, and so the corrected description is
refused. -/
theorem registerAll_keeps_conjunction : ∃ store' e,
    registerAll .empty {} [twoInput "and2" "8" [1, 1], twoInput "or2" "e" [1]] =
        .ok (store', .error e) ∧
      Store.empty.types.size = 13 ∧ store'.types.size = 14 ∧
      Store.empty.findType? "and2" = none ∧ store'.findType? "and2" = some 13 ∧
      (∃ s l, registerAll .empty {} [twoInput "and2" "8" [1, 1], twoInput "or2" "e" [1, 1]] =
        .ok (s, .ok l)) ∧
      ¬∃ s l, registerAll store' {} [twoInput "and2" "8" [1, 1], twoInput "or2" "e" [1, 1]] =
        .ok (s, .ok l) := by
  obtain ⟨store', l, hloaded, hstopped⟩ := exists_stopped
  have leaves := leaves_of_registerAll hloaded
  have unknown : Store.empty.findType? "and2" = none := by decide +kernel
  have known : store'.findType? "and2" = some 13 := by
    rw [leaves.names, unknown]
    rfl
  refine ⟨store', _, hstopped, rfl, leaves.types, unknown, known,
    registerAll_eq_ok_iff.2 loadable_twoInputs, fun loads => ?_⟩
  have free := (registerAll_eq_ok_iff.1 loads).free (twoInput "and2" "8" [1, 1]) (by simp)
  cases known.symm.trans free

end Library

end Gatework
