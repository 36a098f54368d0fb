import Gatework.Proofs.Allocation
import Gatework.Proofs.Library.Loading

/-!
# The names of loaded cells

A store that grows keeps its records, and a name keeps leading to the type that was registered first under
it (`Store.Retains`).  The loader takes a name only if it leads nowhere, so in the store with the cells of
a library each cell is found by its name (`Library.named_ofBytes`).
-/

namespace Gatework

namespace Store

/-- The second store has all records of the first at the same positions, and it finds what the first one
finds. -/
structure Retains (store store' : Store) : Prop extends Extends store store' where
  texts : ∀ (i : Nat) text, store.texts[i]? = some text → store'.texts[i]? = some text
  names : ∀ n t, store.findType? n = some t → store'.findType? n = some t
  interned : ∀ text i, store.textIndex.find? text = some i → store'.textIndex.find? text = some i

namespace Retains

variable {store store' store'' : Store}

lemma refl (store : Store) : store.Retains store :=
  ⟨.refl store, fun _ _ h => h, fun _ _ h => h, fun _ _ h => h⟩

lemma trans (h : store.Retains store') (h' : store'.Retains store'') : store.Retains store'' where
  toExtends := h.toExtends.trans h'.toExtends
  texts i text ht := h'.texts i text (h.texts i text ht)
  names n t ht := h'.names n t (h.names n t ht)
  interned text i ht := h'.interned text i (h.interned text i ht)

lemma addSubnet (store : Store) (net : Subnet) : store.Retains (store.addSubnet net).1 :=
  ⟨.addSubnet store net, fun _ _ h => h, fun _ _ h => h, fun _ _ h => h⟩

lemma intern (store : Store) (text : String) : store.Retains (store.intern text).1 where
  types i t h := by rwa [types_intern]
  subnets i net h := by rwa [subnets_intern]
  texts i t h := by
    unfold Store.intern
    split
    · exact h
    · exact (Arena.getElem?_push_lt (Arena.lt_size_of_getElem? h)).trans h
  names n t h := by rwa [findType?_intern]
  interned t i h := by
    rw [find?_intern, h]
    rfl

lemma registerType (store : Store) (type : CellType) : store.Retains (store.registerType type).1 where
  types i t h := by rw [types_registerType, Arena.getElem?_push_lt (Arena.lt_size_of_getElem? h), h]
  subnets i net h := h
  texts i t h := h
  names n t h := by
    rw [findType?_registerType, h]
    rfl
  interned t i h := h

lemma addType (store : Store) (type : CellType) : store.Retains (store.addType type).1 :=
  (intern store type.name).trans (registerType _ type)

end Retains

/-- A type that is registered under a new name is found by the name. -/
lemma findType?_addType (store : Store) (type : CellType) (n : String) :
    (store.addType type).1.findType? n =
      (store.findType? n).or (if n = type.name then some store.types.size else none) := by
  rw [addType, findType?_registerType, findType?_intern, types_intern]

end Store

/-- A cell of a library is found by its name, which is that of its type. -/
structure LibraryCell.Named (store : Store) (c : LibraryCell) : Prop where
  type : ∃ t, store.types[c.type]? = some t ∧ t.name = c.name
  found : store.findType? c.name = some c.type

lemma LibraryCell.Named.retains {store store' : Store} {c : LibraryCell} (h : c.Named store)
    (grows : store.Retains store') : c.Named store' where
  type := by
    obtain ⟨t, ht, hname⟩ := h.type
    exact ⟨t, grows.types _ t ht, hname⟩
  found := grows.names _ _ h.found

lemma LibraryCell.Named.kindName_eq {store : Store} {c : LibraryCell} (h : c.Named store) :
    store.kindName ⟨.cell, c.type⟩ = c.name := by
  obtain ⟨t, ht, hname⟩ := h.type
  rw [Store.kindName, ht]
  exact hname

namespace Library

variable {store store' : Store} {l l' : Library} {d : CellDescription}

/-- Registering a cell adds its implementation, its name and its type, and nothing else. -/
lemma exists_register (l : Library) (store : Store) (function : TruthTable d.inputs.length)
    (hn : d.inputs.length ≤ maxClassVariables) : ∃ (net : Subnet) (c : LibraryCell),
      c.name = d.name ∧ c.type = store.types.size ∧ l.register store d function =
        .ok (((store.addSubnet net).1.addComposite d.name store.subnets.size net (some d.costs)).1,
          l.push c) := by
  obtain ⟨net, hnet, -⟩ := exists_implementation hn function
  rw [register, hnet, ok_bind]
  refine ⟨net, _, rfl, ?_, rfl⟩
  show (((store.addSubnet net).1.intern d.name).1.types).size = store.types.size
  rw [Store.types_intern]
  rfl

/-- A description has no flaw if it has none by itself and its name is not taken. -/
lemma flaw?_eq_none_iff :
    flaw? store d = none ↔ d.flaw? maxClassVariables = none ∧ store.findType? d.name = none := by
  rw [flaw?, Option.or_eq_none_iff]
  cases store.findType? d.name <;> simp

/-- What registering a cell does to the store. -/
lemma register_eq {function : TruthTable d.inputs.length} (hn : d.inputs.length ≤ maxClassVariables)
    (h : l.register store d function = .ok (store', l')) : ∃ (net : Subnet) (c : LibraryCell),
      c.name = d.name ∧ c.type = store.types.size ∧ l' = l.push c ∧ store' =
        ((store.addSubnet net).1.addComposite d.name store.subnets.size net (some d.costs)).1 := by
  obtain ⟨net, c, hname, htype, hregister⟩ := exists_register l store function hn
  cases hregister.symm.trans h
  exact ⟨net, c, hname, htype, rfl, rfl⟩

lemma retains_register {function : TruthTable d.inputs.length} (hn : d.inputs.length ≤ maxClassVariables)
    (h : l.register store d function = .ok (store', l')) : store.Retains store' := by
  obtain ⟨net, c, -, -, -, rfl⟩ := register_eq hn h
  exact (Store.Retains.addSubnet store net).trans (.addType _ _)

/-- Loading a library keeps what is in the store. -/
lemma retains_ofBytes {file : List UInt8} (h : ofBytes store file = .ok (store', .ok l)) :
    store.Retains store' :=
  ofBytes_keeps (P := fun s _ => store.Retains s)
    (fun hflaw h hregister => h.trans (retains_register (length_inputs_of_flaw? hflaw) hregister))
    (.refl store) h

/-- A cell whose name led nowhere is found by it, and so are the cells in front of it. -/
lemma named_register {function : TruthTable d.inputs.length} (hflaw : flaw? store d = none)
    (named : ∀ c ∈ l.cells, c.Named store) (h : l.register store d function = .ok (store', l')) :
    ∀ c ∈ l'.cells, c.Named store' := by
  have hn := length_inputs_of_flaw? hflaw
  have retains := retains_register hn h
  obtain ⟨net, c, hname, htype, rfl, rfl⟩ := register_eq hn h
  intro e he
  rcases Array.mem_push.1 he with he | rfl
  · exact (named e he).retains retains
  · have free : (store.addSubnet net).1.findType? d.name = none := (flaw?_eq_none_iff.1 hflaw).2
    rw [Store.addComposite]
    refine ⟨⟨.ofSubnet d.name store.subnets.size net (some d.costs), ?_, hname.symm⟩, ?_⟩
    · rw [Store.types_addType, htype]
      exact Arena.getElem?_push_size ..
    · rw [Store.findType?_addType, hname, free, htype]
      exact if_pos rfl

/-- The cells of a library that is read from a file are found by their names. -/
theorem named_ofBytes {file : List UInt8} (h : ofBytes store file = .ok (store', .ok l)) :
    ∀ c ∈ l.cells, c.Named store' :=
  ofBytes_keeps (P := fun store l => ∀ c ∈ l.cells, c.Named store) named_register (by simp) h

end Library

end Gatework
