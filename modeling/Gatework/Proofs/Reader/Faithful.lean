import Gatework.Proofs.Reader.Printed

/-!
# The text form is faithful

What the printer writes for a network, the reader reads back, provided that every cell is of a type of
the store and printed under a name that the store finds the type by.  A network that the reader accepts
is always printed so: its names have been read as names and looked up (`Store.legible_of_read`).  So a text
may be laid out in any way, but its network is printed in one way.

**Main statement.** `Store.loadText_faithful`.
-/

namespace Gatework

namespace Store

variable {store : Store}

/-- The type that is found under a name has this name. -/
lemma name_of_findType? {name : String} {t : Nat} {type : CellType}
    (h : store.findType? name = some t) (htype : store.types[t]? = some type) : type.name = name := by
  have listed := NameIndex.name_of_find? h
  rw [htype] at listed
  exact Option.some.inj listed

/-- What can be read does not depend on the networks in the store. -/
lemma Legible.addSubnet {c : Cell} (h : store.Legible c) (net : Subnet) :
    (store.addSubnet net).1.Legible c := by
  obtain ⟨⟨type, admits⟩, spells⟩ := h
  exact ⟨⟨type, admits.listed, admits.symbol, admits.arity⟩, spells.name, spells.found⟩

/-- The names of the gates are names, and the gates are found by them. -/
lemma spells_gate (g : Gate) : empty.Spells (.ofGate g) where
  name := by
    have all : Gate.all.all (fun g => g.name.toList.head?.any Text.isNameStart &&
        g.name.toList.tail.all Text.isNamePart) = true := by decide +kernel
    have hg := List.all_eq_true.1 all g (List.mem_of_getElem? (Gate.all_getElem?_position g))
    rw [Bool.and_eq_true, Option.any_eq_true, List.all_eq_true] at hg
    obtain ⟨⟨c, hhead, hstart⟩, hpart⟩ := hg
    have name : empty.kindName (.ofGate g) = g.name := kindName_kindAt ((Extends.refl _).type_of_gate g)
    rw [name]
    exact ⟨c, _, List.eq_cons_of_mem_head? hhead, hstart, hpart⟩
  found := by
    cases g <;> decide +kernel

open Reader

variable {cs rest : List Char} {c : Cell} {net : Subnet} {i : Nat}

/-- An entry that is read is legible, and its number is below the limit. -/
lemma legible_of_entry (h : entry store i cs = .ok (c, rest)) :
    store.Legible c ∧ i < entryLimit := by
  rw [entry] at h
  obtain ⟨cs₁, -, h⟩ := bind_eq_ok_iff.1 h
  obtain ⟨⟨got, cs₂⟩, hnumber, h⟩ := bind_eq_ok_iff.1 h
  dsimp only at h
  split at h
  · cases h
  · rename_i hgot
    obtain ⟨cs₃, -, h⟩ := bind_eq_ok_iff.1 h
    obtain ⟨⟨name, cs₄⟩, hname, h⟩ := bind_eq_ok_iff.1 h
    dsimp only at h
    split at h
    · cases h
    · rename_i t hfound
      obtain ⟨⟨links, cs₅⟩, -, h⟩ := bind_eq_ok_iff.1 h
      dsimp only at h
      split at h
      · cases h
      · rename_i type htype
        split at h
        · rename_i harity
          cases h
          -- the cell is printed under the name that was read, which led to its type
          have hkind : store.kindName (type.kindAt t) = name :=
            (kindName_kindAt htype).trans (name_of_findType? hfound htype)
          refine ⟨⟨⟨type, admits_kindAt htype harity⟩, ?_, ?_⟩, ?_⟩
          · rw [hkind]
            exact isName_of_name hname
          · rw [hkind]
            exact hfound
          · exact not_ne_iff.1 hgot ▸ number_lt hnumber
        · cases h

lemma legible_of_entries {fuel : Nat} {read cells : Array Cell}
    (h : entries store fuel read cs = .ok (cells, rest)) (hread : ∀ c ∈ read, store.Legible c)
    (hsize : read.size ≤ entryLimit) :
    (∀ c ∈ cells, store.Legible c) ∧ cells.size ≤ entryLimit := by
  induction fuel generalizing read cs with
  | zero => cases h
  | succ fuel ih =>
      rw [entries] at h
      split at h
      · cases h
        exact ⟨hread, hsize⟩
      · obtain ⟨⟨c, cs'⟩, hentry, h⟩ := bind_eq_ok_iff.1 h
        obtain ⟨legible, hlt⟩ := legible_of_entry hentry
        refine ih h (fun d hd => ?_) (by rw [Array.size_push]; exact hlt)
        rcases Array.mem_push.1 hd with hd | rfl
        · exact hread d hd
        · exact legible

/-- A network that is read is printed so that it can be read again. -/
theorem legible_of_read {text : String} (h : store.read text = .ok net) :
    (∀ c ∈ net.cells, store.Legible c) ∧ net.size ≤ 2 ^ 32 := by
  unfold read at h
  split at h
  · cases h
  · rename_i cells hcells
    split at h
    · rename_i net' hnet
      cases h
      obtain ⟨hnet, -⟩ := Subnet.ofCells_eq_ok_iff.1 hnet
      rw [Subnet.size, hnet]
      rw [Reader.cells] at hcells
      obtain ⟨cs₁, -, hcells⟩ := bind_eq_ok_iff.1 hcells
      obtain ⟨cs₂, -, hcells⟩ := bind_eq_ok_iff.1 hcells
      obtain ⟨⟨read, cs₃⟩, hentries, hcells⟩ := bind_eq_ok_iff.1 hcells
      dsimp only at hcells
      split at hcells
      · cases hcells
        exact legible_of_entries hentries (by simp) (Nat.zero_le _)
      · cases hcells
    · cases h

/-- The text form is faithful over every store, whatever types are registered in it.  A network is read back
from its printed form, if the store has its types and finds each of them by its name, and there are no more
entries than entry numbers.  A network that was read from any text is read back from its printed form, which
is then printed again. -/
theorem loadText_faithful (store : Store) :
    (∀ net, store.Hosts net → (∀ c ∈ net.cells, store.Spells c.kind) → net.size ≤ 2 ^ 32 →
      store.loadText (store.render net) = ((store.addSubnet net).1, .ok net)) ∧
    ∀ text store' net, store.loadText text = (store', .ok net) →
      ∃ store'', store'.loadText (store'.render net) = (store'', .ok net) ∧
        store''.render net = store'.render net := by
  refine ⟨fun net hosts spells hsize => ?_, fun text store' net h => ?_⟩
  · rw [loadText, read_render (fun c hc => ⟨hosts c hc, spells c hc⟩) hsize]
  · unfold loadText at h
    split at h
    · rename_i net' hread
      cases h
      obtain ⟨legible, hsize⟩ := legible_of_read hread
      refine ⟨((store.addSubnet net).1.addSubnet net).1, ?_, rfl⟩
      rw [loadText, read_render (fun c hc => (legible c hc).addSubnet net) hsize]
    · cases h

lemma spells_crossed : ∀ c ∈ crossed.cells, crossingStore.Spells c.kind := by
  have name : ∀ c cs, Text.isNameStart c = true → cs.all Text.isNamePart = true →
      IsName (String.ofList (c :: cs)) := fun c cs hc hcs =>
    ⟨c, cs, String.toList_ofList, hc, List.all_eq_true.1 hcs⟩
  have input : crossingStore.Spells (.ofGate .input) :=
    ⟨name 'i' ['n'] (by decide +kernel) (by decide +kernel), by decide +kernel⟩
  have output : crossingStore.Spells (.ofGate .output) :=
    ⟨name 'o' ['u', 't'] (by decide +kernel) (by decide +kernel), by decide +kernel⟩
  have cross : crossingStore.Spells ⟨.cell, 13⟩ := by
    have hname : crossingStore.kindName ⟨.cell, 13⟩ = "cross" := by
      rw [kindName, type_crossingStore]
      rfl
    refine ⟨?_, ?_⟩ <;> rw [hname]
    · exact name 'c' ['r', 'o', 's', 's'] (by decide +kernel) (by decide +kernel)
    · decide +kernel
  have repeats : crossingStore.Spells ⟨.gate .buf, 14⟩ := by
    have hname : crossingStore.kindName ⟨.gate .buf, 14⟩ = "repeater" := by
      rw [kindName, type_repeater]
      rfl
    refine ⟨?_, ?_⟩ <;> rw [hname]
    · exact name 'r' ['e', 'p', 'e', 'a', 't', 'e', 'r'] (by decide +kernel) (by decide +kernel)
    · decide +kernel
  simp [crossed, Cell.input, Cell.output, input, output, cross, repeats]

/-- A crossing and a repeater, which is not taken for a built-in buffer, are read back from their printed
form, and a text with nothing between its braces is printed and read back in turn. -/
theorem loadText_faithful_crossed :
    crossingStore.loadText (crossingStore.render crossed) =
        ((crossingStore.addSubnet crossed).1, .ok crossed) ∧
      ∃ store'', (Store.empty.addSubnet hollow).1.loadText
          ((Store.empty.addSubnet hollow).1.render hollow) = (store'', .ok hollow) ∧
        store''.render hollow = (Store.empty.addSubnet hollow).1.render hollow := by
  refine ⟨?_, ?_⟩
  · exact (loadText_faithful crossingStore).1 crossed hosts_crossed spells_crossed (by decide)
  · exact (loadText_faithful .empty).2 "subnet\x7b \x7d" _ hollow rfl

end Store

end Gatework
