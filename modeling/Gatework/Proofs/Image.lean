import Mathlib.Data.List.Forall2
import Gatework.Proofs.Bytes
import Gatework.Proofs.Handle
import Gatework.Proofs.Types
import Gatework.Subnet.Image

/-!
# Networks in binary form

Writing a network and reading it back are inverse to each other.  An image that is decoded from bytes
is encoded in them (`Image.canonical`), and an image that is restored is the image of the network that
comes of it (`Store.restore_eq_ok_iff`): an entry is restored only if it carries the handle of its type's
position, the one handle that is written for a cell of the type.

**Main statement.** `Store.loadBytes_faithful`.
-/

namespace Gatework

namespace Image

open Bytes

/-! ## The layout -/

/-- The numbers in an image fit the fields that the layout has for them. -/
structure Fits (image : Image) : Prop where
  inputs : image.inputs < 2 ^ 32
  outputs : image.outputs < 2 ^ 32
  size : image.entries.length < 2 ^ 64
  length : ∀ e ∈ image.entries, e.links.length < 2 ^ 64
  driver : ∀ e ∈ image.entries, ∀ l ∈ e.links, l.entry < 2 ^ 32

lemma reads_link {l : Link} (h : l.entry < 2 ^ 32) : Reads decodeLink encodeLink l := by
  intro rest
  have hentry : l.entry < 256 ^ 4 := h
  have hport : l.port.toNat < 256 ^ 2 := l.port.toNat_lt
  rw [encodeLink, List.append_assoc, List.append_assoc, decodeLink]
  simp only [reads_nat hentry _, reads_nat hport _, reads_bool l.inverted _, ok_bind,
    UInt16.ofNat_toNat]
  rfl

lemma reads_entry {e : ImageEntry} (length : e.links.length < 2 ^ 64)
    (driver : ∀ l ∈ e.links, l.entry < 2 ^ 32) : Reads decodeEntry encodeEntry e := by
  intro rest
  have hraw : e.type.raw.toNat < 256 ^ 8 := e.type.raw.toNat_lt
  rw [encodeEntry, List.append_assoc, decodeEntry]
  simp only [reads_nat hraw _, ok_bind,
    reads_list (show e.links.length < 256 ^ 8 from length) (fun l hl => reads_link (driver l hl)) _,
    UInt64.ofNat_toNat]
  rfl

/-- An image is read back. -/
lemma reads {image : Image} (fits : image.Fits) : Reads decode encode image := by
  intro rest
  have hentries := reads_list (show image.entries.length < 256 ^ 8 from fits.size)
    fun e he => reads_entry (fits.length e he) (fits.driver e he)
  rw [encode, List.append_assoc, List.append_assoc, decode]
  simp only [reads_nat (show image.inputs < 256 ^ 4 from fits.inputs) _,
    reads_nat (show image.outputs < 256 ^ 4 from fits.outputs) _, hentries _, ok_bind]
  rfl

lemma canonical_link : Canonical decodeLink encodeLink := by
  intro bytes l rest h
  rw [decodeLink] at h
  obtain ⟨⟨entry, bytes₁⟩, hentry, h⟩ := bind_eq_ok_iff.1 h
  obtain ⟨⟨port, bytes₂⟩, hport, h⟩ := bind_eq_ok_iff.1 h
  obtain ⟨⟨inverted, bytes₃⟩, hinverted, h⟩ := bind_eq_ok_iff.1 h
  cases h
  have hlt : port < 2 ^ 16 := decodeNat_lt hport
  rw [canonical_nat 4 hentry, canonical_nat 2 hport, canonical_bool hinverted, encodeLink,
    UInt16.toNat_ofNat_of_lt' hlt, List.append_assoc, List.append_assoc]

lemma canonical_entry : Canonical decodeEntry encodeEntry := by
  intro bytes e rest h
  rw [decodeEntry] at h
  obtain ⟨⟨raw, bytes₁⟩, hraw, h⟩ := bind_eq_ok_iff.1 h
  obtain ⟨⟨links, bytes₂⟩, hlinks, h⟩ := bind_eq_ok_iff.1 h
  cases h
  have hlt : raw < 2 ^ 64 := decodeNat_lt hraw
  rw [canonical_nat 8 hraw, canonical_list canonical_link hlinks, encodeEntry,
    UInt64.toNat_ofNat_of_lt' hlt, List.append_assoc]

/-- Every image has one encoding. -/
lemma canonical : Canonical decode encode := by
  intro bytes image rest h
  rw [decode] at h
  obtain ⟨⟨inputs, bytes₁⟩, hinputs, h⟩ := bind_eq_ok_iff.1 h
  obtain ⟨⟨outputs, bytes₂⟩, houtputs, h⟩ := bind_eq_ok_iff.1 h
  obtain ⟨⟨entries, bytes₃⟩, hentries, h⟩ := bind_eq_ok_iff.1 h
  cases h
  rw [canonical_nat 4 hinputs, canonical_nat 4 houtputs, canonical_list canonical_entry hentries,
    encode, List.append_assoc, List.append_assoc]

end Image

/-! ## Restoring -/

/-- The entry of an image that a cell has. -/
def Cell.imageEntry (c : Cell) : ImageEntry := ⟨.ofPosition .cellType c.kind.type, c.links⟩

/-- The numbers in a network fit the fields that the binary form has for them: terminals are counted and
entries are named by numbers of 32 bits, entries and links are counted by numbers of 64, and a handle has
room for the position of a type.  Where counts and handles have these widths in memory already, nothing of
this is a condition. -/
structure Subnet.Encodable (net : Subnet) : Prop where
  inputs : net.numInputs < 2 ^ 32
  outputs : net.numOutputs < 2 ^ 32
  size : net.size < 2 ^ 64
  length : ∀ c ∈ net.cells, c.links.length < 2 ^ 64
  driver : ∀ c ∈ net.cells, ∀ d ∈ c.drivers, d < 2 ^ 32
  type : ∀ c ∈ net.cells, c.kind.type < 2 ^ Handle.positionBits

namespace Store

variable {store : Store} {net : Subnet} {image : Image} {e : ImageEntry} {c : Cell} {i : Nat}

/-- An entry is restored to the cell that it was made from, if the store admits the cell, a handle has room
for its type, and the cell reads earlier entries only. -/
lemma restoreEntry_eq_ok_iff : Image.restoreEntry store i e = .ok c ↔
    e = c.imageEntry ∧ (∃ type, store.Admits c type) ∧ c.kind.type < 2 ^ Handle.positionBits ∧
      ∀ l ∈ c.links, l.entry < i := by
  constructor
  · intro h
    unfold Image.restoreEntry at h
    split at h
    · rename_i hresolves
      split at h
      · cases h
      · rename_i type htype
        split at h
        · rename_i harity
          split at h
          · cases h
          · rename_i hfind
            cases h
            have hhandle := Handle.ofPosition_position (Bool.and_eq_true_iff.1 hresolves).1
            refine ⟨?_, ⟨type, admits_kindAt htype harity⟩, e.type.position_lt, fun l hl => ?_⟩
            · rw [Cell.imageEntry, CellType.kindAt, hhandle]
            · simpa using List.find?_eq_none.1 hfind l hl
        · cases h
    · cases h
  · rintro ⟨rfl, ⟨type, admits⟩, hlt, hlinks⟩
    have hposition : c.imageEntry.type.position = c.kind.type := Handle.position_ofPosition hlt
    have hresolves : store.resolves .cellType c.imageEntry.type = true := by
      refine Bool.and_eq_true_iff.2 ⟨Handle.belongsTo_ofPosition hlt, ?_⟩
      rw [record?, hposition, admits.listed]
      rfl
    have hfind : c.links.find? (fun l => decide (i ≤ l.entry)) = none :=
      List.find?_eq_none.2 fun l hl => by simpa using hlinks l hl
    unfold Image.restoreEntry
    rw [if_pos hresolves]
    simp only [hposition, admits.listed]
    simp only [Cell.imageEntry, admits.arity, admits.kind, hfind, if_true]

/-- The entries that are restored are those that the cells of the network have. -/
lemma forall₂_restoreEntry_iff :
    List.Forall₂ (fun p c => Image.restoreEntry store p.2 p.1 = .ok c) image.entries.zipIdx
      net.cells.toList ↔
        image.entries = net.cells.toList.map Cell.imageEntry ∧ store.Hosts net ∧
          ∀ c ∈ net.cells, c.kind.type < 2 ^ Handle.positionBits := by
  simp only [restoreEntry_eq_ok_iff, List.forall₂_iff_get, List.length_zipIdx,
    List.get_eq_getElem, List.getElem_zipIdx, Nat.zero_add]
  constructor
  · rintro ⟨hlength, hentries⟩
    refine ⟨List.ext_getElem (by simpa using hlength) fun i hi hi' => ?_, fun c hc => ?_,
      fun c hc => ?_⟩
    · rw [List.getElem_map]
      exact (hentries i hi (hlength ▸ hi)).1
    · obtain ⟨i, hi, rfl⟩ := List.mem_iff_getElem.1 (Array.mem_toList_iff.2 hc)
      exact (hentries i (hlength ▸ hi) hi).2.1
    · obtain ⟨i, hi, rfl⟩ := List.mem_iff_getElem.1 (Array.mem_toList_iff.2 hc)
      exact (hentries i (hlength ▸ hi) hi).2.2.1
  · rintro ⟨heq, hosts, types⟩
    refine ⟨by simp [heq], fun i hi hi' => ⟨by simp [heq], ?_, ?_, fun l hl => ?_⟩⟩
    · exact hosts _ (Array.mem_toList_iff.1 (List.getElem_mem hi'))
    · exact types _ (Array.mem_toList_iff.1 (List.getElem_mem hi'))
    · have hcell : net.cells[i]? = some net.cells.toList[i] := by
        rw [← Array.getElem?_toList, List.getElem?_eq_getElem hi']
      exact (net.obeys hcell).lt_of_reads _ (List.mem_map_of_mem hl)

/-- An image is restored to the network that it was made from, if the store has the types for it and handles
have room for them. -/
theorem restore_eq_ok_iff : image.restore store = .ok net ↔
    image = net.image ∧ store.Hosts net ∧ ∀ c ∈ net.cells, c.kind.type < 2 ^ Handle.positionBits := by
  have parts : image.restore store = .ok net ↔
      image.entries.zipIdx.mapM (fun p => Image.restoreEntry store p.2 p.1) = .ok net.cells.toList ∧
        net.numInputs = image.inputs ∧ net.numOutputs = image.outputs := by
    rw [Image.restore, bind_eq_ok_iff]
    constructor
    · rintro ⟨cells, hcells, h⟩
      cases hnet : Subnet.ofCells cells.toArray image.inputs image.outputs with
      | ok net' =>
          rw [hnet] at h
          cases h
          obtain ⟨hcells', terminals⟩ := Subnet.ofCells_eq_ok_iff.1 hnet
          rw [hcells']
          exact ⟨hcells, terminals⟩
      | error v =>
          rw [hnet] at h
          cases h
    · rintro ⟨hcells, terminals⟩
      refine ⟨_, hcells, ?_⟩
      rw [Array.toArray_toList, Subnet.ofCells_eq_ok_iff.2 ⟨rfl, terminals⟩]
  rw [parts, mapM_eq_ok_iff, forall₂_restoreEntry_iff]
  constructor
  · rintro ⟨⟨hentries, hosts⟩, hin, hout⟩
    refine ⟨?_, hosts⟩
    show image = ⟨net.numInputs, net.numOutputs, net.cells.toList.map Cell.imageEntry⟩
    rw [hin, hout, ← hentries]
  · rintro ⟨rfl, hosts⟩
    exact ⟨⟨rfl, hosts⟩, rfl, rfl⟩

/-- What fits the fields of the binary form can be written. -/
lemma fits_image (encodable : net.Encodable) : net.image.Fits := by
  have cells : ∀ e ∈ net.image.entries, ∃ c ∈ net.cells, e.links = c.links := by
    intro e he
    obtain ⟨c, hc, rfl⟩ := List.mem_map.1 he
    exact ⟨c, Array.mem_toList_iff.1 hc, rfl⟩
  refine ⟨encodable.inputs, encodable.outputs, ?_, fun e he => ?_, fun e he l hl => ?_⟩
  · simpa [Subnet.image, Subnet.size] using encodable.size
  · obtain ⟨c, hc, hlinks⟩ := cells e he
    rw [hlinks]
    exact encodable.length c hc
  · obtain ⟨c, hc, hlinks⟩ := cells e he
    rw [hlinks] at hl
    exact encodable.driver c hc _ (List.mem_map_of_mem hl)

lemma readBytes_toBytes (hosts : store.Hosts net) (encodable : net.Encodable) (rest : List UInt8) :
    store.readBytes (net.toBytes ++ rest) = .ok net := by
  rw [readBytes, Subnet.toBytes, Image.reads (fits_image encodable)]
  exact restore_eq_ok_iff.2 ⟨rfl, hosts, encodable.type⟩

lemma toBytes_of_readBytes {bytes : List UInt8} (h : store.readBytes bytes = .ok net) :
    ∃ rest, bytes = net.toBytes ++ rest := by
  unfold readBytes at h
  split at h
  · rename_i image rest hdecode
    obtain ⟨rfl, -⟩ := restore_eq_ok_iff.1 h
    exact ⟨rest, Image.canonical hdecode⟩
  · cases h

/-- The binary form is faithful over every store, whatever types are registered in it.  A network is read
back from its bytes, whatever stands behind them, in the store that has its types, and in every store that
begins with the gates if all of its cells are of built-in types; the bytes that a network is read from begin
with the bytes that are written for it; and a store in which nothing is read stays as it is. -/
theorem loadBytes_faithful (store : Store) :
    (∀ net, store.Hosts net → net.Encodable → ∀ rest,
      store.loadBytes (net.toBytes ++ rest) = ((store.addSubnet net).1, .ok net) ∧
      ((∀ c ∈ net.cells, ∃ g, c.kind = .ofGate g) → Store.empty.Extends store →
        ∀ other : Store, Store.empty.Extends other →
        other.loadBytes (net.toBytes ++ rest) = ((other.addSubnet net).1, .ok net))) ∧
    (∀ bytes store' net, store.loadBytes bytes = (store', .ok net) → net.toBytes <+: bytes) ∧
    ∀ bytes store' e, store.loadBytes bytes = (store', .error e) → store' = store := by
  refine ⟨fun net hosts encodable rest => ⟨?_, fun built gates other gates' => ?_⟩, ?_, ?_⟩
  · rw [loadBytes, readBytes_toBytes hosts encodable]
  · rw [loadBytes, readBytes_toBytes (hosts.of_gates gates built gates') encodable]
  · intro bytes store' net h
    unfold loadBytes at h
    split at h
    · rename_i net' hread
      obtain ⟨rest, hrest⟩ := toBytes_of_readBytes hread
      cases h
      exact ⟨rest, hrest.symm⟩
    · cases h
  · intro bytes store' e h
    unfold loadBytes at h
    split at h
    · cases h
    · cases h
      rfl

lemma encodable_crossed : crossed.Encodable := by
  refine ⟨by decide, by decide, by decide, ?_, ?_, ?_⟩
  all_goals simp [crossed, Cell.drivers, Cell.input, Cell.output, Link.of, Link.invert, Link.invertIf]
  decide

lemma encodable_crossing : crossing.Encodable := by
  refine ⟨by decide, by decide, by decide, ?_, ?_, ?_⟩
  all_goals simp [crossing, Cell.drivers, Cell.input, Cell.output, Link.of]
  decide

/-- A crossing and a repeater are read back where they are registered, and the implementation of the crossing
also where it is not. -/
theorem loadBytes_faithful_crossed :
    crossingStore.loadBytes (crossed.toBytes ++ [7]) =
        ((crossingStore.addSubnet crossed).1, .ok crossed) ∧
      crossingStore.loadBytes (crossing.toBytes ++ [7]) =
        ((crossingStore.addSubnet crossing).1, .ok crossing) ∧
      hollow.toBytes <+: List.replicate 16 0 ++ [7] ∧ (Store.empty.loadBytes [7]).1 = Store.empty := by
  have built : ∀ c ∈ crossing.cells, ∃ g, c.kind = .ofGate g := by
    simp [crossing, Cell.input, Cell.output]
  refine ⟨?_, ?_, ?_, ?_⟩
  · exact ((loadBytes_faithful crossingStore).1 crossed hosts_crossed encodable_crossed [7]).1
  · exact ((loadBytes_faithful .empty).1 crossing hosts_crossing encodable_crossing [7]).2 built
      (.refl _) crossingStore gates_crossingStore
  · exact (loadBytes_faithful .empty).2.1 _ _ hollow rfl
  · exact (loadBytes_faithful .empty).2.2 [7] _ _ rfl

end Store

end Gatework
