import Mathlib.Data.List.Forall2
import Mathlib.Data.Set.Function
import Gatework.Proofs.Image

/-!
# Imprints

An imprint has fields of fixed width for all the numbers in a network.  How many cells there are is not
among them; a cell begins with its type and the number of its links, so it is known where it ends, and the
cells can be taken off the front one after the other (`cellImprint_inj`).  Where the numbers fit their
fields (`Subnet.FitsImprint`) two networks have one imprint exactly if they are alike: the same numbers of
inputs and outputs, and entry by entry the same type and the same links.  The same holds of fingerprints if
the hash function takes different imprints to different digests.

Networks that are alike may still differ in the symbols of their cells.  Where cells carry the symbols of
their types there is no such difference.

**Main statements.** `Subnet.imprint_unambiguous`, `Store.imprint_injective`.
-/

namespace Gatework

/-- The handle of the type of a cell. -/
def Cell.typeHandle (c : Cell) : Handle := .ofPosition .cellType c.kind.type

/-- The numbers in a network fit the fields that imprints have for them: eight bytes for the number of inputs
and that of outputs, four for the number of links of a cell and for the entry that a link names.  Where
counts are 64-bit numbers and entries 32-bit numbers, only `lengths` is a condition. -/
structure Subnet.FitsImprint (net : Subnet) : Prop where
  inputs : net.numInputs < 2 ^ 64
  outputs : net.numOutputs < 2 ^ 64
  lengths : ∀ c ∈ net.cells, c.links.length < 2 ^ 32
  entries : ∀ c ∈ net.cells, ∀ l ∈ c.links, l.entry < 2 ^ 32

/-- The numbers in a network fit the fields that links, handles and imprints have for them. -/
structure Subnet.Addressable (net : Subnet) : Prop where
  size : net.size ≤ 2 ^ 32
  links : ∀ c ∈ net.cells, c.links.length < 2 ^ 32
  types : ∀ c ∈ net.cells, c.kind.type < 2 ^ Handle.positionBits

/-- Two networks have the same numbers of inputs and outputs and the same entries: the types have the same
handles, and the links name the same entries, ports and polarities in the same order. -/
structure Subnet.Alike (a b : Subnet) : Prop where
  inputs : a.numInputs = b.numInputs
  outputs : a.numOutputs = b.numOutputs
  entries : List.Forall₂ (fun c d => c.typeHandle = d.typeHandle ∧ c.links = d.links) a.cells.toList
    b.cells.toList

/-- The fingerprint of a network under a hash function. -/
def Subnet.fingerprint {Digest : Type} (hash : List UInt8 → Digest) (net : Subnet) : Digest :=
  hash net.imprint

namespace Subnet

variable {a b net : Subnet}

lemma Addressable.fitsImprint (h : net.Addressable) : net.FitsImprint := by
  have hterminals := net.numInputs_add_numOutputs_le
  have hsize := h.size
  refine ⟨by omega, by omega, h.links, fun c hc l hl => ?_⟩
  obtain ⟨i, hi, rfl⟩ := Array.mem_iff_getElem.1 hc
  have hobeys := net.obeys (Array.getElem?_eq_getElem hi)
  exact (hobeys.lt_of_reads _ (List.mem_map_of_mem hl)).trans (hi.trans_le h.size)

/-- The part of an imprint that one cell has. -/
def cellImprint (c : Cell) : List UInt8 :=
  Bytes.encodeNat 8 c.typeHandle.raw.toNat ++ Bytes.encodeNat 4 c.links.length ++
    c.links.flatMap Image.encodeLink

lemma imprint_eq (net : Subnet) : net.imprint = Bytes.encodeNat 8 net.numInputs ++
    (Bytes.encodeNat 8 net.numOutputs ++ net.cells.toList.flatMap cellImprint) := by
  rw [imprint, List.append_assoc]
  rfl

/-- Two cells whose parts are equal have the same type and the same links, whatever stands behind them. -/
lemma cellImprint_inj {c d : Cell} (hc : c ∈ a.cells) (hd : d ∈ b.cells) (ha : a.FitsImprint)
    (hb : b.FitsImprint) {r s : List UInt8} (h : cellImprint c ++ r = cellImprint d ++ s) :
    c.typeHandle = d.typeHandle ∧ c.links = d.links ∧ r = s := by
  have hraw : ∀ e : Cell, e.typeHandle.raw.toNat < 256 ^ 8 := fun e => e.typeHandle.raw.toNat_lt
  simp only [cellImprint, List.append_assoc] at h
  obtain ⟨htype, h⟩ := (Bytes.reads_nat (hraw c)).eq_of_append (Bytes.reads_nat (hraw d)) h
  obtain ⟨hlength, h⟩ :=
    (Bytes.reads_nat (show c.links.length < 256 ^ 4 from ha.lengths c hc)).eq_of_append
      (Bytes.reads_nat (show d.links.length < 256 ^ 4 from hb.lengths d hd)) h
  have hlinks := Bytes.reads_many fun l hl => Image.reads_link (ha.entries c hc l hl)
  rw [hlength] at hlinks
  obtain ⟨hlinks, h⟩ := hlinks.eq_of_append
    (Bytes.reads_many fun l hl => Image.reads_link (hb.entries d hd l hl)) h
  exact ⟨congrArg Handle.mk (UInt64.toNat_inj.1 htype), hlinks, h⟩

/-- Networks with equal imprints are alike. -/
lemma alike_of_imprint (ha : a.FitsImprint) (hb : b.FitsImprint) (h : a.imprint = b.imprint) :
    a.Alike b := by
  rw [imprint_eq, imprint_eq] at h
  obtain ⟨hin, h⟩ := (Bytes.reads_nat (show a.numInputs < 256 ^ 8 from ha.inputs)).eq_of_append
    (Bytes.reads_nat (show b.numInputs < 256 ^ 8 from hb.inputs)) h
  obtain ⟨hout, h⟩ := (Bytes.reads_nat (show a.numOutputs < 256 ^ 8 from ha.outputs)).eq_of_append
    (Bytes.reads_nat (show b.numOutputs < 256 ^ 8 from hb.outputs)) h
  refine ⟨hin, hout, ?_⟩
  have hca : ∀ c ∈ a.cells.toList, c ∈ a.cells := fun c hc => by simpa using hc
  have hcb : ∀ d ∈ b.cells.toList, d ∈ b.cells := fun d hd => by simpa using hd
  generalize a.cells.toList = cs at h hca
  generalize b.cells.toList = ds at h hcb
  -- a cell has a part that is not empty, so the two lists end together
  have nonempty : ∀ c, cellImprint c ≠ [] := fun c => by simp [cellImprint, Bytes.encodeNat]
  induction cs generalizing ds with
  | nil =>
      cases ds with
      | nil => exact .nil
      | cons d ds => simp [nonempty] at h
  | cons c cs ih =>
      cases ds with
      | nil => simp [nonempty] at h
      | cons d ds =>
          rw [List.flatMap_cons, List.flatMap_cons] at h
          obtain ⟨htype, hlinks, h⟩ :=
            cellImprint_inj (hca c (by simp)) (hcb d (by simp)) ha hb h
          exact .cons ⟨htype, hlinks⟩
            (ih (fun e he => hca e (by simp [he])) ds h fun e he => hcb e (by simp [he]))

lemma Alike.imprint_eq (h : a.Alike b) : a.imprint = b.imprint := by
  have hcells : a.cells.toList.flatMap cellImprint = b.cells.toList.flatMap cellImprint := by
    have hentries := h.entries
    generalize a.cells.toList = cs at hentries ⊢
    generalize b.cells.toList = ds at hentries ⊢
    induction hentries with
    | nil => rfl
    | cons hentry _ ih =>
        rw [List.flatMap_cons, List.flatMap_cons, ih, cellImprint, cellImprint, hentry.1, hentry.2]
  rw [Subnet.imprint_eq, Subnet.imprint_eq, h.inputs, h.outputs, hcells]

/-- Where the numbers in two networks fit their fields, the networks have the same imprint exactly if they are
alike, and the same fingerprint exactly then, provided that the hash function takes no two of the byte
strings that it is used on to one digest. -/
theorem imprint_unambiguous (ha : a.FitsImprint) (hb : b.FitsImprint) :
    (a.imprint = b.imprint ↔ a.Alike b) ∧
      ∀ {Digest : Type} (hash : List UInt8 → Digest) (hashed : Set (List UInt8)),
        hashed.InjOn hash → a.imprint ∈ hashed → b.imprint ∈ hashed →
          (a.fingerprint hash = b.fingerprint hash ↔ a.Alike b) := by
  have himprint : a.imprint = b.imprint ↔ a.Alike b := ⟨alike_of_imprint ha hb, Alike.imprint_eq⟩
  refine ⟨himprint, fun {Digest} hash hashed injective hain hbin => ?_⟩
  rw [← himprint]
  exact injective.eq_iff hain hbin

/-! ## Two networks with the same links -/

/-- The conjunction of three inputs, its first cell having all of them. -/
def wideFirst : Subnet :=
  ⟨#[.input, .input, .input, ⟨.ofGate .and, [.of 0, .of 1, .of 2]⟩, ⟨.ofGate .and, [.of 3, .of 0]⟩,
    .output (.of 4)], 3, 1, by decide⟩

/-- The conjunction of three inputs, its second cell having the third one. -/
def wideSecond : Subnet :=
  ⟨#[.input, .input, .input, ⟨.ofGate .and, [.of 0, .of 1]⟩, ⟨.ofGate .and, [.of 2, .of 3, .of 0]⟩,
    .output (.of 4)], 3, 1, by decide⟩

/-- The BLAKE3 digests of the imprints of the two networks, the first byte being the highest. -/
def wideDigest (bytes : List UInt8) : BitVec 256 :=
  if bytes = wideFirst.imprint then
    0xd351791bdef1828c80cd8b76283fe21bfc8147b774dfe60f5b34877c5e2fb009#256
  else
    0xf67c6c45c01f80f797b240b548ba5386bf5c29adb3a98713afb0a6c2618c71d5#256

/-- Two networks with the same types and the same links one after the other, which differ only in how many of
the links belong to which cell. -/
theorem imprint_unambiguous_wide :
    wideFirst.FitsImprint ∧ wideSecond.FitsImprint ∧
      Set.InjOn wideDigest {wideFirst.imprint, wideSecond.imprint} ∧ ¬wideFirst.Alike wideSecond ∧
      wideFirst.imprint ≠ wideSecond.imprint ∧
      wideFirst.fingerprint wideDigest ≠ wideSecond.fingerprint wideDigest := by
  have fits : wideFirst.FitsImprint := ⟨by decide, by decide, by decide, by decide⟩
  have fits' : wideSecond.FitsImprint := ⟨by decide, by decide, by decide, by decide⟩
  have injective : Set.InjOn wideDigest {wideFirst.imprint, wideSecond.imprint} := by
    rw [Set.injOn_pair]
    intro heq
    exact absurd heq (by decide)
  obtain ⟨himprint, hfingerprint⟩ := imprint_unambiguous fits fits'
  have hne : wideFirst.imprint ≠ wideSecond.imprint := by decide
  have halike : ¬wideFirst.Alike wideSecond := mt himprint.2 hne
  exact ⟨fits, fits', injective, halike, hne,
    mt (hfingerprint _ _ injective (by simp) (by simp)).1 halike⟩

end Subnet

namespace Store

variable {store : Store} {a b : Subnet}

/-- Where cells carry the symbols of their types, the position of the type says which kind it is. -/
lemma kind_eq_of_type_eq (ha : store.Conforms a) (hb : store.Conforms b) {c d : Cell} (hc : c ∈ a.cells)
    (hd : d ∈ b.cells) (h : c.kind.type = d.kind.type) : c.kind = d.kind := by
  obtain ⟨type, listed, symbol⟩ := ha c hc
  obtain ⟨type', listed', symbol'⟩ := hb d hd
  rw [h] at listed
  cases listed.symm.trans listed'
  exact congrArg₂ CellKind.mk (symbol.symm.trans symbol') h

/-- Networks whose cells carry the symbols of their types have different imprints unless they are equal. -/
theorem imprint_injective (conforms : store.Conforms a) (conforms' : store.Conforms b)
    (ha : a.Addressable) (hb : b.Addressable) (h : a.imprint = b.imprint) : a = b := by
  obtain ⟨hin, hout, hcells⟩ := Subnet.alike_of_imprint ha.fitsImprint hb.fitsImprint h
  have heq : a.cells.toList = b.cells.toList := by
    refine List.ext_getElem hcells.length_eq fun i hi hi' => ?_
    obtain ⟨hhandle, hlinks⟩ := (List.forall₂_iff_get.1 hcells).2 i hi hi'
    have hc := Array.mem_toList_iff.1 (List.getElem_mem hi)
    have hd := Array.mem_toList_iff.1 (List.getElem_mem hi')
    obtain ⟨-, htype⟩ := (Handle.ofPosition_inj (ha.types _ hc) (hb.types _ hd)).1 hhandle
    exact congrArg₂ Cell.mk (kind_eq_of_type_eq conforms conforms' hc hd htype) hlinks
  have heq := Array.toList_inj.1 heq
  cases a
  cases b
  simp_all

end Store

end Gatework
