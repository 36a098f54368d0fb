import Gatework.Bytes
import Gatework.LoadError
import Gatework.Store

/-!
# The binary form of a network

An image is a network with its cell types named by handles, as it is written to files.  The handles
of the built-in gates are the same in every store, so a network of gates can be restored anywhere;
a network with composites only where they are registered at the same positions.  Restoring checks
every entry before the network is accepted.
-/

namespace Gatework

/-- One entry of an image. -/
structure ImageEntry where
  type : Handle
  links : List Link
deriving DecidableEq, Repr

/-- A network as it is written to files. -/
structure Image where
  inputs : Nat
  outputs : Nat
  entries : List ImageEntry
deriving DecidableEq, Repr

/-- The image of a network. -/
def Subnet.image (net : Subnet) : Image where
  inputs := net.numInputs
  outputs := net.numOutputs
  entries := net.cells.toList.map fun c => ⟨.ofPosition .cellType c.kind.type, c.links⟩

namespace Image

/-- Restores entry number `i`. -/
def restoreEntry (store : Store) (i : Nat) (e : ImageEntry) : Except LoadError Cell :=
  if store.resolves .cellType e.type then
    match store.types[e.type.position]? with
    | none => .error (.unknownType e.type)
    | some t =>
        if t.accepts e.links.length then
          match e.links.find? fun l => decide (i ≤ l.entry) with
          | some l => .error (.malformed (.violation (.forwardLink i l.entry)))
          | none => .ok ⟨t.kindAt e.type.position, e.links⟩
        else
          .error (.malformed (.arity i e.links.length t.name t.minInputs t.maxInputs))
  else .error (.unknownType e.type)

/-- The network of an image. -/
def restore (store : Store) (image : Image) : Except LoadError Subnet := do
  let cells ← image.entries.zipIdx.mapM fun (e, i) => restoreEntry store i e
  match Subnet.ofCells cells.toArray image.inputs image.outputs with
  | .ok net => .ok net
  | .error v => .error (.malformed (.violation v))

/-! ## Layout -/

/-- A link as seven bytes: entry, port, polarity. -/
def encodeLink (l : Link) : List UInt8 :=
  Bytes.encodeNat 4 l.entry ++ Bytes.encodeNat 2 l.port.toNat ++ Bytes.encodeBool l.inverted

/-- The link in the first bytes. -/
def decodeLink (bytes : List UInt8) : Except Bytes.Flaw (Link × List UInt8) := do
  let (entry, bytes) ← Bytes.decodeNat 4 bytes
  let (port, bytes) ← Bytes.decodeNat 2 bytes
  let (inverted, bytes) ← Bytes.decodeBool bytes
  return ({ entry, port := UInt16.ofNat port, inverted }, bytes)

/-- An entry as its handle and its links. -/
def encodeEntry (e : ImageEntry) : List UInt8 :=
  Bytes.encodeNat 8 e.type.raw.toNat ++ Bytes.encodeList encodeLink e.links

/-- The entry in the first bytes. -/
def decodeEntry (bytes : List UInt8) : Except Bytes.Flaw (ImageEntry × List UInt8) := do
  let (raw, bytes) ← Bytes.decodeNat 8 bytes
  let (links, bytes) ← Bytes.decodeList decodeLink bytes
  return (⟨⟨UInt64.ofNat raw⟩, links⟩, bytes)

/-- An image as the numbers of inputs and outputs and its entries. -/
def encode (image : Image) : List UInt8 :=
  Bytes.encodeNat 4 image.inputs ++ Bytes.encodeNat 4 image.outputs ++
    Bytes.encodeList encodeEntry image.entries

/-- The image in the first bytes. -/
def decode (bytes : List UInt8) : Except Bytes.Flaw (Image × List UInt8) := do
  let (inputs, bytes) ← Bytes.decodeNat 4 bytes
  let (outputs, bytes) ← Bytes.decodeNat 4 bytes
  let (entries, bytes) ← Bytes.decodeList decodeEntry bytes
  return (⟨inputs, outputs, entries⟩, bytes)

end Image

/-- The bytes of a network. -/
def Subnet.toBytes (net : Subnet) : List UInt8 := net.image.encode

/-- The network at the front of a byte string; what follows is not looked at. -/
def Store.readBytes (store : Store) (bytes : List UInt8) : Except LoadError Subnet :=
  match Image.decode bytes with
  | .ok (image, _) => image.restore store
  | .error flaw => .error (.layout .network flaw)

/-- Reads the network at the front of a byte string and adds it to the store, which stays as it is if
there is none. -/
def Store.loadBytes (store : Store) (bytes : List UInt8) : Store × Except LoadError Subnet :=
  match store.readBytes bytes with
  | .ok net => ((store.addSubnet net).1, .ok net)
  | .error e => (store, .error e)

/-- The byte string that identifies the structure of a network: two networks have the same imprint
exactly when they have the same inputs, outputs and entries. -/
def Subnet.imprint (net : Subnet) : List UInt8 :=
  Bytes.encodeNat 8 net.numInputs ++ Bytes.encodeNat 8 net.numOutputs ++
    net.cells.toList.flatMap fun c =>
      Bytes.encodeNat 8 (Handle.ofPosition .cellType c.kind.type).raw.toNat ++
        Bytes.encodeNat 4 c.links.length ++ c.links.flatMap Image.encodeLink

end Gatework
