import Gatework.Gzip.Member
import Gatework.Npn.Catalogue

/-!
# The binary form of a catalogue

An archive is a catalogue with its networks as images, behind the version of the format.  It may be
compressed as a whole.  An archive is restored class by class; networks restored before a broken one
stay in the store.
-/

namespace Gatework

/-- A catalogue as it is written to files. -/
structure Archive where
  version : Nat
  classes : List (WordTable × List Image)

namespace Archive

/-- The version that is written and read. -/
def currentVersion : Nat := 1

/-! ## Layout -/

/-- A table as its number of variables and its words. -/
def encodeTable (t : WordTable) : List UInt8 :=
  Bytes.encodeNat 4 t.numVars ++ Bytes.encodeList (fun w => Bytes.encodeNat 8 w.toNat) t.words

/-- A word in the first eight bytes. -/
def decodeWord (bytes : List UInt8) : Except Bytes.Flaw (UInt64 × List UInt8) :=
  (Bytes.decodeNat 8 bytes).map fun (n, bytes) => (UInt64.ofNat n, bytes)

/-- The table in the first bytes. -/
def decodeTable (bytes : List UInt8) : Except Bytes.Flaw (WordTable × List UInt8) := do
  let (numVars, bytes) ← Bytes.decodeNat 4 bytes
  let (words, bytes) ← Bytes.decodeList decodeWord bytes
  return (⟨numVars, words⟩, bytes)

/-- A class as its table and its networks. -/
def encodeClass (c : WordTable × List Image) : List UInt8 :=
  encodeTable c.1 ++ Bytes.encodeList Image.encode c.2

/-- The class in the first bytes. -/
def decodeClass (bytes : List UInt8) :
    Except Bytes.Flaw ((WordTable × List Image) × List UInt8) := do
  let (table, bytes) ← decodeTable bytes
  let (images, bytes) ← Bytes.decodeList Image.decode bytes
  return ((table, images), bytes)

/-- An archive as its version and its classes. -/
def encode (a : Archive) : List UInt8 :=
  Bytes.encodeNat 4 a.version ++ Bytes.encodeList encodeClass a.classes

/-- The archive in the first bytes. -/
def decode (bytes : List UInt8) : Except Bytes.Flaw (Archive × List UInt8) := do
  let (version, bytes) ← Bytes.decodeNat 4 bytes
  let (classes, bytes) ← Bytes.decodeList decodeClass bytes
  return (⟨version, classes⟩, bytes)

/-! ## Restoring -/

/-- Restores one more network of a class whose networks so far are at `positions`. -/
def restoreImage (state : Store × Catalogue × List Nat) (image : Image) :
    Except (Store × LoadError) (Store × Catalogue × List Nat) :=
  let (store, c, positions) := state
  match image.restore store with
  | .error e => .error (store, e)
  | .ok net =>
      let (store, position) := store.addSubnet net
      let c := { c with imprints := (net.imprint, position) :: c.imprints }
      .ok (store, c, positions ++ [position])

/-- Restores one more class.  Of two classes with the same table the later one counts. -/
def restoreClass (state : Store × Catalogue) (entry : WordTable × List Image) :
    Except (Store × LoadError) (Store × Catalogue) := do
  let (store, c, positions) ← entry.2.foldlM restoreImage (state.1, state.2, [])
  return (store, { c with classes := Catalogue.alterClass entry.1 (fun _ => positions) c.classes })

end Archive

namespace Catalogue

/-- The archive of a catalogue. -/
def archive (c : Catalogue) (store : Store) : Archive where
  version := Archive.currentVersion
  classes := c.classes.map fun (table, networks) =>
    (table, networks.filterMap fun p => (store.subnets[p]?).map Subnet.image)

/-- The bytes of a catalogue. -/
def toBytes (c : Catalogue) (store : Store) : List UInt8 := (c.archive store).encode

/-- The archive in a file. -/
def readArchive (file : List UInt8) : Except LoadError Archive := do
  match Archive.decode (← Gzip.expand file) with
  | .error flaw => .error (.layout .archive flaw)
  | .ok (a, _) =>
      if a.version = Archive.currentVersion then .ok a
      else .error (.version a.version Archive.currentVersion)

/-- The catalogue in a file, whose networks are added to the store. -/
def ofBytes (store : Store) (file : List UInt8) : Store × Except LoadError Catalogue :=
  match readArchive file with
  | .error e => (store, .error e)
  | .ok a =>
      match a.classes.foldlM Archive.restoreClass (store, empty) with
      | .error (store, e) => (store, .error e)
      | .ok (store, c) => (store, .ok c)

end Catalogue

end Gatework
