import Gatework.Bytes
import Gatework.Gzip.PrefixCode
import Gatework.Handle
import Gatework.Json.Reader
import Gatework.Subnet.Basic

/-!
# Errors in data read from outside

Networks, catalogues and libraries are read from bytes that anyone may have written.  What can be
wrong with them has one type, whatever is being read: the container or the encoding is broken, the
format has another version, a cell type is not known, or the data break a rule of the model.
-/

namespace Gatework

/-- What is wrong with one cell of a library. -/
inductive CellFlaw where
  | tooManyInputs (inputs limit : Nat)
  | badTable (text : String)
  | wrongCount (what : String) (values inputs : Nat)
  | nameTaken
deriving DecidableEq, Repr

/-- The wording of a flaw. -/
def CellFlaw.message : CellFlaw → String
  | tooManyInputs inputs limit => s!"{inputs} inputs exceed the supported {limit}"
  | badTable text => s!"bad truth table '{text}'"
  | wrongCount what values inputs => s!"{what} has {values} entries for {inputs} inputs"
  | nameTaken => "name is already registered"

/-- The rules of the model that data can break. -/
inductive Malformation where
  | arity (entry links : Nat) (type : String) (least most : Nat)
  | violation (v : Violation)
  | libraryCell (name : String) (flaw : CellFlaw)
deriving DecidableEq, Repr

/-- The wording of a broken rule. -/
def Malformation.message : Malformation → String
  | arity entry links type least most =>
      s!"entry {entry} has {links} links but {type} takes {least}..={most}"
  | violation v => v.message
  | libraryCell name flaw => s!"cell '{name}': {flaw.message}"

/-- The forms of binary data. -/
inductive BinaryForm where
  | network
  | archive
deriving DecidableEq, Repr

/-- The wording of a flaw of binary data.  A network is read from its file piece by piece, an archive
as a whole, which shows when the bytes run out. -/
def BinaryForm.describe : BinaryForm → Bytes.Flaw → String
  | network, .tooShort => "io error: failed to fill whole buffer"
  | archive, .tooShort => "io error: unexpected end of file"
  | _, .notTruthValue byte =>
      s!"invalid u8 while decoding bool, expected 0 or 1, found {byte.toNat}"

/-- Why data could not be loaded. -/
inductive LoadError where
  /-- The compressed container is broken. -/
  | container (flaw : GzipFlaw)
  /-- The bytes do not follow the binary layout. -/
  | layout (form : BinaryForm) (flaw : Bytes.Flaw)
  /-- The text is not the expected JSON. -/
  | json (e : JsonError)
  | version (got want : Nat)
  | unknownType (handle : Handle)
  | malformed (m : Malformation)
deriving DecidableEq, Repr

/-- The wording of an error. -/
def LoadError.message : LoadError → String
  | container flaw => s!"I/O error: {flaw.message}"
  | layout form flaw => s!"decode error: {form.describe flaw}"
  | json e => s!"JSON error: {e.message}"
  | version got want => s!"unsupported format version {got} (expected {want})"
  | unknownType h => s!"unknown cell type handle {h.hex}"
  | malformed m => s!"malformed data: {m.message}"

end Gatework
