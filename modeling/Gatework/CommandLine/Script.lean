/-!
# Scripts on directories

A path is a row of parts between slashes.  Empty parts and single dots lead nowhere else, two dots
lead out of the directory, and every other part is a name.  A directory is a value that holds files
by name and no other directories.  Of what is around it only the null device is known, which is empty
and forgets what is written to it.

A program that reads and writes files is described by a script: the next file to read or write, and
how to go on with the outcome.  A script does nothing by itself.  It can be carried out on real
files, or, as `Script.runIn` does, on a directory that is a value.
-/

namespace Gatework

/-! ## Errors -/

/-- Why a file cannot be opened. -/
inductive FileError where
  | notFound
  | notDirectory
  | isDirectory
  | nameTooLong
deriving DecidableEq, Repr

namespace FileError

/-- The number of an error. -/
def code : FileError → Nat
  | notFound => 2
  | notDirectory => 20
  | isDirectory => 21
  | nameTooLong => 36

/-- The word for an error. -/
def word : FileError → String
  | notFound => "NotFound"
  | notDirectory => "NotADirectory"
  | isDirectory => "IsADirectory"
  | nameTooLong => "InvalidFilename"

/-- The wording of an error. -/
def message : FileError → String
  | notFound => "No such file or directory"
  | notDirectory => "Not a directory"
  | isDirectory => "Is a directory"
  | nameTooLong => "File name too long"

/-- The wording of an error with its number. -/
def numbered (e : FileError) : String := s!"{e.message} (os error {e.code})"

/-- Everything that is known of an error. -/
def record (e : FileError) : String :=
  "Os \x7b " ++ s!"code: {e.code}, kind: {e.word}, message: \"{e.message}\"" ++ " \x7d"

end FileError

/-! ## Paths -/

namespace Path

/-- The longest path, in bytes. -/
def maxPath : Nat := 4095

/-- The longest name, in bytes. -/
def maxName : Nat := 255

/-- The parts of a path. -/
def parts (path : String) : List String := path.splitOn "/"

/-- Whether a part leads nowhere else. -/
def isIdle (part : String) : Bool := part == "" || part == "."

/-- Whether a path starts outside of the directory. -/
def isAbsolute (path : String) : Bool := path.toList.head? == some '/'

/-- The absolute path of the null device, as its parts. -/
def nullDevice : List String := ["", "dev", "null"]

/-- Whether the name at the end of a path has the extension of binary files.  A name is not all
extension. -/
def isBinary (path : String) : Bool :=
  match ((parts path).filter fun part => !isIdle part).getLast? with
  | none => false
  | some name =>
      match name.toList.reverse with
      | 'n' :: 'i' :: 'b' :: '.' :: _ :: _ => true
      | _ => false

end Path

/-! ## Directories -/

/-- Files by name. -/
structure Directory where
  files : List (String × List UInt8) := []

/-- What a path leads to. -/
inductive Place where
  /-- The directory itself, or one around it. -/
  | directory
  /-- A file of the directory, which need not be there. -/
  | file (name : String)
  /-- A file of the directory, taken for a directory by a slash behind its name. -/
  | fileAsDirectory (name : String)
  | nullDevice
  | nowhere (e : FileError)
deriving DecidableEq, Repr

/-- What comes of opening and reading a file. -/
inductive Contents where
  /-- The file cannot be opened. -/
  | missing
  /-- It can be opened, but is a directory and cannot be read. -/
  | directory
  | bytes (bs : List UInt8)
deriving DecidableEq, Repr

namespace Directory

/-- Whether there is a file of a name. -/
def holds (d : Directory) (name : String) : Bool := (d.files.lookup name).isSome

/-- Follows parts from outside of the directory, where no name is known. -/
def placeOutside : (parts : List String) → Place
  | [] => .directory
  | part :: rest =>
      if Path.isIdle part || part == ".." then placeOutside rest
      else if Path.maxName < part.utf8ByteSize then .nowhere .nameTooLong
      else .nowhere .notFound

/-- Follows parts from the directory. -/
def placeInside (d : Directory) : (parts : List String) → Place
  | [] => .directory
  | part :: rest =>
      if Path.isIdle part then d.placeInside rest
      else if part = ".." then placeOutside rest
      else if Path.maxName < part.utf8ByteSize then .nowhere .nameTooLong
      else if rest.isEmpty then .file part
      else if rest.all (· == "") then .fileAsDirectory part
      else .nowhere (if d.holds part then .notDirectory else .notFound)

/-- What a path leads to. -/
def place (d : Directory) (path : String) : Place :=
  if path.isEmpty then .nowhere .notFound
  else if Path.maxPath < path.utf8ByteSize then .nowhere .nameTooLong
  else if Path.parts path = Path.nullDevice then .nullDevice
  else if Path.isAbsolute path then placeOutside (Path.parts path)
  else d.placeInside (Path.parts path)

/-- What comes of reading a file. -/
def read (d : Directory) (path : String) : Contents :=
  match d.place path with
  | .directory => .directory
  | .file name => (d.files.lookup name).elim .missing .bytes
  | .nullDevice => .bytes []
  | .fileAsDirectory _ | .nowhere _ => .missing

/-- The directory after a file is written. -/
def write (d : Directory) (path : String) (bytes : List UInt8) : Except FileError Directory :=
  match d.place path with
  | .file name => .ok ⟨(name, bytes) :: d.files.filter (·.1 ≠ name)⟩
  | .nullDevice => .ok d
  | .directory | .fileAsDirectory _ => .error .isDirectory
  | .nowhere e => .error e

end Directory

/-! ## Scripts -/

/-- A program that reads and writes files and ends with a value. -/
inductive Script (α : Type) where
  | done (result : α)
  /-- Reads a file and goes on with what comes of it. -/
  | read (path : String) (next : Contents → Script α)
  /-- Writes a file and goes on with whether this was possible. -/
  | write (path : String) (bytes : List UInt8) (next : Except FileError Unit → Script α)

namespace Script

/-- Carries out one script and then the script that depends on its result. -/
def bind {α β : Type} : Script α → (α → Script β) → Script β
  | done a, f => f a
  | read path next, f => read path fun contents => bind (next contents) f
  | write path bytes next, f => write path bytes fun written => bind (next written) f

instance : Monad Script where
  pure := done
  bind := bind

/-- What comes of reading a file. -/
def readFile (path : String) : Script Contents := read path done

/-- Whether a file could be written. -/
def writeFile (path : String) (bytes : List UInt8) : Script (Except FileError Unit) :=
  write path bytes done

/-- Carries out a script in a directory. -/
def runIn {α : Type} : Script α → Directory → α × Directory
  | .done a, d => (a, d)
  | .read path next, d => runIn (next (d.read path)) d
  | .write path bytes next, d =>
      match d.write path bytes with
      | .ok d => runIn (next (.ok ())) d
      | .error e => runIn (next (.error e)) d

end Script

end Gatework
