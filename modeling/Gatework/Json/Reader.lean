/-!
# Reading JSON files

A JSON file is read byte by byte, and each byte is taken for the character of that number.  A reader
moves a cursor over the file and returns a value, or stops with an error that says where in the file
it is.  Some errors show at the cursor, behind what was read last; others at the character that comes
next.
-/

namespace Gatework

/-! ## Flaws

What can be wrong with a JSON file that is read as a value of some form, and where in the file it
shows.
-/

/-- What is wrong with a JSON file. -/
inductive JsonFlaw where
  | endInList
  | endInObject
  | endInText
  | endInValue
  | expectedColon
  | expectedListEnd
  | expectedObjectEnd
  | expectedWord
  | expectedValue
  | badEscape
  | badNumber
  | numberOutOfRange
  | badCharacter
  | controlCharacter
  | keyIsNoText
  | loneSurrogate
  | brokenPair
  | trailingComma
  | trailingCharacters
  | wrongType (found expected : String)
  | wrongLength (length : Nat) (expected : String)
  | missingMember (name : String)
  | repeatedMember (name : String)
deriving DecidableEq, Repr

/-- The wording of a flaw. -/
def JsonFlaw.message : JsonFlaw → String
  | endInList => "EOF while parsing a list"
  | endInObject => "EOF while parsing an object"
  | endInText => "EOF while parsing a string"
  | endInValue => "EOF while parsing a value"
  | expectedColon => "expected `:`"
  | expectedListEnd => "expected `,` or `]`"
  | expectedObjectEnd => "expected `,` or `\x7d`"
  | expectedWord => "expected ident"
  | expectedValue => "expected value"
  | badEscape => "invalid escape"
  | badNumber => "invalid number"
  | numberOutOfRange => "number out of range"
  | badCharacter => "invalid unicode code point"
  | controlCharacter => "control character (\\u0000-\\u001F) found while parsing a string"
  | keyIsNoText => "key must be a string"
  | loneSurrogate => "lone leading surrogate in hex escape"
  | brokenPair => "unexpected end of hex escape"
  | trailingComma => "trailing comma"
  | trailingCharacters => "trailing characters"
  | wrongType found expected => s!"invalid type: {found}, expected {expected}"
  | wrongLength length expected => s!"invalid length {length}, expected {expected}"
  | missingMember name => s!"missing field `{name}`"
  | repeatedMember name => s!"duplicate field `{name}`"

/-- A flaw and its place: the line, counted from one, and the number of bytes of the line up to
there. -/
structure JsonError where
  flaw : JsonFlaw
  line : Nat
  column : Nat
deriving DecidableEq, Repr

/-- The wording of an error. -/
def JsonError.message (e : JsonError) : String :=
  s!"{e.flaw.message} at line {e.line} column {e.column}"

/-! ## Readers -/

/-- A place in a file: what is left to read, the line, and the bytes of the line before the place. -/
structure JsonCursor where
  rest : List Char
  line : Nat := 1
  column : Nat := 0
deriving DecidableEq, Repr

namespace JsonCursor

/-- The place behind the next character. -/
def step (c : JsonCursor) : JsonCursor :=
  match c.rest with
  | [] => c
  | '\n' :: rest => ⟨rest, c.line + 1, 0⟩
  | _ :: rest => ⟨rest, c.line, c.column + 1⟩

/-- The place behind the next `count` characters. -/
def pass : (count : Nat) → JsonCursor → JsonCursor
  | 0, c => c
  | count + 1, c => pass count c.step

/-- The start of a file. -/
def ofBytes (bytes : List UInt8) : JsonCursor := { rest := bytes.map fun b => Char.ofNat b.toNat }

end JsonCursor

/-- Readers of JSON files.  The cursor stays where it is when an error stops the reader. -/
abbrev JsonReader := ExceptT JsonError (StateM JsonCursor)

namespace JsonReader

/-- The next character, if there is one. -/
def peek : JsonReader (Option Char) := return (← get).rest.head?

/-- Moves behind the next character. -/
def advance : JsonReader Unit := modify JsonCursor.step

/-- Takes the next character, if there is one. -/
def next : JsonReader (Option Char) := do
  let c ← peek
  advance
  return c

/-- Stops with a flaw at a place. -/
def failAt {α : Type} (place : JsonCursor) (flaw : JsonFlaw) : JsonReader α :=
  throw ⟨flaw, place.line, place.column⟩

/-- Stops with a flaw that shows at the cursor. -/
def failHere {α : Type} (flaw : JsonFlaw) : JsonReader α := do failAt (← get) flaw

/-- Stops with a flaw that shows at the next character. -/
def failAtNext {α : Type} (flaw : JsonFlaw) : JsonReader α := do failAt (← get).step flaw

/-- Takes the characters up to the first without a property. -/
def takeWhile (p : Char → Bool) : JsonReader (List Char) := do
  let c ← get
  let found := c.rest.takeWhile p
  set (c.pass found.length)
  return found

/-- Whether a character may stand between tokens. -/
def isBlank (c : Char) : Bool := c == ' ' || c == '\n' || c == '\t' || c == '\r'

/-- The first character of the next token, if there is one. -/
def peekToken : JsonReader (Option Char) := do
  discard (takeWhile isBlank)
  peek

/-- Takes the rest of a word, character by character. -/
def takeWord : (word : List Char) → JsonReader Unit
  | [] => return ()
  | w :: word => do
      match ← next with
      | none => failHere .endInValue
      | some c => if c = w then takeWord word else failHere .expectedWord

/-- A bound on the number of characters that are left. -/
def remaining : JsonReader Nat := return (← get).rest.length

/-- Reads a whole file: a value, and nothing but blanks around it. -/
def run {α : Type} (reader : JsonReader α) (bytes : List UInt8) : Except JsonError α :=
  let whole : JsonReader α := do
    let value ← reader
    match ← peekToken with
    | none => return value
    | some _ => failAtNext .trailingCharacters
  (ExceptT.run whole (.ofBytes bytes)).1

end JsonReader

end Gatework
