import Gatework.Store
import Gatework.Text.Character

/-!
# Reading the text form of a network

The text form is `subnet` and, between braces, one entry after the other: `%k = name`, followed by
the operands in parentheses if there are any.  Entries are numbered from zero without gaps.  Blanks
may stand between any two tokens, except that the dot of a port follows the number at once.

Every reader takes the rest of the text and gives back what it read with what is left.  A reader
that fails says why and how much text was left there.  The line and the column are those behind the
text in front of it (`Position.after`).
-/

namespace Gatework

/-- Why a text is not a network. -/
inductive ReadFailure where
  | expected (token got : String)
  | nameStart (got : Char)
  | endOfText
  | noNumber
  | numberTooLarge
  | portTooLarge (port : Nat)
  | wrongEntry (expected got : Nat)
  | unknownType (name : String)
  | badArity (name : String) (operands : Nat)
  | trailingText
  | violation (v : Violation)
deriving DecidableEq, Repr

/-- The wording of a failure. -/
def ReadFailure.message : ReadFailure → String
  | expected token got => s!"expected '{token}' got '{got}...'"
  | nameStart got => s!"expected identifier start, got '{got}'"
  | endOfText => "unexpected eof"
  | noNumber => "expected number"
  | numberTooLarge => "bad number: number too large to fit in target type"
  | portTooLarge port => s!"port {port} out of range"
  | wrongEntry want got => s!"expected entry %{want} got %{got}"
  | unknownType name => s!"unknown cell type '{name}'"
  | badArity name operands => s!"'{name}' does not accept {operands} inputs"
  | trailingText => "trailing input after subnet"
  | violation v => v.message

/-- A line and a column, both counted from one. -/
structure Position where
  line : Nat
  column : Nat
deriving DecidableEq, Repr

/-- The position right behind a text. -/
def Position.after (text : List Char) : Position where
  line := text.count '\n' + 1
  column := (text.reverse.takeWhile (· ≠ '\n')).length + 1

/-- A failure to read a network and the place of it; rules of the whole network have no place. -/
structure ReadError where
  failure : ReadFailure
  position : Option Position
deriving DecidableEq, Repr

/-- The wording of an error. -/
def ReadError.message (e : ReadError) : String :=
  match e.position with
  | none => s!"ParseError: {e.failure.message}"
  | some p => s!"ParseError: {e.failure.message} at line {p.line}, column {p.column}"

namespace Reader

/-- A failure together with the text that was left where it happened. -/
structure Stop where
  failure : ReadFailure
  rest : List Char

/-- The text behind a token, if it starts with the token. -/
def after? : (token : List Char) → List Char → Option (List Char)
  | [], cs => some cs
  | _ :: _, [] => none
  | t :: ts, c :: cs => if t = c then after? ts cs else none

/-- The text behind a token that may be preceded by blanks. -/
def tryToken (token : String) (cs : List Char) : Option (List Char) :=
  after? token.toList (Text.skipBlanks cs)

/-- Reads a token that has to come next, after blanks. -/
def token (token : String) (cs : List Char) : Except Stop (List Char) :=
  match tryToken token cs with
  | some rest => .ok rest
  | none =>
      let rest := Text.skipBlanks cs
      .error ⟨.expected token (String.ofList (rest.take (max token.length 1))), rest⟩

/-- Reads a name: a letter or underscore and all letters, numbers and underscores behind it. -/
def name (cs : List Char) : Except Stop (String × List Char) :=
  match Text.skipBlanks cs with
  | [] => .error ⟨.endOfText, []⟩
  | c :: rest =>
      if Text.isNameStart c then
        .ok (String.ofList (c :: rest.takeWhile Text.isNamePart), rest.dropWhile Text.isNamePart)
      else .error ⟨.nameStart c, c :: rest⟩

/-- The number denoted by a list of decimal digits. -/
def decimal (digits : List Char) : Nat :=
  digits.foldl (fun n c => n * 10 + (c.toNat - '0'.toNat)) 0

/-- The number of values of an entry number. -/
def entryLimit : Nat := valuesOf 32

/-- Reads a number below `entryLimit`. -/
def number (cs : List Char) : Except Stop (Nat × List Char) :=
  let cs := Text.skipBlanks cs
  let digits := cs.takeWhile Char.isDigit
  if digits.isEmpty then .error ⟨.noNumber, cs⟩
  else if decimal digits < entryLimit then .ok (decimal digits, cs.dropWhile Char.isDigit)
  else .error ⟨.numberTooLarge, cs⟩

/-- Reads the port behind the dot of a link. -/
def port (cs : List Char) : Except Stop (UInt16 × List Char) := do
  let (n, rest) ← number cs
  if n < UInt16.size then .ok (UInt16.ofNat n, rest) else .error ⟨.portTooLarge n, rest⟩

/-- Reads the port of a link if a dot follows; without one it is the first port. -/
def linkPort : List Char → Except Stop (UInt16 × List Char)
  | '.' :: rest => port rest
  | cs => .ok (0, cs)

/-- Reads a link: `~` if it is complemented, `%` and the entry, and its port. -/
def link (cs : List Char) : Except Stop (Link × List Char) := do
  let (inverted, cs) :=
    match tryToken "~" cs with
    | some rest => (true, rest)
    | none => (false, cs)
  let cs ← token "%" cs
  let (entry, cs) ← number cs
  let (port, cs) ← linkPort cs
  .ok ({ entry, port, inverted }, cs)

/-- Reads the links of an operand list up to the closing parenthesis.  Every link takes at least
one character, so a text as long as `fuel` is never too long. -/
def links : (fuel : Nat) → List Char → Except Stop (List Link × List Char)
  | 0, cs => .error ⟨.endOfText, cs⟩
  | fuel + 1, cs => do
      let (l, cs) ← link cs
      match tryToken ")" cs with
      | some rest => .ok ([l], rest)
      | none => do
          let cs ← token "," cs
          let (ls, cs) ← links fuel cs
          .ok (l :: ls, cs)

/-- Reads the operands of an entry; without a parenthesis there are none. -/
def operands (cs : List Char) : Except Stop (List Link × List Char) :=
  match tryToken "(" cs with
  | none => .ok ([], cs)
  | some rest =>
      match tryToken ")" rest with
      | some rest => .ok ([], rest)
      | none => links (rest.length + 1) rest

/-- Reads entry number `index`. -/
def entry (store : Store) (index : Nat) (cs : List Char) : Except Stop (Cell × List Char) := do
  let start := Text.skipBlanks cs
  let cs ← token "%" cs
  let (got, cs) ← number cs
  if got ≠ index then .error ⟨.wrongEntry index got, start⟩
  else
    let cs ← token "=" cs
    let nameStart := Text.skipBlanks cs
    let (typeName, cs) ← name cs
    match store.findType? typeName with
    | none => .error ⟨.unknownType typeName, nameStart⟩
    | some t => do
        let (links, cs) ← operands cs
        match store.types[t]? with
        | none => .error ⟨.unknownType typeName, nameStart⟩
        | some type =>
            if type.accepts links.length then .ok (⟨type.kindAt t, links⟩, cs)
            else .error ⟨.badArity typeName links.length, nameStart⟩

/-- Reads entries up to the closing brace.  Every entry takes at least one character, so a text as
long as `fuel` is never too long. -/
def entries (store : Store) :
    (fuel : Nat) → Array Cell → List Char → Except Stop (Array Cell × List Char)
  | 0, _, cs => .error ⟨.endOfText, cs⟩
  | fuel + 1, cells, cs =>
      match tryToken "\x7d" cs with
      | some rest => .ok (cells, rest)
      | none => do
          let (cell, cs) ← entry store cells.size cs
          entries store fuel (cells.push cell) cs

/-- Reads the cells of a network from a whole text. -/
def cells (store : Store) (text : List Char) : Except Stop (Array Cell) := do
  let cs ← token "subnet" text
  let cs ← token "\x7b" cs
  let (cells, cs) ← entries store (cs.length + 1) #[] cs
  let rest := Text.skipBlanks cs
  if rest.isEmpty then .ok cells else .error ⟨.trailingText, rest⟩

end Reader

namespace Subnet

/-- The number of inputs at the front of a list of cells. -/
def leadingInputs (cells : Array Cell) : Nat := (cells.toList.takeWhile Cell.isInput).length

/-- The number of outputs at the back of a list of cells. -/
def trailingOutputs (cells : Array Cell) : Nat :=
  (cells.toList.reverse.takeWhile Cell.isOutput).length

end Subnet

/-- The network that a text describes, its cell types looked up in the store. -/
def Store.read (store : Store) (text : String) : Except ReadError Subnet :=
  match Reader.cells store text.toList with
  | .error stop =>
      let consumed := text.toList.take (text.toList.length - stop.rest.length)
      .error ⟨stop.failure, some (Position.after consumed)⟩
  | .ok cells =>
      match Subnet.ofCells cells (Subnet.leadingInputs cells) (Subnet.trailingOutputs cells) with
      | .ok net => .ok net
      | .error v => .error ⟨.violation v, none⟩

/-- Reads the network that a text describes and adds it to the store, which stays as it is if the text
describes none. -/
def Store.loadText (store : Store) (text : String) : Store × Except ReadError Subnet :=
  match store.read text with
  | .ok net => ((store.addSubnet net).1, .ok net)
  | .error e => (store, .error e)

end Gatework
