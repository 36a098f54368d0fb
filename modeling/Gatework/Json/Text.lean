import Gatework.Json.Reader
import Gatework.TruthTable.Hex

/-!
# Quoted text in JSON

A quoted text holds no control characters, and its escapes have to be well-formed.  What it stands for
are its bytes with the escapes replaced, taken as UTF-8; characters beyond 16 bits are escaped as a
pair of surrogates.  A text that is only skipped may hold any bytes and any surrogates.
-/

namespace Gatework

namespace QuotedText

/-- Whether a character stands for itself. -/
def isPlain (c : Char) : Bool := c != '"' && c != '\\' && decide (0x20 ≤ c.toNat)

/-- The character of a short escape. -/
def shortEscape? : Char → Option Char
  | '"' => some '"'
  | '\\' => some '\\'
  | '/' => some '/'
  | 'b' => some '\x08'
  | 'f' => some '\x0c'
  | 'n' => some '\n'
  | 'r' => some '\r'
  | 't' => some '\t'
  | _ => none

/-- Takes the four hexadecimal digits of a unit. -/
def takeUnit : JsonReader Nat := do
  let c ← get
  let digits := c.rest.take 4
  set (c.pass digits.length)
  if digits.length < 4 then JsonReader.failHere .endInText
  else
    match hexNumber? 0 digits with
    | some unit => return unit
    | none => JsonReader.failHere .badEscape

/-- Takes the character that joins two surrogates. -/
def takeJoint (joint : Char) : JsonReader Unit := do
  match ← JsonReader.peek with
  | none => JsonReader.failHere .endInText
  | some c =>
      JsonReader.advance
      if c = joint then return () else JsonReader.failHere .brokenPair

/-- Whether a unit is the second of a pair of surrogates. -/
def isSecondSurrogate (unit : Nat) : Bool := decide (0xdc00 ≤ unit) && decide (unit ≤ 0xdfff)

/-- Whether a unit is the first of a pair of surrogates. -/
def isFirstSurrogate (unit : Nat) : Bool := decide (0xd800 ≤ unit) && decide (unit ≤ 0xdbff)

/-- Takes the character that one unit or a pair of surrogates stands for, behind the first `\u`. -/
def takeEscapedCharacter : JsonReader Char := do
  let unit ← takeUnit
  if isSecondSurrogate unit then JsonReader.failHere .loneSurrogate
  else if isFirstSurrogate unit then do
    takeJoint '\\'
    takeJoint 'u'
    let second ← takeUnit
    if isSecondSurrogate second then
      return Char.ofNat ((unit - 0xd800) * 0x400 + (second - 0xdc00) + 0x10000)
    else JsonReader.failHere .loneSurrogate
  else return Char.ofNat unit

/-- Takes the character of an escape behind its backslash. -/
def takeEscape : JsonReader Char := do
  match ← JsonReader.next with
  | none => JsonReader.failHere .endInText
  | some 'u' => takeEscapedCharacter
  | some c =>
      match shortEscape? c with
      | some c => return c
      | none => JsonReader.failHere .badEscape

/-- Takes the bytes of a text up to its closing quote; `found` are those before, the latest first.
Every round takes a character, so the length of the rest bounds the number of rounds. -/
def takeBytes : (fuel : Nat) → (found : List UInt8) → JsonReader (List UInt8)
  | 0, _ => JsonReader.failHere .endInText
  | fuel + 1, found => do
      let plain ← JsonReader.takeWhile isPlain
      let found := (plain.map fun c => UInt8.ofNat c.toNat).reverse ++ found
      match ← JsonReader.next with
      | none => JsonReader.failHere .endInText
      | some '"' => return found.reverse
      | some '\\' => do
          let c ← takeEscape
          takeBytes fuel (c.toString.toUTF8.toList.reverse ++ found)
      | some _ => JsonReader.failHere .controlCharacter

/-- Takes a text behind its opening quote. -/
def take : JsonReader String := do
  let bytes ← takeBytes ((← JsonReader.remaining) + 1) []
  match String.fromUTF8? (ByteArray.mk bytes.toArray) with
  | some text => return text
  | none => JsonReader.failHere .badCharacter

/-- Skips an escape behind its backslash. -/
def skipEscape : JsonReader Unit := do
  match ← JsonReader.next with
  | none => JsonReader.failHere .endInText
  | some 'u' => discard takeUnit
  | some c => if (shortEscape? c).isSome then return () else JsonReader.failHere .badEscape

/-- Skips the characters of a text and its closing quote. -/
def skipRest : (fuel : Nat) → JsonReader Unit
  | 0 => JsonReader.failHere .endInText
  | fuel + 1 => do
      discard (JsonReader.takeWhile isPlain)
      match ← JsonReader.peek with
      | none => JsonReader.failHere .endInText
      | some '"' => JsonReader.advance
      | some '\\' => do
          JsonReader.advance
          skipEscape
          skipRest fuel
      | some _ => JsonReader.failHere .controlCharacter

/-- Skips a text behind its opening quote. -/
def skip : JsonReader Unit := do skipRest ((← JsonReader.remaining) + 1)

/-! ## Showing a text -/

/-- A character as it is shown within quotes. -/
def quotedCharacter (c : Char) : String :=
  match c with
  | '"' => "\\\""
  | '\\' => "\\\\"
  | '\x00' => "\\0"
  | '\n' => "\\n"
  | '\r' => "\\r"
  | '\t' => "\\t"
  | c =>
      if c.toNat < 0x20 ∨ c.toNat = 0x7f then
        "\\u\x7b" ++ String.ofList (Nat.toDigits 16 c.toNat) ++ "\x7d"
      else c.toString

/-- A text within quotes. -/
def quoted (text : String) : String := "\"" ++ String.join (text.toList.map quotedCharacter) ++ "\""

end QuotedText

end Gatework
