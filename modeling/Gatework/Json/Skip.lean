import Gatework.Json.Numeral
import Gatework.Json.Text

/-!
# Skipping JSON values

A value that nobody asks for is skipped.  It has to follow the syntax, but its numbers may be out of
range and its texts need not be sound.
-/

namespace Gatework

namespace JsonReader

/-- Skips a value that is neither an array nor an object; `first` is its first character. -/
def skipScalar (first : Char) : JsonReader Unit :=
  match first with
  | 'n' => do advance; takeWord "ull".toList
  | 't' => do advance; takeWord "rue".toList
  | 'f' => do advance; takeWord "alse".toList
  | '"' => do advance; QuotedText.skip
  | '-' => do advance; Numeral.skip
  | c => if c.isDigit then Numeral.skip else failAtNext .expectedValue

/-- Takes the colon behind a key. -/
def takeColon : JsonReader Unit := do
  match ← peekToken with
  | some ':' => advance
  | some _ => failAtNext .expectedColon
  | none => failAtNext .endInObject

/-- Skips the key of a field and the colon behind it. -/
def skipKey : JsonReader Unit := do
  match ← peekToken with
  | some '"' => do
      advance
      QuotedText.skip
      takeColon
  | some _ => failAtNext .keyIsNoText
  | none => failAtNext .endInObject

mutual

/-- Skips a value.  Values, items and fields nest no deeper than twice the length of the rest, which
is what `fuel` has to exceed. -/
def skipNested : (fuel : Nat) → JsonReader Unit
  | 0 => failHere .endInValue
  | fuel + 1 => do
      match ← peekToken with
      | none => failAtNext .endInValue
      | some '[' => do
          advance
          skipItems fuel true
      | some '\x7b' => do
          advance
          skipFields fuel true
      | some c => skipScalar c

/-- Skips the items of an array and its end; `first` says that none was skipped yet. -/
def skipItems : (fuel : Nat) → (first : Bool) → JsonReader Unit
  | 0, _ => failHere .endInValue
  | fuel + 1, first => do
      match ← peekToken with
      | none => failAtNext .endInList
      | some ']' => advance
      | some c =>
          if first then do
            skipNested fuel
            skipItems fuel false
          else if c = ',' then do
            advance
            skipNested fuel
            skipItems fuel false
          else failAtNext .expectedListEnd

/-- Skips the fields of an object and its end; `first` says that none was skipped yet. -/
def skipFields : (fuel : Nat) → (first : Bool) → JsonReader Unit
  | 0, _ => failHere .endInValue
  | fuel + 1, first => do
      match ← peekToken with
      | none => failAtNext .endInObject
      | some '\x7d' => advance
      | some c =>
          if first then do
            skipKey
            skipNested fuel
            skipFields fuel false
          else if c = ',' then do
            advance
            skipKey
            skipNested fuel
            skipFields fuel false
          else failAtNext .expectedObjectEnd

end

/-- Skips a value. -/
def skipValue : JsonReader Unit := do skipNested (2 * (← remaining) + 2)

end JsonReader

end Gatework
