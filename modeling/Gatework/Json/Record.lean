import Gatework.Json.Skip

/-!
# Reading values of a given form

Texts, numbers, lists and records are read from JSON values of the corresponding form; a value of
another form is refused.  A record is written as an object with its members as fields, in any order,
or as an array of its members in their order.  Fields that the record does not have are skipped; a
member that is given twice is refused, and so is a record without a member that it needs.
-/

namespace Gatework

namespace JsonReader

/-- Refuses the next value, which is not of the expected form.  It has to be a value all the same. -/
def refuse {α : Type} (expected : String) : JsonReader α := do
  match ← peek with
  | some 'n' => do
      advance
      takeWord "ull".toList
      failHere (.wrongType "null" expected)
  | some 't' => do
      advance
      takeWord "rue".toList
      failHere (.wrongType "boolean `true`" expected)
  | some 'f' => do
      advance
      takeWord "alse".toList
      failHere (.wrongType "boolean `false`" expected)
  | some '"' => do
      advance
      let text ← QuotedText.take
      failHere (.wrongType ("string " ++ QuotedText.quoted text) expected)
  | some '[' => failHere (.wrongType "sequence" expected)
  | some '\x7b' => failHere (.wrongType "map" expected)
  | some '-' => do
      advance
      let n ← Numeral.take true
      failHere (.wrongType n.describe expected)
  | some c =>
      if c.isDigit then do
        let n ← Numeral.take false
        failHere (.wrongType n.describe expected)
      else failAtNext .expectedValue
  | none => failAtNext .expectedValue

/-- Reads a text. -/
def text : JsonReader String := do
  match ← peekToken with
  | none => failAtNext .endInValue
  | some '"' => do
      advance
      QuotedText.take
  | some _ => refuse "a string"

/-- Reads a number in single precision. -/
def number : JsonReader Float32 := do
  match ← peekToken with
  | none => failAtNext .endInValue
  | some '-' => do
      advance
      return (← Numeral.take true).toFloat32?.getD 0
  | some c => if c.isDigit then return (← Numeral.take false).toFloat32?.getD 0 else refuse "f32"

/-! ## Arrays -/

/-- Moves to the next item of an array, and returns whether there is one; `first` says that none was
read yet. -/
def hasItem (first : Bool) : JsonReader Bool := do
  match ← peekToken with
  | some ']' => return false
  | none => failAtNext .endInList
  | some c =>
      if first then return true
      else if c = ',' then do
        advance
        match ← peekToken with
        | some ']' => failAtNext .trailingComma
        | some _ => return true
        | none => failAtNext .endInValue
      else failAtNext .expectedListEnd

/-- Takes the end of an array. -/
def takeArrayEnd : JsonReader Unit := do
  match ← peekToken with
  | some ']' => advance
  | some ',' => do
      advance
      match ← peekToken with
      | some ']' => failAtNext .trailingComma
      | _ => failAtNext .trailingCharacters
  | some _ => failAtNext .trailingCharacters
  | none => failAtNext .endInList

/-- Reads the items of an array.  Every item takes a character, so the length of the rest bounds
their number. -/
def items {α : Type} (item : JsonReader α) : (fuel : Nat) → (first : Bool) → JsonReader (List α)
  | 0, _ => failHere .endInList
  | fuel + 1, first => do
      if ← hasItem first then return (← item) :: (← items item fuel false) else return []

/-- Reads a list. -/
def list {α : Type} (item : JsonReader α) : JsonReader (List α) := do
  match ← peekToken with
  | none => failAtNext .endInValue
  | some '[' => do
      advance
      let found ← items item ((← remaining) + 1) true
      takeArrayEnd
      return found
  | some _ => refuse "a sequence"

/-! ## Records -/

/-- One member of a record of which `δ` is what was read so far. -/
structure Member (δ : Type) where
  name : String
  /-- Whether the member was read. -/
  isRead : δ → Bool
  /-- Reads the value of the member. -/
  read : δ → JsonReader δ

/-- A form of records. -/
structure RecordForm (δ α : Type) where
  /-- What a value of the form is called. -/
  title : String
  members : List (Member δ)
  /-- What was read before anything is. -/
  start : δ
  /-- The record, or the name of the first member that is missing. -/
  finish : δ → Except String α

/-- Moves to the key of the next field of an object, and returns whether there is one; `first` says
that none was read yet. -/
def hasField (first : Bool) : JsonReader Bool := do
  match ← peekToken with
  | some '\x7d' => return false
  | none => failAtNext .endInObject
  | some c =>
      if first then
        if c = '"' then return true else failAtNext .keyIsNoText
      else if c = ',' then do
        advance
        match ← peekToken with
        | some '"' => return true
        | some '\x7d' => failAtNext .trailingComma
        | some _ => failAtNext .keyIsNoText
        | none => failAtNext .endInValue
      else failAtNext .expectedObjectEnd

/-- Takes the end of an object. -/
def takeObjectEnd : JsonReader Unit := do
  match ← peekToken with
  | some '\x7d' => advance
  | some ',' => failAtNext .trailingComma
  | some _ => failAtNext .trailingCharacters
  | none => failAtNext .endInObject

/-- Reads the fields of an object.  The result is the flaw of a member that is given twice, whose
place is found when the object is left.  Every field takes a character, so the length of the rest
bounds their number. -/
def fields {δ : Type} (members : List (Member δ)) :
    (fuel : Nat) → (first : Bool) → δ → JsonReader (Except JsonFlaw δ)
  | 0, _, _ => failHere .endInObject
  | fuel + 1, first, found => do
      if ← hasField first then
        advance
        let key ← QuotedText.take
        match members.find? (·.name == key) with
        | none => do
            takeColon
            skipValue
            fields members fuel false found
        | some m =>
            if m.isRead found then return .error (.repeatedMember m.name)
            else do
              takeColon
              fields members fuel false (← m.read found)
      else return .ok found

/-- Reads the members of a record from the items of an array, as far as there are items. -/
def memberItems {δ : Type} : List (Member δ) → (first : Bool) → δ → JsonReader δ
  | [], _, found => return found
  | m :: members, first, found => do
      if ← hasItem first then memberItems members false (← m.read found) else return found

/-- Leaves an array or object by way of `takeEnd`.  A flaw of what was read in it shows where leaving
leads to, whether it can be left or not. -/
def leave {α : Type} (takeEnd : JsonReader Unit) : Except JsonFlaw α → JsonReader α
  | .ok value => do
      takeEnd
      return value
  | .error flaw => do
      tryCatch takeEnd fun _ => return ()
      failHere flaw

/-- What an array with all members is called. -/
def RecordForm.arrayTitle {δ α : Type} (form : RecordForm δ α) : String :=
  let count := form.members.length
  form.title ++ " with " ++ toString count ++ (if count = 1 then " element" else " elements")

/-- Reads a record. -/
def record {δ α : Type} (form : RecordForm δ α) : JsonReader α := do
  match ← peekToken with
  | none => failAtNext .endInValue
  | some '[' => do
      advance
      let found ← memberItems form.members true form.start
      leave takeArrayEnd <| (form.finish found).mapError fun name =>
        .wrongLength (form.members.findIdx (·.name == name)) form.arrayTitle
  | some '\x7b' => do
      advance
      let found ← fields form.members ((← remaining) + 1) true form.start
      leave takeObjectEnd <| found.bind fun found => (form.finish found).mapError .missingMember
  | some _ => refuse form.title

end JsonReader

end Gatework
