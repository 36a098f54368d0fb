/-!
# Little-endian byte strings

Numbers are written with a fixed number of bytes, the least significant first, and a list is written
as its length in eight bytes followed by its elements.  A decoder takes bytes from the front of a
string and returns the value with the rest; it fails when the bytes run out, or at a byte that
should be a truth value and is none.
-/

namespace Gatework

namespace Bytes

/-- Why bytes could not be decoded. -/
inductive Flaw where
  /-- The bytes run out. -/
  | tooShort
  /-- A truth value is neither zero nor one. -/
  | notTruthValue (byte : UInt8)
deriving DecidableEq, Repr

/-- A number as `count` bytes. -/
def encodeNat : (count : Nat) → Nat → List UInt8
  | 0, _ => []
  | count + 1, n => UInt8.ofNat n :: encodeNat count (n / 256)

/-- The number in the first `count` bytes. -/
def decodeNat : (count : Nat) → List UInt8 → Except Flaw (Nat × List UInt8)
  | 0, bytes => .ok (0, bytes)
  | _ + 1, [] => .error .tooShort
  | count + 1, b :: bytes =>
      (decodeNat count bytes).map fun (n, rest) => (b.toNat + 256 * n, rest)

/-- A truth value as one byte. -/
def encodeBool (value : Bool) : List UInt8 := [if value then 1 else 0]

/-- The truth value in the first byte, which has to be zero or one. -/
def decodeBool : List UInt8 → Except Flaw (Bool × List UInt8)
  | [] => .error .tooShort
  | b :: rest =>
      if b = 0 then .ok (false, rest)
      else if b = 1 then .ok (true, rest)
      else .error (.notTruthValue b)

/-- A list as its length and its elements. -/
def encodeList {α : Type} (encode : α → List UInt8) (xs : List α) : List UInt8 :=
  encodeNat 8 xs.length ++ xs.flatMap encode

/-- The `count` values at the front of a byte string. -/
def decodeMany {α : Type} (decode : List UInt8 → Except Flaw (α × List UInt8)) :
    (count : Nat) → List UInt8 → Except Flaw (List α × List UInt8)
  | 0, bytes => .ok ([], bytes)
  | count + 1, bytes => do
      let (x, bytes) ← decode bytes
      let (xs, bytes) ← decodeMany decode count bytes
      return (x :: xs, bytes)

/-- The list at the front of a byte string. -/
def decodeList {α : Type} (decode : List UInt8 → Except Flaw (α × List UInt8))
    (bytes : List UInt8) : Except Flaw (List α × List UInt8) := do
  let (count, bytes) ← decodeNat 8 bytes
  decodeMany decode count bytes

end Bytes

end Gatework
