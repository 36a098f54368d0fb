import Gatework.Power

/-!
# Handles of stored records

A store keeps cell types, subnets and texts in three tables.  Outside the store a record is named
by one 64-bit number: the top byte is the tag of the table, the low 56 bits are the position in
it, and the number zero names nothing.  Tags of different tables differ, so a handle says which
table it belongs to.
-/

namespace Gatework

/-- The three tables of a store. -/
inductive RecordKind where
  | cellType
  | subnet
  | text
deriving DecidableEq, Repr

namespace RecordKind

/-- The top byte of every handle into the table. -/
def tag : RecordKind → Nat
  | cellType => 2
  | subnet => 7
  | text => 8

/-- What the table is called in messages. -/
def name : RecordKind → String
  | cellType => "cell-type"
  | subnet => "subnet"
  | text => "string"

end RecordKind

/-- Number of bits of a handle that hold the position. -/
def Handle.positionBits : Nat := 56

/-- The bits of a handle that hold the position. -/
def Handle.positionMask : UInt64 := ((1 : UInt64) <<< 56) - 1

/-- A handle as it is written down: any 64-bit number, whether or not it names a record. -/
structure Handle where
  raw : UInt64
deriving DecidableEq, Repr

namespace Handle

/-- The handle of the record at `position` in the table `kind`. -/
def ofPosition (kind : RecordKind) (position : Nat) : Handle :=
  ⟨UInt64.ofNat kind.tag <<< 56 ||| UInt64.ofNat position⟩

/-- The byte that says which table a handle belongs to. -/
def tag (h : Handle) : Nat := (h.raw >>> 56).toNat

/-- The position a handle names in its table. -/
def position (h : Handle) : Nat := (h.raw &&& positionMask).toNat

/-- Zero names no record of any table. -/
def isNull (h : Handle) : Bool := h.raw == 0

/-- Whether the handle is non-null and carries the tag of `kind`. -/
def belongsTo (h : Handle) (kind : RecordKind) : Bool :=
  !h.isNull && h.tag == kind.tag

/-- Lower-case hexadecimal digits without leading zeros. -/
def hexDigits (n : Nat) : String := String.ofList (Nat.toDigits 16 n)

/-- The written form `0x…` of the number. -/
def hex (h : Handle) : String := "0x" ++ hexDigits h.raw.toNat

/-- How a handle into `kind` is shown to a reader: the table and the position. -/
def describe (kind : RecordKind) (h : Handle) : String :=
  if h.isNull then kind.name ++ "#null" else kind.name ++ "#" ++ toString h.position

end Handle

end Gatework
