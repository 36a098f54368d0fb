import Gatework.Gzip.Deflate
import Gatework.LoadError

/-!
# Compressed files

A compressed file starts with two marked bytes.  Its header may name optional fields; deflated data
follow, and behind them a checksum and the length of the data they stand for.  Only the first member
of a file is read, and every part of it is checked.  Where a file may be compressed, one without the
marked bytes stands for itself.
-/

namespace Gatework

namespace Gzip

/-- Divides the remainder by the checksum's polynomial for one more bit. -/
def checksumBit (r : UInt32) : UInt32 :=
  if r &&& 1 = 1 then (r >>> 1) ^^^ 0xedb88320 else r >>> 1

/-- Takes a byte into the remainder. -/
def checksumByte (r : UInt32) (b : UInt8) : UInt32 :=
  (List.range 8).foldl (fun r _ => checksumBit r) (r ^^^ b.toUInt32)

/-- The checksum of a byte string. -/
def checksum (bytes : List UInt8) : UInt32 := bytes.foldl checksumByte 0xffffffff ^^^ 0xffffffff

/-- Whether a file claims to be compressed. -/
def isMarked : List UInt8 → Bool
  | 0x1f :: 0x8b :: _ => true
  | _ => false

/-! ## Header -/

/-- The longest text of a header. -/
def maxHeaderText : Nat := 65535

/-- What stands behind a text that ends with a zero byte and has at most `limit` others. -/
def skipText : (limit : Nat) → List UInt8 → Except GzipFlaw (List UInt8)
  | _, [] => .error .truncated
  | limit, b :: bytes =>
      if b = 0 then .ok bytes
      else match limit with
        | 0 => .error .fieldTooLong
        | limit + 1 => skipText limit bytes

/-- What stands behind `count` bytes. -/
def skipBytes : (count : Nat) → List UInt8 → Except GzipFlaw (List UInt8)
  | 0, bytes => .ok bytes
  | _ + 1, [] => .error .truncated
  | count + 1, _ :: bytes => skipBytes count bytes

/-- Skips a field if the flags of the header say that it is there. -/
def skipIf (flags mask : UInt8) (skip : List UInt8 → Except GzipFlaw (List UInt8))
    (bytes : List UInt8) : Except GzipFlaw (List UInt8) :=
  if flags &&& mask = 0 then .ok bytes else skip bytes

/-- The number in the first two bytes, and what stands behind it. -/
def takeShort : List UInt8 → Except GzipFlaw (Nat × List UInt8)
  | low :: high :: bytes => .ok (low.toNat + 256 * high.toNat, bytes)
  | _ => .error .truncated

/-- What stands behind a field that is preceded by its length. -/
def skipExtra (bytes : List UInt8) : Except GzipFlaw (List UInt8) := do
  let (count, bytes) ← takeShort bytes
  skipBytes count bytes

/-- What stands behind the checksum of a header whose bytes before it are those of `file` that are
not in `rest`. -/
def skipHeaderChecksum (file rest : List UInt8) : Except GzipFlaw (List UInt8) := do
  let (sum, behind) ← takeShort rest
  let header := file.take (file.length - rest.length)
  if sum = (checksum header).toNat % valuesOf 16 then return behind else .error .wrongChecksum

/-- The number of bytes that every header has. -/
def headerSize : Nat := 10

/-- The deflated data behind the header of a file. -/
def skipHeader (file : List UInt8) : Except GzipFlaw (List UInt8) := do
  let rest ← skipBytes headerSize file
  match file with
  | 0x1f :: 0x8b :: 8 :: flags :: _ =>
      if flags &&& 0xe0 ≠ 0 then .error .badHeader
      else
        let rest ← skipIf flags 4 skipExtra rest
        let rest ← skipIf flags 8 (skipText maxHeaderText) rest
        let rest ← skipIf flags 16 (skipText maxHeaderText) rest
        skipIf flags 2 (skipHeaderChecksum file) rest
  | _ => .error .badHeader

/-! ## Members -/

/-- The data of the first member of a file. -/
def decompress (file : List UInt8) : Except GzipFlaw (List UInt8) := do
  let deflated ← skipHeader file
  let (out, bits) ← Deflate.inflate (Deflate.bitsOf deflated)
  let (sum, bits) ← Deflate.takeNat 32 (Deflate.align bits)
  let (size, _) ← Deflate.takeNat 32 bits
  let data := out.toList
  if sum = (checksum data).toNat ∧ size = out.size % valuesOf 32 then return data
  else .error .wrongChecksum

/-- The contents of a file that may be compressed. -/
def expand (file : List UInt8) : Except LoadError (List UInt8) :=
  if isMarked file then (decompress file).mapError .container else .ok file

end Gzip

end Gatework
