import Gatework.Gzip.PrefixCode
import Gatework.Power

/-!
# Deflated data

Deflated data are a sequence of blocks, read bit by bit from the least significant bit of each byte.
A block holds its bytes as they are, or as symbols of two prefix codes: one for bytes, for the end of
the block and for the lengths of repetitions, and one for the distances of repetitions.  The codes
are fixed ones or are described in front of the symbols by the lengths of their codewords, which are
themselves symbols of a third code.

A reader takes bits from the front of a list and returns what it read with the rest; it fails when
the bits run out or describe nothing, whichever comes first.
-/

namespace Gatework

namespace Deflate

/-- The bits of a byte string, the least significant of each byte first. -/
def bitsOf (bytes : List UInt8) : List Bool :=
  bytes.flatMap fun b => (List.range 8).map b.toNat.testBit

/-- The number in the first `count` bits, least significant first. -/
def takeNat : (count : Nat) → List Bool → Except GzipFlaw (Nat × List Bool)
  | 0, bits => .ok (0, bits)
  | _ + 1, [] => .error .truncated
  | count + 1, b :: bits => (takeNat count bits).map fun (n, rest) => (b.toNat + 2 * n, rest)

/-- The numbers in the first `count` groups of `width` bits. -/
def takeNats (width : Nat) : (count : Nat) → List Bool → Except GzipFlaw (List Nat × List Bool)
  | 0, bits => .ok ([], bits)
  | count + 1, bits => do
      let (n, bits) ← takeNat width bits
      let (ns, bits) ← takeNats width count bits
      return (n :: ns, bits)

/-- The bits from the next byte boundary on; a byte string ends at one. -/
def align (bits : List Bool) : List Bool := bits.drop (bits.length % 8)

/-! ## Repetitions -/

/-- For each symbol of a repetition length, the least length and the number of bits that add to
it. -/
def lengthRanges : Array (Nat × Nat) :=
  #[(3, 0), (4, 0), (5, 0), (6, 0), (7, 0), (8, 0), (9, 0), (10, 0), (11, 1), (13, 1), (15, 1),
    (17, 1), (19, 2), (23, 2), (27, 2), (31, 2), (35, 3), (43, 3), (51, 3), (59, 3), (67, 4),
    (83, 4), (99, 4), (115, 4), (131, 5), (163, 5), (195, 5), (227, 5), (258, 0)]

/-- For each symbol of a repetition distance, the least distance and the number of bits that add to
it. -/
def distanceRanges : Array (Nat × Nat) :=
  #[(1, 0), (2, 0), (3, 0), (4, 0), (5, 1), (7, 1), (9, 2), (13, 2), (17, 3), (25, 3), (33, 4),
    (49, 4), (65, 5), (97, 5), (129, 6), (193, 6), (257, 7), (385, 7), (513, 8), (769, 8),
    (1025, 9), (1537, 9), (2049, 10), (3073, 10), (4097, 11), (6145, 11), (8193, 12), (12289, 12),
    (16385, 13), (24577, 13)]

/-- The number that a symbol and the bits behind it denote. -/
def takeRanged (ranges : Array (Nat × Nat)) (symbol : Nat) (bits : List Bool) :
    Except GzipFlaw (Nat × List Bool) :=
  match ranges[symbol]? with
  | none => .error .corruptData
  | some (least, width) => (takeNat width bits).map fun (more, bits) => (least + more, bits)

/-- Appends `count` bytes, each a copy of the byte `distance` places before it. -/
def repeatBytes (distance : Nat) : (count : Nat) → Array UInt8 → Array UInt8
  | 0, out => out
  | count + 1, out => repeatBytes distance count (out.push (out.getD (out.size - distance) 0))

/-! ## Blocks -/

/-- The symbol that ends a block. -/
def endOfBlock : Nat := 256

/-- The two codes of a block. -/
structure Codes where
  literals : PrefixCode
  distances : PrefixCode

/-- Reads symbols up to the end of a block.  Every symbol takes at least one bit, so the number of
bits bounds the number of symbols. -/
def takeSymbols (codes : Codes) :
    (fuel : Nat) → Array UInt8 → List Bool → Except GzipFlaw (Array UInt8 × List Bool)
  | 0, _, _ => .error .truncated
  | fuel + 1, out, bits => do
      let (symbol, bits) ← codes.literals.decode bits
      if symbol < endOfBlock then takeSymbols codes fuel (out.push (UInt8.ofNat symbol)) bits
      else if symbol = endOfBlock then return (out, bits)
      else
        let (count, bits) ← takeRanged lengthRanges (symbol - endOfBlock - 1) bits
        let (symbol, bits) ← codes.distances.decode bits
        let (distance, bits) ← takeRanged distanceRanges symbol bits
        if distance ≤ out.size then takeSymbols codes fuel (repeatBytes distance count out) bits
        else .error .corruptData

/-- The codes of a block that does not describe its own. -/
def fixedCodes : Codes where
  literals := .ofLengths (List.replicate 144 8 ++ List.replicate 112 9 ++ List.replicate 24 7 ++
    List.replicate 8 8)
  distances := .ofLengths (List.replicate 32 5)

/-- How often a symbol of the code of lengths repeats a length, and which one; `previous` is the
length before it. -/
def takeRun (symbol : Nat) (previous : Option Nat) (bits : List Bool) :
    Except GzipFlaw ((Nat × Nat) × List Bool) :=
  if symbol < 16 then .ok ((1, symbol), bits)
  else if symbol = 16 then
    match takeNat 2 bits, previous with
    | .ok (more, bits), some length => .ok ((3 + more, length), bits)
    | .ok _, none => .error .corruptData
    | .error flaw, _ => .error flaw
  else if symbol = 17 then (takeNat 3 bits).map fun (more, bits) => ((3 + more, 0), bits)
  else (takeNat 7 bits).map fun (more, bits) => ((11 + more, 0), bits)

/-- Reads the lengths of `wanted` more codewords; `found` are those before, the latest first.  Every
round finds at least one, so `wanted` bounds the number of rounds. -/
def takeLengths (code : PrefixCode) :
    (fuel wanted : Nat) → (found : List Nat) → List Bool → Except GzipFlaw (List Nat × List Bool)
  | _, 0, found, bits => .ok (found.reverse, bits)
  | 0, _ + 1, _, _ => .error .truncated
  | fuel + 1, wanted + 1, found, bits => do
      let (symbol, bits) ← code.decode bits
      let ((count, length), bits) ← takeRun symbol found.head? bits
      if count ≤ wanted + 1 then
        takeLengths code fuel (wanted + 1 - count) (List.replicate count length ++ found) bits
      else .error .corruptData

/-- The symbols of the code of lengths in the order in which their own lengths are listed. -/
def lengthOrder : List Nat := [16, 17, 18, 0, 8, 7, 9, 6, 10, 5, 11, 4, 12, 3, 13, 2, 14, 1, 15]

/-- The most symbols of the two codes that a block may describe. -/
def maxSymbols : Nat × Nat := (286, 30)

/-- Reads the description of the codes of a block. -/
def takeCodes (bits : List Bool) : Except GzipFlaw (Codes × List Bool) := do
  let (literals, bits) ← takeNat 5 bits
  let (distances, bits) ← takeNat 5 bits
  let (listed, bits) ← takeNat 4 bits
  let (literals, distances) := (literals + 257, distances + 1)
  if maxSymbols.1 < literals || maxSymbols.2 < distances then .error .corruptData
  else
    let (lengths, bits) ← takeNats 3 (listed + 4) bits
    let code := PrefixCode.ofLengths ((List.range 19).map fun symbol =>
      ((lengthOrder.zip lengths).lookup symbol).getD 0)
    if !code.isComplete then .error .corruptData
    else
      let (lengths, bits) ← takeLengths code (literals + distances) (literals + distances) [] bits
      let codes : Codes :=
        ⟨.ofLengths (lengths.take literals), .ofLengths (lengths.drop literals)⟩
      let usable (c : PrefixCode) : Bool := c.isComplete || c.isDegenerate
      if lengths[endOfBlock]? == some 0 then .error .corruptData
      else if usable codes.literals && usable codes.distances then return (codes, bits)
      else .error .corruptData

/-- Reads a block whose bytes are held as they are, behind their number and its complement. -/
def takeStored (out : Array UInt8) (bits : List Bool) : Except GzipFlaw (Array UInt8 × List Bool) := do
  let (count, bits) ← takeNat 16 (align bits)
  let (complement, bits) ← takeNat 16 bits
  if count + complement ≠ valuesOf 16 - 1 then .error .corruptData
  else
    let (bytes, bits) ← takeNats 8 count bits
    return (bytes.foldl (fun out b => out.push (UInt8.ofNat b)) out, bits)

/-- Reads the rest of a block of some kind. -/
def takeBlock (kind : Nat) (out : Array UInt8) (bits : List Bool) :
    Except GzipFlaw (Array UInt8 × List Bool) :=
  match kind with
  | 0 => takeStored out bits
  | 1 => takeSymbols fixedCodes (bits.length + 1) out bits
  | 2 => do
      let (codes, bits) ← takeCodes bits
      takeSymbols codes (bits.length + 1) out bits
  | _ => .error .corruptData

/-- Reads blocks up to the one marked as the last.  Every block takes bits, so their number bounds
the number of blocks. -/
def takeBlocks : (fuel : Nat) → Array UInt8 → List Bool → Except GzipFlaw (Array UInt8 × List Bool)
  | 0, _, _ => .error .truncated
  | fuel + 1, out, bits => do
      let (last, bits) ← takeNat 1 bits
      let (kind, bits) ← takeNat 2 bits
      let (out, bits) ← takeBlock kind out bits
      if last = 1 then return (out, bits) else takeBlocks fuel out bits

/-- The data that deflated data stand for, and the bits behind the last block. -/
def inflate (bits : List Bool) : Except GzipFlaw (Array UInt8 × List Bool) :=
  takeBlocks (bits.length + 1) #[] bits

end Deflate

end Gatework
