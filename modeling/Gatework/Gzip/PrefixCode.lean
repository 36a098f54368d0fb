/-!
# Canonical prefix codes

A prefix code over the symbols `0, 1, …` is given by the length of every symbol's codeword, where
length zero means that the symbol has none.  Codewords of one length are consecutive numbers in the
order of their symbols, and they follow the codewords of the lengths before.  Decoding needs only
the number of codewords of each length and the symbols in the order of their codewords.
-/

namespace Gatework

/-! ## Flaws of compressed files

What can be wrong with a compressed file: with its header, with the deflated data, or with the
checksum and the length behind them.
-/

/-- What is wrong with a compressed file. -/
inductive GzipFlaw where
  | badHeader
  /-- A text of the header does not end. -/
  | fieldTooLong
  /-- The file ends too early. -/
  | truncated
  /-- The deflated data describe nothing. -/
  | corruptData
  /-- The header or the data do not have the checksum or the length that is given. -/
  | wrongChecksum
deriving DecidableEq, Repr

/-- The wording of a flaw. -/
def GzipFlaw.message : GzipFlaw → String
  | badHeader => "invalid gzip header"
  | fieldTooLong => "gzip header field too long"
  | truncated => "unexpected end of file"
  | corruptData => "corrupt deflate stream"
  | wrongChecksum => "corrupt gzip stream does not have a matching checksum"

/-! ## Codes -/

/-- A canonical prefix code. -/
structure PrefixCode where
  /-- The number of codewords of each length, from one bit upwards. -/
  counts : List Nat
  /-- The symbols in the order of their codewords. -/
  symbols : Array Nat

namespace PrefixCode

/-- The longest codeword. -/
def maxLength : Nat := 15

/-- The code with the given length of each symbol's codeword. -/
def ofLengths (lengths : List Nat) : PrefixCode where
  counts := (List.range' 1 maxLength).map lengths.count
  symbols := ((List.range' 1 maxLength).flatMap fun k =>
    (lengths.zipIdx.filter (·.1 == k)).map (·.2)).toArray

/-- Of `free` codewords that are not the beginning of a shorter one, how many are left when the
counts are taken away length by length; none if there are too few. -/
def unused? : (free : Nat) → (counts : List Nat) → Option Nat
  | free, [] => some free
  | free, count :: counts => if 2 * free < count then none else unused? (2 * free - count) counts

/-- Whether every long enough bit string begins with a codeword. -/
def isComplete (c : PrefixCode) : Bool := unused? 1 c.counts == some 0

/-- Whether there is no codeword, or only one and that of one bit. -/
def isDegenerate (c : PrefixCode) : Bool :=
  c.symbols.isEmpty || (c.symbols.size == 1 && c.counts.head? == some 1)

/-- Compares the bits read so far with the codewords of the next length.  `code` is their number,
`first` the first codeword of the length and `index` the number of all shorter ones.  It fails as
soon as no codeword is long enough. -/
def decodeFrom (symbols : Array Nat) :
    (counts : List Nat) → (code first index : Nat) → List Bool → Except GzipFlaw (Nat × List Bool)
  | [], _, _, _, _ => .error .corruptData
  | _ :: _, _, _, _, [] => .error .truncated
  | count :: counts, code, first, index, b :: bits =>
      let code := 2 * code + b.toNat
      if code < first + count then
        match symbols[index + (code - first)]? with
        | some symbol => .ok (symbol, bits)
        | none => .error .corruptData
      else if counts.all (· == 0) then .error .corruptData
      else decodeFrom symbols counts code (2 * (first + count)) (index + count) bits

/-- The symbol whose codeword the bits begin with, and the bits behind it. -/
def decode (c : PrefixCode) (bits : List Bool) : Except GzipFlaw (Nat × List Bool) :=
  decodeFrom c.symbols c.counts 0 0 0 bits

end PrefixCode

end Gatework
