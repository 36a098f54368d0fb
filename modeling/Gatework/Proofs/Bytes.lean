import Mathlib.Algebra.Group.Nat.Defs
import Mathlib.Tactic.Common
import Gatework.Bytes
import Gatework.Power
import Gatework.Proofs.Runs

/-!
# Decoding what was encoded

A decoder that is given an encoded value and more bytes behind it returns the value and these bytes.
So the encodings are prefix codes: of two strings that begin with encoded values and are equal, the
values are equal and so are the rests.

The decoders are also canonical: what they take off the front of a string is the encoding of the value
that they return, so no value can be written in two ways.
-/

namespace Gatework

namespace Bytes

variable {α : Type} {encode : α → List UInt8} {decode : List UInt8 → Except Flaw (α × List UInt8)}

/-- A decoder returns the value that was encoded and leaves what stands behind it. -/
def Reads (decode : List UInt8 → Except Flaw (α × List UInt8)) (encode : α → List UInt8) (x : α) :
    Prop := ∀ rest, decode (encode x ++ rest) = .ok (x, rest)

/-- Two values that are read back are encoded differently, whatever stands behind them. -/
lemma Reads.eq_of_append {x y : α} {r s : List UInt8} (hx : Reads decode encode x)
    (hy : Reads decode encode y) (h : encode x ++ r = encode y ++ s) : x = y ∧ r = s := by
  have heq := (hx r).symm.trans ((congrArg decode h).trans (hy s))
  exact Prod.mk.inj (Except.ok.inj heq)

lemma reads_nat {count n : Nat} (h : n < 256 ^ count) :
    Reads (decodeNat count) (encodeNat count) n := by
  intro rest
  induction count generalizing n with
  | zero =>
      obtain rfl : n = 0 := by simpa using h
      rfl
  | succ count ih =>
      rw [encodeNat, List.cons_append, decodeNat, ih (by omega), Except.map]
      dsimp only
      rw [UInt8.toNat_ofNat', Nat.mod_add_div]

lemma reads_bool (value : Bool) : Reads decodeBool encodeBool value := by
  intro rest
  cases value <;> rfl

/-- Values that stand one behind the other are read back together. -/
lemma reads_many {xs : List α} (h : ∀ x ∈ xs, Reads decode encode x) :
    Reads (decodeMany decode xs.length) (·.flatMap encode) xs := by
  intro rest
  induction xs with
  | nil => rfl
  | cons x xs ih =>
      have hhead := h x (by simp) (xs.flatMap encode ++ rest)
      have htail := ih fun y hy => h y (by simp [hy])
      dsimp only at htail ⊢
      rw [List.length_cons, List.flatMap_cons, List.append_assoc, decodeMany, hhead]
      show (decodeMany decode xs.length _ >>= _) = _
      rw [htail]
      rfl

/-- A list is read back if its elements are. -/
lemma reads_list {xs : List α} (length : xs.length < 256 ^ 8)
    (h : ∀ x ∈ xs, Reads decode encode x) : Reads (decodeList decode) (encodeList encode) xs := by
  intro rest
  rw [encodeList, List.append_assoc, decodeList, reads_nat length, ok_bind]
  exact reads_many h rest

/-! ## Canonical encodings -/

/-- What a decoder takes off the front of a string is the encoding of the value that it returns. -/
def Canonical (decode : List UInt8 → Except Flaw (α × List UInt8)) (encode : α → List UInt8) : Prop :=
  ∀ {bytes x rest}, decode bytes = .ok (x, rest) → bytes = encode x ++ rest

lemma canonical_nat (count : Nat) : Canonical (decodeNat count) (encodeNat count) := by
  intro bytes n rest h
  induction count generalizing bytes n with
  | zero =>
      cases h
      rfl
  | succ count ih =>
      cases bytes with
      | nil => cases h
      | cons b bytes =>
          obtain ⟨⟨m, rest'⟩, hm, heq⟩ := map_eq_ok_iff.1 h
          cases heq
          have hb : b.toNat < 256 := b.toNat_lt
          have hlow : UInt8.ofNat (b.toNat + 256 * m) = b := by
            refine UInt8.toNat_inj.1 ?_
            rw [UInt8.toNat_ofNat']
            omega
          have hhigh : (b.toNat + 256 * m) / 256 = m := by omega
          rw [encodeNat, hlow, hhigh, List.cons_append, ← ih hm]

lemma decodeNat_lt {count n : Nat} {bytes rest : List UInt8}
    (h : decodeNat count bytes = .ok (n, rest)) : n < 256 ^ count := by
  induction count generalizing bytes n with
  | zero =>
      cases h
      exact Nat.one_pos
  | succ count ih =>
      cases bytes with
      | nil => cases h
      | cons b bytes =>
          obtain ⟨⟨m, rest'⟩, hm, heq⟩ := map_eq_ok_iff.1 h
          cases heq
          have hb : b.toNat < 256 := b.toNat_lt
          have hlt := ih hm
          rw [Nat.pow_succ]
          omega

lemma canonical_bool : Canonical decodeBool encodeBool := by
  intro bytes value rest h
  cases bytes with
  | nil => cases h
  | cons b bytes =>
      rw [decodeBool] at h
      split at h
      · rename_i hzero
        cases h
        rw [hzero]
        rfl
      · split at h
        · rename_i hone
          cases h
          rw [hone]
          rfl
        · cases h

/-- Values that are read one after the other stand one behind the other. -/
lemma canonical_many (canonical : Canonical decode encode) {count : Nat} {bytes rest : List UInt8}
    {xs : List α} (h : decodeMany decode count bytes = .ok (xs, rest)) :
    xs.length = count ∧ bytes = xs.flatMap encode ++ rest := by
  induction count generalizing bytes xs with
  | zero =>
      cases h
      exact ⟨rfl, rfl⟩
  | succ count ih =>
      rw [decodeMany] at h
      obtain ⟨⟨x, bytes'⟩, hx, h⟩ := bind_eq_ok_iff.1 h
      obtain ⟨⟨ys, rest'⟩, hys, h⟩ := bind_eq_ok_iff.1 h
      cases h
      obtain ⟨hlength, hrest⟩ := ih hys
      refine ⟨congrArg (· + 1) hlength, ?_⟩
      rw [canonical hx, hrest, List.flatMap_cons, List.append_assoc]

lemma canonical_list (canonical : Canonical decode encode) :
    Canonical (decodeList decode) (encodeList encode) := by
  intro bytes xs rest h
  rw [decodeList] at h
  obtain ⟨⟨count, bytes'⟩, hcount, h⟩ := bind_eq_ok_iff.1 h
  obtain ⟨hlength, hbytes⟩ := canonical_many canonical h
  rw [encodeList, canonical_nat 8 hcount, hbytes, hlength, List.append_assoc]

end Bytes

end Gatework
