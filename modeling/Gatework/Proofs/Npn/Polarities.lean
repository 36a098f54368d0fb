import Gatework.Proofs.Npn.Permutation
import Gatework.Proofs.Npn.Transform
import Gatework.Proofs.TruthTable.Words

/-!
# The walk through all polarities

The search for a canonical form works on words.  Here its walks are followed table by table.

**Words.**  At most six variables fit into one word.  The bits of `permuteWord` are the bits of the word
where the permuted assignment points (`testBit_permuteWord`), and exchanging the halves that a variable
selects changes one digit of the mask of a transform (`Stands.turn`).

**Gray code.**  Table `k` of a walk is reached with the mask `gray k`: the last digit that is set in `k`
is the only one in which `gray k` differs from its predecessor (`gray_succ`).  The codes of the numbers
below `2 ^ n` are these numbers again (`map_gray_perm`), so every mask occurs once.

**Main statement.** `search_visits`: the search considers what all transforms make of the function, each of
them once.
-/

namespace Gatework

/-! ## Tables of one word -/

section Words

variable {n p : Nat} {f : TruthTable n}

namespace TruthTable

lemma two_pow_le_word (hn : n ≤ 6) : 2 ^ n ≤ 64 := Nat.pow_le_pow_right (n := 2) (by decide) hn

lemma toNat_word (hn : n ≤ 6) (f : TruthTable n) : f.word.toNat = f.toNat := by
  refine UInt64.toNat_ofNat_of_lt' (f.bits.isLt.trans_le ?_)
  exact Nat.pow_le_pow_right (by decide) (two_pow_le_word hn)

lemma testBit_word (hn : n ≤ 6) (f : TruthTable n) (p : Nat) :
    f.word.toNat.testBit p = f.value p := by
  rw [toNat_word hn]
  rfl

/-- A word whose bits are the values of a table, and zero behind them, is the word of the table. -/
lemma eq_word (hn : n ≤ 6) {w : UInt64} {g : Nat → Bool}
    (bits : ∀ p < 64, w.toNat.testBit p = (decide (p < 2 ^ n) && g p))
    (same : ∀ p < 2 ^ n, g p = f.value p) : w = f.word := by
  refine eq_of_testBit_word fun p hp => (bits p hp).trans ?_
  rw [testBit_word hn]
  by_cases hlt : p < 2 ^ n
  · rw [decide_eq_true hlt, Bool.true_and, same p hlt]
  · rw [decide_eq_false hlt, Bool.false_and, value_of_ge (Nat.not_lt.1 hlt)]

/-- The word of a table of at most six variables makes the table. -/
lemma ofWords_word (hn : n ≤ 6) (f : TruthTable n) : ofWords n [f.word] = f := by
  have hcount : wordCount n = 1 := if_pos hn
  refine ext_value fun x hx => ?_
  rw [ofWords, hcount, value_ofNat hx]
  simp [natOfWords, testBit_word hn]

end TruthTable

end Words

namespace Canonical

/-! ## Gray code -/

/-- The Gray code of a number. -/
def gray (k : Nat) : Nat := k ^^^ k >>> 1

lemma testBit_gray (k i : Nat) : (gray k).testBit i = (k.testBit i ^^ k.testBit (i + 1)) := by
  rw [gray, Nat.testBit_xor, Nat.testBit_shiftRight, Nat.add_comm 1 i]

/-- Behind its last digit the code of a number is the code of the number without its last digit. -/
lemma testBit_gray_succ (k i : Nat) : (gray k).testBit (i + 1) = (gray (k / 2)).testBit i := by
  rw [testBit_gray, testBit_gray, Nat.testBit_succ, Nat.testBit_succ]

lemma testBit_gray_zero (k : Nat) : (gray k).testBit 0 = (decide (k % 2 = 1) ^^ decide (k / 2 % 2 = 1)) := by
  rw [testBit_gray, Nat.testBit_succ, Nat.testBit_zero, Nat.testBit_zero]

lemma trailingZeros_lt {n k : Nat} (pos : 0 < k) (h : k < 2 ^ n) : trailingZeros n k < n := by
  induction n generalizing k with
  | zero => omega
  | succ n ih =>
      rw [trailingZeros]
      split
      · exact Nat.succ_pos n
      · rw [Nat.pow_succ] at h
        exact Nat.succ_lt_succ (ih (by omega) (by omega))

/-- The code of a number differs from the code of its predecessor in the last digit that is set in the
number. -/
lemma gray_succ {n k : Nat} (h : k + 1 < 2 ^ n) :
    gray (k + 1) = gray k ^^^ 1 <<< trailingZeros n (k + 1) := by
  induction n generalizing k with
  | zero => simp at h
  | succ n ih =>
      refine Nat.eq_of_testBit_eq fun i => ?_
      rw [trailingZeros, Nat.testBit_xor, Nat.one_shiftLeft, Nat.testBit_two_pow]
      by_cases hodd : (k + 1) % 2 = 1
      · rw [if_pos hodd]
        have hhalf : (k + 1) / 2 = k / 2 := by omega
        cases i with
        | zero =>
            rw [testBit_gray_zero, testBit_gray_zero, hhalf, decide_eq_true hodd,
              decide_eq_false (by omega : ¬ k % 2 = 1)]
            simp
        | succ i =>
            rw [testBit_gray_succ, testBit_gray_succ, hhalf]
            simp
      · rw [if_neg hodd]
        have hhalf : (k + 1) / 2 = k / 2 + 1 := by omega
        rw [hhalf]
        cases i with
        | zero =>
            have hparity : decide ((k / 2 + 1) % 2 = 1) = !decide (k / 2 % 2 = 1) := by
              rw [← decide_not, decide_eq_decide]
              omega
            rw [testBit_gray_zero, testBit_gray_zero, hhalf, decide_eq_false hodd,
              decide_eq_true (by omega : k % 2 = 1), hparity]
            simp
        | succ i =>
            rw [Nat.pow_succ] at h
            rw [testBit_gray_succ, testBit_gray_succ, hhalf, ih (by omega), Nat.testBit_xor,
              Nat.one_shiftLeft, Nat.testBit_two_pow]
            simp

/-- Every number is the code of one that has as many digits. -/
lemma exists_gray {n mask : Nat} (h : mask < 2 ^ n) : ∃ k < 2 ^ n, gray k = mask := by
  induction n generalizing mask with
  | zero =>
      obtain rfl := Nat.lt_one_iff.1 h
      exact ⟨0, h, rfl⟩
  | succ n ih =>
      rw [Nat.pow_succ] at h
      obtain ⟨k, hk, hgray⟩ := ih (show mask / 2 < 2 ^ n by omega)
      -- the last digit is the one that the codes ask for
      refine ⟨2 * k + (mask + k) % 2, by omega, Nat.eq_of_testBit_eq fun i => ?_⟩
      have hhalf : (2 * k + (mask + k) % 2) / 2 = k := by omega
      cases i with
      | zero =>
          rw [testBit_gray_zero, hhalf, Nat.testBit_zero]
          rcases Nat.mod_two_eq_zero_or_one k with hk | hk <;>
            rcases Nat.mod_two_eq_zero_or_one mask with hm | hm <;> simp [Nat.add_mod, hk, hm]
      | succ i => rw [testBit_gray_succ, hhalf, hgray, Nat.testBit_succ]

/-- The codes of the numbers of `n` digits are these numbers again. -/
lemma map_gray_perm (n : Nat) : ((List.range (2 ^ n)).map gray).Perm (List.range (2 ^ n)) := by
  have subset : List.range (2 ^ n) ⊆ (List.range (2 ^ n)).map gray := fun mask hmask => by
    obtain ⟨k, hk, rfl⟩ := exists_gray (List.mem_range.1 hmask)
    exact List.mem_map_of_mem (List.mem_range.2 hk)
  exact ((List.subperm_of_subset List.nodup_range subset).perm_of_length_le (by simp)).symm

/-! ## Permuted words -/

variable {n k : Nat} {f : TruthTable n} {perm : List Nat} {s : Walk}

/-- A bit of a word, moved to the end. -/
lemma shiftRight_and_one (w : UInt64) {x : Nat} (hx : x < 64) :
    w >>> UInt64.ofNat x &&& 1 = if w.toNat.testBit x then 1 else 0 := by
  have hshift : (UInt64.ofNat x).toNat % 64 = x := by
    rw [UInt64.toNat_ofNat_of_lt' (hx.trans (by decide)), Nat.mod_eq_of_lt hx]
  have hbit := Nat.toNat_testBit w.toNat x
  refine UInt64.toNat_inj.1 ?_
  rw [UInt64.toNat_and, UInt64.toNat_shiftRight, hshift, UInt64.toNat_one, Nat.and_one_is_mod,
    Nat.shiftRight_eq_div_pow, ← hbit]
  cases w.toNat.testBit x <;> rfl

/-- A bit of a word, moved to another place. -/
lemma testBit_movedBit (w : UInt64) {x y p : Nat} (hx : x < 64) (hy : y < 64) :
    ((w >>> UInt64.ofNat x &&& 1) <<< UInt64.ofNat y).toNat.testBit p =
      (decide (y = p) && w.toNat.testBit x) := by
  rw [shiftRight_and_one w hx]
  cases w.toNat.testBit x
  · simp
  · rw [if_pos rfl, testBit_pointWord hy, Bool.and_true]

lemma testBit_permuteWord (w : UInt64) (inside : ∀ y, TruthTable.spread perm y < 64) (hn : n ≤ 6)
    (p : Nat) : (permuteWord n perm w).toNat.testBit p =
      (decide (p < 2 ^ n) && w.toNat.testBit (TruthTable.spread perm p)) := by
  suffices ∀ count ≤ 64, ((List.range count).foldl
      (fun out y =>
        out ||| (w >>> UInt64.ofNat (TruthTable.spread perm y) &&& 1) <<< UInt64.ofNat y)
      (0 : UInt64)).toNat.testBit p = (decide (p < count) && w.toNat.testBit (TruthTable.spread perm p)) from
    this _ (TruthTable.two_pow_le_word hn)
  intro count
  induction count with
  | zero => simp
  | succ count ih =>
      intro hcount
      rw [List.range_succ, List.foldl_append, List.foldl_cons, List.foldl_nil, UInt64.toNat_or,
        Nat.testBit_or, ih (by omega), testBit_movedBit w (inside count) (by omega)]
      rcases Nat.lt_trichotomy p count with hp | rfl | hp
      · simp [hp, hp.ne', Nat.lt_succ_of_lt hp]
      · simp
      · simp [hp.ne, Nat.not_lt.2 hp.le, Nat.not_lt.2 (Nat.succ_le_of_lt hp)]

/-! ## One walk -/

/-- What a transform makes of a function. -/
def candidate (f : TruthTable n) (t : Transform) : Candidate := ⟨(t.onTable f).word, t⟩

/-- A walk through the polarities of a function stands at table `k`, with the mask that leads there. -/
structure Stands (f : TruthTable n) (perm : List Nat) (k : Nat) (s : Walk) : Prop where
  mask : s.mask = gray k
  word : s.word = ((Transform.mk perm (gray k) false).onTable f).word

/-- A walk begins with the permuted function. -/
lemma stands_zero (hn : n ≤ 6) (hperm : ∀ v ∈ perm, v < n) (f : TruthTable n)
    (best : Option Candidate) : Stands f perm 0 ⟨permuteWord n perm f.word, 0, best⟩ where
  mask := rfl
  word := by
    have inside y : TruthTable.spread perm y < 64 :=
      (TruthTable.spread_lt hperm y).trans_le (TruthTable.two_pow_le_word hn)
    refine TruthTable.eq_word hn (fun p _ => testBit_permuteWord _ inside hn p) fun p hp => ?_
    rw [TruthTable.testBit_word hn, Transform.onTable, TruthTable.value_ofFn _ hp, Bool.xor_false,
      Transform.source, gray, Nat.zero_shiftRight, Nat.xor_self, Nat.xor_zero]

/-- The next table of a walk has one more digit of the mask changed. -/
lemma Stands.turn (h : Stands f perm k s) (hn : n ≤ 6) (hk : k + 1 < 2 ^ n) :
    Stands f perm (k + 1) (s.turn n (k + 1)) where
  mask := (congrArg (· ^^^ _) h.mask).trans (gray_succ hk).symm
  word := by
    set v := trailingZeros n (k + 1) with hdigit
    have hv : v < n := trailingZeros_lt k.succ_pos hk
    have bits : ∀ p < 64, (flipWord v s.word &&& tailMask n).toNat.testBit p =
        (decide (p < 2 ^ n) && s.word.toNat.testBit (p ^^^ 2 ^ v)) := fun p hp => by
      rw [UInt64.toNat_and, Nat.testBit_and, testBit_flipWord (hv.trans_le hn) hp,
        testBit_tailMask hp, Bool.and_comm]
    refine TruthTable.eq_word hn bits fun p hp => ?_
    have hflip : p ^^^ 2 ^ v < 2 ^ n := Nat.xor_lt_two_pow hp (Nat.pow_lt_pow_right (by decide) hv)
    rw [h.word, TruthTable.testBit_word hn, Transform.onTable, Transform.onTable,
      TruthTable.value_ofFn _ hp, TruthTable.value_ofFn _ hflip, Transform.source, Transform.source,
      gray_succ hk, ← hdigit, Nat.one_shiftLeft, Nat.xor_assoc, Nat.xor_comm (2 ^ v)]

/-- Where a walk stands, the table and its complement are considered. -/
lemma Stands.judge (h : Stands f perm k s) (hn : n ≤ 6) : (s.judge n perm).best =
    ([⟨perm, gray k, false⟩, ⟨perm, gray k, true⟩].map (candidate f)).foldl consider s.best := by
  have complement : ~~~s.word &&& tailMask n =
      ((Transform.mk perm (gray k) true).onTable f).word := by
    have bits : ∀ p < 64, (~~~s.word &&& tailMask n).toNat.testBit p =
        (decide (p < 2 ^ n) && !s.word.toNat.testBit p) := fun p hp => by
      rw [UInt64.toNat_and, Nat.testBit_and, testBit_not _ hp, testBit_tailMask hp, Bool.and_comm]
    refine TruthTable.eq_word hn bits fun p hp => ?_
    rw [h.word, TruthTable.testBit_word hn, Transform.onTable, Transform.onTable,
      TruthTable.value_ofFn _ hp, TruthTable.value_ofFn _ hp, Bool.xor_false, Bool.xor_true]
    rfl
  rw [Walk.judge, complement, h.word, h.mask]
  rfl

/-- The transforms that a walk with one permutation visits. -/
def polarized (perm masks : List Nat) : List Transform :=
  masks.flatMap fun mask => [⟨perm, mask, false⟩, ⟨perm, mask, true⟩]

/-- Behind its first tables a walk stands at the last of them and has considered all of them. -/
lemma stands_run (hn : n ≤ 6) (hperm : ∀ v ∈ perm, v < n) (f : TruthTable n)
    (best : Option Candidate) {count : Nat} (h : count < 2 ^ n) :
    let s := Walk.run n perm (count + 1) ⟨permuteWord n perm f.word, 0, best⟩
    Stands f perm count s ∧ s.best =
      ((polarized perm ((List.range (count + 1)).map gray)).map (candidate f)).foldl consider best := by
  induction count with
  | zero =>
      have start := stands_zero hn hperm f best
      exact ⟨⟨start.mask, start.word⟩, start.judge hn⟩
  | succ count ih =>
      obtain ⟨stands, hbest⟩ := ih (Nat.lt_of_succ_lt h)
      have next := stands.turn hn h
      dsimp only
      rw [Walk.run, List.range_succ, List.foldl_append]
      refine ⟨⟨next.mask, next.word⟩, (next.judge hn).trans ?_⟩
      rw [polarized, List.map_append, List.flatMap_append, List.map_append, List.foldl_append,
        ← polarized, ← hbest]
      simp only [Walk.turn, if_neg (Nat.succ_ne_zero _)]
      rfl

/-- A walk considers all polarities. -/
lemma walk_eq (hn : n ≤ 6) (hperm : ∀ v ∈ perm, v < n) (f : TruthTable n) (best : Option Candidate) :
    walk n f.word best perm =
      ((polarized perm ((List.range (2 ^ n)).map gray)).map (candidate f)).foldl consider best := by
  obtain ⟨count, hcount⟩ := Nat.exists_eq_succ_of_ne_zero (Nat.two_pow_pos n).ne'
  have run := (stands_run hn hperm f best (show count < 2 ^ n by omega)).2
  rwa [← Nat.succ_eq_add_one, ← hcount] at run

/-! ## All walks -/

/-- The transforms that the search visits. -/
def visited (n : Nat) : List Transform :=
  (Permutation.all n).flatMap fun perm => polarized perm ((List.range (2 ^ n)).map gray)

lemma mem_polarized {t : Transform} {masks : List Nat} :
    t ∈ polarized perm masks ↔ t.perm = perm ∧ t.mask ∈ masks := by
  obtain ⟨p, mask, negated⟩ := t
  simp only [polarized, List.mem_flatMap, List.mem_cons, List.not_mem_nil, or_false, Transform.mk.injEq]
  constructor
  · rintro ⟨m, hm, ⟨rfl, rfl, -⟩ | ⟨rfl, rfl, -⟩⟩ <;> exact ⟨rfl, hm⟩
  · rintro ⟨rfl, hm⟩
    cases negated
    · exact ⟨mask, hm, .inl ⟨rfl, rfl, rfl⟩⟩
    · exact ⟨mask, hm, .inr ⟨rfl, rfl, rfl⟩⟩

lemma nodup_polarized {masks : List Nat} (h : masks.Nodup) : (polarized perm masks).Nodup := by
  refine List.nodup_flatMap.2 ⟨fun mask _ => by simp, h.imp fun {m m'} hne => ?_⟩
  intro t ht ht'
  simp only [List.mem_cons, List.not_mem_nil, or_false] at ht ht'
  rcases ht with rfl | rfl <;> rcases ht' with ht' | ht' <;> exact hne (congrArg Transform.mask ht')

/-- The search for the canonical form of a function considers what the transforms that it visits make of the
function, one after the other.  These are all transforms that permute the inputs and complement none
beyond them, and each is visited once. -/
theorem search_visits (hn : n ≤ 6) (f : TruthTable n) :
    search n f.word = ((visited n).map (candidate f)).foldl consider none ∧
      (visited n).Nodup ∧ ∀ t, t ∈ visited n ↔ t.Permutes n ∧ t.mask < 2 ^ n := by
  have masks := map_gray_perm n
  refine ⟨?_, ?_, fun t => ?_⟩
  · rw [search, visited, List.map_flatMap, List.foldl_flatMap]
    refine List.foldl_ext _ _ _ fun best perm hperm => walk_eq hn (fun v hv => ?_) f best
    exact List.mem_range.1 ((Permutation.mem_all.1 hperm).subset hv)
  · refine List.nodup_flatMap.2 ⟨fun perm _ => nodup_polarized (masks.nodup_iff.2 List.nodup_range), ?_⟩
    refine (Permutation.steps_sorted _ _).1.imp fun hlt t ht ht' => hlt.ne ?_
    exact (mem_polarized.1 ht).1.symm.trans (mem_polarized.1 ht').1
  · simp only [visited, List.mem_flatMap, mem_polarized, Permutation.mem_all, masks.mem_iff,
      List.mem_range]
    constructor
    · rintro ⟨perm, hperm, rfl, hmask⟩
      exact ⟨hperm, hmask⟩
    · rintro ⟨hperm, hmask⟩
      exact ⟨_, hperm, rfl, hmask⟩

end Canonical

end Gatework
