import Gatework.Proofs.TruthTable.Stored

/-!
# The two forms of a table

A table is a number of `2 ^ n` bits or a list of words.  Networks are simulated on words and files hold
words, while synthesis and matching work on numbers.  An operation on the words of tables makes the words
of what the operation on the numbers makes, so what is proved of the one form holds of the other.

**Main statement.** `WordTable.agrees`.
-/

namespace Gatework

variable {n v x : Nat} {T U : TruthTable n}

/-- Bit `x` of a table that is made of words is bit `x % 64` of word `x / 64`. -/
lemma TruthTable.value_ofWords (hx : x < 2 ^ n) (words : List UInt64) :
    (ofWords n words).value x = (words.getD (x / 64) 0).toNat.testBit (x % 64) := by
  rw [ofWords, value_ofNat hx]
  conv_lhs => rw [← Nat.div_add_mod x 64]
  rw [testBit_natOfWords _ _ (Nat.mod_lt _ (by decide)), List.getD_eq_getElem?_getD,
    List.getElem?_take_of_lt (WordTable.div_lt_wordCount hx), List.getD_eq_getElem?_getD]

namespace WordTable

lemma const_ofTable (hn : n ≤ maxTableVariables) (c : Bool) :
    const n c = .ok (ofTable (TruthTable.const n c)) :=
  (gives_const hn c).eq_ofTable fun _ hx => (TruthTable.value_const hx c).symm

lemma var_ofTable (hn : n ≤ maxTableVariables) (hv : v < n) :
    var n v = .ok (ofTable (TruthTable.var n v)) :=
  (gives_var hn hv).eq_ofTable fun _ hx => (TruthTable.value_var hx v).symm

lemma ofWords_ofTable (hn : n < 70) {words : List UInt64} (length : wordCount n ≤ words.length) :
    ofWords n words = .ok (ofTable (TruthTable.ofWords n words)) :=
  (gives_ofWords hn length).eq_ofTable fun _ hx => (TruthTable.value_ofWords hx words).symm

lemma setValue_ofTable (hx : x < 2 ^ n) (c : Bool) :
    (ofTable T).setValue x c = .ok (ofTable (.ofFn n fun y => if y = x then c else T.value y)) :=
  ((ofTable_fits T).gives_setValue hx c).eq_ofTable fun y hy => by
    rw [bit_ofTable, TruthTable.value_ofFn _ hy]

lemma not_ofTable : (ofTable T).not = ofTable T.not :=
  Except.ok.inj <| Gives.eq_ofTable ⟨_, rfl, (ofTable_fits T).not_tabulates⟩ fun x hx => by
    rw [bit_ofTable, TruthTable.value_not hx]

lemma and_ofTable : (ofTable T).and (ofTable U) = .ok (ofTable (T.and U)) :=
  ((ofTable_fits T).gives_and (ofTable_fits U)).eq_ofTable fun x _ => by
    rw [bit_ofTable, bit_ofTable, TruthTable.value_and]

lemma or_ofTable : (ofTable T).or (ofTable U) = .ok (ofTable (T.or U)) :=
  ((ofTable_fits T).gives_or (ofTable_fits U)).eq_ofTable fun x _ => by
    rw [bit_ofTable, bit_ofTable, TruthTable.value_or]

lemma xor_ofTable : (ofTable T).xor (ofTable U) = .ok (ofTable (T.xor U)) :=
  ((ofTable_fits T).gives_xor (ofTable_fits U)).eq_ofTable fun x _ => by
    rw [bit_ofTable, bit_ofTable, TruthTable.value_xor]

lemma andNot_ofTable : (ofTable T).andNot (ofTable U) = .ok (ofTable (T.andNot U)) :=
  ((ofTable_fits T).gives_andNot (ofTable_fits U)).eq_ofTable fun x hx => by
    rw [bit_ofTable, bit_ofTable, TruthTable.value_andNot hx]

lemma flip_ofTable (hv : v < n) : (ofTable T).flip v = .ok (ofTable (T.flip v)) :=
  ((ofTable_fits T).gives_flip hv).eq_ofTable fun x hx => by
    rw [bit_ofTable, TruthTable.value_flip hv hx]

lemma isZero_ofTable : (ofTable T).isZero = T.isZero := by
  rw [Bool.eq_iff_iff, (ofTable_fits T).isZero_iff, TruthTable.isZero_iff]
  simp only [bit_ofTable]

lemma implies_ofTable : (ofTable T).implies (ofTable U) = .ok (T.implies U) := by
  rw [implies, andNot_ofTable]
  exact congrArg Except.ok isZero_ofTable

/-- On the words of tables of `n` variables every operation makes the words of what it makes of the
tables. -/
structure Agrees (n : Nat) : Prop where
  const : ∀ c, const n c = .ok (ofTable (TruthTable.const n c))
  var : ∀ v < n, var n v = .ok (ofTable (TruthTable.var n v))
  ofWords : ∀ words : List UInt64, wordCount n ≤ words.length →
    ofWords n words = .ok (ofTable (TruthTable.ofWords n words))
  value : ∀ (T : TruthTable n), ∀ x < 2 ^ n, (ofTable T).value x = .ok (T.value x)
  setValue : ∀ (T : TruthTable n), ∀ x < 2 ^ n, ∀ c,
    (ofTable T).setValue x c = .ok (ofTable (.ofFn n fun y => if y = x then c else T.value y))
  not : ∀ T : TruthTable n, (ofTable T).not = ofTable T.not
  and : ∀ T U : TruthTable n, (ofTable T).and (ofTable U) = .ok (ofTable (T.and U))
  or : ∀ T U : TruthTable n, (ofTable T).or (ofTable U) = .ok (ofTable (T.or U))
  xor : ∀ T U : TruthTable n, (ofTable T).xor (ofTable U) = .ok (ofTable (T.xor U))
  andNot : ∀ T U : TruthTable n, (ofTable T).andNot (ofTable U) = .ok (ofTable (T.andNot U))
  isZero : ∀ T : TruthTable n, (ofTable T).isZero = T.isZero
  implies : ∀ T U : TruthTable n, (ofTable T).implies (ofTable U) = .ok (T.implies U)
  cofactor : ∀ (T : TruthTable n), ∀ v < n, ∀ c,
    (ofTable T).cofactor v c = .ok (ofTable (T.cofactor v c))
  flip : ∀ (T : TruthTable n), ∀ v < n, (ofTable T).flip v = .ok (ofTable (T.flip v))
  quantify : ∀ (T : TruthTable n), ∀ v < n, (ofTable T).quantify v = .ok (ofTable (T.quantify v))
  quantifyAll : ∀ (T : TruthTable n) (mask : Nat),
    (ofTable T).quantifyAll mask = .ok (ofTable (T.quantifyAll mask))
  hasVar : ∀ (T : TruthTable n), ∀ v < n, (ofTable T).hasVar v = .ok (T.hasVar v)
  supportMask : ∀ T : TruthTable n, (ofTable T).supportMask = .ok T.supportMask
  project : ∀ (T : TruthTable n) (vars : List Nat), vars.Nodup → (∀ v ∈ vars, v < n) →
    (∀ v < n, T.hasVar v = true → v ∈ vars) →
    (ofTable T).project vars = .ok (ofTable (T.project vars))

/-- The two forms of a table of up to 24 variables agree. -/
theorem agrees (hn : n ≤ maxTableVariables) : Agrees n where
  const := const_ofTable hn
  var _ := var_ofTable hn
  ofWords _ := ofWords_ofTable (hn.trans_lt (by decide))
  value T x hx := by rw [(ofTable_fits T).value_eq hx, bit_ofTable]
  setValue _ _ := setValue_ofTable
  not _ := not_ofTable
  and _ _ := and_ofTable
  or _ _ := or_ofTable
  xor _ _ := xor_ofTable
  andNot _ _ := andNot_ofTable
  isZero _ := isZero_ofTable
  implies _ _ := implies_ofTable
  cofactor _ _ := cofactor_ofTable
  flip _ _ := flip_ofTable
  quantify _ _ := quantify_ofTable
  quantifyAll _ := quantifyAll_ofTable
  hasVar _ _ := hasVar_ofTable
  supportMask _ := supportMask_ofTable
  project _ _ := project_ofTable hn

end WordTable

namespace AnyTable

/-- The words of a table. -/
def stored (t : AnyTable) : WordTable := .ofTable t.table

end AnyTable

end Gatework
