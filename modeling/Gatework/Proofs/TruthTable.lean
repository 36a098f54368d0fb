import Mathlib.Data.Nat.Bitwise
import Mathlib.Order.Nat
import Gatework.Cover
import Gatework.TruthTable.Any

/-!
# Truth tables as functions of assignments

An assignment is a number below `2 ^ n`, whose bit `v` is the value of variable `v`.  Every operation
on tables is described by the value of its result on an assignment, and two tables are equal if they
have the same values (`TruthTable.ext_value`).

* `setVar x v value` is the assignment `x` with one variable changed.
* `value_cofactor`, `value_flip`: what masking and shifting come to.
* `value_congr`: the value depends only on the variables of the support.
-/

namespace Gatework

/-! ## Assignments -/

/-- The assignment with the value of one variable changed. -/
def setVar (x v : Nat) (value : Bool) : Nat := if x.testBit v = value then x else x ^^^ 2 ^ v

section Assignments

variable {n x y v w : Nat} {value : Bool}

@[simp] lemma testBit_setVar : (setVar x v value).testBit w = if w = v then value else x.testBit w := by
  unfold setVar
  by_cases hw : w = v
  · subst hw
    by_cases h : x.testBit w = value
    · simp [h]
    · cases value <;> simp_all [Nat.testBit_two_pow_self]
  · rw [if_neg hw]
    split <;> simp [Nat.testBit_two_pow_of_ne (Ne.symm hw)]

lemma two_pow_lt (hv : v < n) : 2 ^ v < 2 ^ n := Nat.pow_lt_pow_right (by decide) hv

lemma setVar_lt (hx : x < 2 ^ n) (hv : v < n) : setVar x v value < 2 ^ n := by
  unfold setVar
  split
  · exact hx
  · exact Nat.xor_lt_two_pow hx (two_pow_lt hv)

lemma setVar_of_testBit (h : x.testBit v = value) : setVar x v value = x := if_pos h

/-- Assignments are equal if all variables have the same values. -/
lemma eq_of_testBit (hx : x < 2 ^ n) (hy : y < 2 ^ n)
    (h : ∀ v < n, x.testBit v = y.testBit v) : x = y := by
  refine Nat.eq_of_testBit_eq fun v => ?_
  by_cases hv : v < n
  · exact h v hv
  · have hle : 2 ^ n ≤ 2 ^ v := Nat.pow_le_pow_right (by decide) (Nat.not_lt.1 hv)
    rw [Nat.testBit_lt_two_pow (hx.trans_le hle), Nat.testBit_lt_two_pow (hy.trans_le hle)]

/-- Where a variable is false, adding its weight makes it true and changes nothing else. -/
lemma add_two_pow_eq_xor (h : x.testBit v = false) : x + 2 ^ v = x ^^^ 2 ^ v := by
  rw [Nat.add_comm]
  refine Nat.eq_of_testBit_eq fun w => ?_
  rw [Nat.testBit_xor]
  rcases Nat.lt_trichotomy w v with hw | rfl | hw
  · rw [Nat.testBit_two_pow_add_gt hw, Nat.testBit_two_pow_of_ne hw.ne', Bool.xor_false]
  · rw [Nat.testBit_two_pow_add_eq, Nat.testBit_two_pow_self, h]
    rfl
  · obtain ⟨k, rfl⟩ := Nat.exists_eq_add_of_lt hw
    have even : x / 2 ^ v % 2 = 0 := by
      rw [Nat.testBit_eq_decide_div_mod_eq] at h
      simpa using h
    have same : (2 ^ v + x) / 2 ^ (v + 1) = x / 2 ^ (v + 1) := by
      rw [Nat.pow_succ, ← Nat.div_div_eq_div_mul, ← Nat.div_div_eq_div_mul,
        Nat.add_div_left x (Nat.two_pow_pos v)]
      omega
    have hdiv : ∀ z, z.testBit (v + k + 1) = (z / 2 ^ (v + 1)).testBit k := fun z => by
      rw [← Nat.testBit_add, Nat.add_comm k, Nat.add_right_comm]
    rw [hdiv, same, ← hdiv, Nat.testBit_two_pow_of_ne (by omega), Bool.xor_false]

lemma add_two_pow_eq_setVar (h : x.testBit v = false) : x + 2 ^ v = setVar x v true := by
  rw [add_two_pow_eq_xor h, setVar, if_neg (by simp [h])]

/-- Where a variable is true, its weight can be taken away. -/
lemma sub_two_pow_eq_setVar (h : x.testBit v = true) :
    2 ^ v ≤ x ∧ x - 2 ^ v = setVar x v false := by
  have hclear : (setVar x v false).testBit v = false := by simp
  have hset : setVar (setVar x v false) v true = x := by
    refine Nat.eq_of_testBit_eq fun w => ?_
    by_cases hw : w = v
    · simp [hw, h]
    · simp [hw]
  have hadd := add_two_pow_eq_setVar hclear
  rw [hset] at hadd
  omega

/-- Where a variable is false, taking its weight away borrows it. -/
lemma testBit_sub_two_pow (h : x.testBit v = false) (hle : 2 ^ v ≤ x) :
    (x - 2 ^ v).testBit v = true := by
  have := Nat.testBit_two_pow_add_eq (x - 2 ^ v) v
  rw [Nat.add_sub_cancel' hle, h] at this
  simpa using this

end Assignments

namespace TruthTable

variable {n v x : Nat} {s t : TruthTable n}

/-- Tables with the same values are equal. -/
lemma ext_value (h : ∀ x < 2 ^ n, s.value x = t.value x) : s = t :=
  TruthTable.ext (BitVec.eq_of_getLsbD_eq fun x hx => h x hx)

lemma value_of_ge (hx : 2 ^ n ≤ x) : t.value x = false := BitVec.getLsbD_of_ge _ _ hx

lemma value_ofNat (hx : x < 2 ^ n) (bits : Nat) : (ofNat n bits).value x = bits.testBit x := by
  rw [value, ofNat, BitVec.getLsbD_ofNat]
  simp [hx]

/-! ## Tabulating -/

lemma testBit_pack (f : Nat → Bool) (n start x : Nat) :
    (pack f n start).testBit x = (decide (x < 2 ^ n) && f (start + x)) := by
  induction n generalizing start x with
  | zero =>
      cases x with
      | zero => cases h : f start <;> simp [pack, h]
      | succ x =>
          have : (f start).toNat.testBit (x + 1) = false := by
            cases f start <;> simp [Nat.testBit_add_one]
          simp [pack, this]
  | succ n ih =>
      rw [pack, Nat.testBit_or, Nat.testBit_shiftLeft, ih, ih, Nat.pow_succ]
      by_cases hlow : x < 2 ^ n
      · have : x < 2 ^ n * 2 := by omega
        simp [hlow, this]
      · have hge := Nat.not_lt.1 hlow
        have harg : start + 2 ^ n + (x - 2 ^ n) = start + x := by omega
        by_cases hx : x < 2 ^ n * 2
        · have : x - 2 ^ n < 2 ^ n := by omega
          simp [hge, hx, this, harg, hlow]
        · have : ¬ x - 2 ^ n < 2 ^ n := by omega
          simp [hge, hx, this, hlow]

/-- The table of a function has its values. -/
lemma value_ofFn (f : Nat → Bool) (hx : x < 2 ^ n) : (ofFn n f).value x = f x := by
  rw [ofFn, value_ofNat hx, testBit_pack]
  simp [hx]

/-! ## Constants and variables -/

lemma value_const (hx : x < 2 ^ n) (c : Bool) : (const n c).value x = c := by
  cases c <;> simp [const, value, hx]

lemma value_zero (x : Nat) : (zero n).value x = false := by simp [zero, const, value]

lemma value_one (hx : x < 2 ^ n) : (one n).value x = true := value_const hx true

lemma testBit_variableMask (n v x : Nat) :
    (variableMask n v).testBit x = (decide (x < 2 ^ n) && x.testBit v) := by
  induction n generalizing x with
  | zero => cases x <;> simp [variableMask]
  | succ n ih =>
      have top : x < 2 ^ (n + 1) → x.testBit n = decide (2 ^ n ≤ x) := fun hx => by
        by_cases h : 2 ^ n ≤ x
        · simp [h, Nat.testBit_of_two_pow_le_and_two_pow_add_one_gt h hx]
        · simp [h, Nat.testBit_lt_two_pow (Nat.not_le.1 h)]
      have upper : 2 ^ n ≤ x → (x - 2 ^ n < 2 ^ n ↔ x < 2 ^ (n + 1)) := fun h => by
        rw [Nat.pow_succ]
        omega
      rw [variableMask]
      split
      · rename_i hv
        subst hv
        rw [Nat.testBit_shiftLeft, valuesOf, Nat.testBit_two_pow_sub_one]
        by_cases h : 2 ^ v ≤ x
        · by_cases hx : x < 2 ^ (v + 1)
          · simp [h, hx, (upper h).2 hx, top hx]
          · simp [h, hx, mt (upper h).1 hx]
        · simp [h, Nat.testBit_lt_two_pow (Nat.not_le.1 h)]
      · rename_i hv
        simp only [Nat.testBit_or, Nat.testBit_shiftLeft, ih]
        by_cases h : 2 ^ n ≤ x
        · by_cases hx : x < 2 ^ (n + 1)
          · -- the two halves agree on every variable but the top one
            have htop : x.testBit n = true := by rw [top hx, decide_eq_true h]
            have hsub := (sub_two_pow_eq_setVar htop).2
            have hlt := (upper h).2 hx
            rw [hsub] at hlt
            simp [h, hx, hlt, hsub, hv, Nat.not_lt.2 h]
          · simp [h, hx, mt (upper h).1 hx, Nat.not_lt.2 h]
        · have hlow := Nat.not_le.1 h
          have hx : x < 2 ^ (n + 1) := hlow.trans (two_pow_lt (Nat.lt_succ_self n))
          simp [h, hlow, hx]

/-- A variable has its value. -/
lemma value_var (hx : x < 2 ^ n) (v : Nat) : (var n v).value x = x.testBit v := by
  rw [var, value_ofNat hx, testBit_variableMask]
  simp [hx]

/-! ## Pointwise operations -/

lemma value_not (hx : x < 2 ^ n) : t.not.value x = !t.value x := by
  simp [value, TruthTable.not, hx]

lemma value_and (s t : TruthTable n) (x : Nat) : (s.and t).value x = (s.value x && t.value x) :=
  BitVec.getLsbD_and

lemma value_or (s t : TruthTable n) (x : Nat) : (s.or t).value x = (s.value x || t.value x) :=
  BitVec.getLsbD_or

lemma value_xor (s t : TruthTable n) (x : Nat) : (s.xor t).value x = (s.value x ^^ t.value x) :=
  BitVec.getLsbD_xor

lemma value_andNot (hx : x < 2 ^ n) : (s.andNot t).value x = (s.value x && !t.value x) := by
  rw [andNot, value_and, value_not hx]

lemma isZero_iff : t.isZero = true ↔ ∀ x < 2 ^ n, t.value x = false := by
  constructor
  · intro h x _
    rw [show t = zero n from TruthTable.ext (beq_iff_eq.1 h), value_zero]
  · intro h
    have : t = zero n := ext_value fun x hx => by rw [h x hx, value_zero]
    rw [this]
    simp [isZero, zero, const]

lemma isOne_iff : t.isOne = true ↔ ∀ x < 2 ^ n, t.value x = true := by
  constructor
  · intro h x hx
    rw [show t = one n from TruthTable.ext (beq_iff_eq.1 h), value_one hx]
  · intro h
    have : t = one n := ext_value fun x hx => by rw [h x hx, value_one hx]
    rw [this]
    simp [isOne, one, const]

lemma implies_iff : s.implies t = true ↔ ∀ x < 2 ^ n, s.value x = true → t.value x = true := by
  rw [implies, isZero_iff]
  refine forall₂_congr fun x hx => ?_
  rw [value_andNot hx]
  cases s.value x <;> simp

/-! ## Single variables -/

/-- Behind an assignment that sets a variable, the table of the variable is false. -/
lemma value_var_two_pow_add (h : x.testBit v = true) : (var n v).value (2 ^ v + x) = false := by
  by_cases hy : 2 ^ v + x < 2 ^ n
  · rw [value_var hy, Nat.testBit_two_pow_add_eq, h]
    rfl
  · exact value_of_ge (Nat.not_lt.1 hy)

/-- In front of an assignment that does not set a variable, the variable is set. -/
lemma not_lt_and_testBit_sub (h : x.testBit v = false) :
    (!decide (x < 2 ^ v) && !(x - 2 ^ v).testBit v) = false := by
  by_cases hlt : x < 2 ^ v
  · simp [hlt]
  · rw [testBit_sub_two_pow h (Nat.not_lt.1 hlt), Bool.not_true, Bool.and_false]

/-- Fixing a variable reads the table where the variable has that value. -/
lemma value_cofactor (hv : v < n) (hx : x < 2 ^ n) (b : Bool) :
    (t.cofactor v b).value x = t.value (setVar x v b) := by
  cases b with
  | true =>
      have hval : (t.cofactor v true).value x =
          ((t.value x && (var n v).value x) ||
            (t.value (2 ^ v + x) && (var n v).value (2 ^ v + x))) := by
        simp [cofactor, value]
      rw [hval, value_var hx]
      cases h : x.testBit v with
      | true =>
          simp [value_var_two_pow_add h, setVar_of_testBit h]
      | false =>
          have hset := add_two_pow_eq_setVar h
          have hlt : 2 ^ v + x < 2 ^ n := by
            rw [Nat.add_comm, hset]
            exact setVar_lt hx hv
          rw [value_var hlt, Nat.testBit_two_pow_add_eq, h, Nat.add_comm, hset]
          simp
  | false =>
      have hsub : x - 2 ^ v < 2 ^ n := (Nat.sub_le ..).trans_lt hx
      have hval : (t.cofactor v false).value x =
          ((t.value x && !(var n v).value x) ||
            (!decide (x < 2 ^ v) && (t.value (x - 2 ^ v) && !(var n v).value (x - 2 ^ v)))) := by
        simp [cofactor, value, hx, hsub]
      rw [hval, value_var hx, value_var hsub]
      cases h : x.testBit v with
      | true =>
          obtain ⟨hle, hset⟩ := sub_two_pow_eq_setVar h
          simp [Nat.not_lt.2 hle, hset]
      | false =>
          rw [Bool.and_left_comm, not_lt_and_testBit_sub h, setVar_of_testBit h]
          simp

/-- Where the variable has the value, the cofactor is the function itself. -/
lemma value_cofactor_of_testBit (hv : v < n) (hx : x < 2 ^ n) {b : Bool} (hb : x.testBit v = b) :
    (t.cofactor v b).value x = t.value x := by
  rw [value_cofactor hv hx, setVar_of_testBit hb]

/-- Complementing a variable reads the table at the other value of the variable. -/
lemma value_flip (hv : v < n) (hx : x < 2 ^ n) :
    (t.flip v).value x = t.value (x ^^^ 2 ^ v) := by
  have hsub : x - 2 ^ v < 2 ^ n := (Nat.sub_le ..).trans_lt hx
  have hval : (t.flip v).value x =
      ((t.value (2 ^ v + x) && (var n v).value (2 ^ v + x)) ||
        (!decide (x < 2 ^ v) && (t.value (x - 2 ^ v) && !(var n v).value (x - 2 ^ v)))) := by
    simp [flip, value, hx, hsub]
  rw [hval, value_var hsub]
  cases h : x.testBit v with
  | true =>
      obtain ⟨hle, hset⟩ := sub_two_pow_eq_setVar h
      have hxor : setVar x v false = x ^^^ 2 ^ v := if_neg (by simp [h])
      simp [value_var_two_pow_add h, Nat.not_lt.2 hle, hset, ← hxor]
  | false =>
      have hxor := add_two_pow_eq_xor h
      have hlt : 2 ^ v + x < 2 ^ n := by
        rw [Nat.add_comm, hxor]
        exact Nat.xor_lt_two_pow hx (two_pow_lt hv)
      rw [Bool.and_left_comm, not_lt_and_testBit_sub h, value_var hlt, Nat.testBit_two_pow_add_eq, h,
        Nat.add_comm, hxor]
      simp

lemma value_quantify (hv : v < n) (hx : x < 2 ^ n) :
    (t.quantify v).value x = (t.value (setVar x v false) || t.value (setVar x v true)) := by
  rw [quantify, value_or, value_cofactor hv hx, value_cofactor hv hx]

lemma hasVar_eq_false_iff (hv : v < n) :
    t.hasVar v = false ↔ ∀ x < 2 ^ n, t.value (setVar x v false) = t.value (setVar x v true) := by
  rw [hasVar, bne_eq_false_iff_eq]
  constructor
  · intro h x hx
    rw [← value_cofactor hv hx, ← value_cofactor hv hx, h]
  · intro h
    exact ext_value fun x hx => by rw [value_cofactor hv hx, value_cofactor hv hx, h x hx]

/-- A function does not see a change of a variable that it does not depend on. -/
lemma value_setVar (hv : v < n) (hx : x < 2 ^ n) (h : t.hasVar v = false) (b : Bool) :
    t.value (setVar x v b) = t.value x := by
  have same := (hasVar_eq_false_iff hv).1 h x hx
  cases hbit : x.testBit v <;> cases b
  · rw [setVar_of_testBit hbit]
  · rw [← same, setVar_of_testBit hbit]
  · rw [same, setVar_of_testBit hbit]
  · rw [setVar_of_testBit hbit]

/-- The value depends only on the variables that the function depends on. -/
theorem value_congr {y : Nat} (hx : x < 2 ^ n) (hy : y < 2 ^ n)
    (h : ∀ v < n, t.hasVar v = true → x.testBit v = y.testBit v) : t.value x = t.value y := by
  -- the variables below `k` are made equal one after the other
  suffices ∀ k ≤ n, ∃ z < 2 ^ n, t.value z = t.value x ∧ ∀ v < n,
      z.testBit v = if v < k then y.testBit v else x.testBit v by
    obtain ⟨z, hz, hvalue, hbits⟩ := this n (le_refl n)
    rw [← hvalue, eq_of_testBit hz hy fun v hv => by rw [hbits v hv, if_pos hv]]
  intro k hk
  induction k with
  | zero => exact ⟨x, hx, rfl, fun v _ => by simp⟩
  | succ k ih =>
      obtain ⟨z, hz, hvalue, hbits⟩ := ih (Nat.le_of_succ_le hk)
      refine ⟨setVar z k (y.testBit k), setVar_lt hz hk, ?_, fun v hv => ?_⟩
      · cases hdep : t.hasVar k with
        | false => rw [value_setVar hk hz hdep, hvalue]
        | true =>
            have : z.testBit k = y.testBit k := by
              rw [hbits k hk, if_neg (lt_irrefl k), h k hk hdep]
            rw [setVar_of_testBit this, hvalue]
      · rw [testBit_setVar]
        by_cases hvk : v = k
        · simp [hvk]
        · rw [if_neg hvk, hbits v hv]
          have : v < k ↔ v < k + 1 := by omega
          simp [this]

/-! ## Support -/

/-- The value depends only on the variables in a set. -/
def DependsOnly (t : TruthTable n) (S : Nat → Prop) : Prop :=
  ∀ x y, x < 2 ^ n → y < 2 ^ n → (∀ v < n, S v → x.testBit v = y.testBit v) → t.value x = t.value y

namespace DependsOnly

variable {S T : Nat → Prop}

lemma hasVar (h : t.DependsOnly S) (hv : v < n) (ht : t.hasVar v = true) : S v := by
  by_contra hS
  have : t.hasVar v = false := by
    refine (hasVar_eq_false_iff hv).2 fun x hx => h _ _ (setVar_lt hx hv) (setVar_lt hx hv) ?_
    intro w _ hw
    have hne : w ≠ v := fun e => hS (e ▸ hw)
    simp [hne]
  rw [this] at ht
  cases ht

lemma of_hasVar (h : ∀ v < n, t.hasVar v = true → S v) : t.DependsOnly S :=
  fun _ _ hx hy same => value_congr hx hy fun v hv ht => same v hv (h v hv ht)

lemma mono (h : t.DependsOnly S) (sub : ∀ v, S v → T v) : t.DependsOnly T :=
  fun x y hx hy same => h x y hx hy fun v hv hS => same v hv (sub v hS)

lemma zero : (TruthTable.zero n).DependsOnly S := fun x y _ _ _ => by
  rw [value_zero, value_zero]

lemma one : (TruthTable.one n).DependsOnly S := fun x y hx hy _ => by
  rw [value_one hx, value_one hy]

lemma var (hv : S v) : (TruthTable.var n v).DependsOnly S := fun x y hx hy same => by
  rw [value_var hx, value_var hy]
  by_cases hlt : v < n
  · exact same v hlt hv
  · have hle : 2 ^ n ≤ 2 ^ v := Nat.pow_le_pow_right (by decide) (Nat.not_lt.1 hlt)
    rw [Nat.testBit_lt_two_pow (hx.trans_le hle), Nat.testBit_lt_two_pow (hy.trans_le hle)]

lemma not (h : t.DependsOnly S) : t.not.DependsOnly S := fun x y hx hy same => by
  rw [value_not hx, value_not hy, h x y hx hy same]

lemma and (h : s.DependsOnly S) (h' : t.DependsOnly S) : (s.and t).DependsOnly S :=
  fun x y hx hy same => by rw [value_and, value_and, h x y hx hy same, h' x y hx hy same]

lemma or (h : s.DependsOnly S) (h' : t.DependsOnly S) : (s.or t).DependsOnly S :=
  fun x y hx hy same => by rw [value_or, value_or, h x y hx hy same, h' x y hx hy same]

lemma xor (h : s.DependsOnly S) (h' : t.DependsOnly S) : (s.xor t).DependsOnly S :=
  fun x y hx hy same => by rw [value_xor, value_xor, h x y hx hy same, h' x y hx hy same]

lemma andNot (h : s.DependsOnly S) (h' : t.DependsOnly S) : (s.andNot t).DependsOnly S :=
  h.and h'.not

lemma cofactor (h : t.DependsOnly S) (hv : v < n) (b : Bool) :
    (t.cofactor v b).DependsOnly fun w => S w ∧ w ≠ v := fun x y hx hy same => by
  rw [value_cofactor hv hx, value_cofactor hv hy]
  refine h _ _ (setVar_lt hx hv) (setVar_lt hy hv) fun w hw hS => ?_
  rw [testBit_setVar, testBit_setVar]
  split
  · rfl
  · rename_i hne
    exact same w hw ⟨hS, hne⟩

lemma quantify (h : t.DependsOnly S) (hv : v < n) :
    (t.quantify v).DependsOnly fun w => S w ∧ w ≠ v := (h.cofactor hv _).or (h.cofactor hv _)

end DependsOnly

/-! ## Sets of variables -/

lemma testBit_maskOf (vars : List Nat) (v : Nat) : (maskOf vars).testBit v = decide (v ∈ vars) := by
  suffices ∀ mask : Nat, (vars.foldl (fun m v => m ||| 1 <<< v) mask).testBit v =
      (mask.testBit v || decide (v ∈ vars)) by simpa [maskOf] using this 0
  induction vars with
  | nil => simp
  | cons w vars ih =>
      intro mask
      rw [List.foldl_cons, ih, Nat.testBit_or, Nat.one_shiftLeft, Nat.testBit_two_pow, Bool.or_assoc]
      by_cases hw : w = v
      · simp [hw]
      · simp [hw, Ne.symm hw]

lemma testBit_supportMask (hv : v < n) : t.supportMask.testBit v = t.hasVar v := by
  rw [supportMask, testBit_maskOf, support]
  cases h : t.hasVar v <;> simp [hv, h]

lemma mem_variablesIn {mask : Nat} : v ∈ variablesIn n mask ↔ v < n ∧ mask.testBit v = true := by
  simp [variablesIn]

/-- Two assignments agree outside of some variables. -/
def SameOutside (n mask x y : Nat) : Prop :=
  ∀ v < n, mask.testBit v = false → x.testBit v = y.testBit v

lemma SameOutside.symm {mask y : Nat} (h : SameOutside n mask x y) : SameOutside n mask y x :=
  fun v hv hm => (h v hv hm).symm

lemma SameOutside.trans {mask y z : Nat} (h : SameOutside n mask x y) (h' : SameOutside n mask y z) :
    SameOutside n mask x z := fun v hv hm => (h v hv hm).trans (h' v hv hm)

/-- Quantification over variables, one after the other. -/
lemma value_foldl_quantify (vars : List Nat) (hvars : ∀ v ∈ vars, v < n) (hx : x < 2 ^ n) :
    (vars.foldl quantify t).value x = true ↔
      ∃ y < 2 ^ n, (∀ v < n, v ∉ vars → x.testBit v = y.testBit v) ∧ t.value y = true := by
  induction vars generalizing t with
  | nil =>
      constructor
      · exact fun h => ⟨x, hx, fun _ _ _ => rfl, h⟩
      · rintro ⟨y, hy, same, h⟩
        rwa [eq_of_testBit hx hy fun v hv => same v hv (by simp)]
  | cons w vars ih =>
      have hw := hvars w (by simp)
      rw [List.foldl_cons, ih fun v hv => hvars v (by simp [hv])]
      constructor
      · rintro ⟨y, hy, same, h⟩
        rw [value_quantify hw hy, Bool.or_eq_true] at h
        obtain ⟨b, h⟩ : ∃ b, t.value (setVar y w b) = true := h.elim (⟨_, ·⟩) (⟨_, ·⟩)
        refine ⟨setVar y w b, setVar_lt hy hw, fun v hv hmem => ?_, h⟩
        rw [List.mem_cons, not_or] at hmem
        rw [testBit_setVar, if_neg hmem.1, same v hv hmem.2]
      · rintro ⟨y, hy, same, h⟩
        refine ⟨setVar y w (x.testBit w), setVar_lt hy hw, fun v hv hmem => ?_, ?_⟩
        · rw [testBit_setVar]
          split
          · rename_i hvw
            rw [hvw]
          · rename_i hvw
            exact same v hv (by simp [hvw, hmem])
        · rw [value_quantify hw (setVar_lt hy hw), Bool.or_eq_true]
          have hset : ∀ b, setVar (setVar y w (x.testBit w)) w b = setVar y w b := fun b =>
            Nat.eq_of_testBit_eq fun v => by by_cases hv : v = w <;> simp [hv]
          rw [hset, hset]
          cases hbit : y.testBit w with
          | false => exact .inl (by rwa [setVar_of_testBit hbit])
          | true => exact .inr (by rwa [setVar_of_testBit hbit])

/-- A quantified function holds where it holds for some values of the variables. -/
lemma value_quantifyAll {mask : Nat} (hx : x < 2 ^ n) :
    (t.quantifyAll mask).value x = true ↔
      ∃ y < 2 ^ n, SameOutside n mask x y ∧ t.value y = true := by
  rw [quantifyAll, value_foldl_quantify _ (fun v hv => (mem_variablesIn.1 hv).1) hx]
  refine exists_congr fun y => and_congr_right fun _ => and_congr_left fun _ => ?_
  refine forall₂_congr fun v hv => ?_
  rw [mem_variablesIn]
  simp [hv]

lemma maskOf_lt {vars : List Nat} (hvars : ∀ v ∈ vars, v < n) : maskOf vars < 2 ^ n := by
  refine Nat.lt_pow_two_of_testBit _ fun v hv => ?_
  rw [testBit_maskOf, decide_eq_false_iff_not]
  exact fun hmem => Nat.not_lt.2 hv (hvars v hmem)

/-- Complementing variables, one after the other, reads the table at their other values. -/
lemma value_foldl_flip {vars : List Nat} (nodup : vars.Nodup) (hvars : ∀ v ∈ vars, v < n)
    (hx : x < 2 ^ n) : (vars.foldl flip t).value x = t.value (x ^^^ maskOf vars) := by
  induction vars generalizing t with
  | nil => simp [maskOf]
  | cons w vars ih =>
      obtain ⟨apart, nodup⟩ := List.nodup_cons.1 nodup
      obtain ⟨hw, hvars⟩ := List.forall_mem_cons.1 hvars
      have hmask : maskOf vars ^^^ 2 ^ w = maskOf (w :: vars) := by
        refine Nat.eq_of_testBit_eq fun v => ?_
        rw [Nat.testBit_xor, testBit_maskOf, testBit_maskOf, Nat.testBit_two_pow]
        by_cases hv : w = v
        · subst hv
          simp [apart]
        · simp [hv, Ne.symm hv]
      rw [List.foldl_cons, ih nodup hvars,
        value_flip hw (Nat.xor_lt_two_pow hx (maskOf_lt hvars)), Nat.xor_assoc, hmask]

lemma value_flipAll {mask : Nat} (hmask : mask < 2 ^ n) (hx : x < 2 ^ n) :
    (t.flipAll mask).value x = t.value (x ^^^ mask) := by
  have hvars : ∀ v ∈ variablesIn n mask, v < n := fun v hv => (mem_variablesIn.1 hv).1
  have same : maskOf (variablesIn n mask) = mask := by
    refine eq_of_testBit (maskOf_lt hvars) hmask fun v hv => ?_
    rw [testBit_maskOf, Bool.eq_iff_iff, decide_eq_true_eq, mem_variablesIn]
    exact and_iff_right hv
  have nodup : (variablesIn n mask).Nodup := List.nodup_range.filter _
  rw [flipAll, value_foldl_flip nodup hvars hx, same]

/-- An operation that makes a function independent of one variable, done for several. -/
lemma DependsOnly.foldl {op : TruthTable n → Nat → TruthTable n}
    (hop : ∀ (t : TruthTable n) (S : Nat → Prop) v, v < n → t.DependsOnly S →
      (op t v).DependsOnly fun w => S w ∧ w ≠ v)
    {S : Nat → Prop} (h : t.DependsOnly S) (mask : Nat) :
    ((variablesIn n mask).foldl op t).DependsOnly fun v => S v ∧ mask.testBit v = false := by
  suffices ∀ vars : List Nat, (∀ v ∈ vars, v < n) →
      (vars.foldl op t).DependsOnly fun v => S v ∧ v ∉ vars by
    refine .of_hasVar fun v hv hdep => ?_
    have := (this (variablesIn n mask) fun v hv => (mem_variablesIn.1 hv).1).hasVar hv hdep
    rw [mem_variablesIn] at this
    simpa [hv] using this
  intro vars hvars
  induction vars generalizing t S with
  | nil => exact h.mono fun v hv => ⟨hv, by simp⟩
  | cons w vars ih =>
      have := ih (hop t S w (hvars w (by simp)) h) fun v hv => hvars v (by simp [hv])
      exact this.mono fun v ⟨⟨hS, hne⟩, hmem⟩ => ⟨hS, by simp [hne, hmem]⟩

lemma DependsOnly.quantifyAll {S : Nat → Prop} (h : t.DependsOnly S) (mask : Nat) :
    (t.quantifyAll mask).DependsOnly fun v => S v ∧ mask.testBit v = false :=
  h.foldl (fun _ _ _ hv ht => ht.quantify hv) mask

lemma DependsOnly.clearAll {S : Nat → Prop} (h : t.DependsOnly S) (mask : Nat) :
    (t.clearAll mask).DependsOnly fun v => S v ∧ mask.testBit v = false :=
  h.foldl (fun _ _ _ hv ht => ht.cofactor hv false) mask

/-! ## Renaming variables -/

lemma testBit_spread (vars : List Nat) (y v : Nat) : (spread vars y).testBit v = true ↔
    ∃ i, vars[i]? = some v ∧ y.testBit i = true := by
  suffices ∀ k x, ((vars.zipIdx k).foldl
      (fun x (v, i) => if y.testBit i then x ||| 1 <<< v else x) x).testBit v = true ↔
        x.testBit v = true ∨ ∃ i, vars[i]? = some v ∧ y.testBit (k + i) = true by
    simpa [spread] using this 0 0
  induction vars with
  | nil => simp
  | cons w vars ih =>
      intro k x
      have shift : (∃ i, (w :: vars)[i]? = some v ∧ y.testBit (k + i) = true) ↔
          (w = v ∧ y.testBit k = true) ∨ ∃ i, vars[i]? = some v ∧ y.testBit (k + 1 + i) = true := by
        constructor
        · rintro ⟨_ | i, hi, hy⟩
          · exact .inl ⟨by simpa using hi, hy⟩
          · exact .inr ⟨i, by simpa using hi, by rwa [Nat.add_assoc, Nat.add_comm 1 i]⟩
        · rintro (⟨rfl, hy⟩ | ⟨i, hi, hy⟩)
          · exact ⟨0, rfl, hy⟩
          · exact ⟨i + 1, by simpa using hi, by rwa [Nat.add_comm i 1, ← Nat.add_assoc]⟩
      rw [List.zipIdx_cons, List.foldl_cons, ih, shift, ← or_assoc]
      refine or_congr_left ?_
      dsimp only
      cases hy : y.testBit k with
      | false => simp
      | true => simp [Nat.one_shiftLeft, Nat.testBit_two_pow]

/-- A variable that is listed once gets the bit at its position. -/
lemma testBit_spread_of {vars : List Nat} (nodup : vars.Nodup) (y : Nat) {i : Nat}
    (hi : vars[i]? = some v) : (spread vars y).testBit v = y.testBit i := by
  refine Bool.eq_iff_iff.2 ((testBit_spread vars y v).trans ⟨?_, fun h => ⟨i, hi, h⟩⟩)
  rintro ⟨j, hj, hy⟩
  have hlt := (List.getElem?_eq_some_iff.1 hi).1
  rwa [(List.getElem?_inj hlt nodup).1 (hi.trans hj.symm)]

lemma spread_lt {vars : List Nat} (hvars : ∀ v ∈ vars, v < n) (y : Nat) :
    spread vars y < 2 ^ n := by
  refine Nat.lt_pow_two_of_testBit _ fun v hv => Bool.eq_false_iff.2 fun h => ?_
  obtain ⟨i, hi, -⟩ := (testBit_spread vars y v).1 h
  exact Nat.not_lt.2 hv (hvars v (List.mem_of_getElem? hi))

end TruthTable

/-! ## Encoded assignments -/

/-- The number that encodes an assignment of the first `n` variables. -/
def encode (n : Nat) (σ : Nat → Bool) : Nat := TruthTable.maskOf ((List.range n).filter σ)

lemma testBit_encode {n v : Nat} {σ : Nat → Bool} (hv : v < n) : (encode n σ).testBit v = σ v := by
  rw [encode, TruthTable.testBit_maskOf]
  cases h : σ v <;> simp [hv, h]

lemma encode_lt (n : Nat) (σ : Nat → Bool) : encode n σ < 2 ^ n :=
  TruthTable.maskOf_lt fun _ hv => List.mem_range.1 (List.mem_filter.1 hv).1

lemma encode_congr {n : Nat} {σ τ : Nat → Bool} (h : ∀ v < n, σ v = τ v) : encode n σ = encode n τ :=
  eq_of_testBit (encode_lt n σ) (encode_lt n τ) fun v hv => by
    rw [testBit_encode hv, testBit_encode hv, h v hv]

lemma encode_testBit {n x : Nat} (hx : x < 2 ^ n) : encode n x.testBit = x :=
  eq_of_testBit (encode_lt n _) hx fun _ hv => testBit_encode hv

namespace TruthTable

variable {n x : Nat} {t : TruthTable n} {vars : List Nat}

/-- A projection reads the table where the listed variables have their values, and that is all that
matters if the function depends on no others. -/
lemma value_project (nodup : vars.Nodup) (hvars : ∀ v ∈ vars, v < n)
    (covers : t.DependsOnly (· ∈ vars)) (hx : x < 2 ^ n) :
    (t.project vars).value (encode vars.length fun k => x.testBit (vars.getD k 0)) = t.value x := by
  rw [project, value_ofFn _ (encode_lt _ _)]
  refine covers _ _ (spread_lt hvars _) hx fun v _ hmem => ?_
  obtain ⟨i, hi⟩ := List.mem_iff_getElem?.1 hmem
  rw [testBit_spread_of nodup _ hi, testBit_encode (List.getElem?_eq_some_iff.1 hi).1]
  simp [hi]

lemma mem_support {v : Nat} : v ∈ t.support ↔ v < n ∧ t.hasVar v = true := by simp [support]

/-- The projection onto the support is the same function. -/
lemma value_project_support (hx : x < 2 ^ n) :
    (t.project t.support).value
      (encode t.support.length fun k => x.testBit (t.support.getD k 0)) = t.value x :=
  value_project (List.nodup_range.filter _) (fun _ hv => (mem_support.1 hv).1)
    (.of_hasVar fun _ hv ht => mem_support.2 ⟨hv, ht⟩) hx

/-- A table read with another name for its number of variables has the same values. -/
lemma value_of_as? {k : Nat} {g : TruthTable k} (h : t.any.as? k = some g) :
    n = k ∧ ∀ x, g.value x = t.value x := by
  unfold AnyTable.as? at h
  split at h
  · rename_i hn
    cases hn
    cases h
    exact ⟨rfl, fun _ => rfl⟩
  · cases h

end TruthTable

end Gatework
