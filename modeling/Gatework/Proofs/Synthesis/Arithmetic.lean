import Gatework.Synthesis.Arithmetic
import Gatework.Proofs.Builder.Finish
import Mathlib.Data.Nat.Digits.Defs

/-!
# Adders and subtractors add and subtract

A ripple of cells is followed by a ripple of bits: `rippleBits` says which bits the links show, and
its number is the sum of the operands and the carry.  A subtractor adds the complement of the second
operand and one, so what it lacks to the power of two is what the second operand exceeds the first by.

* `ripple_shows`: the links of a ripple show the bits of a ripple.
* `number_rippleBits`: the bits of a ripple are those of a sum.
* `exists_network`: a construction over two operands becomes a network with an output for each link.

**Main statement.** `synthesize_add_sub`.
-/

namespace Gatework

open Builder

namespace Arithmetic

/-! ## Numbers -/

/-- The number with these bits, the least significant one first. -/
def number (bits : List Bool) : Nat := Nat.ofDigits 2 (bits.map Bool.toNat)

/-- The lowest bits of a number, the least significant one first. -/
def bitsOf (width a : Nat) : List Bool := (List.range width).map a.testBit

/-- The assignment that gives the bits of one operand to the first inputs and those of another one to
the inputs behind them. -/
def operands (width a b : Nat) (k : Nat) : Bool := if k < width then a.testBit k else b.testBit (k - width)

lemma number_cons (x : Bool) (bits : List Bool) :
    number (x :: bits) = x.toNat + 2 * number bits := Nat.ofDigits_cons

lemma number_singleton (x : Bool) : number [x] = x.toNat := by
  rw [number_cons]
  rfl

lemma number_append (bits bits' : List Bool) :
    number (bits ++ bits') = number bits + 2 ^ bits.length * number bits' := by
  rw [number, List.map_append, Nat.ofDigits_append, List.length_map]
  rfl

lemma number_lt (bits : List Bool) : number bits < 2 ^ bits.length := by
  induction bits with
  | nil => decide
  | cons x bits ih =>
      have := x.toNat_le
      rw [number_cons, List.length_cons, Nat.pow_succ]
      omega

/-- The lowest bits of a number make up its rest. -/
lemma number_bitsOf (width a : Nat) : number (bitsOf width a) = a % 2 ^ width := by
  induction width generalizing a with
  | zero => rw [Nat.pow_zero, Nat.mod_one]; rfl
  | succ width ih =>
      have shift : bitsOf (width + 1) a = a.testBit 0 :: bitsOf width (a / 2) := by
        rw [bitsOf, List.range_succ_eq_map, List.map_cons, List.map_map, bitsOf]
        exact congrArg _ (List.map_congr_left fun k _ => Nat.testBit_succ ..)
      have parity : (a.testBit 0).toNat = a % 2 := by
        rw [Nat.testBit_zero]
        rcases Nat.mod_two_eq_zero_or_one a with h | h <;> simp [h]
      rw [shift, number_cons, ih, parity, Nat.pow_succ', Nat.mod_mul]

/-- A number and its complement make up all ones. -/
lemma number_complement (bits : List Bool) :
    number (bits.map (!·)) + number bits + 1 = 2 ^ bits.length := by
  induction bits with
  | nil => rfl
  | cons x bits ih =>
      rw [List.map_cons, number_cons, number_cons, List.length_cons, Nat.pow_succ]
      cases x <;> simp only [Bool.not_false, Bool.not_true, Bool.toNat_false, Bool.toNat_true] <;> omega

/-! ## Ripples of bits -/

/-- The sum bits of two operands and a carry, and after them the last carry. -/
def rippleBits : (carry : Bool) → List (Bool × Bool) → List Bool
  | carry, [] => [carry]
  | carry, (x, y) :: rest => (x ^^ y ^^ carry) :: rippleBits (Bool.atLeastTwo x y carry) rest

lemma length_rippleBits (carry : Bool) (pairs : List (Bool × Bool)) :
    (rippleBits carry pairs).length = pairs.length + 1 := by
  induction pairs generalizing carry with
  | nil => rfl
  | cons pair rest ih => rw [rippleBits, List.length_cons, ih, List.length_cons]

/-- One column of a sum. -/
lemma toNat_column (x y carry : Bool) :
    (x ^^ y ^^ carry).toNat + 2 * (Bool.atLeastTwo x y carry).toNat =
      x.toNat + y.toNat + carry.toNat := by
  cases x <;> cases y <;> cases carry <;> rfl

/-- The bits of a ripple are those of the sum. -/
theorem number_rippleBits (carry : Bool) (pairs : List (Bool × Bool)) :
    number (rippleBits carry pairs) =
      number (pairs.map Prod.fst) + number (pairs.map Prod.snd) + carry.toNat := by
  induction pairs generalizing carry with
  | nil => cases carry <;> rfl
  | cons pair rest ih =>
      have column := toNat_column pair.1 pair.2 carry
      rw [rippleBits, number_cons, ih, List.map_cons, List.map_cons, number_cons, number_cons]
      omega

/-- Adding the complement of a number and one gives a difference and a carry that account for one
another. -/
lemma difference_add_carry {xs ys difference : List Bool} {carry : Bool} (h : ys.length = xs.length)
    (hbits : rippleBits true (xs.zip (ys.map (!·))) = difference ++ [carry]) :
    difference.length = xs.length ∧
      number difference + 2 ^ xs.length * carry.toNat + number ys = number xs + 2 ^ xs.length := by
  have hlength : difference.length = xs.length := by
    have := congrArg List.length hbits
    rw [length_rippleBits, List.length_append, List.length_zip, List.length_map, h, min_self] at this
    exact (Nat.succ.inj this).symm
  have hsum := number_rippleBits true (xs.zip (ys.map (!·)))
  rw [hbits, number_append, number_singleton, hlength, List.map_fst_zip (by simp [h]),
    List.map_snd_zip (by simp [h]), Bool.toNat_true] at hsum
  have hones := number_complement ys
  rw [h] at hones
  exact ⟨hlength, by omega⟩

/-- With one for the carry and the second operand complemented, the sum bits are the difference, and
the last carry says that the first operand is not smaller. -/
lemma rippleBits_difference {xs ys : List Bool} (h : ys.length = xs.length) :
    ∃ difference, rippleBits true (xs.zip (ys.map (!·))) =
        difference ++ [decide (number ys ≤ number xs)] ∧ difference.length = xs.length ∧
      (number difference : Int) = ((number xs : Int) - number ys) % 2 ^ xs.length := by
  obtain ⟨difference, carry, hbits⟩ : ∃ difference carry,
      rippleBits true (xs.zip (ys.map (!·))) = difference ++ [carry] :=
    ⟨_, _, (List.dropLast_append_getLast (List.ne_nil_of_length_pos
      (by rw [length_rippleBits]; exact Nat.succ_pos _))).symm⟩
  obtain ⟨hlength, sum⟩ := difference_add_carry h hbits
  have hlt := number_lt difference
  have hxs := number_lt xs
  rw [hlength] at hlt
  refine ⟨difference, ?_, hlength, ?_⟩
  · have : carry = decide (number ys ≤ number xs) := by
      cases carry with
      | false =>
          rw [Bool.toNat_false] at sum
          exact (decide_eq_false (by omega)).symm
      | true =>
          rw [Bool.toNat_true] at sum
          exact (decide_eq_true (by omega)).symm
    rw [hbits, this]
  · have apart : (number xs : Int) - number ys =
        number difference + 2 ^ xs.length * ((carry.toNat : Int) - 1) := by
      have := congrArg (Nat.cast : Nat → Int) sum
      push_cast at this
      linarith
    rw [apart, Int.add_mul_emod_self_left,
      Int.emod_eq_of_lt (Int.natCast_nonneg _) (by exact_mod_cast hlt)]

/-! ## Ripples of cells -/

variable {store : Store} {m : Meaning} {b b' : Builder}

/-- Two gates on the same operands. -/
lemma addTwo_shows (store : Store) (h : WellFormed b) (g g' : Gate) {links : List Link}
    {fs : List ((Nat → Bool) → Bool)} (hlinks : b.ShowsAll m links fs)
    (inner : ∀ k ∈ [g, g'], k ≠ .input ∧ k ≠ .output)
    (harity : ∀ k ∈ [g, g'], k.arity.1 ≤ links.length ∧ links.length ≤ k.arity.2) :
    ∃ l l' b₁ b₂, addCell (.gate g) links b = .ok (l, b₁) ∧
      addCell (.gate g') links b₁ = .ok (l', b₂) ∧ Step store b b₂ ∧
      (b₂.Shows m l fun σ => g.value (fs.map (· σ))) ∧
      b₂.Shows m l' fun σ => g'.value (fs.map (· σ)) := by
  obtain ⟨l, b₁, hrun, step, shows⟩ := addCell_shows store h (inner g (by simp)).1
    (inner g (by simp)).2 hlinks (harity g (by simp))
  obtain ⟨l', b₂, hrun', step', shows'⟩ := addCell_shows store step.wellFormed
    (inner g' (by simp)).1 (inner g' (by simp)).2 (hlinks.grown h step.grown) (harity g' (by simp))
  exact ⟨l, l', b₁, b₂, hrun, hrun', step.trans step', shows.grown step.wellFormed step'.grown,
    shows'⟩

/-- A link shows the carry, or there is no carry. -/
def ShowsCarry (b : Builder) (m : Meaning) (carry : Option Link) (c : (Nat → Bool) → Bool) : Prop :=
  match carry with
  | none => ∀ σ, c σ = false
  | some l => b.Shows m l c

/-- Pairs of links show the bits of two operands. -/
abbrev ShowsPairs (b : Builder) (m : Meaning) (pairs : List (Link × Link))
    (fs : List ((Nat → Bool) → Bool × Bool)) : Prop :=
  List.Forall₂ (fun p f => (b.Shows m p.1 fun σ => (f σ).1) ∧ b.Shows m p.2 fun σ => (f σ).2) pairs fs

lemma ShowsPairs.grown {pairs : List (Link × Link)} {fs : List ((Nat → Bool) → Bool × Bool)}
    (hpairs : ShowsPairs b m pairs fs) (h : WellFormed b) (grown : Grown b b') :
    ShowsPairs b' m pairs fs :=
  hpairs.imp fun _ _ hp => ⟨hp.1.grown h grown, hp.2.grown h grown⟩

/-- The cells of one column: the sum bit, and the carry into the next column. -/
lemma addColumn_shows (store : Store) (h : WellFormed b) {carry : Option Link}
    {c : (Nat → Bool) → Bool} {p : Link × Link} {f : (Nat → Bool) → Bool × Bool}
    (hcarry : ShowsCarry b m carry c)
    (hp : (b.Shows m p.1 fun σ => (f σ).1) ∧ b.Shows m p.2 fun σ => (f σ).2) :
    ∃ sum next b', Step store b b' ∧ (b'.Shows m sum fun σ => (f σ).1 ^^ (f σ).2 ^^ c σ) ∧
      (b'.Shows m next fun σ => Bool.atLeastTwo (f σ).1 (f σ).2 (c σ)) ∧
      ∀ rest links b'', ripple (some next) rest b' = .ok (links, b'') →
        ripple carry (p :: rest) b = .ok (sum :: links, b'') := by
  cases carry with
  | none =>
      obtain ⟨sum, next, b₁, b₂, hsum, hnext, step, shows, shows'⟩ := addTwo_shows store h
        .xor .and (.cons hp.1 (.cons hp.2 .nil)) (by simp) (by simp [Gate.arity, maxArity])
      refine ⟨sum, next, b₂, step, shows.congr fun σ => ?_, shows'.congr fun σ => ?_,
        fun rest links b'' hrest => ?_⟩
      · rw [hcarry σ]
        simp [Gate.value]
      · rw [hcarry σ]
        simp [Gate.value, Bool.atLeastTwo]
      · rw [ripple]
        exact build_bind_eq_ok_iff.2 ⟨sum, b₁, hsum, build_bind_eq_ok_iff.2 ⟨next, b₂, hnext,
          build_bind_eq_ok_iff.2 ⟨links, b'', hrest, rfl⟩⟩⟩
  | some carry =>
      obtain ⟨sum, next, b₁, b₂, hsum, hnext, step, shows, shows'⟩ := addTwo_shows store h
        .xor .maj (.cons hp.1 (.cons hp.2 (.cons hcarry .nil))) (by simp)
        (by simp [Gate.arity, maxArity])
      refine ⟨sum, next, b₂, step, shows.congr fun σ => ?_, shows'.congr fun σ => ?_,
        fun rest links b'' hrest => ?_⟩
      · simp [Gate.value]
      · cases hx : (f σ).1 <;> cases hy : (f σ).2 <;> cases hc : c σ <;> simp [Gate.value, hx, hy, hc]
      · rw [ripple]
        exact build_bind_eq_ok_iff.2 ⟨sum, b₁, hsum, build_bind_eq_ok_iff.2 ⟨next, b₂, hnext,
          build_bind_eq_ok_iff.2 ⟨links, b'', hrest, rfl⟩⟩⟩

/-- The links of a ripple show the bits of a ripple. -/
theorem ripple_shows (store : Store) (h : WellFormed b) {carry : Option Link}
    {c : (Nat → Bool) → Bool} {pairs : List (Link × Link)} {fs : List ((Nat → Bool) → Bool × Bool)}
    (hcarry : ShowsCarry b m carry c) (hpairs : ShowsPairs b m pairs fs) :
    ∃ links b' gs, ripple carry pairs b = .ok (links, b') ∧ Step store b b' ∧
      b'.ShowsAll m links gs ∧ ∀ σ, gs.map (· σ) = rippleBits (c σ) (fs.map (· σ)) := by
  induction pairs generalizing b carry c fs with
  | nil =>
      cases hpairs
      cases carry with
      | none =>
          obtain ⟨l, b', hrun, step, shows⟩ := addConst_shows store (m := m) h false
          refine ⟨[l], b', [fun _ => false], ?_, step, .cons shows .nil, fun σ => ?_⟩
          · exact build_bind_eq_ok_iff.2 ⟨l, b', hrun, rfl⟩
          · rw [hcarry σ]
            rfl
      | some l => exact ⟨[l], b, [c], rfl, .refl h, .cons hcarry .nil, fun _ => rfl⟩
  | cons p rest ih =>
      obtain _ | ⟨hp, hrest⟩ := hpairs
      obtain ⟨sum, next, b₁, step, shows, shows', hcons⟩ := addColumn_shows store h hcarry hp
      have hnext : ShowsCarry b₁ m (some next) _ := shows'
      obtain ⟨links, b₂, gs, hrun, step', hlinks, hvalues⟩ :=
        ih step.wellFormed hnext (ShowsPairs.grown hrest h step.grown)
      refine ⟨sum :: links, b₂, _ :: gs, hcons rest links b₂ hrun, step.trans step',
        .cons (shows.grown step.wellFormed step'.grown) hlinks, fun σ => ?_⟩
      rw [List.map_cons, hvalues σ]
      rfl

/-- Complements of links show complements. -/
lemma showsAll_invert {links : List Link} {fs : List ((Nat → Bool) → Bool)}
    (h : b.ShowsAll m links fs) :
    b.ShowsAll m (links.map Link.invert) (fs.map fun f σ => !f σ) := by
  rw [ShowsAll, List.forall₂_map_left_iff, List.forall₂_map_right_iff]
  exact h.imp fun _ _ hl => (hl.invertIf true).congr fun σ => Bool.xor_true _

/-- The links of two operands show their bits in pairs. -/
lemma ShowsPairs.zip {xs ys : List Link} {fs gs : List ((Nat → Bool) → Bool)}
    (hx : b.ShowsAll m xs fs) (hy : b.ShowsAll m ys gs) :
    ShowsPairs b m (xs.zip ys) ((fs.zip gs).map fun p σ => (p.1 σ, p.2 σ)) := by
  induction hx generalizing ys gs with
  | nil => exact .nil
  | cons hl _ ih =>
      cases hy with
      | nil => exact .nil
      | cons hk hrest => exact .cons ⟨hl, hk⟩ (ih hrest)

/-- A ripple over two operands and a carry. -/
lemma exists_ripple (store : Store) (h : WellFormed b) {carry : Option Link}
    {c : (Nat → Bool) → Bool} {xs ys : List Link} {fs gs : List ((Nat → Bool) → Bool)}
    (hcarry : ShowsCarry b m carry c) (hx : b.ShowsAll m xs fs) (hy : b.ShowsAll m ys gs) :
    ∃ links b' hs, ripple carry (xs.zip ys) b = .ok (links, b') ∧ Step store b b' ∧
      b'.ShowsAll m links hs ∧
      ∀ σ, hs.map (· σ) = rippleBits (c σ) ((fs.map (· σ)).zip (gs.map (· σ))) := by
  obtain ⟨links, b', hs, hrun, step, shows, hvalues⟩ :=
    ripple_shows store h hcarry (ShowsPairs.zip hx hy)
  refine ⟨links, b', hs, hrun, step, shows, fun σ => ?_⟩
  rw [hvalues σ, List.map_map, List.zip_map]
  rfl

/-! ## Networks -/

/-- An output for each link. -/
lemma exists_addOutputs (h : WellFormed b) {links : List Link} {gs : List ((Nat → Bool) → Bool)}
    (hlinks : b.ShowsAll m links gs) :
    ∃ b', (do for l in links do discard (addOutput l) : Build Unit) b = .ok ((), b') ∧
      WellFormed b' ∧ b'.inputs = b.inputs ∧
      b'.outputs.length = b.outputs.length + links.length ∧
      ∀ σ, b'.outputValues m σ = b.outputValues m σ ++ gs.map (· σ) := by
  induction links generalizing b gs with
  | nil =>
      cases hlinks
      exact ⟨b, rfl, h, rfl, rfl, fun σ => (List.append_nil _).symm⟩
  | cons l links ih =>
      obtain _ | ⟨hl, hlinks⟩ := hlinks
      obtain ⟨b₁, hrun, h₁, inputs, outputs, values, kept, -⟩ := h.addOutput_shows .empty hl
      obtain ⟨b₂, hrun', h₂, inputs', outputs', values'⟩ := ih h₁ (hlinks.imp kept)
      refine ⟨b₂, ?_, h₂, inputs'.trans inputs, ?_, fun σ => ?_⟩
      · simp only [List.forIn_cons, bind_assoc, pure_bind] at hrun' ⊢
        exact build_bind_eq_ok_iff.2 ⟨(), b₁, build_discard_eq_ok_iff.2 ⟨_, hrun⟩, hrun'⟩
      · rw [outputs', outputs, List.length_cons, Nat.add_assoc, Nat.add_comm 1]
      · rw [values', values, List.append_assoc]
        rfl

/-- The bits that an assignment gives to the inputs of one operand. -/
def given (width start : Nat) (σ : Nat → Bool) : List Bool :=
  (List.range width).map fun k => σ (start + k)

lemma length_given (width start : Nat) (σ : Nat → Bool) : (given width start σ).length = width := by
  rw [given, List.length_map, List.length_range]

lemma given_operands {width a b : Nat} :
    given width 0 (operands width a b) = bitsOf width a ∧
      given width width (operands width a b) = bitsOf width b := by
  refine ⟨List.map_congr_left fun k hk => ?_, List.map_congr_left fun k hk => ?_⟩
  · rw [operands, Nat.zero_add, if_pos (List.mem_range.1 hk)]
  · rw [operands, if_neg (by omega), Nat.add_sub_cancel_left]

/-- Links show the bits of one operand. -/
abbrev ShowsOperand (b : Builder) (m : Meaning) (width start : Nat) (links : List Link) : Prop :=
  b.ShowsAll m links ((List.range width).map fun k σ => σ (start + k))

/-- A construction over two operands becomes a network with an output for each link. -/
lemma exists_network (width : Nat) {count : Nat}
    (build : List Link → List Link → Build (List Link)) {F : (Nat → Bool) → List Bool}
    (hlength : ∀ σ, (F σ).length = count)
    (hbuild : ∀ xs ys b, WellFormed b → ShowsOperand b m width 0 xs → ShowsOperand b m width width ys →
      ∃ links b' hs, build xs ys b = .ok (links, b') ∧ Step .empty b b' ∧ b'.ShowsAll m links hs ∧
        ∀ σ, hs.map (· σ) = F σ) :
    ∃ net, synthesize.network width build = .ok net ∧ net.numInputs = 2 * width ∧
      net.numOutputs = count ∧ ∀ σ, net.outputValues m σ = F σ := by
  have hempty := layout_empty .simplifying
  obtain ⟨xs, b₁, hrun₁, h₁, inputs₁, -, outputs₁, -, shows₁, -⟩ :=
    (wellFormed_empty .simplifying).addInputs_shows .empty (m := m) width
  obtain ⟨ys, b₂, hrun₂, h₂, inputs₂, -, outputs₂, kept, shows₂, -⟩ :=
    h₁.addInputs_shows .empty (m := m) width
  rw [hempty.inputs_eq, List.length_nil, List.range'_eq_map_range, List.map_map] at shows₁
  rw [hempty.inputs_eq, List.length_nil, Nat.zero_add] at inputs₁
  rw [inputs₁, List.range'_eq_map_range, List.map_map] at shows₂
  obtain ⟨links, b₃, hs, hrun₃, step, shows₃, hvalues⟩ := hbuild xs ys b₂ h₂ (shows₁.imp kept) shows₂
  obtain ⟨b₄, hrun₄, h₄, inputs₄, outputs₄, values₄⟩ := exists_addOutputs step.wellFormed shows₃
  have houtputs : b₃.outputs = [] := by
    rw [step.grown.outputs, outputs₂, outputs₁, hempty.outputs_eq]
  have hcount : links.length = count := by
    rw [shows₃.length_eq, ← hlength fun _ => false, ← hvalues, List.length_map]
  obtain ⟨net, hnet, hin, hout, values, -⟩ := h₄.exists_finish
  refine ⟨net, ?_, ?_, ?_, fun σ => ?_⟩
  · exact bind_eq_ok_iff.2 ⟨((), b₄), build_bind_eq_ok_iff.2 ⟨xs, b₁, hrun₁,
      build_bind_eq_ok_iff.2 ⟨ys, b₂, hrun₂, build_bind_eq_ok_iff.2 ⟨links, b₃, hrun₃, hrun₄⟩⟩⟩, hnet⟩
  · rw [hin, inputs₄, step.grown.inputs, inputs₂, inputs₁, Nat.two_mul]
  · rw [hout, outputs₄, houtputs, hcount, List.length_nil, Nat.zero_add]
  · rw [values, values₄, outputValues, houtputs, hvalues]
    rfl

/-- An adder shows the ripple of its operands without a carry. -/
lemma exists_adder (m : Meaning) {width : Nat} (hwidth : width ≠ 0) :
    ∃ net, synthesize .add width = .ok (some net) ∧ net.numInputs = 2 * width ∧
      net.numOutputs = width + 1 ∧ ∀ σ, net.outputValues m σ =
        rippleBits false ((given width 0 σ).zip (given width width σ)) := by
  obtain ⟨net, hnet, rest⟩ := exists_network (m := m) width addAdder
    (F := fun σ => rippleBits false ((given width 0 σ).zip (given width width σ)))
    (fun σ => by rw [length_rippleBits, List.length_zip, length_given, length_given, min_self])
    (fun xs ys b h hx hy => by
      have hnone : ShowsCarry b m none fun _ => false := fun _ => rfl
      obtain ⟨links, b', hs, hrun, step, shows, hvalues⟩ := exists_ripple .empty h hnone hx hy
      refine ⟨links, b', hs, hrun, step, shows, fun σ => ?_⟩
      rw [hvalues σ, List.map_map, List.map_map]
      rfl)
  refine ⟨net, ?_, rest⟩
  rw [synthesize, if_neg hwidth, hnet]
  rfl

/-- A subtractor shows the ripple of its first operand, the complement of the second one and one. -/
lemma exists_subtractor (m : Meaning) {width : Nat} (hwidth : width ≠ 0) :
    ∃ net, synthesize .sub width = .ok (some net) ∧ net.numInputs = 2 * width ∧
      net.numOutputs = width + 1 ∧ ∀ σ, net.outputValues m σ =
        rippleBits true ((given width 0 σ).zip ((given width width σ).map (!·))) := by
  obtain ⟨net, hnet, rest⟩ := exists_network (m := m) width addSubtractor
    (F := fun σ => rippleBits true ((given width 0 σ).zip ((given width width σ).map (!·))))
    (fun σ => by
      rw [length_rippleBits, List.length_zip, List.length_map, length_given, length_given, min_self])
    (fun xs ys b h hx hy => by
      obtain ⟨one, b₁, hrun₁, step₁, shows₁⟩ := addConst_shows .empty (m := m) h true
      have grown : ∀ {l f}, b.Shows m l f → b₁.Shows m l f := fun hl => hl.grown h step₁.grown
      have hone : ShowsCarry b₁ m (some one) _ := shows₁
      obtain ⟨links, b', hs, hrun, step, shows, hvalues⟩ := exists_ripple .empty step₁.wellFormed
        hone (hx.imp fun _ _ => grown) (showsAll_invert (hy.imp fun _ _ => grown))
      refine ⟨links, b', hs, build_bind_eq_ok_iff.2 ⟨one, b₁, hrun₁, hrun⟩, step₁.trans step, shows,
        fun σ => ?_⟩
      rw [hvalues σ, given, given, List.map_map, List.map_map, List.map_map, List.map_map]
      rfl)
  refine ⟨net, ?_, rest⟩
  rw [synthesize, if_neg hwidth, hnet]
  rfl

/-- For every width there is an adder and a subtractor of two operands, whose bits come least
significant first.  The outputs of the adder are the bits of the sum; those of the subtractor are the
bits of the difference modulo a power of two, and behind them whether the first operand is at least
the second. -/
theorem synthesize_add_sub (m : Meaning) {width : Nat} (hwidth : 1 ≤ width) :
    (∃ net, synthesize .add width = .ok (some net) ∧ net.numInputs = 2 * width ∧
      net.numOutputs = width + 1 ∧ ∀ a < 2 ^ width, ∀ b < 2 ^ width,
        number (net.outputValues m (operands width a b)) = a + b) ∧
    ∃ net, synthesize .sub width = .ok (some net) ∧ net.numInputs = 2 * width ∧
      net.numOutputs = width + 1 ∧ ∀ a < 2 ^ width, ∀ b < 2 ^ width, ∃ difference,
        net.outputValues m (operands width a b) = difference ++ [decide (b ≤ a)] ∧
        difference.length = width ∧ (number difference : Int) = ((a : Int) - b) % 2 ^ width := by
  have hne : width ≠ 0 := Nat.ne_of_gt hwidth
  have number_operand : ∀ {a}, a < 2 ^ width → number (bitsOf width a) = a := fun ha => by
    rw [number_bitsOf, Nat.mod_eq_of_lt ha]
  have length_operand : ∀ a, (bitsOf width a).length = width := fun a => by
    rw [bitsOf, List.length_map, List.length_range]
  obtain ⟨adder, hadder, hin, hout, hsum⟩ := exists_adder m hne
  obtain ⟨subtractor, hsubtractor, hin', hout', hdifference⟩ := exists_subtractor m hne
  refine ⟨⟨adder, hadder, hin, hout, fun a ha b hb => ?_⟩,
    subtractor, hsubtractor, hin', hout', fun a ha b hb => ?_⟩
  · rw [hsum, given_operands.1, given_operands.2, number_rippleBits,
      List.map_fst_zip (by simp [length_operand]), List.map_snd_zip (by simp [length_operand]),
      number_operand ha, number_operand hb]
    rfl
  · obtain ⟨difference, hbits, hlength, hvalue⟩ :=
      @rippleBits_difference (bitsOf width a) (bitsOf width b) (by rw [length_operand, length_operand])
    rw [number_operand ha, number_operand hb] at hbits
    rw [number_operand ha, number_operand hb, length_operand] at hvalue
    exact ⟨difference, by rw [hdifference, given_operands.1, given_operands.2, hbits],
      hlength.trans (length_operand a), hvalue⟩

/-- With three bits, five and six make eleven, and five lacks seven to six, modulo eight. -/
theorem synthesize_add_sub_three_bits : 1 ≤ 3 ∧
    (∃ net, synthesize .add 3 = .ok (some net) ∧
      number (net.outputValues (fun _ _ => []) (operands 3 5 6)) = 11) ∧
    ∃ net difference, synthesize .sub 3 = .ok (some net) ∧
      net.outputValues (fun _ _ => []) (operands 3 5 6) = difference ++ [false] ∧
      number difference = 7 := by
  obtain ⟨⟨adder, hadder, -, -, hsum⟩, subtractor, hsubtractor, -, -, hdifference⟩ :=
    @synthesize_add_sub (fun _ _ => []) 3 (by decide)
  obtain ⟨difference, hbits, -, hvalue⟩ := hdifference 5 (by decide) 6 (by decide)
  exact ⟨by decide, ⟨adder, hadder, hsum 5 (by decide) 6 (by decide)⟩, subtractor, difference,
    hsubtractor, hbits, Nat.cast_injective hvalue⟩

end Arithmetic

end Gatework
