import Mathlib
import Gatework.Proofs.Builder.Growth
import Gatework.Proofs.Builder.Replacement

/-!
# The representation invariant of builders

`Reachable` are the builders that come out of any sequence of construction steps and replacements,
where the leaves of a replacement may be read and stand in front of its root.  `Consistent` is what the
fields of a builder say about each other, spelled out field by field.

**Main statement.** `consistent_of_reachable`: every reachable builder is consistent.
-/

namespace Gatework

namespace Builder

/-- Whether an entry stands in front of another one in the order of a builder. -/
def Precedes (b : Builder) (x y : Nat) : Prop :=
  ∃ front behind, b.order = front ++ y :: behind ∧ x ∈ front

/-- The builders that construction steps and replacements lead to. -/
inductive Reachable : Builder → Prop
  | empty (options : BuilderOptions) : Reachable (.empty options)
  | ofSubnet {net : Subnet} {b : Builder} (copy : ofSubnet net = .ok b) : Reachable b
  | addInput {b b' : Builder} {l : Link} (h : Reachable b) (step : addInput b = .ok (l, b')) :
      Reachable b'
  | addOutput {b b' : Builder} {l : Link} {id : Nat} (h : Reachable b)
      (step : addOutput l b = .ok (id, b')) : Reachable b'
  | addCell {b b' : Builder} {symbol : Symbol} {links : List Link} {l : Link} (h : Reachable b)
      (step : addCell symbol links b = .ok (l, b')) : Reachable b'
  | addOfType {b b' : Builder} {store : Store} {type : Nat} {links : List Link} {l : Link}
      (h : Reachable b) (step : addOfType store type links b = .ok (l, b')) : Reachable b'
  | addConst {b b' : Builder} {value : Bool} {l : Link} (h : Reachable b)
      (step : addConst value b = .ok (l, b')) : Reachable b'
  | addTree {b b' : Builder} {symbol : Symbol} {links : List Link} {maxArity : Nat} {l : Link}
      (h : Reachable b) (step : addTree symbol links maxArity b = .ok (l, b')) : Reachable b'
  | addInstance {b b' : Builder} {net : Subnet} {links shown : List Link} (h : Reachable b)
      (step : addInstance net links b = .ok (shown, b')) : Reachable b'
  | replace {b b' : Builder} {r : Replacement} (h : Reachable b)
      (leaves : ∀ leaf ∈ r.leaves, b.IsDriver leaf ∧ b.Precedes leaf r.root)
      (step : b.replace r = .ok b') : Reachable b'

/-- What the fields of a builder say about each other. -/
structure Consistent (b : Builder) : Prop where
  /-- Following `next?` from the head gives the order, however long it is followed. -/
  forward : ∀ n, b.size ≤ n → chain b.next? n b.head = b.order
  /-- Following `prev?` from the tail gives the order from its end. -/
  backward : ∀ n, b.size ≤ n → chain b.prev? n b.tail = b.order.reverse
  /-- Every living entry is met, and nothing else. -/
  isAlive_iff : ∀ id, b.isAlive id = true ↔ id ∈ b.order
  /-- No entry is met twice. -/
  nodup : b.order.Nodup
  /-- The two directions are inverse to each other. -/
  next_iff_prev : ∀ x ∈ b.order, ∀ y ∈ b.order, b.next? x = some y ↔ b.prev? y = some x
  /-- The inputs are the first entries. -/
  inputs : b.inputs = b.order.take b.numInputs ∧ b.inputs.length = b.numInputs
  /-- The outputs are the last entries. -/
  outputs : b.outputs = b.order.drop (b.order.length - b.numOutputs) ∧
    b.outputs.length = b.numOutputs
  /-- A living entry reads living entries in front of it, which are not outputs. -/
  reads : ∀ id ∈ b.order, ∀ c, b.cells[id]? = some c → ∀ l ∈ c.links,
    b.isAlive l.entry = true ∧ b.IsDriver l.entry ∧ b.Precedes l.entry id
  /-- The readers of a living entry are the living entries that read it, one for each link. -/
  fanouts : ∀ id ∈ b.order, (b.fanouts id).Perm
    (b.order.flatMap fun user => List.replicate ((b.driversOf user).count id) user)
  /-- The depth of a living entry is that of its cell over the depths of its drivers. -/
  depths : ∀ id ∈ b.order, ∀ c, b.cells[id]? = some c → b.depth id = c.depth b.depth
  /-- What is offered for reuse is a living inner cell under its normal form. -/
  table : ∀ key id, b.table[key]? = some id →
    id ∈ b.inner ∧ b.isAlive id = true ∧ ∃ c, b.cells[id]? = some c ∧ c.normal = key

/-- Where an entry is in the list, its front is known. -/
lemma precedes_of_reads {b : Builder} {xs : List Nat} (h : Arranged b xs) {id d : Nat}
    (hid : id ∈ xs) (hd : d ∈ b.driversOf id) : b.Precedes d id := by
  obtain ⟨front, behind, rfl⟩ := List.append_of_mem hid
  exact ⟨front, behind, h.order_eq, h.mem_front hd⟩

/-- An entry in front of a non-terminal one that may be read is an input or an inner cell in front of
it. -/
lemma Layout.mem_of_precedes {b : Builder} {ins inn inn' outs : List Nat} {root leaf : Nat}
    (h : Layout b ins (inn ++ root :: inn') outs) (hleaf : b.Precedes leaf root) :
    leaf ∈ ins ++ inn := by
  obtain ⟨front, behind, horder, hmem⟩ := hleaf
  have harr := h.arranged_middle
  have apart := harr.linked.notMem_middle
  have same := (List.append_cons_inj_of_notMem (fun hmem => apart (List.mem_append_left _ hmem))
    (fun hmem => apart (List.mem_append_right _ hmem))).1 (harr.order_eq.symm.trans horder)
  rwa [same.1]

/-- The order around an inner cell, and what it says about the entries in front of the cell. -/
lemma WellFormed.exists_layout {b : Builder} {root : Nat} {leaves : List Nat} (h : WellFormed b)
    (hroot : root ∈ b.inner) (front : ∀ leaf ∈ leaves, b.Precedes leaf root) :
    ∃ inn inn', b.inner = inn ++ root :: inn' ∧
      Layout b b.inputs (inn ++ root :: inn') b.outputs ∧ ∀ leaf ∈ leaves, leaf ∈ b.inputs ++ inn := by
  obtain ⟨inn, inn', hsplit⟩ := List.append_of_mem hroot
  have layout := h.layout
  rw [hsplit] at layout
  exact ⟨inn, inn', hsplit, layout, fun leaf hleaf => layout.mem_of_precedes (front leaf hleaf)⟩

/-- Where each element is repeated, it is counted as often. -/
lemma count_flatMap_replicate (xs : List Nat) (nodup : xs.Nodup) (times : Nat → Nat) (x : Nat) :
    (xs.flatMap fun y => List.replicate (times y) y).count x = if x ∈ xs then times x else 0 := by
  induction xs with
  | nil => rfl
  | cons y xs ih =>
      obtain ⟨apart, nodup⟩ := List.nodup_cons.1 nodup
      rw [List.flatMap_cons, List.count_append, ih nodup, List.count_replicate]
      by_cases e : x = y
      · subst e
        simp [apart]
      · simp [e, Ne.symm e]

namespace WellFormed

variable {b : Builder}

lemma arranged (h : WellFormed b) : Arranged b b.order := h.layout.arranged_order

/-- The neighbours of two entries name each other. -/
lemma next?_eq_some_iff (h : WellFormed b) {x y : Nat} (hx : x ∈ b.order) (hy : y ∈ b.order) :
    b.next? x = some y ↔ b.prev? y = some x := by
  have harr := h.arranged
  constructor
  · intro hnext
    obtain ⟨front, behind, horder⟩ := List.append_of_mem hx
    rw [horder] at harr
    rw [harr.next?_eq] at hnext
    obtain ⟨rest, rfl⟩ := List.head?_eq_some_iff.1 hnext
    rw [List.append_cons] at harr
    rw [harr.prev?_eq, List.getLast?_concat]
  · intro hprev
    obtain ⟨front, behind, horder⟩ := List.append_of_mem hy
    rw [horder] at harr
    rw [harr.prev?_eq] at hprev
    obtain ⟨rest, rfl⟩ := List.getLast?_eq_some_iff.1 hprev
    rw [List.append_assoc] at harr
    rw [harr.next?_eq]
    rfl

/-- A well-formed builder is consistent. -/
theorem consistent (h : WellFormed b) : Consistent b := by
  have harr := h.arranged
  have hlength := harr.length_le_size
  have order := h.layout.order_eq
  exact {
    forward := fun n hn => Linked.chain_eq harr.linked.forward n (hlength.trans hn)
    backward := fun n hn =>
      Linked.chain_eq harr.linked.backward n (by simpa using hlength.trans hn)
    isAlive_iff := harr.isAlive_iff
    nodup := harr.linked.nodup
    next_iff_prev := fun x hx y hy => h.next?_eq_some_iff hx hy
    inputs := by
      rw [h.layout.numInputs, order]
      simp
    outputs := by
      have hlength : b.order.length - b.numOutputs = (b.inputs ++ b.inner).length := by
        rw [h.layout.numOutputs, order]
        simp only [List.length_append]
        omega
      rw [hlength, order, List.drop_left]
      exact ⟨rfl, h.layout.numOutputs.symm⟩
    reads := fun id hid c hc l hl => by
      have hd : l.entry ∈ b.driversOf id := by
        rw [driversOf, hc]
        exact List.mem_map_of_mem hl
      exact ⟨(harr.isAlive_iff _).2 (harr.mem_of_reads id hid _ hd),
        harr.isDriver_of_reads id hid _ hd, precedes_of_reads harr hid hd⟩
    fanouts := fun id hid => by
      rw [List.perm_iff_count]
      intro user
      rw [harr.count_fanouts id (harr.lt_size hid),
        count_flatMap_replicate b.order harr.linked.nodup (fun user => (b.driversOf user).count id)]
    depths := h.settled
    table := fun key id hkey => by
      obtain ⟨hinner, hcell⟩ := h.layout.offered key id hkey
      refine ⟨hinner, (harr.isAlive_iff id).2 ?_, hcell⟩
      rw [order]
      exact List.mem_append_left _ (List.mem_append_right _ hinner) }

/-- What a replacement comes to that succeeds and has its leaves in front of its root. -/
theorem exists_replaced {r : Replacement} {b' : Builder} (h : WellFormed b)
    (leaves : ∀ leaf ∈ r.leaves, b.IsDriver leaf ∧ b.Precedes leaf r.root)
    (step : b.replace r = .ok b') :
    ∃ shown full inn inn' kept count c, b.inner = inn ++ r.root :: inn' ∧
      r.net.numInputs = r.leaves.length ∧ (∀ leaf ∈ r.leaves, leaf ∈ b.inputs ++ inn) ∧
      r.shown = .ok shown ∧
      Replaced r shown b full b' b.inputs inn inn' b.outputs kept count c := by
  obtain ⟨⟨⟩, hcheck, hrun⟩ := bind_eq_ok_iff.1 step
  obtain ⟨shown, hshown, -⟩ := bind_eq_ok_iff.1 hrun
  obtain ⟨single, fits, alive, hinner, -, -⟩ := checkReplacement_eq_ok_iff.1 hcheck
  have hroot : r.root ∈ b.inner := by
    have hmem := (h.arranged.isAlive_iff _).1 alive
    obtain ⟨c, hc⟩ : ∃ c, b.cells[r.root]? = some c :=
      ⟨_, Array.getElem?_eq_getElem (h.arranged.lt_size hmem)⟩
    rw [hc] at hinner
    exact List.mem_filter.2 ⟨hmem, by simpa [hc] using hinner⟩
  obtain ⟨inn, inn', hsplit, layout, hleaves⟩ :=
    h.exists_layout hroot fun leaf hleaf => (leaves leaf hleaf).2
  obtain ⟨b'', full, kept, count, c, hreplace, replaced⟩ :=
    layout.replace h.settled single fits hleaves hshown
  cases step.symm.trans hreplace
  exact ⟨shown, full, inn, inn', kept, count, c, hsplit, fits, hleaves, hshown, replaced⟩

/-- A replacement that succeeds, with leaves in front of its root, keeps a builder well-formed. -/
theorem replace {r : Replacement} {b' : Builder} (h : WellFormed b)
    (leaves : ∀ leaf ∈ r.leaves, b.IsDriver leaf ∧ b.Precedes leaf r.root)
    (step : b.replace r = .ok b') : WellFormed b' := by
  obtain ⟨_, _, _, _, _, _, _, _, _, _, _, replaced⟩ := h.exists_replaced leaves step
  exact replaced.layout.wellFormed replaced.settled

end WellFormed

/-- Every step keeps a builder well-formed. -/
lemma Reachable.wellFormed {b : Builder} (h : Reachable b) : WellFormed b := by
  induction h with
  | empty options => exact wellFormed_empty options
  | ofSubnet copy => exact wellFormed_ofSubnet copy
  | addInput _ step ih =>
      obtain ⟨b', hb', wf, -⟩ := ih.addInput
      cases step.symm.trans hb'
      exact wf
  | addOutput _ step ih =>
      obtain ⟨⟨⟩, hcheck, -⟩ := bind_eq_ok_iff.1 step
      obtain ⟨b', hb', wf, -⟩ := ih.addOutput (ih.readable_iff.1 hcheck)
      cases step.symm.trans hb'
      exact wf
  | addCell _ step ih => exact (grows_addCell _ _ _ _ _ ih step).wellFormed
  | addOfType _ step ih => exact (grows_addOfType _ _ _ _ _ _ ih step).wellFormed
  | addConst _ step ih => exact (grows_addConst _ _ _ _ ih step).wellFormed
  | addTree _ step ih => exact (grows_addTree _ _ _ _ _ _ ih step).wellFormed
  | addInstance _ step ih => exact (grows_addInstance _ _ _ _ _ ih step).wellFormed
  | replace _ leaves step ih => exact ih.replace leaves step

/-- Every reachable builder is consistent. -/
theorem consistent_of_reachable {b : Builder} (h : Reachable b) : Consistent b :=
  h.wellFormed.consistent

/-! ## A half adder -/

/-- The sum and the carry of two bits. -/
def halfAdder : Subnet where
  cells := #[.input, .input, ⟨.ofGate .xor, [.of 0, .of 1]⟩, ⟨.ofGate .and, [.of 0, .of 1]⟩,
    .output (.of 2), .output (.of 3)]
  numInputs := 2
  numOutputs := 2
  valid := by decide

/-- The sum alone. -/
def exclusiveOr : Subnet where
  cells := #[.input, .input, ⟨.ofGate .xor, [.of 0, .of 1]⟩, .output (.of 2)]
  numInputs := 2
  numOutputs := 1
  valid := by decide

/-- A store with the half adder as a type of cells. -/
def halfStore : Store :=
  ((Store.empty.addSubnet halfAdder).1.addComposite "half" 0 halfAdder none).1

/-- A half adder as one cell, with both of its ports shown. -/
def halfBuild : Build Unit := do
  let inputs ← addInputs 2
  let l ← addOfType halfStore 13 inputs
  discard (addOutput l)
  discard (addOutput { l with port := 1 })

/-- The builder that `halfBuild` leads to. -/
def halfBuilder : Builder :=
  match halfBuild.run (.empty {}) with
  | .ok (_, b) => b
  | .error _ => .empty {}

/-- The sum computed by a gate in the place of the half adder. -/
def sumReplacement : Replacement := ⟨exclusiveOr, [0, 1], 2⟩

lemma reachable_halfBuilder : Reachable halfBuilder := by
  have inputs := Reachable.addInput (.addInput (.empty {}) rfl) rfl
  have cell := @Reachable.addOfType _ _ halfStore 13 [.of 0, .of 1] _ inputs
    (by with_unfolding_all rfl)
  have sum := Reachable.addOutput (l := .of 2) cell rfl
  have carry := Reachable.addOutput (l := { entry := 2, port := 1 }) sum rfl
  obtain ⟨b, hb, hrun⟩ : ∃ b, Reachable b ∧ halfBuild.run (.empty {}) = .ok ((), b) :=
    ⟨_, carry, by cbv⟩
  rwa [halfBuilder, hrun]

/-- What the builder holds, computed in one go. -/
lemma halfBuilder_holds :
    halfBuilder.cells = #[.input, .input, ⟨⟨.cell, 13⟩, [.of 0, .of 1]⟩, .output (.of 2),
        .output { entry := 2, port := 1 }] ∧
      halfBuilder.order = [0, 1] ++ 2 :: [3, 4] ∧
      halfBuilder.inner = [2] ∧ halfBuilder.outputs = [3, 4] := by
  have holds : (halfBuilder.cells, halfBuilder.order, halfBuilder.inner, halfBuilder.outputs) =
      (#[.input, .input, ⟨⟨.cell, 13⟩, [.of 0, .of 1]⟩, .output (.of 2),
        .output { entry := 2, port := 1 }], [0, 1] ++ 2 :: [3, 4], [2], [3, 4]) := by cbv
  simpa only [Prod.mk.injEq] using holds

lemma order_halfBuilder : halfBuilder.order = [0, 1] ++ 2 :: [3, 4] := halfBuilder_holds.2.1

lemma inner_halfBuilder : halfBuilder.inner = [] ++ sumReplacement.root :: [] :=
  halfBuilder_holds.2.2.1

lemma leaves_sumReplacement : ∀ leaf ∈ sumReplacement.leaves,
    halfBuilder.IsDriver leaf ∧ halfBuilder.Precedes leaf sumReplacement.root := by
  have precedes : ∀ leaf ∈ [0, 1], halfBuilder.Precedes leaf 2 := fun leaf hleaf =>
    ⟨[0, 1], [3, 4], order_halfBuilder, hleaf⟩
  intro leaf hleaf
  refine ⟨?_, precedes leaf hleaf⟩
  rw [IsDriver, halfBuilder_holds.1]
  have hmem : leaf = 0 ∨ leaf = 1 := by simpa [sumReplacement] using hleaf
  rcases hmem with rfl | rfl <;> exact ⟨.input, rfl, rfl⟩

lemma exists_replace_halfBuilder : ∃ b', halfBuilder.replace sumReplacement = .ok b' := by
  have layout := reachable_halfBuilder.wellFormed.layout
  rw [inner_halfBuilder] at layout
  obtain ⟨b', -, -, -, -, hrun, -⟩ := layout.replace reachable_halfBuilder.wellFormed.settled rfl rfl
    (fun leaf hleaf => layout.mem_of_precedes (leaves_sumReplacement leaf hleaf).2) rfl
  exact ⟨b', hrun⟩

/-- A builder that was built and then changed by a replacement. -/
theorem consistent_of_reachable_half :
    ∃ b', halfBuilder.replace sumReplacement = .ok b' ∧ Consistent b' := by
  obtain ⟨b', hrun⟩ := exists_replace_halfBuilder
  exact ⟨b', hrun, consistent_of_reachable (.replace reachable_halfBuilder leaves_sumReplacement hrun)⟩

/-! ## An absorption -/

/-- One of two bits, or both of them: the second gate absorbs the first. -/
def absorption : Subnet where
  cells := #[.input, .input, ⟨.ofGate .and, [.of 0, .of 1]⟩, ⟨.ofGate .or, [.of 0, .of 2]⟩,
    .output (.of 3)]
  numInputs := 2
  numOutputs := 1
  valid := by decide

/-- The builder of the absorption. -/
def absorber : Builder :=
  match ofSubnet absorption with
  | .ok b => b
  | .error _ => .empty {}

/-- A conjunction by way of the complements of its operands. -/
def dual : Subnet where
  cells := #[.input, .input, ⟨.ofGate .or, [(Link.of 0).invert, (Link.of 1).invert]⟩,
    .output (Link.of 2).invert]
  numInputs := 2
  numOutputs := 1
  valid := by decide

/-- The conjunction that is absorbed by way of the complements. -/
def dualReplacement : Replacement := ⟨dual, [0, 1], 2⟩

lemma ofSubnet_absorption : ofSubnet absorption = .ok absorber := by
  obtain ⟨b, hb⟩ : ∃ b, ofSubnet absorption = .ok b := ⟨_, by cbv⟩
  rw [absorber, hb]

lemma absorber_holds : absorber.cells = absorption.cells ∧
    absorber.order = [0, 1] ++ 2 :: [3, 4] ∧ absorber.inner = [2, 3] := by
  have holds : (absorber.cells, absorber.order, absorber.inner) =
      (absorption.cells, [0, 1] ++ 2 :: [3, 4], [2, 3]) := by cbv
  simpa only [Prod.mk.injEq] using holds

lemma cells_absorber : absorber.cells = absorption.cells := absorber_holds.1

lemma inner_absorber : absorber.inner = [2, 3] := absorber_holds.2.2

lemma leaves_dualReplacement : ∀ leaf ∈ dualReplacement.leaves,
    absorber.IsDriver leaf ∧ absorber.Precedes leaf dualReplacement.root := by
  intro leaf hleaf
  refine ⟨?_, [0, 1], [3, 4], absorber_holds.2.1, hleaf⟩
  rw [IsDriver, cells_absorber]
  have hmem : leaf = 0 ∨ leaf = 1 := by simpa [dualReplacement] using hleaf
  rcases hmem with rfl | rfl <;> exact ⟨.input, rfl, rfl⟩

end Builder

end Gatework
