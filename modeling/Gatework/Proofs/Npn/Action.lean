import Gatework.Proofs.Npn.Contract

/-!
# Transforms act alike on tables and on networks

Input `i` of a transformed function drives input `perm[i]` of the function.  This convention stands in
three places: the bits of an assignment are put in place by it, the inverse lists its positions, and the
inputs of a network are wired by it.  Each of them is described bit by bit (`testBit_source`,
`getElem?_inverse`, `getElem?_wiring`), so they fit together.

**Main statement.** `Permutes.acts_consistently`.
-/

namespace Gatework

namespace Transform

namespace Permutes

variable {t : Transform} {n : Nat} (h : t.Permutes n)

include h

/-- The inverse leads from an assignment of the old function back to that of the new one. -/
lemma inverse_source {y : Nat} (hy : y < 2 ^ n) : t.inverse.source (t.source y) = y := by
  refine eq_of_testBit (h.permutes_inverse.source_lt _) hy fun i hi => ?_
  obtain ⟨p, hp⟩ : ∃ p, t.perm[i]? = some p := ⟨_, List.getElem?_eq_getElem (h.length ▸ hi)⟩
  rw [h.permutes_inverse.testBit_source _ (h.getElem?_inverse hp), h.testBit_source _ hp,
    h.testBit_mask_inverse hp, Bool.xor_assoc, Bool.xor_self, Bool.xor_false]

/-- The transform takes what its inverse made of a function back. -/
lemma onTable_onTable_inverse (f : TruthTable n) : t.onTable (t.inverse.onTable f) = f := by
  refine TruthTable.ext_value fun y hy => ?_
  rw [onTable, TruthTable.value_ofFn _ hy, onTable, TruthTable.value_ofFn _ (h.source_lt y),
    h.inverse_source hy, inverse, Bool.xor_assoc, Bool.xor_self, Bool.xor_false]

lemma apply_eq (f : TruthTable n) : t.apply f.any = .ok (t.onTable f).any := by
  have same : t.numVars = f.any.numVars := h.length
  rw [apply, if_pos same, if_pos h.isInRange]
  rfl

lemma inverse?_eq : t.inverse? = .ok t.inverse := if_pos h.isInRange

/-- A transform whose input numbers are a permutation has an inverse, which undoes it and is undone by
it.  A network with one output that can be evaluated can be transformed, and what the transformed network
evaluates to is the transform of what the network evaluates to. -/
theorem acts_consistently :
    (∃ u, t.inverse? = .ok u ∧ ∀ f : TruthTable n,
      (t.apply f.any >>= u.apply) = .ok f.any ∧ (u.apply f.any >>= t.apply) = .ok f.any) ∧
    ∀ (store : Store) (net : Subnet), store.Evaluable net → net.numInputs = n →
      net.numOutputs = 1 → n ≤ maxEvaluatedVariables →
        ∃ (f g : TruthTable n) (net' : Subnet), store.Evaluates net f ∧ t.apply f.any = .ok g.any ∧
          t.onSubnet net = .ok net' ∧ (store.addSubnet net').1.Evaluates net' g := by
  refine ⟨⟨t.inverse, h.inverse?_eq, fun f => ⟨?_, ?_⟩⟩, fun store net evaluable hin single hn => ?_⟩
  · rw [h.apply_eq, ok_bind, h.permutes_inverse.apply_eq, h.onTable_inverse]
  · rw [h.permutes_inverse.apply_eq, ok_bind, h.apply_eq, h.onTable_onTable_inverse]
  · subst hin
    obtain ⟨f, -, computes⟩ := store.exists_tabulate_single evaluable single hn
    obtain ⟨net', hrun, computes', -⟩ := h.exists_onSubnet computes
    have stored := computes'.extends (Store.Extends.addSubnet store net')
    exact ⟨f, t.onTable f, net', computes.evaluates hn, h.apply_eq f, hrun, stored.evaluates hn⟩

end Permutes

/-- The second wire of a crossing, unless the last input is set. -/
def gatedWire : Subnet where
  cells := #[.input, .input, .input, ⟨⟨.cell, 13⟩, [.of 0, .of 1]⟩,
    ⟨.ofGate .and, [{ entry := 3, port := 1 }, (Link.of 2).invert]⟩, .output (.of 4)]
  numInputs := 3
  numOutputs := 1
  valid := by decide

/-- All inputs change places, two of them are complemented, and the output is. -/
def rotation : Transform := ⟨[2, 0, 1], 0b101, true⟩

open Store in
lemma evaluable_gatedWire : crossingStore.Evaluable gatedWire := by
  have himpl : crossingStore.implementation? 13 = some 0 := by
    rw [implementation?, type_crossingStore]
    rfl
  have hnet : crossingStore.subnets[0]? = some crossing := by
    rw [crossingStore, addComposite, subnets_addType]
    rfl
  have below : crossingStore.NetBelow 0 crossing := by
    intro j c hc hinput
    obtain ⟨l, rfl, hl⟩ : ∃ l, c = .output l ∧ (l = .of 1 ∨ l = .of 0) := by
      have hcells : c = .input ∨ c = .output (.of 1) ∨ c = .output (.of 0) := by
        simpa [crossing] using Array.mem_of_getElem? hc
      rcases hcells with rfl | rfl | rfl
      · cases hinput
      · exact ⟨_, rfl, .inl rfl⟩
      · exact ⟨_, rfl, .inr rfl⟩
    refine ⟨(evaluableBelow_gate rfl).2 fun _ => by simp [Cell.output], fun k hk d hd => ?_⟩
    obtain rfl : k = l := by simpa [Cell.output] using hk
    rcases hl with rfl | rfl <;> cases hd <;> decide
  intro j c hc hinput
  have hcells : c = .input ∨ c = ⟨⟨.cell, 13⟩, [.of 0, .of 1]⟩ ∨
      c = ⟨.ofGate .and, [{ entry := 3, port := 1 }, (Link.of 2).invert]⟩ ∨ c = .output (.of 4) := by
    simpa [gatedWire] using Array.mem_of_getElem? hc
  have ports : crossingStore.numPorts ⟨.cell, 13⟩ = 2 := by
    simp [numPorts, himpl, hnet, crossing]
  rcases hcells with rfl | rfl | rfl | rfl
  · cases hinput
  · refine ⟨(evaluableBelow_composite rfl).2 ⟨0, crossing, himpl, hnet, rfl, by decide,
      Arena.lt_size_of_getElem? hnet, below⟩, fun l hl d hd => ?_⟩
    have hl : l = .of 0 ∨ l = .of 1 := by simpa using hl
    rcases hl with rfl | rfl <;> cases hd <;> decide
  · refine ⟨(evaluableBelow_gate rfl).2 (by simp), fun l hl d hd => ?_⟩
    have hl : l = { entry := 3, port := 1 } ∨ l = (Link.of 2).invert := by simpa using hl
    rcases hl with rfl | rfl <;> cases hd
    · exact Nat.one_lt_two.trans_eq ports.symm
    · decide
  · refine ⟨(evaluableBelow_gate rfl).2 (by simp [Cell.output]), fun l hl d hd => ?_⟩
    obtain rfl : l = .of 4 := by simpa [Cell.output] using hl
    cases hd
    decide

/-- The network with the crossing is turned, and evaluates to what the turned function is. -/
theorem acts_consistently_gatedWire :
    rotation.Permutes 3 ∧ Store.crossingStore.Evaluable gatedWire ∧
      ∃ (f g : TruthTable 3) (net' : Subnet), Store.crossingStore.Evaluates gatedWire f ∧
        rotation.apply f.any = .ok g.any ∧ rotation.onSubnet gatedWire = .ok net' ∧
          (Store.crossingStore.addSubnet net').1.Evaluates net' g :=
  have permutes : rotation.Permutes 3 := by
    unfold Permutes
    decide
  ⟨permutes, evaluable_gatedWire, permutes.acts_consistently.2 _ _ evaluable_gatedWire rfl rfl
    (by decide)⟩

end Transform

end Gatework
