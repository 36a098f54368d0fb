import Gatework.Proofs.Builder.Width
import Gatework.Proofs.Synthesis.BiDecomposition
import Gatework.Proofs.Synthesis.Gatewise
import Gatework.Synthesis.Method

/-!
# How wide synthesized cells are

Both methods of synthesis build trees of bounded width and otherwise gates with two operands.  With what
they compute, this is all that their specification promises (`Subnet.Serves`).

**Main statements.**
* `SumOfProducts.exists_resynthesize_sumOfProducts`: two-level synthesis, with either of its two covers.
* `BiDecomposition.exists_resynthesize_biDecomposition`.
-/

namespace Gatework

open Builder

lemma gatewise_narrow (width : Nat) :
    Gatewise width fun b b' => b.Narrow width → b'.Narrow width where
  toComposes := composes_narrow width
  addCell symbol _ hlinks := narrow_addCell symbol hlinks
  addConst := narrow_addConst width

/-- What synthesis promises of a network: it computes a function wherever the care set holds, and none of
its cells is wider than was allowed. -/
structure Subnet.Serves {n : Nat} (net : Subnet) (f : TruthTable n) (care : Option (TruthTable n))
    (width : Nat) : Prop where
  numInputs : net.numInputs = n
  numOutputs : net.numOutputs = 1
  values : ∀ m σ, (∀ t ∈ care, t.value (encode n σ) = true) →
    net.outputValues m σ = [f.value (encode n σ)]
  narrow : ∀ c ∈ net.cells, c.links.length ≤ width

namespace SumOfProducts

variable {n arity : Nat} {f : TruthTable n} {care : Option (TruthTable n)}

/-- A construction that realizes the requirement of a function and keeps cells narrow gives a network that
serves for the function. -/
lemma exists_serving (store : Store) {add : List Link → Build Link} {width : Nat} (hwidth : 1 ≤ width)
    (realizes : ∀ m links b, WellFormed b → ShowsInputs b m n links.toArray →
      ∃ l b' g, add links b = .ok (l, b') ∧ Step store b b' ∧ Realizes b' m (.of f care) l g)
    (narrow : ∀ links, KeepsNarrow width (add links)) :
    ∃ net, Build.toSubnet (do discard (addOutput (← add (← addInputs n)))) .simplifying = .ok net ∧
      net.Serves f care width := by
  have built := fun m => @exists_toSubnet store n .simplifying m add
    (fun F => ∃ g : TruthTable n, (∀ σ, F σ = g.value (encode n σ)) ∧ (Requirement.of f care).Meets g)
    fun links b h hlinks => by
      obtain ⟨l, b', g, hrun, step, realized⟩ := realizes m links b h hlinks
      exact ⟨l, b', _, hrun, step, realized.shows, g, fun _ => rfl, realized.meets⟩
  obtain ⟨net, -, hnet, hin, hout, -⟩ := built store.ports
  refine ⟨net, hnet, hin, hout, fun m σ cared => ?_, ?_⟩
  · obtain ⟨net', F, hnet', -, -, hvalues, ⟨g, hg, meets⟩, -⟩ := built m
    obtain rfl : net' = net := Except.ok.inj (hnet'.symm.trans hnet)
    rw [hvalues σ, hg σ, meets.value_eq (encode_lt n σ) cared]
  · have h := composes_narrow width
    refine narrow_toSubnet (h.bind (narrow_addInputs _ n) fun inputs => ?_) hnet
    exact h.bind (narrow inputs) fun l => (narrow_addOutput hwidth l).discard

/-- The network of a function serves for it, if trees may be as wide as they get. -/
lemma exists_synthesize_serving (hn : n ≤ Cube.maxVariables)
    (harity : arity ≤ maxArity ∨ 2 ^ n ≤ maxArity + 1) (f : TruthTable n) (care : Option (TruthTable n)) :
    ∃ net, synthesize (.of f care) arity = .ok net ∧ net.Serves f care (max 2 arity) :=
  exists_serving .bare (by omega)
    (fun _ links _ h hlinks => addFunction_realizes .bare links.toArray h hlinks hn harity
      (Requirement.consistent_of f care))
    fun links => (gatewise_narrow (max 2 arity)).addFunction links.toArray (.of f care)

/-- The network of a sum of cubes, complemented or not. -/
def ofCubes (n arity : Nat) (complemented : Bool) (cubes : List Cube) : Except Fault Subnet :=
  Build.toSubnet (do
    let inputs ← Builder.addInputs n
    discard (Builder.addOutput (← addSum inputs.toArray arity complemented cubes))) .simplifying

/-- The synthesis of a function succeeds and stores a network that serves for it.  Both covers, that of
the function and that of its complement, could have been taken: the network of either one serves. -/
theorem exists_resynthesize_sumOfProducts (store : Store) (hn : n ≤ maxTableVariables)
    (f : TruthTable n) (care : Option (TruthTable n)) (harity : arity ≤ maxArity) :
    (∃ net, Method.sumOfProducts.resynthesizer.resynthesize store f care arity =
        .ok ((store.addSubnet net).1, some net) ∧ net.Serves f care (max 2 arity)) ∧
      ∀ complemented, ∃ cover net,
        Cover.between ((Requirement.of f care).side complemented).on
          ((Requirement.of f care).side complemented).off.not = .ok cover ∧
        ofCubes n arity complemented cover.cubes = .ok net ∧ net.Serves f care (max 2 arity) := by
  have hn : n ≤ Cube.maxVariables := hn.trans (by decide)
  have hr := Requirement.consistent_of f care
  have hwidth : 1 ≤ max 2 arity := by omega
  have gates := gatewise_narrow (max 2 arity)
  constructor
  · obtain ⟨net, hrun, serves⟩ := exists_synthesize_serving hn (.inl harity) f care
    refine ⟨net, ?_, serves⟩
    simp only [Method.resynthesizer, Method.synthesize, hrun]
    rfl
  · intro complemented
    obtain ⟨cover, hcover, -⟩ := exists_cover hn (hr.side complemented)
    obtain ⟨net, hnet, serves⟩ := exists_serving store hwidth
      (fun m links b h hlinks => addSum_realizes store h hlinks hn hr complemented (.inl harity) hcover)
      fun links => gates.bind (gates.addCubes links.toArray cover.cubes) fun _ => gates.pure _
    exact ⟨cover, net, hcover, hnet, serves⟩

/-- One of the first two variables and one of the last two, required where the first or the third one
holds.  The complement has the shorter cover. -/
theorem exists_resynthesize_sumOfProducts_pairs : ∃ net,
    Method.sumOfProducts.resynthesizer.resynthesize .empty
        (((TruthTable.var 4 0).or (.var 4 1)).and ((TruthTable.var 4 2).or (.var 4 3)))
        (some ((TruthTable.var 4 0).or (.var 4 2))) 2 =
      .ok ((Store.empty.addSubnet net).1, some net) ∧
    net.numInputs = 4 ∧ net.numOutputs = 1 ∧
    (∀ m σ, (σ 0 || σ 2) = true → net.outputValues m σ = [(σ 0 || σ 1) && (σ 2 || σ 3)]) ∧
    ∀ c ∈ net.cells, c.links.length ≤ 2 := by
  obtain ⟨⟨net, hrun, serves⟩, -⟩ := @exists_resynthesize_sumOfProducts 4 2 .empty (by decide)
    (((TruthTable.var 4 0).or (.var 4 1)).and ((TruthTable.var 4 2).or (.var 4 3)))
    (some ((TruthTable.var 4 0).or (.var 4 2))) (by decide)
  refine ⟨net, hrun, serves.numInputs, serves.numOutputs, fun m σ cared => ?_, serves.narrow⟩
  have hcode := encode_lt 4 σ
  have hvar : ∀ v < 4, (TruthTable.var 4 v).value (encode 4 σ) = σ v := fun v hv => by
    rw [TruthTable.value_var hcode, testBit_encode hv]
  rw [serves.values m σ fun t ht => ?_]
  · simp [TruthTable.value_and, TruthTable.value_or, hvar]
  · rw [← Option.some.inj ht, TruthTable.value_or, hvar 0 (by decide), hvar 2 (by decide), cared]

end SumOfProducts

namespace BiDecomposition

variable {n : Nat}

lemma narrow_synthesize {r : Requirement n} {arity : Nat} {net : Subnet}
    (hrun : synthesize r arity = .ok net) : ∀ c ∈ net.cells, c.links.length ≤ max 2 arity := by
  have h := gatewise_narrow (max 2 arity)
  refine narrow_toSubnet (h.bind (narrow_addInputs _ n) fun inputs => ?_) hrun
  exact h.bind (h.decompose _ _ r) fun realized => (narrow_addOutput (by omega) realized.link).discard

/-- The network of a function serves for it, if trees may be as wide as they get. -/
lemma exists_synthesize_serving (hn : n ≤ Cube.maxVariables) {arity : Nat}
    (harity : arity ≤ maxArity ∨ 2 ^ n ≤ maxArity + 1) (f : TruthTable n) (care : Option (TruthTable n)) :
    ∃ net, synthesize (.of f care) arity = .ok net ∧ net.Serves f care (max 2 arity) := by
  have synthesized := fun m => @exists_synthesize n (.of f care) arity .bare m hn harity
    (Requirement.consistent_of f care)
  obtain ⟨net, -, hrun, -, hin, hout, -⟩ := synthesized Store.bare.ports
  refine ⟨net, hrun, hin, hout, fun m σ cared => ?_, narrow_synthesize hrun⟩
  obtain ⟨net', g, hrun', meets, -, -, hvalues, -⟩ := synthesized m
  obtain rfl : net' = net := Except.ok.inj (hrun'.symm.trans hrun)
  rw [hvalues σ, meets.value_eq (encode_lt n σ) cared]

/-- The synthesis of a function succeeds and stores a network with one output.  It computes the function
wherever the care set holds, and none of its cells is wider than was allowed. -/
theorem exists_resynthesize_biDecomposition (store : Store) (hn : n ≤ maxTableVariables)
    (f : TruthTable n) (care : Option (TruthTable n)) {arity : Nat} (harity : arity ≤ maxArity) :
    ∃ net, Method.biDecomposition.resynthesizer.resynthesize store f care arity =
        .ok ((store.addSubnet net).1, some net) ∧
      net.numInputs = n ∧ net.numOutputs = 1 ∧
      (∀ m σ, (∀ t ∈ care, t.value (encode n σ) = true) →
        net.outputValues m σ = [f.value (encode n σ)]) ∧
      ∀ c ∈ net.cells, c.links.length ≤ max 2 arity := by
  obtain ⟨net, hrun, hin, hout, values, narrow⟩ :=
    exists_synthesize_serving (hn.trans (by decide)) (.inl harity) f care
  refine ⟨net, ?_, hin, hout, values, narrow⟩
  simp only [Method.resynthesizer, Method.synthesize, hrun]
  rfl

/-- The first of two variables, required where the second one holds. -/
theorem exists_resynthesize_biDecomposition_cared : ∃ net,
    Method.biDecomposition.resynthesizer.resynthesize .empty (TruthTable.var 2 0)
      (some (TruthTable.var 2 1)) 2 = .ok ((Store.empty.addSubnet net).1, some net) ∧
    net.numInputs = 2 ∧ net.numOutputs = 1 ∧
    (∀ m σ, σ 1 = true → net.outputValues m σ = [σ 0]) ∧ ∀ c ∈ net.cells, c.links.length ≤ 2 := by
  obtain ⟨net, hrun, hin, hout, hvalues, narrow⟩ := @exists_resynthesize_biDecomposition 2 .empty
    (by decide) (.var 2 0) (some (.var 2 1)) 2 (by decide)
  refine ⟨net, hrun, hin, hout, fun m σ cared => ?_, narrow⟩
  have hcode := encode_lt 2 σ
  rw [hvalues m σ fun t ht => ?_, TruthTable.value_var hcode, testBit_encode (by decide)]
  rw [← Option.some.inj ht, TruthTable.value_var hcode, testBit_encode (by decide), cared]

end BiDecomposition

end Gatework
