import Mathlib.Algebra.BigOperators.Fin
import Gatework.Proofs.Cut.Cone
import Gatework.Proofs.Network

/-!
# The function of a cone composes with its leaves

The table of a cone is computed over all assignments of its leaves, also over such as no assignment of
the inputs leads to.  Read at the values that the leaves have for some inputs, it gives the value of the
root for these inputs.

* `encode_eq_sum`: where a table is read, as a sum of powers of two.
* `Network.tabulateCone_value`: the table of a cone at the values of its leaves.

**Main statement.** `Network.tabulateCone_iff`: the table exists exactly if no path leads from the root to
an input around the leaves.
-/

namespace Gatework

lemma encode_succ (n : Nat) (σ : Nat → Bool) :
    encode (n + 1) σ = 2 ^ n * (σ n).toNat + encode n σ := by
  have hlt := encode_lt n σ
  have hbound : 2 ^ n * (σ n).toNat + encode n σ < 2 ^ (n + 1) := by
    rw [Nat.pow_succ]
    cases σ n <;> simp <;> omega
  refine eq_of_testBit (encode_lt _ _) hbound fun v hv => ?_
  rw [testBit_encode hv, Nat.testBit_two_pow_mul_add _ hlt]
  split
  · rename_i hlt
    rw [testBit_encode hlt]
  · obtain rfl : v = n := by omega
    cases σ v <;> simp

/-- Each variable that holds counts its power of two. -/
lemma encode_eq_sum (n : Nat) (σ : Nat → Bool) :
    encode n σ = ∑ k : Fin n, (σ k).toNat * 2 ^ (k : Nat) := by
  induction n with
  | zero => rfl
  | succ n ih =>
      rw [Fin.sum_univ_castSucc, encode_succ, ih, Nat.add_comm, Nat.mul_comm]
      rfl

namespace Network

variable {N : Network} {store : Store} {root : Nat} {leaves : List Nat}

/-- The value on the first port of an entry. -/
def first (N : Network) (m : Meaning) (σ : Nat → Bool) (entry : Nat) : Bool :=
  (N.values m σ entry).headD false

/-- All links read first ports, and all cells but the inputs can be evaluated. -/
structure Evaluable (N : Network) (store : Store) : Prop where
  port : ∀ entry ∈ N.order, ∀ c, N.cells[entry]? = some c → ∀ l ∈ c.links, l.port = 0
  cell : ∀ entry ∈ N.order, ∀ c, N.cells[entry]? = some c → c.isInput = false →
    store.EvaluableBelow store.subnets.size c

/-- The values of a network, where a leaf of a cone without ports gets one that nothing sets. -/
def atLeaves (N : Network) (m : Meaning) (σ : Nat → Bool) (leaves : List Nat) : Valuation :=
  fun entry => if entry ∈ leaves ∧ N.values m σ entry = [] then [false] else N.values m σ entry

/-- A port that is missing reads as one that nothing sets. -/
lemma read_atLeaves {m : Meaning} {σ : Nat → Bool} (l : Link) :
    l.read (N.atLeaves m σ leaves) = l.read (N.values m σ) := by
  unfold Link.read atLeaves
  split
  · rename_i h
    rw [h.2]
    cases l.port.toNat <;> rfl
  · rfl

/-- The table of a cone gives the value of the root from those of the leaves.  Only the first port of a
leaf has a table, so no cell of the cone has read another one. -/
theorem tabulateCone_value (hroot : root ∈ N.order) {t : TruthTable leaves.length}
    (h : store.tabulateCone N.cells root leaves = .ok t) (σ : Nat → Bool) :
    t.value (encode leaves.length fun k => N.first store.ports σ (leaves.getD k 0)) =
      N.first store.ports σ root := by
  have solution : ConeSolution store.ports N.cells leaves
      (encode leaves.length fun k => N.first store.ports σ (leaves.getD k 0))
      (N.atLeaves store.ports σ leaves) (· ∈ N.order) := by
    refine ⟨fun k e hk => ?_, fun e he hleaf c hc hinput => ?_, fun e he _ c hc d hd =>
      (reads_front he hc hd).1⟩
    · have hmem := List.mem_of_getElem? hk
      rw [testBit_encode (List.getElem?_eq_some_iff.1 hk).1, List.getD_eq_getElem?_getD, hk, atLeaves,
        first]
      cases hv : N.values store.ports σ e <;> simp [hmem, hv]
    · have same : c.links.map (Link.read (N.atLeaves store.ports σ leaves)) =
          c.links.map (Link.read (N.values store.ports σ)) :=
        List.map_congr_left fun l _ => read_atLeaves l
      rw [atLeaves, if_neg fun h => hleaf h.1, values_of_cell he hc hinput, Cell.portsIn, Cell.portsIn,
        same]
  rw [Store.tabulateCone_sound h (encode_lt _ _) solution hroot, atLeaves, first]
  split
  · rename_i hnone
    rw [hnone.2]
    rfl
  · rfl

/-- The entries of an evaluable network can be evaluated in its order. -/
lemma Evaluable.ranked (h : N.Evaluable store) (leaves : List Nat) :
    Store.ConeRanked store N.cells leaves (· ∈ N.order) fun e => N.order.idxOf e := by
  intro e he _
  obtain ⟨c, hc⟩ := exists_cell he
  refine ⟨c, hc, fun hinput => ⟨h.cell e he c hc hinput, fun l hl => ?_⟩⟩
  exact ⟨h.port e he c hc l hl, reads_front he hc (List.mem_map_of_mem hl)⟩

lemma idxOf_le_size (h : root ∈ N.order) : N.order.idxOf root ≤ N.cells.size := by
  have hsub : N.order ⊆ List.range N.cells.size := fun _ h => List.mem_range.2 (lt_size h)
  have hlength := (List.subperm_of_subset N.nodup_order hsub).length_le
  rw [List.length_range] at hlength
  exact (List.idxOf_lt_length_of_mem h).le.trans hlength

/-- The cone of few enough leaves that separate an entry from the inputs has a table, and for every
assignment it gives the value of the entry from those of the leaves. -/
theorem exists_table (evaluable : N.Evaluable store) (hroot : root ∈ N.order)
    (hn : leaves.length ≤ maxEvaluatedVariables)
    (separates : ∀ i c, Bypasses N.cells leaves root i → N.cells[i]? = some c → c.isInput = false) :
    ∃ t, store.tabulateCone N.cells root leaves = .ok t ∧ ∀ σ,
      t.value (encode leaves.length fun k => N.first store.ports σ (leaves.getD k 0)) =
        N.first store.ports σ root := by
  rcases Store.tabulateCone_ok_or_input (evaluable.ranked leaves) hroot (idxOf_le_size hroot) hn with
    ⟨-, t, ht⟩ | ⟨i, c, bypass, hi, hinput, -⟩
  · exact ⟨t, ht, tabulateCone_value hroot ht⟩
  · rw [separates i c bypass hi] at hinput
    cases hinput

/-- The function of a cone of few enough leaves exists if every path from the root down to an input
passes through a leaf, and for every assignment it gives the value of the root from those of the leaves.
If some path gets around the leaves, then the evaluation stops at an input that such a path leads to. -/
theorem tabulateCone_iff (evaluable : N.Evaluable store) (hroot : root ∈ N.order)
    (hn : leaves.length ≤ maxEvaluatedVariables) :
    ((∀ i c, Bypasses N.cells leaves root i → N.cells[i]? = some c → c.isInput = false) →
      ∃ t, store.tabulateCone N.cells root leaves = .ok t ∧ ∀ σ,
        t.value (∑ k : Fin leaves.length,
          (N.first store.ports σ leaves[k]).toNat * 2 ^ (k : Nat)) = N.first store.ports σ root) ∧
    ((∃ i c, Bypasses N.cells leaves root i ∧ N.cells[i]? = some c ∧ c.isInput = true) →
      ∃ i c, Bypasses N.cells leaves root i ∧ N.cells[i]? = some c ∧ c.isInput = true ∧
        store.tabulateCone N.cells root leaves = .error (.inputNotLeaf i root)) := by
  constructor
  · intro separates
    obtain ⟨t, ht, hvalue⟩ := exists_table evaluable hroot hn separates
    refine ⟨t, ht, fun σ => ?_⟩
    have hcode : (∑ k : Fin leaves.length, (N.first store.ports σ leaves[k]).toNat * 2 ^ (k : Nat)) =
        encode leaves.length fun k => N.first store.ports σ (leaves.getD k 0) := by
      rw [encode_eq_sum]
      exact Finset.sum_congr rfl fun k _ => by simp
    rw [hcode, hvalue σ]
  · rintro ⟨i, c, bypass, hi, hinput⟩
    refine (Store.tabulateCone_ok_or_input (evaluable.ranked leaves) hroot (idxOf_le_size hroot)
      hn).resolve_left fun ⟨separated, _⟩ => ?_
    rw [separated.isInput_of_bypasses bypass hi] at hinput
    cases hinput

lemma evaluable_reconvergent (store : Store) : (subnet reconvergent).Evaluable store := by
  have cells : ∀ (entry : Nat) c, reconvergent.cells[entry]? = some c →
      c = .input ∨ c = ⟨.ofGate .and, [.of 0, .of 1]⟩ ∨ c = ⟨.ofGate .xor, [.of 2, .of 0]⟩ ∨
        c = .output (.of 3) := fun entry c hc => by
    simpa [reconvergent] using Array.mem_of_getElem? hc
  constructor
  · intro entry _ c hc
    rcases cells entry c hc with rfl | rfl | rfl | rfl <;> decide
  · intro entry _ c hc hinput
    rcases cells entry c hc with rfl | rfl | rfl | rfl
    · cases hinput
    all_goals exact (Store.evaluableBelow_gate rfl).2 fun _ => List.cons_ne_nil _ _

/-- With the input as a leaf the cone has a table.  Without it the path from the root to the input does
not pass the other leaf. -/
theorem tabulateCone_iff_reconvergent :
    (∃ t, Store.empty.tabulateCone reconvergent.cells 3 [0, 2] = .ok t ∧ ∀ σ,
      t.value (∑ k : Fin 2, ((subnet reconvergent).first Store.empty.ports σ [0, 2][k]).toNat *
        2 ^ (k : Nat)) = (subnet reconvergent).first Store.empty.ports σ 3) ∧
    ∃ i c, Bypasses reconvergent.cells [2] 3 i ∧ reconvergent.cells[i]? = some c ∧
      c.isInput = true ∧
        Store.empty.tabulateCone reconvergent.cells 3 [2] = .error (.inputNotLeaf i 3) := by
  have evaluable := evaluable_reconvergent Store.empty
  have separated : Separated reconvergent.cells [0, 2] 3 := by
    refine @Separated.cell _ _ _ ⟨.ofGate .xor, [.of 2, .of 0]⟩ rfl rfl fun d hd => .leaf ?_
    have : d = 2 ∨ d = 0 := by simpa [Cell.drivers, Link.of] using hd
    rcases this with rfl | rfl <;> simp
  refine ⟨(tabulateCone_iff evaluable (by decide) (by decide)).1 fun i c bypass =>
    separated.isInput_of_bypasses bypass, ?_⟩
  exact (tabulateCone_iff evaluable (by decide) (by decide)).2
    ⟨0, .input, .step (by decide) rfl (List.mem_cons_of_mem _ (by decide)) (.refl (by decide)), rfl,
      rfl⟩

end Network

end Gatework
