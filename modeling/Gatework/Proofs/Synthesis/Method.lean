import Gatework.Proofs.Npn.Catalogue
import Gatework.Proofs.Synthesis.BiDecomposition
import Gatework.Synthesis.Method

/-!
# Methods make what they are asked for

Each method succeeds, and what it makes computes the function.  A method that looks functions up
depends on its catalogue: it has to list what it says, and the networks have cells that read first
ports only if the listed ones have.

**Main statement.** `Method.exists_synthesize`.
-/

namespace Gatework

namespace Method

variable {store : Store} {strict : Prop} {m : Method} {n : Nat} {arity : Nat}

/-- A method whose catalogue, if it has one, lists what it says. -/
def Sound (store : Store) : Method → Prop
  | sumOfProducts | biDecomposition => True
  | catalogue c => c.Sound store

/-- A method whose catalogue, if it has one, lists networks of regular cells. -/
def Regular (store : Store) (strict : Prop) : Method → Prop
  | sumOfProducts | biDecomposition => True
  | catalogue c => c.Regular store strict

lemma Sound.extends {store' : Store} (h : m.Sound store) (grows : store.Extends store') :
    m.Sound store' := by
  cases m with
  | sumOfProducts => trivial
  | biDecomposition => trivial
  | catalogue c => exact Catalogue.Sound.extends h grows

lemma Regular.extends {store' : Store} (h : m.Regular store strict) (grows : store.Extends store') :
    m.Regular store' strict := by
  cases m with
  | sumOfProducts => trivial
  | biDecomposition => trivial
  | catalogue c => exact Catalogue.Regular.extends h grows

/-- The least cost so far is the one to start with or one of the list. -/
lemma mem_of_foldl_cheapest {costs : List (Nat × Nat × Nat)} {best : Option (Nat × Nat × Nat)}
    {cost : Nat × Nat × Nat} (h : costs.foldl (fun best cost =>
        match best with
        | none => some cost
        | some b =>
            if cost.1 < b.1 || (cost.1 == b.1 && cost.2.1 < b.2.1) then some cost else some b)
        best = some cost) :
    best = some cost ∨ cost ∈ costs := by
  induction costs generalizing best with
  | nil => exact .inl h
  | cons x costs ih =>
      rcases ih h with h | h
      · dsimp only at h
        split at h
        · cases h
          exact .inr (by simp)
        · split at h
          · cases h
            exact .inr (by simp)
          · exact .inl h
      · exact .inr (by simp [h])

lemma cheapest?_lt {networks : List Nat} {i : Nat} (h : cheapest? store arity networks = some i) :
    i < networks.length := by
  obtain ⟨cost, hcost, rfl⟩ := Option.map_eq_some_iff.1 h
  have hmem := (mem_of_foldl_cheapest hcost).resolve_left (by simp)
  obtain ⟨⟨position, i⟩, hlisted, hcost⟩ := List.mem_filterMap.1 hmem
  obtain ⟨net, -, hcost⟩ := Option.bind_eq_some_iff.1 hcost
  split at hcost
  · cases hcost
    exact (List.mem_zipIdx hlisted).2.1.trans_eq (Nat.zero_add _)
  · cases hcost

/-- Each method succeeds, and what it makes computes the function. -/
theorem exists_synthesize (h : m.Sound store) (hn : n ≤ Cube.maxVariables)
    (harity : arity ≤ maxArity) (f : TruthTable n) :
    ∃ result, m.synthesize store f none arity = .ok result ∧ ∀ net, result = some net →
      net.Computes store f ∧
        ∀ strict, m.Regular store strict → ∀ cell ∈ net.cells, store.Regular strict cell := by
  cases m with
  | sumOfProducts =>
      obtain ⟨net, g, hrun, meets, hin, hout, hvalues, regular⟩ := SumOfProducts.exists_synthesize
        store store.ports hn (.inl harity) (Requirement.consistent_of f none)
      obtain rfl := meets.eq
      refine ⟨some net, by rw [synthesize, hrun]; rfl, ?_⟩
      rintro _ ⟨⟩
      exact ⟨(Subnet.Implements.of_regular hin hout hvalues regular).toComputes,
        fun _ _ cell hcell => (regular cell hcell).mono fun _ => trivial⟩
  | biDecomposition =>
      obtain ⟨net, g, hrun, meets, hin, hout, hvalues, regular⟩ := BiDecomposition.exists_synthesize
        store store.ports hn (.inl harity) (Requirement.consistent_of f none)
      obtain rfl := meets.eq
      refine ⟨some net, by rw [synthesize, hrun]; rfl, ?_⟩
      rintro _ ⟨⟩
      exact ⟨(Subnet.Implements.of_regular hin hout hvalues regular).toComputes,
        fun _ _ cell hcell => (regular cell hcell).mono fun _ => trivial⟩
  | catalogue c =>
      rw [synthesize]
      cases hfind : c.find? f with
      | none => exact ⟨none, rfl, by simp⟩
      | some finding =>
          cases hcheapest : cheapest? store arity finding.networks with
          | none => exact ⟨none, by simp only [hcheapest], by simp⟩
          | some i =>
              obtain ⟨net, hrun, computes, regular⟩ :=
                Catalogue.exists_realize h hfind (cheapest?_lt hcheapest)
              refine ⟨some net, by simp only [hcheapest, hrun]; rfl, ?_⟩
              rintro _ ⟨⟩
              exact ⟨computes, regular⟩

/-- What a method makes is stored. -/
lemma exists_resynthesize (h : m.Sound store) (hn : n ≤ Cube.maxVariables)
    (harity : arity ≤ maxArity) (f : TruthTable n) :
    ∃ store' result, m.resynthesizer.resynthesize store f none arity = .ok (store', result) ∧
      store.Extends store' ∧ ∀ net ∈ result, net.Computes store' f ∧
        ∀ strict, m.Regular store strict → ∀ cell ∈ net.cells, store'.Regular strict cell := by
  obtain ⟨result, hrun, made⟩ := exists_synthesize h hn harity f
  simp only [resynthesizer, hrun, ok_bind]
  cases result with
  | none => exact ⟨store, none, rfl, .refl store, by simp⟩
  | some net =>
      have grows := Store.Extends.addSubnet store net
      refine ⟨_, some net, rfl, grows, fun net' hnet => ?_⟩
      cases hnet
      obtain ⟨computes, regular⟩ := made net rfl
      exact ⟨computes.extends grows, fun strict h cell hcell =>
        grows.regular (regular strict h cell hcell)⟩

end Method

end Gatework
