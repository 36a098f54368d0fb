import Gatework.Proofs.Evaluation
import Gatework.Proofs.Types

/-!
# Networks of gates

A network whose cells are all built-in gates, each with as many operands as it takes, means the same
over every store: every store has the types for it (`Subnet.OfGates.hosts`), and no table depends on
what the composites of the store compute (`Subnet.tabulate_eq_of_gates`).

Such a network can be evaluated as soon as it is evaluated once (`Subnet.OfGates.evaluable`): the only
thing left to go wrong is a link that reads a second port.
-/

namespace Gatework

/-- A kind of cells is a built-in gate that takes this many operands. -/
def CellKind.IsGate (kind : CellKind) (operands : Nat) : Prop :=
  ∃ g, kind = .ofGate g ∧ (CellType.ofGate g).accepts operands = true

/-- All cells of a network are gates with as many operands as they take. -/
def Subnet.OfGates (net : Subnet) : Prop := ∀ c ∈ net.cells, c.kind.IsGate c.links.length

lemma Subnet.ofGates_of_toList {net : Subnet}
    (h : ∀ c ∈ net.cells.toList, c.kind.IsGate c.links.length) : net.OfGates :=
  fun c hc => h c (Array.mem_toList_iff.2 hc)

lemma CellType.accepts_ofGate_iff {g : Gate} {operands : Nat} :
    (CellType.ofGate g).accepts operands = true ↔ g.arity.1 ≤ operands ∧ operands ≤ g.arity.2 := by
  rw [CellType.accepts, Bool.and_eq_true, decide_eq_true_iff, decide_eq_true_iff]
  rfl

section Evaluation

variable {composite composite' : CompositeMeaning} {width : Nat} {net : Subnet}

/-- Only the composites of a network depend on what composites mean. -/
lemma Subnet.simulate_congr (h : ∀ c ∈ net.cells, ∀ operands,
      c.evaluate composite width operands = c.evaluate composite' width operands)
    (stimulus : List Signal) :
    net.simulate composite width stimulus = net.simulate composite' width stimulus := by
  have cells : ∀ c ∈ net.cells.toList, ∀ operands,
      c.evaluate composite width operands = c.evaluate composite' width operands :=
    fun c hc => h c (Array.mem_toList_iff.1 hc)
  unfold simulate
  generalize net.cells.toList = cs at cells
  generalize (#[] : Array Ports) = values
  split
  · induction cs generalizing values with
    | nil => rfl
    | cons c cs ih =>
        have next : evaluateNext composite width stimulus.toArray values c =
            evaluateNext composite' width stimulus.toArray values c := by
          unfold evaluateNext
          simp only [cells c (List.mem_cons_self ..)]
        rw [List.foldlM_cons, List.foldlM_cons, next]
        exact congrArg _ (funext fun values => ih (fun d hd => cells d (List.mem_cons_of_mem _ hd)) values)
  · rfl

lemma Cell.evaluate_eq_of_gate {c : Cell} {g : Gate} (hkind : c.kind.symbol = .gate g)
    (operands : List Signal) :
    c.evaluate composite width operands = c.evaluate composite' width operands := by
  simp only [Cell.evaluate, hkind]

/-- Where every entry has one port, a link that can be read reads it. -/
lemma port_eq_zero_of_readEntry {values : Array Ports} {l : Link} {s : Signal}
    (single : ∀ ports ∈ values, ports.length = 1) (h : readEntry values l = .ok s) : l.port = 0 := by
  unfold readEntry at h
  split at h
  · rename_i ports hports
    unfold Ports.read at h
    split at h
    · rename_i t ht
      have hlt := (List.getElem?_eq_some_iff.1 ht).1
      rw [single ports (Array.mem_of_getElem? hports), Nat.lt_one_iff] at hlt
      exact UInt16.toNat_inj.1 hlt
    · cases h
  · cases h

end Evaluation

namespace Subnet

variable {net : Subnet}

/-- Where cells have the kind of gates, tables do not depend on the store. -/
lemma tabulate_eq_of_gates (gates : ∀ c ∈ net.cells, ∃ g, c.kind.symbol = .gate g) (store other : Store) :
    store.tabulate net = other.tabulate net := by
  have same : ∀ width stimulus, net.simulate (store.meaning width) width stimulus =
      net.simulate (other.meaning width) width stimulus := by
    refine fun width stimulus => Subnet.simulate_congr (fun c hc operands => ?_) stimulus
    obtain ⟨g, hg⟩ := gates c hc
    exact Cell.evaluate_eq_of_gate hg operands
  unfold Store.tabulate Store.simulate
  simp only [same]

namespace OfGates

variable (h : net.OfGates)
include h

lemma kinds : ∀ c ∈ net.cells, ∃ g, c.kind = .ofGate g := fun c hc => by
  obtain ⟨g, hg, -⟩ := h c hc
  exact ⟨g, hg⟩

lemma symbols : ∀ c ∈ net.cells, ∃ g, c.kind.symbol = .gate g := fun c hc =>
  (h.kinds c hc).imp fun _ => congrArg CellKind.symbol

lemma type_lt : ∀ c ∈ net.cells, c.kind.type < Gate.all.length := fun c hc => by
  obtain ⟨g, hg⟩ := h.kinds c hc
  rw [hg]
  exact g.position_lt

/-- Every store has the types for a network of gates. -/
lemma hosts {store : Store} (gates : Store.empty.Extends store) : store.Hosts net := by
  intro c hc
  obtain ⟨g, hg, arity⟩ := h c hc
  obtain ⟨kind, links⟩ := c
  cases hg
  exact ⟨_, gates.admits_gate g arity⟩

/-- A gate in front of which links of the right number stand has a value, if it is no input. -/
lemma evaluableBelow (store : Store) (limit : Nat) : ∀ c ∈ net.cells, store.EvaluableBelow limit c := by
  intro c hc
  obtain ⟨g, hg, arity⟩ := h c hc
  have least := (CellType.accepts_ofGate_iff.1 arity).1
  refine (Store.evaluableBelow_gate (congrArg CellKind.symbol hg)).2 fun unary hnil => ?_
  rw [hnil] at least
  cases g <;> revert unary least <;> decide

/-- An entry of a network of gates leaves one more port behind it, and it has read first ports. -/
lemma reads_of_next {store : Store} {width : Nat} {stimulus : Array Signal}
    {before next : Array Ports} {c : Cell} (hc : c ∈ net.cells)
    (single : ∀ ports ∈ before, ports.length = 1)
    (run : evaluateNext (store.meaning width) width stimulus before c = .ok next) :
    (∀ ports ∈ next, ports.length = 1) ∧ (c.isInput = false → ∀ l ∈ c.links, l.port = 0) := by
  unfold evaluateNext at run
  split at run
  · rename_i hinput
    split at run
    · cases run
      refine ⟨fun ports hmem => ?_, fun h => absurd hinput (Bool.eq_false_iff.1 h)⟩
      rcases Array.mem_push.1 hmem with hmem | rfl
      · exact single ports hmem
      · rfl
    · cases run
  · obtain ⟨operands, hoperands, run⟩ := bind_eq_ok_iff.1 run
    obtain ⟨ports, hcell, run⟩ := bind_eq_ok_iff.1 run
    cases run
    refine ⟨fun ports' hmem => ?_, fun _ l hl => ?_⟩
    · rcases Array.mem_push.1 hmem with hmem | rfl
      · exact single ports' hmem
      · obtain ⟨g, hg⟩ := h.kinds c hc
        simp only [Cell.evaluate, hg, CellKind.symbol_ofGate] at hcell
        obtain ⟨s, -, rfl⟩ := map_eq_ok_iff.1 hcell
        rfl
    · obtain ⟨s, -, hs⟩ := exists_of_forall₂_right (forall₂_of_mapM_eq_ok hoperands).flip l hl
      exact port_eq_zero_of_readEntry single hs

/-- A network of gates that was evaluated reads first ports only, so it can be evaluated anywhere. -/
theorem evaluable {store : Store} {tables : List (TruthTable net.numInputs)}
    (run : store.tabulate net = .ok tables) (other : Store) : other.Evaluable net := by
  unfold Store.tabulate at run
  dsimp only at run
  split at run
  · cases run
  obtain ⟨values, hvalues, -⟩ := bind_eq_ok_iff.1 run
  rw [Store.simulate_assignments] at hvalues
  unfold Subnet.simulate at hvalues
  split at hvalues
  swap
  · cases hvalues
  have reads : (∀ ports ∈ values, ports.length = 1) ∧
      ∀ c ∈ net.cells.toList, c.isInput = false → ∀ l ∈ c.links, l.port = 0 := by
    refine foldlM_invariant_along (fun done values => (∀ ports ∈ values, ports.length = 1) ∧
      ∀ c ∈ done, c.isInput = false → ∀ l ∈ c.links, l.port = 0) ⟨by simp, by simp⟩ ?_ hvalues
    rintro done c rest before next hcells ⟨single, hdone⟩ hnext
    have hc : c ∈ net.cells := Array.mem_toList_iff.1 (by simp [hcells])
    obtain ⟨single', hports⟩ := h.reads_of_next hc single hnext
    refine ⟨single', fun d hd => ?_⟩
    rcases List.mem_append.1 hd with hd | hd
    · exact hdone d hd
    · exact List.mem_singleton.1 hd ▸ hports
  refine Store.evaluable_of_port_zero (fun c hc _ => h.evaluableBelow _ _ c hc) fun c hc => ?_
  by_cases hinput : c.isInput = true
  · obtain ⟨g, hg, arity⟩ := h c hc
    obtain rfl : g = .input := by simpa [Cell.isInput, hg] using hinput
    have hnil : c.links = [] :=
      List.length_eq_zero_iff.1 (Nat.le_zero.1 (CellType.accepts_ofGate_iff.1 arity).2)
    simp [hnil]
  · exact reads.2 c (Array.mem_toList_iff.2 hc) (Bool.eq_false_iff.2 hinput)

end OfGates

end Subnet

end Gatework
