import Gatework.Proofs.Cut.Leaves
import Gatework.Proofs.Cut.Separation

/-!
# Cuts of a finished network

The entries of a finished network are their own topological order, so a cut has its leaves below its
root.  The function of a cut gives the value of its root from the values of its leaves.  What has no
operands is never inside of a cone, only a leaf of one (`Subnet.InCone.above`), so only the composites
need to be such that they can be evaluated.

* `Subnet.leaf_of_mem_cuts`: where the leaves of a cut are.
* `Subnet.tabulateCone_value`: the function of a cut.
* `Subnet.exists_tabulateCone`: the function exists if the composites can be evaluated.
-/

namespace Gatework

/-- All links of a network read first ports, and each of its composites is implemented by a network with
as many inputs as the cell has links and at least one output. -/
structure Store.Mappable (store : Store) (net : Subnet) : Prop where
  port : ∀ c ∈ net.cells, ∀ l ∈ c.links, l.port = 0
  implemented : ∀ c ∈ net.cells, c.kind.symbol = .cell → ∃ i impl,
    store.implementation? c.kind.type = some i ∧ store.subnets[i]? = some impl ∧
      impl.numInputs = c.links.length ∧ 0 < impl.numOutputs

/-- All links of the cells in front of the outputs read first ports. -/
def Subnet.InnerAtFirstPorts (net : Subnet) : Prop :=
  ∀ c ∈ net.cells, c.isOutput = false → ∀ l ∈ c.links, l.port = 0

namespace Subnet

/-- The value on the first port of an entry. -/
def first (net : Subnet) (m : Meaning) (σ : Nat → Bool) (entry : Nat) : Bool :=
  (net.values m σ entry).headD false

/-- An entry that another one may read. -/
def IsBelow (net : Subnet) (d entry : Nat) : Prop := d < entry ∧ d < net.outputStart

/-- The cuts of the entries of a network. -/
def cuts (net : Subnet) (options : CutOptions) : Nat → List Cut :=
  cutsAlong options net.cells (List.range net.size)

variable {net : Subnet} {store : Store} {options : CutOptions} {entry d : Nat} {c : Cell} {cut : Cut}

lemma isBelow_of_mem_drivers (hc : net.cells[entry]? = some c) (hd : d ∈ c.drivers) :
    net.IsBelow d entry := by
  obtain ⟨_, _, hlt, hout, _⟩ := exists_driver hc hd
  exact ⟨hlt, hout⟩

/-- A cell that is no terminal stands between the inputs and the outputs. -/
lemma isTerminal_eq_false_iff (hc : net.cells[entry]? = some c) :
    c.isTerminal = false ↔ net.numInputs ≤ entry ∧ entry < net.outputStart := by
  have obeys := net.obeys hc
  rw [Cell.isTerminal, Bool.or_eq_false_iff, ← Bool.not_eq_true, ← Bool.not_eq_true,
    obeys.isInput_iff, obeys.isOutput_iff, Nat.not_lt, Nat.not_le]

/-! ## Values -/

section Values

variable {m : Meaning} {σ : Nat → Bool}

lemma first_of_lt (h : entry < net.numInputs) : net.first m σ entry = σ entry := by
  rw [first, values_of_lt h, List.headD_cons]

lemma outputValues_eq : net.outputValues m σ = net.outputs.map (net.first m σ) := rfl

/-- What a link to a first port reads. -/
lemma read_eq {l : Link} (hport : l.port = 0) :
    l.read (net.values m σ) = (net.first m σ l.entry ^^ l.inverted) := by
  rw [Link.read, hport, first]
  cases net.values m σ l.entry <;> rfl

/-- The number that encodes the values of some entries. -/
def code (net : Subnet) (m : Meaning) (σ : Nat → Bool) (leaves : List Nat) : Nat :=
  encode leaves.length fun k => net.first m σ (leaves.getD k 0)

end Values

/-! ## Leaves -/

lemma cuts_eq (hc : net.cells[entry]? = some c) :
    net.cuts options entry = c.cuts options entry (net.cuts options) := by
  rw [cuts, cutsAlong_eq List.nodup_range topological entry (List.mem_range.2 (lt_size hc)), entryCuts,
    hc]
  rfl

/-- A cut is trivial, or it has few enough leaves, which are below its root. -/
lemma leaf_of_mem_cuts (hentry : entry < net.size) (hcut : cut ∈ net.cuts options entry) :
    cut = .trivial entry ∨ cut.root = entry ∧ cut.leaves.length ≤ options.size ∧
      ∀ leaf ∈ cut.leaves, net.IsBelow leaf entry := by
  induction entry using Nat.strong_induction_on generalizing cut with
  | _ entry ih =>
      obtain ⟨c, hc⟩ := exists_cell hentry
      rw [cuts_eq hc] at hcut
      refine (Cell.eq_trivial_or_mem_candidates hcut).imp_right fun hcut => ?_
      obtain ⟨-, -, hroot, -, hsize, -⟩ := Cell.mem_candidates.1 hcut
      refine ⟨hroot, hsize, fun leaf hleaf => ?_⟩
      obtain ⟨d, hd, part, hpart, hleaf⟩ := Cell.leaf_of_mem_candidates hcut leaf hleaf
      have below := isBelow_of_mem_drivers hc hd
      rcases ih d below.1 (below.1.trans hentry) hpart with rfl | ⟨-, -, leaves⟩
      · obtain rfl := List.mem_singleton.1 hleaf
        exact below
      · exact ⟨(leaves leaf hleaf).1.trans below.1, (leaves leaf hleaf).2⟩

/-! ## The function of a cut -/

/-- An entry of the cone above some leaves: one of its cuts has no other leaves. -/
def InCone (net : Subnet) (options : CutOptions) (leaves : List Nat) (entry : Nat) : Prop :=
  entry < net.size ∧ ∃ cut ∈ net.cuts options entry, cut.leaves ⊆ leaves

variable {leaves : List Nat}

/-- What is inside of a cone has operands, and these are in the cone. -/
lemma InCone.above (h : net.InCone options leaves entry) (hleaf : entry ∉ leaves) :
    ∃ c, net.cells[entry]? = some c ∧ c.isTerminal = false ∧ c.links ≠ [] ∧
      ∀ d ∈ c.drivers, net.InCone options leaves d ∧ d < entry := by
  obtain ⟨hentry, cut, hcut, sub⟩ := h
  obtain ⟨c, hc⟩ := exists_cell hentry
  rw [cuts_eq hc] at hcut
  rcases Cell.eq_trivial_or_mem_candidates hcut with rfl | hcut
  · exact absurd (sub (List.mem_singleton_self entry)) hleaf
  · obtain ⟨hterm, -⟩ := Cell.mem_candidates.1 hcut
    have hdrivers := Cell.drivers_ne_nil_of_mem_candidates hcut
    refine ⟨c, hc, hterm, fun hlinks => hdrivers (by simp [Cell.drivers, hlinks]), fun d hd => ?_⟩
    have hlt := (isBelow_of_mem_drivers hc hd).1
    obtain ⟨part, hpart, sub'⟩ := Cell.subset_of_mem_candidates hcut d hd
    exact ⟨⟨hlt.trans hentry, part, hpart, List.Subset.trans sub' sub⟩, hlt⟩

/-- The function of a cut gives the value of the root from those of the leaves. -/
theorem tabulateCone_value (hentry : entry < net.size) {f : TruthTable cut.leaves.length}
    (hf : store.tabulateCone net.cells entry cut.leaves = .ok f) (σ : Nat → Bool) :
    f.value (net.code store.ports σ cut.leaves) = net.first store.ports σ entry :=
  Network.tabulateCone_value (N := .subnet net) (List.mem_range.2 hentry) hf σ

/-- The function of a cut of few enough leaves exists. -/
theorem exists_tabulateCone (port : net.InnerAtFirstPorts)
    (evaluable : ∀ c ∈ net.cells, c.kind.symbol = .cell →
      store.EvaluableBelow store.subnets.size c)
    (hentry : entry < net.size) (hcut : cut ∈ net.cuts options entry)
    (hn : cut.leaves.length ≤ maxEvaluatedVariables) :
    ∃ f, store.tabulateCone net.cells entry cut.leaves = .ok f := by
  have cone : Store.ConeEvaluable store net.cells cut.leaves (net.InCone options cut.leaves) id := by
    refine ⟨fun e he hleaf => ?_⟩
    obtain ⟨c, hc, hterm, hlinks, drivers⟩ := he.above hleaf
    have hmem := Array.mem_of_getElem? hc
    refine ⟨c, hc, (Bool.or_eq_false_iff.1 hterm).1, ?_, fun l hl => ?_⟩
    · cases hkind : c.kind.symbol with
      | gate g => exact (Store.evaluableBelow_gate hkind).2 fun _ => hlinks
      | cell => exact evaluable c hmem hkind
    · have hout := (Bool.or_eq_false_iff.1 hterm).2
      exact ⟨port c hmem hout l hl, drivers l.entry (List.mem_map_of_mem hl)⟩
  exact Store.exists_tabulateCone cone ⟨hentry, cut, hcut, List.Subset.refl _⟩ hentry.le hn

/-- The cuts of a network are enumerated. -/
lemma exists_enumerate (hsize : 0 < options.size) : ∃ sets,
    CutSets.enumerate options net.cells (List.range net.size) = .ok sets ∧
      ∀ e < net.size, sets.get e = .ok (net.cuts options e) := by
  obtain ⟨sets, hrun, -, holds⟩ := @CutSets.exists_enumerate options net.cells _ hsize
    List.nodup_range net.topological (fun id hid => List.mem_range.1 hid) fun id hid d hd => by
      obtain ⟨c, hc⟩ := exists_cell (List.mem_range.1 hid)
      rw [driversIn_eq hc] at hd
      exact List.mem_range.2 ((net.obeys hc).lt_of_reads d hd |>.trans (List.mem_range.1 hid))
  exact ⟨sets, hrun, fun e he => CutSets.get_eq_ok_iff.2 (holds e (List.mem_range.2 he))⟩

end Subnet

end Gatework
