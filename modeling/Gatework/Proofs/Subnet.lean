import Gatework.Proofs.Values

/-!
# The order and the values of a subnet

The rules that make a list of cells a subnet, read as facts about its entries, and the values that
follow from them: the entries are their own topological order, so an assignment of the inputs
determines the value of every entry.

* `violation?_eq_none_iff`: the check for violations decides the rules.
* `Subnet.solves` and `Subnet.eq_values`: there is one valuation for each assignment.
-/

namespace Gatework

/-- A bounded search comes to nothing exactly if nothing is found at any element. -/
lemma findSome?_zipIdx_eq_none_iff {α β : Type} {xs : Array α} {f : α × Nat → Option β} :
    xs.toList.zipIdx.findSome? f = none ↔ ∀ i x, xs[i]? = some x → f (x, i) = none := by
  rw [List.findSome?_eq_none_iff]
  constructor
  · intro h i x hx
    exact h (x, i) (List.mem_zipIdx_iff_getElem?.2 (by simpa using hx))
  · rintro h ⟨x, i⟩ hx
    exact h i x (by simpa using List.mem_zipIdx_iff_getElem?.1 hx)

namespace Subnet

variable {cells : Array Cell} {inputs outputs start i : Nat} {c : Cell}

/-- A cell obeys the rules: it is an input or output exactly if it stands where inputs and outputs
stand, and it reads entries in front of it that are not outputs. -/
structure Obeys (cells : Array Cell) (inputs start i : Nat) (c : Cell) : Prop where
  isInput_iff : c.isInput = true ↔ i < inputs
  isOutput_iff : c.isOutput = true ↔ start ≤ i
  lt_of_reads : ∀ d ∈ c.drivers, d < i
  isDriver_of_reads : ∀ d ∈ c.drivers, ∀ e, cells[d]? = some e → e.isOutput = false

lemma cellViolation?_eq_none_iff :
    cellViolation? cells inputs start i c = none ↔ Obeys cells inputs start i c := by
  have terminal : ∀ {p : Prop} [Decidable p] {flag : Bool},
      (decide p != flag) = false ↔ (flag = true ↔ p) := by
    intro p _ flag
    cases flag <;> simp
  constructor
  · intro h
    unfold cellViolation? at h
    split at h
    · cases h
    · rename_i hin
      split at h
      · cases h
      · rename_i hout
        refine ⟨terminal.1 (by simpa using hin), terminal.1 (by simpa using hout), ?_, ?_⟩
        · intro d hd
          have := List.findSome?_eq_none_iff.1 h d hd
          by_contra hlt
          simp [Nat.not_lt.1 hlt] at this
        · intro d hd e he
          have := List.findSome?_eq_none_iff.1 h d hd
          by_contra hout
          split at this
          · cases this
          · simp [he, hout] at this
  · intro h
    rw [cellViolation?, if_neg (by simpa using terminal.2 h.isInput_iff),
      if_neg (by simpa using terminal.2 h.isOutput_iff)]
    refine List.findSome?_eq_none_iff.2 fun d hd => ?_
    rw [if_neg (Nat.not_le.2 (h.lt_of_reads d hd))]
    cases he : cells[d]? with
    | none => rfl
    | some e => simp [h.isDriver_of_reads d hd e he]

/-- A list of cells breaks no rule exactly if its terminals fit and all cells obey. -/
theorem violation?_eq_none_iff :
    violation? cells inputs outputs = none ↔ inputs + outputs ≤ cells.size ∧
      ∀ i c, cells[i]? = some c → Obeys cells inputs (cells.size - outputs) i c := by
  unfold violation?
  split
  · simp; omega
  · rename_i h
    rw [findSome?_zipIdx_eq_none_iff]
    simp only [cellViolation?_eq_none_iff]
    exact ⟨fun h' => ⟨Nat.not_lt.1 h, h'⟩, And.right⟩

/-- The network that is made of cells has these cells and as many terminals as asked for. -/
lemma ofCells_eq_ok_iff {net : Subnet} : ofCells cells inputs outputs = .ok net ↔
    net.cells = cells ∧ net.numInputs = inputs ∧ net.numOutputs = outputs := by
  constructor
  · intro h
    unfold ofCells at h
    split at h
    · cases h
      exact ⟨rfl, rfl, rfl⟩
    · cases h
  · rintro ⟨rfl, rfl, rfl⟩
    unfold ofCells
    split
    · rfl
    · rename_i v hv
      rw [net.valid] at hv
      cases hv

variable (net : Subnet)

lemma numInputs_add_numOutputs_le : net.numInputs + net.numOutputs ≤ net.size :=
  (violation?_eq_none_iff.1 net.valid).1

lemma obeys {i : Nat} {c : Cell} (h : net.cells[i]? = some c) :
    Obeys net.cells net.numInputs net.outputStart i c :=
  (violation?_eq_none_iff.1 net.valid).2 i c h

lemma outputStart_add_numOutputs : net.outputStart + net.numOutputs = net.size := by
  have := net.numInputs_add_numOutputs_le
  rw [outputStart]
  omega

lemma numInputs_le_outputStart : net.numInputs ≤ net.outputStart := by
  have := net.numInputs_add_numOutputs_le
  rw [outputStart]
  omega

/-! ## Entries -/

section Entries

variable {net} {i d : Nat} {c : Cell}

lemma exists_cell (h : i < net.size) : ∃ c, net.cells[i]? = some c :=
  ⟨_, Array.getElem?_eq_getElem h⟩

lemma lt_size (hc : net.cells[i]? = some c) : i < net.size :=
  (Array.getElem?_eq_some_iff.1 hc).1

/-- The first entries are the inputs. -/
lemma kind_of_lt (hc : net.cells[i]? = some c) (hi : i < net.numInputs) : c.kind.symbol = .gate .input :=
  beq_iff_eq.1 ((net.obeys hc).isInput_iff.2 hi)

/-- What is no input comes behind the inputs. -/
lemma numInputs_le (hc : net.cells[i]? = some c) (hinput : c.isInput = false) : net.numInputs ≤ i :=
  Nat.not_lt.1 fun hlt => Bool.eq_false_iff.1 hinput ((net.obeys hc).isInput_iff.2 hlt)

/-- An entry in front of the outputs, or the first of these. -/
lemma exists_cell_of_le (h : i ≤ net.outputStart) (hout : i < net.outputStart ∨ 0 < net.numOutputs) :
    ∃ c, net.cells[i]? = some c := by
  have := net.outputStart_add_numOutputs
  exact exists_cell (by omega)

/-- What an entry reads is in front of it and no output. -/
lemma exists_driver (hc : net.cells[i]? = some c) (hd : d ∈ c.drivers) :
    ∃ e, net.cells[d]? = some e ∧ d < i ∧ d < net.outputStart ∧ e.isOutput = false := by
  have obeys := net.obeys hc
  have hlt := obeys.lt_of_reads d hd
  obtain ⟨e, he⟩ := exists_cell (hlt.trans (lt_size hc))
  have hout := obeys.isDriver_of_reads d hd e he
  refine ⟨e, he, hlt, Nat.not_le.1 fun hle => ?_, hout⟩
  rw [(net.obeys he).isOutput_iff.2 hle] at hout
  cases hout

end Entries

/-- The outputs are the last entries. -/
lemma filter_outputs : (List.range net.size).filter (net.outputStart ≤ ·) = net.outputs := by
  have front : (List.range net.outputStart).filter (net.outputStart ≤ ·) = [] :=
    List.filter_eq_nil_iff.2 fun i hi => by simpa using List.mem_range.1 hi
  have behind : ((List.range net.numOutputs).map (net.outputStart + ·)).filter
      (net.outputStart ≤ ·) = (List.range net.numOutputs).map (net.outputStart + ·) := by
    refine List.filter_eq_self.2 fun i hi => ?_
    obtain ⟨j, -, rfl⟩ := List.mem_map.1 hi
    exact decide_eq_true (Nat.le_add_right _ _)
  rw [← net.outputStart_add_numOutputs, List.range_add, List.filter_append, front, behind, outputs,
    List.range'_eq_map_range]
  rfl

/-! ## Values -/

/-- The values that an assignment gives to the inputs. -/
def given (σ : Nat → Bool) (id : Nat) : Option Bool :=
  if id < net.numInputs then some (σ id) else none

/-- The values of the entries for an assignment of the inputs. -/
def values (m : Meaning) (σ : Nat → Bool) : Valuation :=
  valuesAlong m net.cells (net.given σ) (List.range net.size)

/-- The values of the outputs for an assignment of the inputs. -/
def outputValues (m : Meaning) (σ : Nat → Bool) : List Bool :=
  net.outputs.map fun o => (net.values m σ o).headD false

variable {net} {m : Meaning} {σ : Nat → Bool} {w : Valuation}

lemma topological : Topological (driversIn net.cells) (List.range net.size) where
  apart x _ hd := by
    cases hc : net.cells[x]? with
    | none => simp [driversIn, hc] at hd
    | some c => exact lt_irrefl x ((net.obeys hc).lt_of_reads x (driversIn_eq hc ▸ hd))
  ahead := by
    refine List.pairwise_lt_range.imp fun {x y} hxy hd => ?_
    cases hc : net.cells[x]? with
    | none => simp [driversIn, hc] at hd
    | some c => exact lt_asymm hxy ((net.obeys hc).lt_of_reads y (driversIn_eq hc ▸ hd))

/-- The values obey the cells. -/
theorem solves : Solves m net.cells (net.given σ) (net.values m σ) (· < net.size) :=
  (solves_valuesAlong List.nodup_range topological).mono fun _ hi => List.mem_range.2 hi

/-- A valuation that obeys the cells gives every entry its value. -/
theorem eq_values (h : Solves m net.cells (net.given σ) w (· < net.size)) {i : Nat}
    (hi : i < net.size) : w i = net.values m σ i := by
  refine h.agree solves (fun i hi => ?_) id ?_ i hi
  · simpa [Subnet.size] using hi
  · intro i hi _ c hc d hd
    have hlt := (net.obeys hc).lt_of_reads d hd
    exact ⟨hlt.trans hi, hlt⟩

/-- The values depend on what is given to the inputs only. -/
lemma values_congr {τ : Nat → Bool} (h : ∀ v < net.numInputs, σ v = τ v) :
    net.values m σ = net.values m τ := by
  have hgiven : net.given σ = net.given τ := by
    funext id
    rw [given, given]
    split
    · rename_i hid
      rw [h id hid]
    · rfl
  rw [values, values, hgiven]

lemma outputValues_congr {τ : Nat → Bool} (h : ∀ v < net.numInputs, σ v = τ v) :
    net.outputValues m σ = net.outputValues m τ := by
  rw [outputValues, outputValues, values_congr h]

lemma values_of_lt {i : Nat} (hi : i < net.numInputs) : net.values m σ i = [σ i] := by
  have hsize := net.numInputs_add_numOutputs_le
  obtain ⟨c, hc⟩ : ∃ c, net.cells[i]? = some c := exists_cell (by omega)
  rw [solves i (by omega) c hc, entryPorts, given, if_pos hi]

lemma values_of_le {i : Nat} (hi : net.numInputs ≤ i) {c : Cell} (hc : net.cells[i]? = some c) :
    net.values m σ i = c.portsIn m (net.values m σ) := by
  have hlt : i < net.size := (Array.getElem?_eq_some_iff.1 hc).1
  rw [solves i hlt c hc, entryPorts, given, if_neg (Nat.not_lt.2 hi)]

/-- An output has the value of the link that it shows. -/
lemma values_of_output {i : Nat} {c : Cell} (hc : net.cells[i]? = some c) (hout : c.isOutput = true)
    {l : Link} {rest : List Link} (hlinks : c.links = l :: rest) :
    net.values m σ i = [l.read (net.values m σ)] := by
  have hge := net.numInputs_le_outputStart.trans ((net.obeys hc).isOutput_iff.1 hout)
  have hkind : c.kind.symbol = .gate .output := beq_iff_eq.1 hout
  rw [values_of_le hge hc, Cell.portsIn, Cell.ports, hkind, hlinks]
  rfl

end Subnet

end Gatework
