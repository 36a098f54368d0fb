import Gatework.Proofs.Builder.Meaning

/-!
# Finished networks and networks under construction

Cuts and cones are computed on a list of cells and a topological order of its entries, no matter
whether the network is finished.  `Network` stands for both cases: a subnet, whose entries are their
own order, or a well-formed builder with the order of its living entries.

* `Network.induction_order`: what holds of an entry if it holds of all that it reads holds of all
  entries.
* `Network.values_of_cell`: every entry that is no input has the value of its cell.
-/

namespace Gatework

/-- A finished network, or one under construction. -/
inductive Network
  | subnet (net : Subnet)
  | builder (b : Builder) (wellFormed : b.WellFormed)

namespace Network

/-- The cells by entry. -/
def cells : Network → Array Cell
  | subnet net => net.cells
  | builder b _ => b.cells

/-- The entries in topological order, of a builder the living ones. -/
def order : Network → List Nat
  | subnet net => List.range net.size
  | builder b _ => b.order

/-- The values of the entries for an assignment, which gives a value to every input number. -/
def values : Network → Meaning → (Nat → Bool) → Valuation
  | subnet net => net.values
  | builder b _ => b.values

/-- The constants among the entries, by the symbols of their cells. -/
def constants (N : Network) : List Nat :=
  N.order.filter fun entry => (N.cells[entry]?).any Cell.isConst

variable {N : Network} {entry d : Nat} {c : Cell}

lemma lt_size (h : entry ∈ N.order) : entry < N.cells.size := by
  cases N with
  | subnet net => exact List.mem_range.1 h
  | builder b wf => exact wf.lt_size h

lemma exists_cell (h : entry ∈ N.order) : ∃ c, N.cells[entry]? = some c :=
  ⟨_, Array.getElem?_eq_getElem (lt_size h)⟩

lemma nodup_order (N : Network) : N.order.Nodup := by
  cases N with
  | subnet net => exact List.nodup_range
  | builder b wf => exact wf.layout.arranged_order.linked.nodup

lemma topological_order (N : Network) : Topological (driversIn N.cells) N.order := by
  cases N with
  | subnet net => exact Subnet.topological
  | builder b wf => exact wf.layout.arranged_order.topological

/-- What an entry of the order reads is in the order, and in front of it. -/
lemma reads_front (h : entry ∈ N.order) (hc : N.cells[entry]? = some c) (hd : d ∈ c.drivers) :
    d ∈ N.order ∧ N.order.idxOf d < N.order.idxOf entry := by
  have hreads : d ∈ driversIn N.cells entry := by rwa [driversIn_eq hc]
  have hmem : d ∈ N.order := by
    cases N with
    | subnet net =>
        exact List.mem_range.2 (((net.obeys hc).lt_of_reads d hd).trans (List.mem_range.1 h))
    | builder b wf =>
        have harr := wf.layout.arranged_order
        exact harr.mem_of_reads entry h d hreads
  exact ⟨hmem, N.topological_order.idxOf_lt h hreads hmem N.nodup_order⟩

/-- No entry of the order reads an output. -/
lemma isOutput_of_reads (h : entry ∈ N.order) (hc : N.cells[entry]? = some c) (hd : d ∈ c.drivers)
    {e : Cell} (he : N.cells[d]? = some e) : e.isOutput = false := by
  have hreads : d ∈ driversIn N.cells entry := by rwa [driversIn_eq hc]
  cases N with
  | subnet net => exact (net.obeys hc).isDriver_of_reads d hd e he
  | builder b wf =>
      have harr := wf.layout.arranged_order
      obtain ⟨e', he', hout⟩ := harr.isDriver_of_reads entry h d hreads
      cases he.symm.trans he'
      exact hout

/-- What holds of an entry if it holds of all that it reads holds of all entries. -/
lemma induction_order (N : Network) {P : Nat → Prop}
    (step : ∀ entry ∈ N.order, ∀ c, N.cells[entry]? = some c →
      (∀ d ∈ c.drivers, d ∈ N.order ∧ N.order.idxOf d < N.order.idxOf entry ∧ P d) → P entry) :
    ∀ entry ∈ N.order, P entry := by
  intro entry hentry
  induction hrank : N.order.idxOf entry using Nat.strong_induction_on generalizing entry with
  | _ rank ih =>
      obtain ⟨c, hc⟩ := exists_cell hentry
      refine step entry hentry c hc fun d hd => ?_
      obtain ⟨hmem, hlt⟩ := reads_front hentry hc hd
      exact ⟨hmem, hlt, ih _ (hrank ▸ hlt) d hmem rfl⟩

/-- Every entry that is no input has the value of its cell. -/
lemma values_of_cell {m : Meaning} {σ : Nat → Bool} (h : entry ∈ N.order)
    (hc : N.cells[entry]? = some c) (hinput : c.isInput = false) :
    N.values m σ entry = c.portsIn m (N.values m σ) := by
  cases N with
  | subnet net =>
      exact Subnet.values_of_le (Subnet.numInputs_le hc hinput) hc
  | builder b wf =>
      rcases wf.layout.mem_order.1 h with hin | hrest
      · cases hc.symm.trans (wf.layout.isInput entry hin)
        cases hinput
      · exact wf.layout.values_of_cell (List.mem_append.2 hrest) hc

/-- The exclusive or of a bit and its conjunction with another one: one entry reads an input
directly and through another entry. -/
def reconvergent : Subnet where
  cells := #[.input, .input, ⟨.ofGate .and, [.of 0, .of 1]⟩, ⟨.ofGate .xor, [.of 2, .of 0]⟩,
    .output (.of 3)]
  numInputs := 2
  numOutputs := 1
  valid := by decide

end Network

end Gatework
