import Gatework.Proofs.Builder.Growth
import Gatework.Proofs.Meaning

/-!
# What a builder computes

The values of the living entries for an assignment of the inputs.  An assignment gives a value to
every input number; input number `i` is the one at position `i` of the inputs.

* `Layout.solves` and `Layout.eq_values`: a part of a builder that reads only itself has one solution.
* `Grown.values_eq`: more inner cells do not change the values of the entries that were there.
* `Shows`: a link has the value of a function of the assignment, in this and every grown builder.
-/

namespace Gatework

namespace Builder

/-- The values that an assignment gives to the inputs. -/
def given (b : Builder) (σ : Nat → Bool) (id : Nat) : Option Bool :=
  if id ∈ b.inputs then some (σ (b.inputs.idxOf id)) else none

/-- The values of the entries for an assignment of the inputs. -/
def values (b : Builder) (m : Meaning) (σ : Nat → Bool) : Valuation :=
  valuesAlong m b.cells (b.given σ) b.order

/-- The values of the outputs for an assignment of the inputs. -/
def outputValues (b : Builder) (m : Meaning) (σ : Nat → Bool) : List Bool :=
  b.outputs.map fun o => (b.values m σ o).headD false

lemma given_congr {b b' : Builder} (h : b'.inputs = b.inputs) : b'.given = b.given := by
  funext σ id
  rw [given, given, h]

namespace Layout

variable {b : Builder} {ins inn outs : List Nat} {m : Meaning} {σ : Nat → Bool} {v : Valuation}

/-- The values obey the cells. -/
lemma solves (h : Layout b ins inn outs) :
    Solves m b.cells (b.given σ) (b.values m σ) (· ∈ b.order) := by
  have harr := h.arranged_order
  exact solves_valuesAlong harr.linked.nodup harr.topological

/-- A valuation that obeys the cells of entries that read only each other gives them their values. -/
lemma eq_values (h : Layout b ins inn outs) {S : Nat → Prop} (alive : ∀ id, S id → id ∈ b.order)
    (closed : ∀ id, S id → ∀ d ∈ b.driversOf id, S d)
    (hv : Solves m b.cells (b.given σ) v S) : ∀ id, S id → v id = b.values m σ id := by
  have harr := h.arranged_order
  refine hv.agree (h.solves.mono alive) (fun id hid => ?_) (fun id => b.order.idxOf id) ?_
  · simpa [Builder.size] using harr.lt_size (alive id hid)
  · intro id hid _ c hc d hd
    have hreads : d ∈ b.driversOf id := by rwa [driversOf, hc]
    have hS := closed id hid d hreads
    exact ⟨hS, harr.topological.idxOf_lt (alive id hid) hreads (alive d hS) harr.linked.nodup⟩

lemma mem_order (h : Layout b ins inn outs) {id : Nat} :
    id ∈ b.order ↔ id ∈ ins ∨ id ∈ inn ∨ id ∈ outs := by
  rw [h.order_eq]
  simp

/-- An input has the value that the assignment gives to it. -/
lemma values_of_input (h : Layout b ins inn outs) {id : Nat} (hid : id ∈ ins) :
    b.values m σ id = [σ (ins.idxOf id)] := by
  rw [h.solves id (h.mem_order.2 (.inl hid)) _ (h.isInput id hid), entryPorts, given, h.inputs_eq,
    if_pos hid]

/-- Any other entry has the value of its cell. -/
lemma values_of_cell (h : Layout b ins inn outs) {id : Nat} {c : Cell} (hid : id ∈ inn ++ outs)
    (hc : b.cells[id]? = some c) : b.values m σ id = c.portsIn m (b.values m σ) := by
  have linked := h.arranged.linked
  rw [List.append_assoc] at linked
  have hinput : id ∉ ins := fun hin => linked.apart hin hid
  have hmem := h.mem_order.2 (.inr (List.mem_append.1 hid))
  rw [h.solves id hmem c hc, entryPorts, given, h.inputs_eq, if_neg hinput]

end Layout

/-- More entries do not change the values of the entries that were there. -/
theorem WellFormed.values_eq {b b' : Builder} {m : Meaning} {σ : Nat → Bool} (h : WellFormed b)
    (h' : WellFormed b') (inputs : b.inputs <+: b'.inputs) (alive : ∀ id ∈ b.order, id ∈ b'.order)
    (cells : ∀ id ∈ b.order, b'.cells[id]? = b.cells[id]?) {id : Nat} (hid : id ∈ b.order) :
    b'.values m σ id = b.values m σ id := by
  have layout := h.layout
  have harr := layout.arranged_order
  refine layout.eq_values (S := (· ∈ b.order)) (fun _ h => h) (fun id hid => harr.mem_of_reads id hid)
    ?_ id hid
  refine (h'.layout.solves.mono alive).congr (fun id hid => (cells id hid).symm) fun id hid => ?_
  -- an entry is an input of both builders or of none
  obtain ⟨more, hmore⟩ := inputs
  rw [given, given, ← hmore]
  by_cases hin : id ∈ b.inputs
  · rw [if_pos hin, if_pos (by simp [hin]), List.idxOf_append_of_mem hin]
  · rw [if_neg hin, if_neg]
    intro hin'
    have hcell := h'.layout.isInput id (hmore ▸ hin')
    rw [cells id hid] at hcell
    rcases layout.mem_order.1 hid with hid | hid | hid
    · exact hin hid
    · obtain ⟨c, hc, hterm⟩ := layout.isInner id hid
      rw [hcell] at hc
      cases hc
      cases hterm
    · obtain ⟨l, hl⟩ := layout.isOutput id hid
      rw [hcell] at hl
      cases hl

lemma Grown.mem_order {b b' : Builder} (h : WellFormed b) (grown : Grown b b') {id : Nat}
    (hid : id ∈ b.order) : id ∈ b'.order := by
  rw [grown.wellFormed.layout.mem_order, grown.inputs, grown.outputs]
  exact (h.layout.mem_order.1 hid).imp_right (Or.imp_left fun h => grown.inner.subset h)

lemma WellFormed.lt_size {b : Builder} (h : WellFormed b) {id : Nat} (hid : id ∈ b.order) :
    id < b.size := by
  rw [h.layout.order_eq] at hid
  exact h.layout.arranged.lt_size hid

/-- More inner cells do not change the values of the entries that were there. -/
lemma Grown.values_eq {b b' : Builder} {m : Meaning} {σ : Nat → Bool} (h : WellFormed b)
    (grown : Grown b b') {id : Nat} (hid : id ∈ b.order) :
    b'.values m σ id = b.values m σ id :=
  h.values_eq grown.wellFormed (grown.inputs ▸ List.prefix_refl _) (fun _ => grown.mem_order h)
    (fun id hid => grown.cells id (h.lt_size hid)) hid

lemma Grown.outputValues_eq {b b' : Builder} {m : Meaning} (h : WellFormed b) (grown : Grown b b')
    (σ : Nat → Bool) : b'.outputValues m σ = b.outputValues m σ := by
  rw [outputValues, outputValues, grown.outputs]
  refine List.map_congr_left fun o ho => ?_
  rw [grown.values_eq h (h.layout.mem_order.2 (.inr (.inr ho)))]

/-- A link reads a first port and has the value of a function of the assignment. -/
structure Shows (b : Builder) (m : Meaning) (l : Link) (f : (Nat → Bool) → Bool) : Prop where
  readable : b.Readable l
  port : l.port = 0
  read : ∀ σ, l.read (b.values m σ) = f σ

lemma WellFormed.mem_order {b : Builder} (h : WellFormed b) {l : Link} (hl : b.Readable l) :
    l.entry ∈ b.order := by
  rw [h.layout.mem_order]
  rcases List.mem_append.1 hl with hmem | hmem <;> simp [hmem]

namespace Shows

variable {b b' : Builder} {m : Meaning} {l : Link} {f : (Nat → Bool) → Bool}

lemma grown (h : b.Shows m l f) (wf : WellFormed b) (grown : Grown b b') : b'.Shows m l f := by
  refine ⟨h.readable.grown grown, h.port, fun σ => ?_⟩
  rw [← h.read σ, Link.read, Link.read, grown.values_eq wf (wf.mem_order h.readable)]

lemma congr (h : b.Shows m l f) {g : (Nat → Bool) → Bool} (same : ∀ σ, f σ = g σ) :
    b.Shows m l g :=
  ⟨h.readable, h.port, fun σ => (h.read σ).trans (same σ)⟩

lemma invertIf (h : b.Shows m l f) (flag : Bool) :
    b.Shows m (l.invertIf flag) fun σ => f σ ^^ flag := by
  refine ⟨h.readable, h.port, fun σ => ?_⟩
  show _ = (f σ ^^ flag)
  rw [← h.read σ, Link.read, Link.read, Link.invertIf, Bool.xor_assoc]

end Shows

end Builder

end Gatework
