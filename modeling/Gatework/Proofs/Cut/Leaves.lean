import Gatework.Proofs.Cut.Cone
import Gatework.Proofs.Cut.Refresh

/-!
# The leaves of enumerated cuts

A cut joins one cut of each driver.  By induction along the order of the builder its leaves are in front
of the root and separate it from the inputs.

**Main statement.** `CutSets.Current.proper`.
-/

namespace Gatework

lemma Separated.mono {cells : Array Cell} {leaves more : List Nat} {e : Nat}
    (h : Separated cells leaves e) (sub : leaves ⊆ more) : Separated cells more e := by
  induction h with
  | leaf he => exact .leaf (sub he)
  | cell hc hinput _ ih => exact .cell hc hinput ih

namespace Builder

/-- In a list without repetition an element stands in front of another one if its index is lower. -/
lemma Arranged.precedes_iff {b : Builder} {xs : List Nat} (h : Arranged b xs) {x y : Nat} :
    b.Precedes x y ↔ x ∈ xs ∧ y ∈ xs ∧ xs.idxOf x < xs.idxOf y := by
  rw [Precedes, h.order_eq]
  constructor
  · rintro ⟨front, behind, rfl, hx⟩
    have apart : y ∉ front := fun hy => h.linked.apart hy (by simp)
    refine ⟨by simp [hx], by simp, ?_⟩
    rw [List.idxOf_append_of_mem hx, List.idxOf_append_of_notMem apart]
    exact (List.idxOf_lt_length_iff.2 hx).trans_le (Nat.le_add_right _ _)
  · rintro ⟨hx, hy, hlt⟩
    obtain ⟨front, behind, rfl⟩ := List.append_of_mem hy
    refine ⟨front, behind, rfl, ?_⟩
    by_contra hfront
    have apart : y ∉ front := fun hy => h.linked.apart hy (by simp)
    rw [List.idxOf_append_of_notMem apart, List.idxOf_append_of_notMem hfront,
      List.idxOf_cons_self, Nat.add_zero] at hlt
    omega

lemma WellFormed.precedes_trans {b : Builder} (h : WellFormed b) {x y z : Nat}
    (hxy : b.Precedes x y) (hyz : b.Precedes y z) : b.Precedes x z := by
  obtain ⟨hx, -, hlt⟩ := h.arranged.precedes_iff.1 hxy
  obtain ⟨-, hz, hlt'⟩ := h.arranged.precedes_iff.1 hyz
  exact h.arranged.precedes_iff.2 ⟨hx, hz, hlt.trans hlt'⟩

/-- Leaves that may be put in the place of what a root reads. -/
def InFront (b : Builder) (leaves : List Nat) (root : Nat) : Prop :=
  ∀ leaf ∈ leaves, b.IsDriver leaf ∧ b.Precedes leaf root

variable {b : Builder} {options : CutOptions} {id : Nat} {cut : Cut}

/-- The cuts of an entry over those of its drivers. -/
lemma WellFormed.cutsAlong_eq (h : WellFormed b) (hid : id ∈ b.order) {c : Cell}
    (hc : b.cells[id]? = some c) : cutsAlong options b.cells b.order id =
      c.cuts options id (cutsAlong options b.cells b.order) := by
  rw [Gatework.cutsAlong_eq h.arranged.linked.nodup h.arranged.topological id hid, entryCuts, hc]
  rfl

/-- The order of a builder carries an induction: what holds of an entry if it holds of all that it
reads holds of all living entries. -/
lemma WellFormed.induction_order (h : WellFormed b) {P : Nat → Prop}
    (step : ∀ id ∈ b.order, ∀ c, b.cells[id]? = some c →
      (∀ d ∈ c.drivers, d ∈ b.order ∧ b.IsDriver d ∧ b.Precedes d id ∧ P d) → P id) :
    ∀ id ∈ b.order, P id := by
  intro id hid
  induction hrank : b.order.idxOf id using Nat.strong_induction_on generalizing id with
  | _ rank ih =>
      obtain ⟨c, hc⟩ : ∃ c, b.cells[id]? = some c :=
        ⟨_, Array.getElem?_eq_getElem (h.arranged.lt_size hid)⟩
      refine step id hid c hc fun d hd => ?_
      have hreads : d ∈ b.driversOf id := by rwa [driversOf, hc]
      have hmem := h.arranged.mem_of_reads id hid d hreads
      have precedes := precedes_of_reads h.arranged hid hreads
      refine ⟨hmem, h.arranged.isDriver_of_reads id hid d hreads, precedes, ?_⟩
      exact ih _ (hrank ▸ (h.arranged.precedes_iff.1 precedes).2.2) d hmem rfl

/-- What there is to say about a cut of an entry that is not trivial. -/
structure ProperCut (b : Builder) (size root : Nat) (cut : Cut) : Prop where
  root_eq : cut.root = root
  nodup : cut.leaves.Nodup
  length : cut.leaves.length ≤ size
  front : b.InFront cut.leaves root

/-- A cut is trivial, or its leaves are in front of its root. -/
lemma WellFormed.eq_trivial_or_proper (h : WellFormed b) : ∀ id ∈ b.order,
    ∀ cut ∈ cutsAlong options b.cells b.order id,
      cut = .trivial id ∨ b.ProperCut options.size id cut := by
  refine h.induction_order fun id hid c hc ih cut hcut => ?_
  rw [h.cutsAlong_eq hid hc] at hcut
  refine (Cell.eq_trivial_or_mem_candidates hcut).imp_right fun hcut => ?_
  obtain ⟨-, -, hroot, -, hsize, -⟩ := Cell.mem_candidates.1 hcut
  have pairwise := Cell.pairwise_of_mem_candidates hcut
  refine ⟨hroot, pairwise.imp fun hlt => Nat.ne_of_lt hlt, hsize, fun leaf hleaf => ?_⟩
  obtain ⟨d, hd, part, hpart, hleaf⟩ := Cell.leaf_of_mem_candidates hcut leaf hleaf
  obtain ⟨-, driver, precedes, hd⟩ := ih d hd
  rcases hd part hpart with rfl | proper
  · obtain rfl := List.mem_singleton.1 hleaf
    exact ⟨driver, precedes⟩
  · obtain ⟨hdriver, hprecedes⟩ := proper.front leaf hleaf
    exact ⟨hdriver, h.precedes_trans hprecedes precedes⟩

/-- The leaves of a cut separate its root from the inputs. -/
lemma WellFormed.separated_cutsAlong (h : WellFormed b) : ∀ id ∈ b.order,
    ∀ cut ∈ cutsAlong options b.cells b.order id, Separated b.cells cut.leaves id := by
  refine h.induction_order fun id hid c hc ih cut hcut => ?_
  rw [h.cutsAlong_eq hid hc] at hcut
  rcases Cell.eq_trivial_or_mem_candidates hcut with rfl | hcut
  · exact .leaf (by simp [Cut.trivial])
  · obtain ⟨hterm, -⟩ := Cell.mem_candidates.1 hcut
    refine .cell hc (Bool.or_eq_false_iff.1 hterm).1 fun d hd => ?_
    obtain ⟨part, hpart, sub⟩ := Cell.subset_of_mem_candidates hcut d hd
    exact ((ih d hd).2.2.2 part hpart).mono sub

end Builder

namespace CutSets.Current

variable {b : Builder} {sets : CutSets} {id : Nat} {cuts : List Cut} {cut : Cut}

/-- The cuts kept for a living entry that are not trivial have their leaves in front of it, and these
separate it from the inputs. -/
theorem proper (current : sets.Current b) (h : b.WellFormed) (hid : id ∈ b.order)
    (hget : sets.get id = .ok cuts) (hcut : cut ∈ cuts) (proper : cut.isTrivial = false) :
    b.ProperCut sets.options.size id cut ∧ Separated b.cells cut.leaves id := by
  obtain rfl : cuts = cutsAlong sets.options b.cells b.order id :=
    Option.some.inj ((get_eq_ok_iff.1 hget).symm.trans (current id hid))
  refine ⟨?_, h.separated_cutsAlong id hid cut hcut⟩
  rcases h.eq_trivial_or_proper id hid cut hcut with rfl | proper
  · simp [Cut.isTrivial, Cut.trivial] at proper
  · exact proper

end CutSets.Current

end Gatework
