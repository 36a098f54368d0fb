import Mathlib.Algebra.GroupWithZero.Nat
import Mathlib.Algebra.Order.BigOperators.Group.List
import Mathlib.Algebra.Order.Group.Nat
import Mathlib.Data.List.Induction
import Gatework.Proofs.Builder.WellFormed
import Gatework.Proofs.Runs

/-!
# Bringing depths up to date

When an entry has changed, its depth is computed anew, and so are the depths of the readers of every
entry whose depth has changed.  The entries whose depths may be wrong are always in the queue
(`Queued`), so all depths are right when the queue is empty.

An entry may join the queue once for every path that leads to it.  `Arranged.exists_weight` weighs the
entries so that one that leaves the queue is heavier than all those that join it, and no entry is heavier
than the bound on the number of steps.

**Main statements.**

* `Layout.exists_updateDepths`: where only the depth of the changed entry may be wrong, the queue runs dry,
  and then all depths are right.
* `Layout.updateDepths_eq_sweepDepths`: the depths are those that computing them one after the other in
  topological order gives.
-/

namespace Gatework

namespace Builder

variable {b b' : Builder} {xs ins inn outs : List Nat} {root id : Nat} {c : Cell}

/-! ## Weights -/

/-- What reads an entry is behind it. -/
lemma Arranged.mem_behind {front behind : List Nat} (h : Arranged b (front ++ id :: behind)) {reader : Nat}
    (hreader : reader ∈ b.fanouts id) : reader ∈ behind := by
  obtain ⟨hmem, hreads⟩ := (h.mem_fanouts_iff (h.lt_size (by simp))).1 hreader
  rcases List.mem_append.1 hmem with hfront | hbehind
  · exact absurd (h.mem_left hfront hreads) fun hid => h.linked.apart hid (List.mem_cons_self ..)
  · rcases List.mem_cons.1 hbehind with rfl | hbehind
    · exact absurd (h.mem_front hreads) fun hid => h.linked.apart hid (List.mem_cons_self ..)
    · exact hbehind

/-- With `k` links to entries that weigh at most `2 ^ m` each, an entry can weigh `2 ^ (k + m)`. -/
lemma succ_mul_two_pow_le (k m : Nat) : k * 2 ^ m + 1 ≤ 2 ^ (k + m) :=
  calc k * 2 ^ m + 1 ≤ k * 2 ^ m + 2 ^ m := Nat.add_le_add_left Nat.one_le_two_pow _
    _ = (k + 1) * 2 ^ m := (Nat.succ_mul ..).symm
    _ ≤ 2 ^ k * 2 ^ m := Nat.mul_le_mul_right _ Nat.lt_two_pow_self
    _ = 2 ^ (k + m) := (Nat.pow_add ..).symm

/-- If the readers of every entry are behind it, the entries can be weighed so that each is heavier than
its readers together, and none is heavier than a power of two with one factor for every link. -/
lemma exists_weight_of_behind {readers : Nat → List Nat} (nodup : xs.Nodup)
    (hbehind : ∀ front id behind, xs = front ++ id :: behind → ∀ reader ∈ readers id, reader ∈ behind) :
    ∃ weight : Nat → Nat, ∀ id ∈ xs, ((readers id).map weight).sum < weight id ∧
      weight id ≤ 2 ^ (xs.map fun id => (readers id).length).sum := by
  induction xs with
  | nil => exact ⟨fun _ => 0, nofun⟩
  | cons x xs ih =>
      obtain ⟨hx, nodup⟩ := List.nodup_cons.1 nodup
      obtain ⟨weight, hweight⟩ := ih nodup fun front id behind hxs =>
        hbehind (x :: front) id behind (by rw [hxs, List.cons_append])
      set links := (xs.map fun id => (readers id).length).sum
      -- the readers of all entries are in `xs`, so their weights stay as they are
      have same : ∀ id ∈ x :: xs, (readers id).map (Function.update weight x
          (((readers x).map weight).sum + 1)) = (readers id).map weight := by
        refine fun id hid => List.map_congr_left fun reader hreader => Function.update_of_ne ?_ ..
        rcases List.mem_cons.1 hid with rfl | hid
        · exact ne_of_mem_of_not_mem (hbehind [] id xs rfl reader hreader) hx
        · obtain ⟨front, behind, rfl⟩ := List.append_of_mem hid
          have hmem := hbehind (x :: front) id behind rfl reader hreader
          exact ne_of_mem_of_not_mem (List.mem_append_right _ (List.mem_cons_of_mem _ hmem)) hx
      refine ⟨Function.update weight x (((readers x).map weight).sum + 1), fun id hid => ?_⟩
      rw [same id hid, List.map_cons, List.sum_cons]
      rcases List.mem_cons.1 hid with rfl | hid
      · rw [Function.update_self]
        refine ⟨Nat.lt_succ_self _, le_trans (Nat.succ_le_succ ?_) (succ_mul_two_pow_le _ links)⟩
        have each : ∀ w ∈ (readers id).map weight, w ≤ 2 ^ links := List.forall_mem_map.2 fun reader h =>
          (hweight reader (hbehind [] id xs rfl reader h)).2
        simpa using List.sum_le_card_nsmul _ _ each
      · rw [Function.update_of_ne (ne_of_mem_of_not_mem hid hx)]
        obtain ⟨heavier, bounded⟩ := hweight id hid
        exact ⟨heavier, bounded.trans (Nat.pow_le_pow_right Nat.two_pos (Nat.le_add_left ..))⟩

/-- The living entries can be weighed so that each is heavier than its readers together. -/
lemma Arranged.exists_weight (h : Arranged b xs) : ∃ weight : Nat → Nat, ∀ id ∈ xs,
    ((b.fanouts id).map weight).sum < weight id ∧ weight id ≤ 2 ^ b.linkCount := by
  rw [linkCount, h.order_eq, List.length_flatMap]
  refine exists_weight_of_behind h.linked.nodup ?_
  rintro front id behind rfl reader hreader
  exact h.mem_behind hreader

/-! ## The queue -/

/-- The depth that is kept for an entry is that of its cell. -/
def SettledAt (b : Builder) (depths : Array Nat) (id : Nat) : Prop :=
  ∀ c, b.cells[id]? = some c → depths.getD id 0 = c.depth fun i => depths.getD i 0

/-- All entries are living ones, and the depths of the living entries that are not among them are right. -/
structure Queued (b : Builder) (xs queue : List Nat) (depths : Array Nat) : Prop where
  size : depths.size = b.size
  living : ∀ id ∈ queue, id ∈ xs
  settled : ∀ id ∈ xs, id ∉ queue → b.SettledAt depths id

namespace Queued

variable {queue : List Nat} {depths : Array Nat}

/-- An entry whose depth is right may leave the queue. -/
lemma skip (h : Queued b xs (id :: queue) depths) (settled : b.SettledAt depths id) :
    Queued b xs queue depths where
  size := h.size
  living x hx := h.living x (List.mem_cons_of_mem id hx)
  settled x hx hqueue := by
    by_cases e : x = id
    · rwa [e]
    · exact h.settled x hx (by simp [e, hqueue])

/-- Only the readers of an entry see that its depth has changed, and they join the queue. -/
lemma join (arranged : Arranged b xs) (h : Queued b xs (id :: queue) depths)
    (hc : b.cells[id]? = some c) :
    Queued b xs (queue ++ b.fanouts id)
      (depths.setIfInBounds id (c.depth fun i => depths.getD i 0)) := by
  have hid : id ∈ xs := h.living id (List.mem_cons_self ..)
  have hlt : id < depths.size := h.size ▸ arranged.lt_size hid
  -- what does not read the entry sees the same depths as before
  have same : ∀ e : Cell, id ∉ e.drivers →
      (e.depth fun i => (depths.setIfInBounds id (c.depth fun i => depths.getD i 0)).getD i 0) =
        e.depth fun i => depths.getD i 0 := fun e he =>
    Cell.depth_congr fun d hd => by rw [getD_setIfInBounds hlt, if_neg (ne_of_mem_of_not_mem hd he)]
  refine ⟨by simpa using h.size, fun x hx => ?_, fun x hx hqueue e he => ?_⟩
  · rcases List.mem_append.1 hx with hx | hx
    · exact h.living x (List.mem_cons_of_mem id hx)
    · exact ((arranged.mem_fanouts_iff (arranged.lt_size hid)).1 hx).1
  · obtain ⟨waits, reads⟩ := not_or.1 (mt List.mem_append.2 hqueue)
    have hdrivers : id ∉ e.drivers := fun hd => reads <|
      (arranged.mem_fanouts_iff (arranged.lt_size hid)).2 ⟨hx, by simpa [driversOf, he] using hd⟩
    rw [same e hdrivers, getD_setIfInBounds hlt]
    split
    · rename_i hxid
      subst hxid
      rw [Option.some.inj (he.symm.trans hc)]
    · rename_i hxid
      exact h.settled x hx (by simp [hxid, waits]) e he

/-- If the queue is not heavier than the number of steps, it runs dry, and all depths are right. -/
theorem exists_drainQueue (arranged : Arranged b xs) {weight : Nat → Nat}
    (hweight : ∀ id ∈ xs, ((b.fanouts id).map weight).sum < weight id) {steps : Nat}
    (h : Queued b xs queue depths) (enough : (queue.map weight).sum ≤ steps) :
    ∃ depths', b.drainQueue root steps queue depths = .ok depths' ∧ Queued b xs [] depths' := by
  induction steps generalizing queue depths with
  | zero =>
      cases queue with
      | nil => exact ⟨depths, by rw [drainQueue], h⟩
      | cons id queue =>
          have heavier := hweight id (h.living id (List.mem_cons_self ..))
          rw [List.map_cons, List.sum_cons] at enough
          omega
  | succ steps ih =>
      cases queue with
      | nil => exact ⟨depths, by rw [drainQueue], h⟩
      | cons id queue =>
          have hid := h.living id (List.mem_cons_self ..)
          have heavier := hweight id hid
          rw [List.map_cons, List.sum_cons] at enough
          have hc := Array.getElem?_eq_getElem (arranged.lt_size hid)
          simp only [drainQueue, hc]
          split
          · refine ih (h.join arranged hc) ?_
            rw [List.map_append, List.sum_append]
            omega
          · rename_i same
            refine ih (h.skip fun c hc' => ?_) (by omega)
            cases hc.symm.trans hc'
            exact (not_not.1 (not_or.1 same).1).symm

end Queued

/-! ## All depths -/

/-- A builder may have other depths. -/
lemma Layout.withDepths (h : Layout b ins inn outs) {depths : Array Nat} (size : depths.size = b.size) :
    Layout { b with depths } ins inn outs where
  arranged := h.arranged.congr rfl (size.trans h.arranged.sized.depths.symm) rfl rfl rfl rfl rfl rfl
  isInput := h.isInput
  isInner := h.isInner
  isOutput := h.isOutput
  lastInput := h.lastInput
  firstOutput := h.firstOutput
  numInputs := h.numInputs
  numOutputs := h.numOutputs
  offered := h.offered
  unshared := h.unshared

/-- If no depth but that of one entry may be wrong, the depths can be brought up to date, and then they
are right. -/
theorem Layout.exists_updateDepths (h : Layout b ins inn outs) (hroot : root ∈ ins ++ inn ++ outs)
    (settled : ∀ id ∈ ins ++ inn ++ outs, id ≠ root → b.SettledAt b.depths id) :
    ∃ depths, b.updateDepths root = .ok { b with depths } ∧ Layout { b with depths } ins inn outs ∧
      Settled { b with depths } := by
  obtain ⟨weight, hweight⟩ := h.arranged.exists_weight
  have start : Queued b (ins ++ inn ++ outs) [root] b.depths :=
    ⟨h.arranged.sized.depths, fun id hid => List.mem_singleton.1 hid ▸ hroot,
      fun id hid hne => settled id hid (by simpa using hne)⟩
  obtain ⟨depths, hrun, drained⟩ := @Queued.exists_drainQueue _ _ root _ _ h.arranged _
    (fun id hid => (hweight id hid).1) _ start (by simpa using (hweight root hroot).2)
  have layout := h.withDepths drained.size
  refine ⟨depths, ?_, layout, ?_⟩
  · rw [updateDepths, hrun]
    rfl
  · rw [Settled, layout.order_eq]
    exact fun id hid => drained.settled id hid (List.not_mem_nil)

/-! ## What stays as it was -/

lemma size_of_drainQueue {steps : Nat} {queue : List Nat} {depths depths' : Array Nat}
    (h : b.drainQueue root steps queue depths = .ok depths') : depths'.size = depths.size := by
  fun_induction drainQueue b root steps queue depths with
  | case1 =>
      cases h
      rfl
  | case2 => cases h
  | case3 => cases h
  | case4 _ _ _ _ _ _ _ _ ih => exact (ih h).trans Array.size_setIfInBounds
  | case5 _ _ _ _ _ _ _ _ ih => exact ih h

/-- Nothing but the depths is touched. -/
lemma exists_of_updateDepths (h : b.updateDepths root = .ok b') :
    ∃ depths, depths.size = b.depths.size ∧ b' = { b with depths } := by
  obtain ⟨depths, hdrain, h⟩ := bind_eq_ok_iff.1 h
  cases h
  exact ⟨depths, size_of_drainQueue hdrain, rfl⟩

/-! ## Sweeps -/

/-- Computes the depths of the listed entries anew, one after the other. -/
def sweepDepths (cells : Array Cell) (order : List Nat) (depths : Array Nat) : Array Nat :=
  order.foldl (fun depths id =>
    match cells[id]? with
    | some c => depths.setIfInBounds id (c.depth fun i => depths.getD i 0)
    | none => depths) depths

section Sweep

variable {cells : Array Cell}

@[simp] lemma size_sweepDepths (cells : Array Cell) (xs : List Nat) (depths : Array Nat) :
    (sweepDepths cells xs depths).size = depths.size := by
  induction xs generalizing depths with
  | nil => rfl
  | cons x xs ih =>
      refine (ih _).trans ?_
      dsimp only
      split <;> simp

lemma sweepDepths_concat (xs : List Nat) (x : Nat) (depths : Array Nat) :
    sweepDepths cells (xs ++ [x]) depths =
      match cells[x]? with
      | some c => (sweepDepths cells xs depths).setIfInBounds x
          (c.depth fun i => (sweepDepths cells xs depths).getD i 0)
      | none => sweepDepths cells xs depths := by
  unfold sweepDepths
  rw [List.foldl_append]
  rfl

/-- If the depths of the entries in topological order are right, a sweep computes the same depths, whatever
it starts from: when an entry is computed, its drivers have their depths. -/
lemma getD_sweepDepths {right : Nat → Nat} {drivers : Nat → List Nat}
    (hdrivers : ∀ id c, cells[id]? = some c → c.drivers = drivers id)
    (settled : ∀ id ∈ xs, ∃ c, cells[id]? = some c ∧ right id = c.depth right) (nodup : xs.Nodup)
    (topological : Topological drivers xs) (closed : ∀ id ∈ xs, ∀ d ∈ drivers id, d ∈ xs)
    (depths : Array Nat) (sized : ∀ id ∈ xs, id < depths.size) :
    ∀ id ∈ xs, (sweepDepths cells xs depths).getD id 0 = right id := by
  induction xs using List.reverseRecOn with
  | nil => exact nofun
  | append_singleton xs x ih =>
      have apart := List.nodup_append.1 nodup
      have front : ∀ id ∈ xs ++ [x], ∀ d ∈ drivers id, d ∈ xs := fun id hid d hd => by
        rcases List.mem_append.1 (closed id hid d hd) with hmem | hmem
        · exact hmem
        · exact absurd (List.mem_singleton.1 hmem) (topological.ne_last hid hd)
      have swept := ih (fun id hid => settled id (List.mem_append_left _ hid)) apart.1
        (topological.sublist (List.sublist_append_left xs [x]))
        (fun id hid => front id (List.mem_append_left _ hid)) fun id hid => sized id (by simp [hid])
      have hx : x < (sweepDepths cells xs depths).size := by simpa using sized x (by simp)
      obtain ⟨c, hc, hright⟩ := settled x (by simp)
      intro id hid
      rw [sweepDepths_concat, hc]
      simp only [getD_setIfInBounds hx]
      rcases List.mem_append.1 hid with hmem | hmem
      · rw [if_neg (apart.2.2 id hmem x (by simp)), swept id hmem]
      · rw [List.mem_singleton.1 hmem, if_pos rfl, hright]
        exact Cell.depth_congr fun d hd => swept d (front x (by simp) d (hdrivers x c hc ▸ hd))

end Sweep

/-- The depths that the queue leads to are those of a single sweep in topological order. -/
theorem Layout.updateDepths_eq_sweepDepths (h : Layout b ins inn outs) (hroot : root ∈ ins ++ inn ++ outs)
    (settled : ∀ id ∈ ins ++ inn ++ outs, id ≠ root → b.SettledAt b.depths id)
    (hrun : b.updateDepths root = .ok b') :
    ∀ id ∈ b.order, b'.depth id = (sweepDepths b.cells b.order b.depths).getD id 0 := by
  obtain ⟨depths, hrun', layout, right⟩ := h.exists_updateDepths hroot settled
  cases hrun.symm.trans hrun'
  have harr := h.arranged_order
  have hdrivers : ∀ id c, b.cells[id]? = some c → c.drivers = b.driversOf id := fun id c hc => by
    rw [driversOf, hc]
    rfl
  have settled : ∀ id ∈ b.order, ∃ c, b.cells[id]? = some c ∧
      Builder.depth { b with depths } id = c.depth (Builder.depth { b with depths }) := fun id hid => by
    have hc := Array.getElem?_eq_getElem (harr.lt_size hid)
    exact ⟨_, hc, right id (layout.order_eq ▸ h.order_eq ▸ hid) _ hc⟩
  have sized : ∀ id ∈ b.order, id < b.depths.size := fun id hid =>
    h.arranged.sized.depths.symm ▸ harr.lt_size hid
  intro id hid
  exact (getD_sweepDepths hdrivers settled harr.linked.nodup harr.topological harr.mem_of_reads
    b.depths sized id hid).symm

end Builder

end Gatework
