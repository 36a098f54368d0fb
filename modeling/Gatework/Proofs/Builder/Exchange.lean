import Gatework.Proofs.Builder.WellFormed

/-!
# Exchanging and taking out cells

A replacement gives its root another cell and takes out the cells that nothing reads any more.  Both of
these steps keep the layout of the builder:

* `Layout.exchange` for the root itself,
* `Layout.collect` for the cells that are taken out, which all lie in front of the root.
-/

namespace Gatework

namespace Builder

namespace Layout

variable {b : Builder} {ins inn inn' outs : List Nat} {id : Nat} {c : Cell}

/-- After an inner cell was withdrawn, only others are offered. -/
lemma offered_withdraw_ne (h : Layout b ins inn outs) (hid : id ∈ inn) {key : Cell} {x : Nat}
    (hkey : (b.withdraw id).table[key]? = some x) : b.table[key]? = some x ∧ x ≠ id := by
  obtain ⟨e, he, -⟩ := h.isInner id hid
  obtain ⟨hold, hnew⟩ := offered_withdraw he hkey
  refine ⟨hold, ?_⟩
  rintro rfl
  obtain ⟨-, d, hd, rfl⟩ := h.offered key x hold
  have share : b.options.share = true := by
    by_contra hshare
    exact absurd ((h.unshared (by simpa using hshare) _).symm.trans hold) (by simp)
  rw [he] at hd
  exact hnew share rfl (by rw [Option.some.inj hd])

/-- Without the option, nothing is offered after a withdrawal. -/
lemma unshared_withdraw (h : Layout b ins inn outs) (hid : id ∈ inn)
    (hshare : b.options.share = false) (key : Cell) : (b.withdraw id).table[key]? = none := by
  by_contra hkey
  obtain ⟨x, hx⟩ := Option.ne_none_iff_exists'.1 hkey
  exact absurd ((h.unshared hshare key).symm.trans (h.offered_withdraw_ne hid hx).1) (by simp)

/-- Taking out an inner cell that nothing reads. -/
theorem remove (h : Layout b ins (inn ++ id :: inn') outs) (unused : b.fanouts id = []) :
    Layout (b.remove id) ins (inn ++ inn') outs := by
  have removed := h.arranged_middle.remove unused
  have sub : ∀ x ∈ inn ++ inn', x ∈ inn ++ id :: inn' := by
    intro x hx
    simp only [List.mem_append, List.mem_cons] at hx ⊢
    tauto
  exact {
    arranged := by simpa using removed
    isInput := by rw [remove_eq]; exact h.isInput
    isInner := by rw [remove_eq]; exact fun x hx => h.isInner x (sub x hx)
    isOutput := by rw [remove_eq]; exact h.isOutput
    lastInput := by rw [remove_eq]; exact h.lastInput
    firstOutput := by rw [remove_eq]; exact h.firstOutput
    numInputs := by rw [remove_eq]; exact h.numInputs
    numOutputs := by rw [remove_eq]; exact h.numOutputs
    offered := fun key x hkey => by
      rw [remove_eq] at hkey ⊢
      obtain ⟨hold, hne⟩ := h.offered_withdraw_ne (by simp) hkey
      obtain ⟨hx, hcell⟩ := h.offered key x hold
      refine ⟨?_, hcell⟩
      simp only [List.mem_append, List.mem_cons] at hx ⊢
      tauto
    unshared := fun hshare key => by
      rw [remove_eq] at hshare ⊢
      exact h.unshared_withdraw (by simp) hshare key }

/-- Giving an inner cell another content, which reads only what is in front of it. -/
theorem exchange (h : Layout b ins (inn ++ id :: inn') outs)
    (new : ∀ d ∈ c.drivers, d ∈ ins ++ inn) (hc : c.isTerminal = false) :
    Layout (b.exchange id c) ins (inn ++ id :: inn') outs := by
  have harr := h.arranged_middle
  have drivers : ∀ d ∈ c.drivers, b.IsDriver d := fun d hd => h.isDriver (by
    rcases List.mem_append.1 (new d hd) with hd | hd <;> simp [hd])
  have exchanged := harr.exchange new drivers (Bool.or_eq_false_iff.1 hc).2
  have apart := harr.linked.notMem_middle
  have hself : (b.exchange id c).cells[id]? = some c := getElem?_exchange_self (h.lt_size (by simp))
  exact {
    arranged := by simpa using exchanged
    isInput := fun x hx => by
      rw [getElem?_exchange_of_ne fun e => apart (by simp [← e, hx])]
      exact h.isInput x hx
    isInner := fun x hx => by
      by_cases e : x = id
      · exact ⟨c, e ▸ hself, hc⟩
      · rw [getElem?_exchange_of_ne e]
        exact h.isInner x hx
    isOutput := fun x hx => by
      rw [getElem?_exchange_of_ne fun e => apart (by simp [← e, hx])]
      exact h.isOutput x hx
    lastInput := by rw [exchange_eq]; exact h.lastInput
    firstOutput := by rw [exchange_eq]; exact h.firstOutput
    numInputs := by rw [exchange_eq]; exact h.numInputs
    numOutputs := by rw [exchange_eq]; exact h.numOutputs
    offered := fun key x hkey => by
      rcases offered_offer hkey with ⟨-, rfl, rfl⟩ | hkey
      · exact ⟨by simp, c, hself, rfl⟩
      · obtain ⟨hold, hne⟩ := h.offered_withdraw_ne (by simp) hkey
        rw [getElem?_exchange_of_ne hne]
        exact h.offered key x hold
    unshared := fun hshare key => by
      rw [exchange_eq] at hshare
      by_contra hkey
      obtain ⟨x, hx⟩ := Option.ne_none_iff_exists'.1 hkey
      rcases offered_offer hx with ⟨share, -⟩ | hx
      · rw [options_withdraw] at share
        exact absurd (share.symm.trans hshare) (by decide)
      · exact absurd ((h.unshared_withdraw (by simp) hshare key).symm.trans hx) (by simp) }

/-- An idle entry is an inner cell that nothing reads. -/
lemma idle (h : Layout b ins inn outs) (hidle : b.isIdle id) : id ∈ inn ∧ b.fanouts id = [] := by
  simp only [isIdle, Bool.and_eq_true, isUnused, List.isEmpty_iff] at hidle
  obtain ⟨⟨alive, unused⟩, inside⟩ := hidle
  refine ⟨?_, unused⟩
  rcases List.mem_append.1 ((h.arranged.isAlive_iff id).1 alive) with hmem | hmem
  · rcases List.mem_append.1 hmem with hmem | hmem
    · rw [h.isInput id hmem] at inside
      exact absurd inside (by decide)
    · exact hmem
  · obtain ⟨l, hl⟩ := h.isOutput id hmem
    rw [hl] at inside
    exact absurd inside (by simp [Cell.isTerminal, Cell.isOutput, Cell.output])

/-- The cells that collecting takes out are in front of `root`; all else stays, and so do the
contents of all entries. -/
theorem collect {root : Nat} {waiting : List Nat} (h : Layout b ins (inn ++ root :: inn') outs)
    (hwait : ∀ x ∈ waiting, x ∉ root :: inn') :
    ∃ kept, kept.Sublist inn ∧ Layout (b.collect waiting) ins (kept ++ root :: inn') outs ∧
      (b.collect waiting).cells = b.cells ∧ (b.collect waiting).depths = b.depths ∧
      (b.collect waiting).options = b.options := by
  induction b, waiting using Builder.collect.induct generalizing inn with
  | case1 b =>
      unfold Builder.collect
      exact ⟨inn, List.Sublist.refl _, h, rfl, rfl, rfl⟩
  | case2 b id waiting hidle ih =>
      obtain ⟨hinner, unused⟩ := h.idle hidle
      have hid : id ∈ inn := (List.mem_append.1 hinner).resolve_right (hwait id (by simp))
      obtain ⟨front, behind, rfl⟩ := List.append_of_mem hid
      have h' : Layout b ins (front ++ id :: (behind ++ root :: inn')) outs := by simpa using h
      have hnext : ∀ x ∈ (b.driversOf id).reverse ++ waiting, x ∉ root :: inn' := by
        intro x hx hmem
        rcases List.mem_append.1 hx with hx | hx
        · exact h'.notMem_behind (List.mem_reverse.1 hx)
            (List.mem_cons_of_mem _ (List.mem_append_right _ hmem))
        · exact hwait x (by simp [hx]) hmem
      obtain ⟨kept, sub, hkept, hcells, hdepths, hoptions⟩ :=
        @ih (front ++ behind) (by simpa using h'.remove unused) hnext
      rw [Builder.collect, dif_pos hidle]
      rw [remove_eq] at hcells hdepths hoptions
      refine ⟨kept, sub.trans ?_, hkept, ?_, ?_, ?_⟩
      · exact (List.sublist_cons_self id behind).append_left front
      all_goals rw [remove_eq]; assumption
  | case3 b id waiting idle ih =>
      rw [Builder.collect, dif_neg idle]
      exact ih h fun x hx => hwait x (by simp [hx])

end Layout

end Builder

end Gatework
