import Gatework.Proofs.Rewrite.Function

/-!
# Rewriting keeps first ports

A pass replaces a cell by a network for the function on its first port.  Where inner cells read first
ports only, nothing inside of the builder depends on the other ports, so a pass succeeds, and what was
there and is still there has its old value on its first port.  Outputs may show other ports.  Such an
output keeps its value as long as its driver has not been replaced (`Rewrite.Kept.values_eq`), but a cell
that has been put in the place of the driver need not have that port.

**Main statement.** `rewrite_keeps_first_ports`.
-/

namespace Gatework

open Builder Rewrite

variable {store : Store} {b : Builder} {m : Method} {options : RewriteOptions} {s : State} {id : Nat}

namespace Rewrite

/-- What has still the same cell has the same values on all of its ports. -/
lemma Kept.values_eq (kept : Kept store b m options s) (h : WellFormed b)
    (regular : b.InnerRegular store (options.source = .reconvergence))
    (hid : id ∈ b.inputs ++ b.inner) (alive : id ∈ s.builder.order)
    (same : s.builder.cells[id]? = b.cells[id]?) (σ : Nat → Bool) :
    s.builder.values s.store.ports σ id = b.values store.ports σ id := by
  have layout := h.layout
  have layout' := kept.wellFormed.layout
  rcases List.mem_append.1 hid with hid | hid
  · rw [layout'.values_of_input (kept.inputs ▸ hid), layout.values_of_input hid, kept.inputs]
  · obtain ⟨c, hc, hterm⟩ := layout.isInner id hid
    have cell := regular id hid c hc
    have evaluable := cell.evaluable (Bool.or_eq_false_iff.1 hterm).1
    rw [layout'.values_of_cell (List.mem_append_left _ (mem_inner alive (same.trans hc) hterm))
      (same.trans hc), layout.values_of_cell (List.mem_append_left _ hid) hc, Cell.portsIn, Cell.portsIn,
      kept.grows.ports_eq evaluable]
    have reads : c.links.map (Link.read (s.builder.values s.store.ports σ)) =
        c.links.map (Link.read (b.values store.ports σ)) := by
      refine List.map_congr_left fun l hl => ?_
      have hd : l.entry ∈ b.driversOf id := by
        rw [driversOf, hc]
        exact List.mem_map_of_mem hl
      have hd' : l.entry ∈ s.builder.driversOf id := by
        rw [driversOf, same, hc]
        exact List.mem_map_of_mem hl
      have hvalue := kept.first_eq h (h.mem_of_reads (List.mem_filter.1 hid).1 hd)
        (kept.wellFormed.arranged.mem_of_reads id alive _ hd') σ
      rw [Link.read, Link.read, cell.port l hl]
      exact congrArg (· ^^ l.inverted) hvalue
    rw [reads]

end Rewrite

namespace Builder

/-- A pass over a builder whose inner cells read first ports succeeds and finds no mismatch, whatever
ports the outputs show.  Every entry that was there and is still there keeps its value on the first port.
So an output that shows a first port keeps its value, and so does an output whose driver still has the
cell that it had, and the subnet that is made afterwards shows these values. -/
theorem rewrite_keeps_first_ports (h : WellFormed b)
    (regular : b.InnerRegular store (options.source = .reconvergence))
    (filled : ∀ c, m = .catalogue c → c.Filled store (options.source = .reconvergence))
    (pos : 1 ≤ options.cuts.size) (size : options.cuts.size ≤ 16) (arity : options.maxArity ≤ 255) :
    ∃ store' b' stats, b.rewrite store m options = .ok (store', b', .ok stats) ∧
      b'.inputs = b.inputs ∧ b'.outputs = b.outputs ∧
      (∀ id ∈ b.order, b'.isAlive id = true → id ∉ b.outputs → ∀ σ,
        (b'.values store'.ports σ id).headD false = (b.values store.ports σ id).headD false) ∧
      (∀ o ∈ b.outputs, ∃ l, b.cells[o]? = some (.output l) ∧ b'.cells[o]? = some (.output l) ∧
        (l.port = 0 ∨ b'.cells[l.entry]? = b.cells[l.entry]? → ∀ σ,
          (b'.values store'.ports σ o).headD false = (b.values store.ports σ o).headD false)) ∧
      ∃ net, b'.finish = .ok net ∧ net.numInputs = b.numInputs ∧ net.numOutputs = b.numOutputs ∧
        ∀ σ, net.outputValues store'.ports σ = b'.outputValues store'.ports σ := by
  have sound := Catalogue.sound_of_filled filled
  obtain ⟨s, stats, hrun, kept⟩ := h.exists_kept regular sound.1 sound.2 pos size arity
  obtain ⟨net, hnet, hin, hout, hvalues, -⟩ := kept.wellFormed.exists_finish
  refine ⟨s.store, s.builder, stats, hrun, kept.inputs, kept.outputs, fun id hid alive houts σ => ?_,
    fun o ho => ?_, net, hnet, ?_, ?_, hvalues _⟩
  · rw [List.headD_eq_getD, List.headD_eq_getD]
    exact kept.same σ id hid ((kept.wellFormed.arranged.isAlive_iff id).1 alive) houts
  · obtain ⟨l, hl⟩ := h.layout.isOutput o ho
    have hl' := (kept.shown o ho).trans hl
    refine ⟨l, hl, hl', fun hport σ => ?_⟩
    rcases hport with hport | same
    · exact kept.value_of_first h ho hl hport σ
    · obtain ⟨readable, alive⟩ := kept.readable_of_output h ho hl
      have hvalue := kept.values_eq h regular readable alive same σ
      exact kept.value_of_output h ho hl (by rw [Link.read, Link.read, hvalue])
  · rw [hin, kept.inputs, h.layout.numInputs]
  · rw [hout, kept.outputs, h.layout.numOutputs]

/-- The inner cell of the builder of a half adder can be evaluated; an output shows its carry. -/
lemma innerRegular_halfBuilder {strict : Prop} : halfBuilder.InnerRegular halfStore strict := by
  intro id hid c hc
  rw [inner_halfBuilder] at hid
  obtain rfl : id = 2 := by simpa [sumReplacement] using hid
  rw [halfBuilder_holds.1] at hc
  cases hc
  have gates : ∀ c ∈ halfAdder.cells, c.kind.symbol = .gate .input ∨ c.kind.symbol = .gate .xor ∨
      c.kind.symbol = .gate .and ∨ c.kind.symbol = .gate .output ∧ c.links ≠ [] := by decide
  have ports : ∀ c ∈ halfAdder.cells, ∀ l ∈ c.links, l.port = 0 := by decide
  refine ⟨by decide, fun _ => ?_, fun _ hconst => by cases hconst⟩
  refine (Store.evaluableBelow_composite rfl).2 ⟨0, halfAdder, by with_unfolding_all rfl,
    by with_unfolding_all rfl, rfl, by decide, by with_unfolding_all decide, fun j e he _ => ⟨?_, ?_⟩⟩
  · rcases gates e (Array.mem_of_getElem? he) with hkind | hkind | hkind | ⟨hkind, hlinks⟩
    · exact (Store.evaluableBelow_gate hkind).2 (by simp [Gate.isUnary])
    · exact (Store.evaluableBelow_gate hkind).2 (by simp [Gate.isUnary])
    · exact (Store.evaluableBelow_gate hkind).2 (by simp [Gate.isUnary])
    · exact (Store.evaluableBelow_gate hkind).2 fun _ => hlinks
  · intro l hl d hd
    rw [ports e (Array.mem_of_getElem? he) l hl]
    rcases gates d (Array.mem_of_getElem? hd) with hkind | hkind | hkind | ⟨hkind, -⟩ <;>
      rw [Store.numPorts_gate hkind] <;> exact Nat.one_pos

/-- A pass over a half adder that shows its sum and its carry keeps the sum. -/
theorem rewrite_keeps_first_ports_half : ∃ store' b' stats,
    halfBuilder.rewrite halfStore Method.sumOfProducts {} = .ok (store', b', .ok stats) ∧
      ∀ σ, (b'.values store'.ports σ 3).headD false =
        (halfBuilder.values halfStore.ports σ 3).headD false := by
  obtain ⟨store', b', stats, hrun, -, -, -, shown, -⟩ := @rewrite_keeps_first_ports _ _ .sumOfProducts {}
    reachable_halfBuilder.wellFormed innerRegular_halfBuilder nofun (by decide) (by decide) (by decide)
  obtain ⟨l, hl, -, same⟩ := shown 3 (by simp [halfBuilder_holds.2.2.2])
  rw [halfBuilder_holds.1] at hl
  cases hl
  exact ⟨store', b', stats, hrun, same (.inl rfl)⟩

/-- The sum and the carry of a half adder compared. -/
def sumAgainstCarry : Subnet where
  cells := #[.input, .input, ⟨⟨.cell, 13⟩, [.of 0, .of 1]⟩,
    ⟨.ofGate .xor, [.of 2, { entry := 2, port := 1 }]⟩, .output (.of 3)]
  numInputs := 2
  numOutputs := 1
  valid := by decide

/-- A pass over an inner cell that reads another port fails, although the network can be evaluated. -/
theorem rewrite_fails_at_second_port :
    (halfStore.tabulate sumAgainstCarry).map (·.map (·.toNat)) = .ok [14] ∧
      ∃ b, ofSubnet sumAgainstCarry = .ok b ∧
        b.rewrite halfStore Method.sumOfProducts { cuts := { size := 1 } } = .error .internal := by
  refine ⟨by cbv, ?_⟩
  obtain ⟨b, hb, -, hfault⟩ := @exists_rewrite_fault sumAgainstCarry halfStore .sumOfProducts
    { cuts := { size := 1 } } .internal (by cbv)
  exact ⟨b, hb, hfault⟩

end Builder

end Gatework
