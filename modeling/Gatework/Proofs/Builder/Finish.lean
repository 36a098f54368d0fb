import Gatework.Proofs.Builder.Addition
import Gatework.Proofs.Reach

/-!
# Finished networks

`finish` copies the inputs, the inner cells that an output depends on, and the outputs.  These entries
read only each other, so every entry is copied behind its drivers, and the copy computes what the
builder does.

**Main statement.** `WellFormed.exists_finish`: a well-formed builder can be finished; the network has
as many inputs and outputs and the same values at the outputs.
-/

namespace Gatework

namespace Builder

variable {b : Builder}

/-- The entries that are copied into the finished network. -/
def finished (b : Builder) : List Nat := b.inputs ++ b.needed ++ b.outputs

namespace WellFormed

variable (h : WellFormed b)
include h

lemma finished_sublist : b.finished.Sublist b.order := by
  rw [h.layout.order_eq, finished, needed]
  exact ((List.Sublist.refl _).append List.filter_sublist).append (List.Sublist.refl _)

lemma nodup_finished : b.finished.Nodup := by
  have harr := h.layout.arranged_order
  exact harr.linked.nodup.sublist h.finished_sublist

lemma topological_finished : Topological (driversIn b.cells) b.finished := by
  have harr := h.layout.arranged_order
  exact harr.topological.sublist h.finished_sublist

/-- What a copied entry reads is copied and no output. -/
lemma mem_of_reads_finished {id d : Nat} (hid : id ∈ b.finished) (hd : d ∈ b.driversOf id) :
    d ∈ b.inputs ++ b.needed := by
  have harr := h.layout.arranged_order
  have hmem := h.finished_sublist.subset hid
  have hd' : d ∈ b.inputs ++ b.inner := by
    have hin := harr.mem_of_reads id hmem d hd
    rw [h.layout.order_eq, List.mem_append] at hin
    refine hin.resolve_right fun hout => ?_
    obtain ⟨l, hl⟩ := h.layout.isOutput d hout
    obtain ⟨c, hc, hdriver⟩ := harr.isDriver_of_reads id hmem d hd
    rw [hl] at hc
    cases hc
    cases hdriver
  have reached : id ∈ reachable b.driversOf b.size b.outputs →
      d ∈ reachable b.driversOf b.size b.outputs := fun hr =>
    mem_reachable_of_next hr hd (harr.lt_size (harr.mem_of_reads id hmem d hd))
  have front : id ∈ reachable b.driversOf b.size b.outputs → d ∈ b.inputs ++ b.needed := by
    intro hr
    rcases List.mem_append.1 hd' with hd' | hd'
    · exact List.mem_append_left _ hd'
    · exact List.mem_append_right _ (List.mem_filter.2 ⟨hd', by simpa using reached hr⟩)
  rcases List.mem_append.1 hid with hid | hid
  · rcases List.mem_append.1 hid with hid | hid
    · rw [driversOf, h.layout.isInput id hid] at hd
      simp [Cell.drivers, Cell.input] at hd
    · exact front (by simpa using (List.mem_filter.1 hid).2)
  · exact front (mem_reachable_of_root hid (harr.lt_size hmem))

/-- Every position that is copied stands for an entry of the arena. -/
lemma exists_getElem?_finished {i : Nat} (hi : i < b.finished.length) :
    ∃ id e, b.finished[i]? = some id ∧ id ∈ b.order ∧ b.cells[id]? = some e := by
  have hmem := h.finished_sublist.subset (List.getElem_mem hi)
  exact ⟨_, _, List.getElem?_eq_getElem hi, hmem,
    Array.getElem?_eq_getElem (h.layout.arranged_order.lt_size hmem)⟩

end WellFormed

/-- The copies of the first entries of a list, where `entries` are all that will be copied. -/
structure CopiedUpTo (b : Builder) (entries done : List Nat) (places : Array (Option Nat))
    (cells : Array Cell) : Prop where
  size : cells.size = done.length
  place : ∀ id ∈ done, places.getD id none = some (entries.idxOf id)
  cell : ∀ (i : Nat) id c, done[i]? = some id → b.cells[id]? = some c →
    cells[i]? = some (c.rename entries.idxOf)
  places_size : places.size = b.size

namespace CopiedUpTo

variable {entries done rest : List Nat} {places : Array (Option Nat)} {cells : Array Cell}

/-- Links to entries that were copied lead to the copies. -/
lemma mapM_links {id : Nat} {c : Cell} (h : CopiedUpTo b entries done places cells)
    (hdrivers : ∀ d ∈ c.drivers, d ∈ done) :
    c.links.mapM (fun l => match places.getD l.entry none with
      | some place => (.ok { l with entry := place } : Except Fault Link)
      | none => .error (.droppedDriver id)) = .ok (c.links.map (Link.rename entries.idxOf)) := by
  refine mapM_eq_ok fun l hl => ?_
  rw [h.place l.entry (hdrivers l.entry (List.mem_map_of_mem hl))]
  rfl

/-- One more entry, whose drivers were copied before. -/
lemma step {id : Nat} {c : Cell} (h : CopiedUpTo b entries done places cells)
    (hsplit : entries = done ++ id :: rest) (nodup : entries.Nodup) (hc : b.cells[id]? = some c)
    (hdrivers : ∀ d ∈ c.drivers, d ∈ done) :
    ∃ places' cells', b.copyEntry (places, cells) id = .ok (places', cells') ∧
      CopiedUpTo b entries (done ++ [id]) places' cells' := by
  have hnew : id ∉ done := by
    rw [hsplit] at nodup
    exact fun hin => (List.nodup_append.1 nodup).2.2 id hin id (by simp) rfl
  have hplace : entries.idxOf id = done.length := by
    rw [hsplit, List.idxOf_append_of_notMem hnew, List.idxOf_cons_self, Nat.add_zero]
  refine ⟨places.setIfInBounds id (some cells.size), cells.push (c.rename entries.idxOf), ?_, ?_⟩
  · simp only [copyEntry, hc]
    exact bind_eq_ok_iff.2 ⟨_, h.mapM_links hdrivers, rfl⟩
  · have hlt : id < places.size := h.places_size ▸ (Array.getElem?_eq_some_iff.1 hc).1
    refine ⟨by simp [h.size], fun d hd => ?_, fun i e c' he hc' => ?_, by simpa using h.places_size⟩
    · rcases List.mem_append.1 hd with hd | hd
      · have hne : id ≠ d := fun e => hnew (e ▸ hd)
        rw [← h.place d hd]
        simp [Array.getD_eq_getD_getElem?, hne]
      · obtain rfl := List.mem_singleton.1 hd
        simp [Array.getD_eq_getD_getElem?, hlt, hplace, h.size]
    · rw [Array.getElem?_push]
      split
      · rename_i hi
        rw [hi, h.size] at he
        simp at he
        cases he
        rw [hc] at hc'
        cases hc'
        rfl
      · rename_i hne
        rw [h.size] at hne
        have hi := (List.getElem?_eq_some_iff.1 he).1
        rw [List.length_append, List.length_singleton] at hi
        rw [List.getElem?_append_left (by omega)] at he
        exact h.cell i e c' he hc'

end CopiedUpTo

/-- All entries that are needed can be copied. -/
lemma WellFormed.exists_copies (h : WellFormed b) : ∃ places cells,
    (b.inputs ++ b.needed ++ b.outputs).foldlM b.copyEntry (Array.replicate b.size none, #[]) =
      .ok (places, cells) ∧ CopiedUpTo b b.finished b.finished places cells := by
  have harr := h.layout.arranged_order
  obtain ⟨⟨places, cells⟩, hrun, hcopied⟩ := @exists_foldlM_eq_ok _ _ _ b.copyEntry b.finished
    (Array.replicate b.size none, #[])
    (fun done state => CopiedUpTo b b.finished done state.1 state.2)
    ⟨rfl, by simp, by simp, by simp⟩ (by
      rintro done id rest ⟨places, cells⟩ hsplit hdone
      have hid : id ∈ b.finished := by rw [hsplit]; simp
      obtain ⟨c, hc⟩ : ∃ c, b.cells[id]? = some c :=
        ⟨_, Array.getElem?_eq_getElem (harr.lt_size (h.finished_sublist.subset hid))⟩
      have hdrivers : ∀ d ∈ c.drivers, d ∈ done := by
        intro d hd
        have hreads : d ∈ b.driversOf id := by rwa [driversOf, hc]
        have hmem : d ∈ b.finished := List.mem_append_left _ (h.mem_of_reads_finished hid hreads)
        have htop := h.topological_finished
        rw [hsplit] at htop hmem
        exact htop.mem_front hreads hmem
      obtain ⟨places', cells', hrun, hcopied⟩ := hdone.step hsplit h.nodup_finished hc hdrivers
      exact ⟨(places', cells'), hrun, hcopied⟩)
  exact ⟨places, cells, hrun, hcopied⟩

namespace WellFormed

variable {m : Meaning} {places : Array (Option Nat)} {cells : Array Cell}

/-- The part of the network that a copied entry stands in. -/
lemma position_finished {i id : Nat} (hi : b.finished[i]? = some id) :
    (i < b.inputs.length ∧ b.inputs[i]? = some id) ∨
      (b.inputs.length ≤ i ∧ i < b.inputs.length + b.needed.length ∧ id ∈ b.needed) ∨
      (b.inputs.length + b.needed.length ≤ i ∧
        b.outputs[i - (b.inputs.length + b.needed.length)]? = some id) := by
  rw [finished, List.getElem?_append, List.length_append] at hi
  split at hi
  · rename_i hlt
    rw [List.getElem?_append] at hi
    split at hi
    · rename_i hin
      exact .inl ⟨hin, hi⟩
    · rename_i hin
      exact .inr (.inl ⟨Nat.not_lt.1 hin, hlt, List.mem_of_getElem? hi⟩)
  · rename_i hge
    exact .inr (.inr ⟨Nat.not_lt.1 hge, hi⟩)

/-- The inputs are copied to the first positions and the outputs to the last. -/
lemma isInput_isOutput_finished (h : WellFormed b) {i id : Nat} {e : Cell}
    (hid : b.finished[i]? = some id) (he : b.cells[id]? = some e) :
    (e.isInput = true ↔ i < b.inputs.length) ∧
      (e.isOutput = true ↔ b.inputs.length + b.needed.length ≤ i) := by
  have layout := h.layout
  rcases position_finished hid with ⟨hi, hin⟩ | ⟨hle, hi, hin⟩ | ⟨hle, hin⟩
  · rw [layout.isInput id (List.mem_of_getElem? hin)] at he
    cases he
    exact ⟨iff_of_true rfl hi, iff_of_false (by decide) (by omega)⟩
  · obtain ⟨c, hc, hterm⟩ := layout.isInner id (List.mem_filter.1 hin).1
    rw [he] at hc
    cases hc
    obtain ⟨h₁, h₂⟩ := Bool.or_eq_false_iff.1 hterm
    exact ⟨iff_of_false (by simp [h₁]) (by omega), iff_of_false (by simp [h₂]) (by omega)⟩
  · obtain ⟨l, hl⟩ := layout.isOutput id (List.mem_of_getElem? hin)
    rw [he] at hl
    cases hl
    exact ⟨iff_of_false (by simp [Cell.isInput, Cell.output]) (by omega), iff_of_true rfl hle⟩

/-- The copies obey the rules of a network. -/
lemma violation?_copies (h : WellFormed b) (hcopied : CopiedUpTo b b.finished b.finished places cells) :
    Subnet.violation? cells b.numInputs b.numOutputs = none := by
  have layout := h.layout
  have harr := layout.arranged_order
  have hsize : cells.size = b.numInputs + b.needed.length + b.numOutputs := by
    rw [hcopied.size, finished, List.length_append, List.length_append, layout.numInputs,
      layout.numOutputs]
  rw [Subnet.violation?_eq_none_iff]
  refine ⟨by omega, fun i c hc => ?_⟩
  obtain ⟨id, e, hid, horder, he⟩ :=
    h.exists_getElem?_finished (hcopied.size ▸ (Array.getElem?_eq_some_iff.1 hc).1)
  have hmem := List.mem_of_getElem? hid
  rw [hcopied.cell i id e hid he] at hc
  cases hc
  have hindex : b.finished.idxOf id = i := by
    obtain ⟨hi, rfl⟩ := List.getElem?_eq_some_iff.1 hid
    exact h.nodup_finished.idxOf_getElem i hi
  have hreads : ∀ d ∈ e.drivers, d ∈ b.inputs ++ b.needed := fun d hd =>
    h.mem_of_reads_finished hmem (by rwa [driversOf, he])
  have hdrivers : ∀ d ∈ (e.rename b.finished.idxOf).drivers, ∃ d' ∈ e.drivers, b.finished.idxOf d' = d := by
    intro d hd
    rw [Cell.drivers_rename] at hd
    exact List.mem_map.1 hd
  have kind := h.isInput_isOutput_finished hid he
  rw [← layout.numInputs] at kind
  have hstart : cells.size - b.numOutputs = b.numInputs + b.needed.length := by omega
  refine ⟨kind.1, hstart ▸ kind.2, fun d hd => ?_, fun d hd e' he' => ?_⟩
  · obtain ⟨d', hd', rfl⟩ := hdrivers d hd
    rw [← hindex]
    refine h.topological_finished.idxOf_lt hmem ?_ (List.mem_append_left _ (hreads d' hd'))
      h.nodup_finished
    rwa [driversIn_eq he]
  · obtain ⟨d', hd', rfl⟩ := hdrivers d hd
    have hmem' : d' ∈ b.finished := List.mem_append_left _ (hreads d' hd')
    have hd'' : ∃ c, b.cells[d']? = some c ∧ c.isOutput = false :=
      harr.isDriver_of_reads id horder d' (by rwa [driversOf, he])
    obtain ⟨c, hc, hout⟩ := hd''
    rw [hcopied.cell _ d' c (List.getElem?_idxOf hmem') hc] at he'
    cases he'
    exact hout

/-- A copy has the value of the entry that it was copied from. -/
lemma values_copies (h : WellFormed b) (net : Subnet)
    (hcopied : CopiedUpTo b b.finished b.finished places net.cells)
    (hin : net.numInputs = b.numInputs) {σ : Nat → Bool} {i id : Nat}
    (hid : b.finished[i]? = some id) : net.values m σ i = b.values m σ id := by
  have layout := h.layout
  have harr := layout.arranged_order
  have hsize : net.size = b.finished.length := hcopied.size
  let w : Valuation := fun i => b.values m σ (b.finished.getD i 0)
  have hw : ∀ {i id}, b.finished[i]? = some id → w i = b.values m σ id := by
    intro i id hid
    simp [w, List.getD_eq_getElem?_getD, hid]
  suffices Solves m net.cells (net.given σ) w (· < net.size) by
    rw [← hw hid, Subnet.eq_values this (hsize ▸ (List.getElem?_eq_some_iff.1 hid).1)]
  intro i hi c hc
  obtain ⟨id, e, hid, -, he⟩ := h.exists_getElem?_finished (hsize ▸ hi)
  have hmem := List.mem_of_getElem? hid
  rw [hcopied.cell i id e hid he] at hc
  cases hc
  rw [hw hid, entryPorts, Subnet.given, hin, layout.numInputs]
  -- a link reads the value of the entry that the link of the copy stands for
  have hread : ∀ l ∈ e.links, (l.rename b.finished.idxOf).read w = l.read (b.values m σ) := by
    intro l hl
    have hreads : l.entry ∈ b.finished := List.mem_append_left _
      (h.mem_of_reads_finished hmem (by rw [driversOf, he]; exact List.mem_map_of_mem hl))
    rw [Link.read, Link.read, Link.rename, hw (List.getElem?_idxOf hreads)]
  rcases position_finished hid with ⟨hlt, hin⟩ | ⟨hle, hlt, hin⟩ | ⟨hle, hin⟩
  · rw [if_pos hlt, layout.values_of_input (List.mem_of_getElem? hin)]
    have nodup := layout.arranged.linked.nodup
    rw [List.append_assoc] at nodup
    obtain ⟨hi, rfl⟩ := List.getElem?_eq_some_iff.1 hin
    rw [(List.nodup_append.1 nodup).1.idxOf_getElem i hi]
  · rw [if_neg (Nat.not_lt.2 hle), layout.values_of_cell
      (List.mem_append_left _ (List.mem_filter.1 hin).1) he]
    exact (Cell.portsIn_rename hread).symm
  · rw [if_neg (by omega), layout.values_of_cell (List.mem_append_right _ (List.mem_of_getElem? hin)) he]
    exact (Cell.portsIn_rename hread).symm

end WellFormed

/-- What a finished network has in common with the builder: as many inputs and outputs, the values at
the outputs, and copies of some of the living entries. -/
structure Finished (b : Builder) (net : Subnet) : Prop where
  numInputs : net.numInputs = b.inputs.length
  numOutputs : net.numOutputs = b.outputs.length
  outputValues : ∀ m σ, net.outputValues m σ = b.outputValues m σ
  size : net.size = b.finished.length
  entry : ∀ (i : Nat) c, net.cells[i]? = some c → ∃ id e, b.finished[i]? = some id ∧
    id ∈ b.order ∧ b.cells[id]? = some e ∧ c = e.rename b.finished.idxOf

/-- A well-formed builder can be finished. -/
theorem WellFormed.exists_finished (h : WellFormed b) : ∃ net, b.finish = .ok net ∧ Finished b net := by
  have layout := h.layout
  have harr := layout.arranged_order
  obtain ⟨places, cells, hrun, hcopied⟩ := h.exists_copies
  have hvalid := h.violation?_copies hcopied
  refine ⟨⟨cells, b.numInputs, b.numOutputs, hvalid⟩, ?_, layout.numInputs, layout.numOutputs, ?_,
    hcopied.size, ?_⟩
  · simp only [finish, hrun, ok_bind, Subnet.ofCells]
    split
    · rename_i net heq
      split at heq
      · cases heq
        rfl
      · cases heq
    · rename_i v heq
      split at heq
      · cases heq
      · rename_i hv
        rw [hvalid] at hv
        cases hv
  · intro m σ
    have hlength : b.finished.length = b.inputs.length + b.needed.length + b.outputs.length := by
      rw [finished, List.length_append, List.length_append]
    have hstart : cells.size - b.numOutputs = b.inputs.length + b.needed.length := by
      rw [hcopied.size, hlength, layout.numOutputs]
      omega
    simp only [Subnet.outputValues, Subnet.outputs, Subnet.outputStart, Subnet.size, hstart,
      Builder.outputValues]
    refine List.ext_getElem (by simp [layout.numOutputs]) fun k hk hk' => ?_
    have hk : k < b.outputs.length := by simpa using hk'
    simp only [List.getElem_map, List.getElem_range', Nat.one_mul]
    refine congrArg (·.headD false)
      (h.values_copies ⟨cells, b.numInputs, b.numOutputs, hvalid⟩ hcopied rfl ?_)
    rw [finished, List.getElem?_append_right (by simp), List.length_append, Nat.add_sub_cancel_left,
      List.getElem?_eq_getElem hk]
  · intro i c hc
    obtain ⟨id, e, hid, hmem, he⟩ :=
      h.exists_getElem?_finished (hcopied.size ▸ (Array.getElem?_eq_some_iff.1 hc).1)
    rw [hcopied.cell i id e hid he] at hc
    exact ⟨id, e, hid, hmem, he, (Option.some.inj hc).symm⟩

/-- All living cells can be evaluated. -/
def Evaluable (store : Store) (b : Builder) : Prop :=
  ∀ id ∈ b.order, ∀ c, b.cells[id]? = some c → c.isInput = false →
    store.EvaluableBelow store.subnets.size c ∧ store.InRange b.cells c

namespace Finished

variable {net : Subnet} {store : Store} {strict : Prop}

lemma regular (h : b.Finished net) (regular : b.Regular store strict) :
    ∀ c ∈ net.cells, store.Regular strict c := by
  intro c hc
  obtain ⟨i, hi⟩ := Array.getElem?_of_mem hc
  obtain ⟨id, e, -, hmem, he, rfl⟩ := h.entry i c hi
  have := regular id hmem e he
  refine ⟨fun l hl => ?_, fun hin => (this.evaluable hin).congr rfl (by simp [Cell.rename]),
    fun hs hconst => by simp [Cell.rename, this.constant hs hconst]⟩
  obtain ⟨k, hk, rfl⟩ := List.mem_map.1 hl
  exact this.port k hk

lemma evaluable (h : b.Finished net) (evaluable : b.Evaluable store) : store.Evaluable net := by
  intro j c hc hinput
  obtain ⟨id, e, -, hmem, he, rfl⟩ := h.entry j c hc
  obtain ⟨below, range⟩ := evaluable id hmem e he hinput
  refine ⟨below.congr rfl (by simp [Cell.rename]), fun l hl d hd => ?_⟩
  obtain ⟨k, hk, rfl⟩ := List.mem_map.1 hl
  -- the driver is copied, and its copy is of its kind
  obtain ⟨id', e', hid', -, he', rfl⟩ := h.entry _ d hd
  have hid' : b.finished[b.finished.idxOf k.entry]? = some id' := hid'
  have hmem' : k.entry ∈ b.finished :=
    List.idxOf_lt_length_iff.1 (List.getElem?_eq_some_iff.1 hid').1
  obtain rfl := Option.some.inj ((List.getElem?_idxOf hmem').symm.trans hid')
  exact range k hk e' he'

end Finished

/-- A well-formed builder can be finished. -/
theorem WellFormed.exists_finish (h : WellFormed b) :
    ∃ net, b.finish = .ok net ∧ net.numInputs = b.inputs.length ∧
      net.numOutputs = b.outputs.length ∧
      (∀ m σ, net.outputValues m σ = b.outputValues m σ) ∧
      ∀ store strict, b.Regular store strict → ∀ c ∈ net.cells, store.Regular strict c := by
  obtain ⟨net, hrun, finished⟩ := h.exists_finished
  exact ⟨net, hrun, finished.numInputs, finished.numOutputs, finished.outputValues,
    fun _ _ => finished.regular⟩

lemma regular_empty (store : Store) (strict : Prop) (options : BuilderOptions) :
    Regular store strict (.empty options) := by
  intro id hid
  simp [(layout_empty options).order_eq] at hid

/-- A network with one output is built from `n` inputs and a step that shows some function of
them. -/
theorem exists_toSubnet (store : Store) {n : Nat} {options : BuilderOptions} {m : Meaning}
    {add : List Link → Build Link} {P : ((Nat → Bool) → Bool) → Prop}
    (hadd : ∀ links b, WellFormed b → b.ShowsAll m links ((List.range n).map fun v σ => σ v) →
      ∃ l b' f, add links b = .ok (l, b') ∧ Step store b b' ∧ b'.Shows m l f ∧ P f) :
    ∃ net f, Build.toSubnet (do discard (addOutput (← add (← addInputs n)))) options = .ok net ∧
      net.numInputs = n ∧ net.numOutputs = 1 ∧ (∀ σ, net.outputValues m σ = [f σ]) ∧ P f ∧
      ∀ c ∈ net.cells, store.Regular True c := by
  have hempty := layout_empty options
  obtain ⟨links, b₁, hrun₁, h₁, inputs, -, outputs, -, shows, regular₁⟩ :=
    (wellFormed_empty options).addInputs_shows store (m := m) n
  rw [hempty.inputs_eq, List.length_nil] at inputs shows
  rw [← List.range_eq_range'] at shows
  obtain ⟨l, b₂, f, hrun₂, step, hl, hP⟩ := hadd links b₁ h₁ shows
  obtain ⟨b₃, hrun₃, h₃, inputs₃, outputs₃, values, -, regular₃⟩ :=
    step.wellFormed.addOutput_shows store hl
  have houtputs : b₂.outputs = [] := by rw [step.grown.outputs, outputs, hempty.outputs_eq]
  obtain ⟨net, hnet, hin, hout, hvalues, hregular⟩ := h₃.exists_finish
  refine ⟨net, f, ?_, ?_, ?_, fun σ => ?_, hP, ?_⟩
  · have hrun : (do discard (addOutput (← add (← addInputs n))) : Build Unit) (.empty options) =
        .ok ((), b₃) :=
      build_bind_eq_ok_iff.2 ⟨links, b₁, hrun₁, build_bind_eq_ok_iff.2
        ⟨l, b₂, hrun₂, build_discard_eq_ok_iff.2 ⟨_, hrun₃⟩⟩⟩
    exact bind_eq_ok_iff.2 ⟨((), b₃), hrun, hnet⟩
  · rw [hin, inputs₃, step.grown.inputs, inputs, Nat.zero_add]
  · rw [hout, outputs₃, houtputs]
    rfl
  · rw [hvalues m σ, values σ, outputValues, houtputs]
    rfl
  · exact hregular store True (regular₃ (step.regular (regular₁ (regular_empty store True options))))

end Builder

end Gatework
