import Gatework.Proofs.Builder.Finish
import Gatework.Proofs.Builder.Invariant

/-!
# Copies of evaluable networks

In a builder that simplifies nothing, every inner cell of a network that is copied becomes a cell of
its own.  So the copy works for all networks that can be evaluated, also for those that read other ports
than the first: an inner cell has the same values on all ports as its original, only the inputs stand
for links that may be complemented.

**Main statement.** `exists_addInstance`.
-/

namespace Gatework

namespace Builder

variable {store : Store} {strict : Prop} {b b' : Builder} {m : Meaning} {c : Cell} {l : Link}
  {f g : (Nat → Bool) → Bool}

/-- A builder with regular cells can be evaluated. -/
lemma Regular.evaluable (h : b.Regular store strict) (wf : WellFormed b) : b.Evaluable store := by
  intro id hid c hc hinput
  refine ⟨(h id hid c hc).evaluable hinput, fun l hl d hd => ?_⟩
  have hmem : l.entry ∈ b.order := by
    refine wf.arranged.mem_of_reads id hid l.entry ?_
    rw [driversOf, hc]
    exact List.mem_map_of_mem hl
  rw [(h id hid c hc).port l hl]
  by_cases hd' : d.isInput = true
  · rw [Store.numPorts_of_isInput hd']
    exact Nat.one_pos
  · exact ((h _ hmem d hd).evaluable (Bool.eq_false_iff.2 hd')).numPorts_pos

/-- An entry that may be read has a port. -/
lemma Evaluable.numPorts_pos (h : b.Evaluable store) {id : Nat} (hid : id ∈ b.order)
    (hc : b.cells[id]? = some c) : 0 < store.numPorts c.kind := by
  by_cases hinput : c.isInput = true
  · rw [Store.numPorts_of_isInput hinput]
    exact Nat.one_pos
  · exact (h id hid c hc (Bool.eq_false_iff.2 hinput)).1.numPorts_pos

/-- One more cell, which can be evaluated. -/
lemma Evaluable.push (h : b.Evaluable store) (wf : WellFormed b)
    (order : ∀ id ∈ b'.order, id ∈ b.order ∨ id = b.size) (hcells : b'.cells = b.cells.push c)
    (reads : ∀ l ∈ c.links, l.entry ∈ b.order)
    (hc : store.EvaluableBelow store.subnets.size c ∧ store.InRange b.cells c) :
    b'.Evaluable store := by
  have range : ∀ e : Cell, (∀ l ∈ e.links, l.entry ∈ b.order) → store.InRange b.cells e →
      store.InRange b'.cells e := by
    intro e he hrange l hl d hd
    rw [hcells, Array.getElem?_push_lt (wf.lt_size (he l hl))] at hd
    exact hrange l hl d ((Array.getElem?_eq_getElem (wf.lt_size (he l hl))).trans hd)
  intro id hid e he hinput
  rw [hcells, Array.getElem?_push] at he
  split at he
  · cases he
    exact ⟨hc.1, range _ reads hc.2⟩
  · rename_i hne
    have hmem := (order id hid).resolve_right hne
    obtain ⟨below, hrange⟩ := h id hmem e he hinput
    refine ⟨below, range e (fun l hl => ?_) hrange⟩
    refine wf.arranged.mem_of_reads id hmem l.entry ?_
    rw [driversOf, he]
    exact List.mem_map_of_mem hl

/-- A link may be read, the port that it reads exists, and it has the value of a function of the
assignment. -/
structure Delivers (store : Store) (b : Builder) (m : Meaning) (l : Link)
    (f : (Nat → Bool) → Bool) : Prop where
  readable : b.Readable l
  port : ∀ d, b.cells[l.entry]? = some d → l.port.toNat < store.numPorts d.kind
  read : ∀ σ, l.read (b.values m σ) = f σ

namespace Delivers

lemma of_shows (h : b.Shows m l f) (wf : WellFormed b) (evaluable : b.Evaluable store) :
    Delivers store b m l f where
  readable := h.readable
  port d hd := by
    rw [h.port]
    exact evaluable.numPorts_pos (wf.mem_order h.readable) hd
  read := h.read

lemma grown (h : Delivers store b m l f) (wf : WellFormed b) (grown : Grown b b') :
    Delivers store b' m l f where
  readable := h.readable.grown grown
  port d hd := by
    rw [grown.cells _ (wf.lt_size (wf.mem_order h.readable))] at hd
    exact h.port d hd
  read σ := by
    rw [← h.read σ, Link.read, Link.read, grown.values_eq wf (wf.mem_order h.readable)]

lemma congr (h : Delivers store b m l f) (same : ∀ σ, f σ = g σ) : Delivers store b m l g :=
  ⟨h.readable, h.port, fun σ => (h.read σ).trans (same σ)⟩

lemma invertIf (h : Delivers store b m l f) (flag : Bool) :
    Delivers store b m (l.invertIf flag) fun σ => f σ ^^ flag := by
  refine ⟨h.readable, h.port, fun σ => ?_⟩
  show _ = (f σ ^^ flag)
  rw [← h.read σ, Link.read, Link.read, Link.invertIf, Bool.xor_assoc]

end Delivers

/-- Where nothing is simplified a cell is added as it is. -/
lemma WellFormed.addPositive_eq (h : WellFormed b) (plain : b.options = {}) {kind : CellKind}
    {links : List Link} (reads : ∀ l ∈ links, b.Readable l) :
    addPositive kind links b = .ok (.of b.size, (b.append ⟨kind, links⟩).2) := by
  have hcheck : links.forM b.checkDriver = .ok () :=
    forM_eq_ok_iff.2 fun l hl => h.readable_iff.2 (reads l hl)
  have hplace : b.place ⟨kind, links⟩ = (.of b.size, (b.append ⟨kind, links⟩).2) := by
    unfold Builder.place
    rw [plain]
    rfl
  rw [addPositive, hcheck, plain]
  show Except.ok ((b.place ⟨kind, links⟩).1.invertIf false, (b.place ⟨kind, links⟩).2) = _
  rw [hplace]
  rfl

/-- The first entries of an evaluable network have been copied: inner cells have the values of their
originals, and so has what the outputs show. -/
structure Mirrored (store : Store) (net : Subnet) (m : Meaning) (τ : (Nat → Bool) → Nat → Bool)
    (count : Nat) (places : Array Link) (shown : List Link) (b : Builder) : Prop where
  size : places.size = count
  input : ∀ j < count, j < net.numInputs → ∃ l, places[j]? = some l ∧ b.Shows m l fun σ => τ σ j
  inner : ∀ j < count, ∀ c, net.cells[j]? = some c → c.isTerminal = false →
    ∃ id d, places[j]? = some (.of id) ∧ id ∈ b.inner ∧ b.cells[id]? = some d ∧ d.kind = c.kind ∧
      ∀ σ, b.values m σ id = net.values m (τ σ) j
  port : (∀ c ∈ net.cells, ∀ l ∈ c.links, l.port = 0) → ∀ l ∈ shown, l.port = 0
  shown : List.Forall₂ (fun l o => Delivers store b m l fun σ => (net.values m (τ σ) o).headD false)
    shown ((List.range count).filter (net.outputStart ≤ ·))

namespace Mirrored

variable {net : Subnet} {τ : (Nat → Bool) → Nat → Bool} {count : Nat} {places : Array Link}
  {shown links : List Link}

/-- A link inside of the network becomes a link with the same value. -/
lemma relink_delivers (h : Mirrored store net m τ count places shown b) (wf : WellFormed b)
    (evaluable : b.Evaluable store) (hnet : store.Evaluable net) (hc : net.cells[count]? = some c)
    (hinput : c.isInput = false) (hl : l ∈ c.links) :
    ∃ l', relink places l = .ok l' ∧
      Delivers store b m l' (fun σ => l.read (net.values m (τ σ))) ∧ (l.port = 0 → l'.port = 0) := by
  obtain ⟨d, hd, hlt, -, hout⟩ := Subnet.exists_driver hc (List.mem_map_of_mem hl)
  have hport := (hnet count c hc hinput).2 l hl d hd
  by_cases hin : d.isInput = true
  · -- an input has no other port than the first
    have hnum := (net.obeys hd).isInput_iff.1 hin
    rw [Store.numPorts_of_isInput hin, Nat.lt_one_iff] at hport
    have hport : l.port = 0 := UInt16.toNat_inj.1 hport
    obtain ⟨place, hplace, shows⟩ := h.input l.entry hlt hnum
    refine ⟨place.invertIf l.inverted, ?_, ?_, fun _ => shows.port⟩
    · simp [relink, hplace, hport, Link.invertIf]
    · refine Delivers.of_shows ((shows.invertIf l.inverted).congr fun σ => ?_) wf evaluable
      rw [Link.read, hport, Subnet.values_of_lt hnum]
      rfl
  · have hin : d.isInput = false := Bool.eq_false_iff.2 hin
    obtain ⟨id, e, hplace, hid, he, hkind, values⟩ :=
      h.inner l.entry hlt d hd (Bool.or_eq_false_iff.2 ⟨hin, hout⟩)
    refine ⟨{ l with entry := id }, ?_, ⟨List.mem_append_right _ hid, fun e' he' => ?_,
      fun σ => ?_⟩, fun h => h⟩
    · rw [relink, hplace]
      by_cases hzero : l.port = 0 <;> simp [Link.of, hzero]
    · cases he.symm.trans he'
      rw [hkind]
      exact hport
    · rw [Link.read, Link.read, values σ]

lemma grown (h : Mirrored store net m τ count places shown b) (wf : WellFormed b)
    (hb' : Grown b b') : Mirrored store net m τ count places shown b' where
  size := h.size
  input j hj hin := by
    obtain ⟨l, hl, shows⟩ := h.input j hj hin
    exact ⟨l, hl, shows.grown wf hb'⟩
  inner j hj c hc hterm := by
    obtain ⟨id, d, hplace, hid, hd, hkind, values⟩ := h.inner j hj c hc hterm
    have hmem : id ∈ b.order := wf.layout.mem_order.2 (.inr (.inl hid))
    refine ⟨id, d, hplace, hb'.inner.subset hid, ?_, hkind, fun σ => ?_⟩
    · rw [hb'.cells id (wf.lt_size hmem), hd]
    · rw [hb'.values_eq wf hmem, values σ]
  shown := h.shown.imp fun _ _ hl => hl.grown wf hb'
  port := h.port

/-- One more entry that is not an output. -/
lemma push (h : Mirrored store net m τ count places shown b) (hc : net.cells[count]? = some c)
    (hout : c.isOutput = false)
    (hin : count < net.numInputs → b.Shows m l fun σ => τ σ count)
    (hinner : c.isTerminal = false → ∃ id d, l = .of id ∧ id ∈ b.inner ∧ b.cells[id]? = some d ∧
      d.kind = c.kind ∧ ∀ σ, b.values m σ id = net.values m (τ σ) count) :
    Mirrored store net m τ (count + 1) (places.push l) shown b where
  size := by simp [h.size]
  input j hj hlt := by
    rw [Array.getElem?_push, h.size]
    split
    · rename_i e
      exact ⟨l, rfl, e ▸ hin (e ▸ hlt)⟩
    · exact h.input j (by omega) hlt
  inner j hj e he hterm := by
    rw [Array.getElem?_push, h.size]
    split
    · rename_i hj
      subst hj
      cases hc.symm.trans he
      obtain ⟨id, d, rfl, rest⟩ := hinner hterm
      exact ⟨id, d, rfl, rest⟩
    · exact h.inner j (by omega) e he hterm
  shown := by
    have : ¬ net.outputStart ≤ count := fun hle => by
      rw [(net.obeys hc).isOutput_iff.2 hle] at hout
      cases hout
    simpa [List.range_succ, List.filter_append, this] using h.shown
  port := h.port

/-- One more output. -/
lemma push_output (h : Mirrored store net m τ count places shown b) (hc : net.cells[count]? = some c)
    (hout : c.isOutput = true) {l' : Link}
    (hl : Delivers store b m l fun σ => (net.values m (τ σ) count).headD false)
    (hport : (∀ c ∈ net.cells, ∀ l ∈ c.links, l.port = 0) → l.port = 0) :
    Mirrored store net m τ (count + 1) (places.push l') (shown ++ [l]) b where
  size := by simp [h.size]
  input j hj hlt := by
    have hne : j ≠ count := by
      rintro rfl
      rw [Cell.isOutput, Subnet.kind_of_lt hc hlt] at hout
      cases hout
    rw [Array.getElem?_push, if_neg (h.size ▸ hne)]
    exact h.input j (by omega) hlt
  inner j hj e he hterm := by
    have hne : j ≠ count := by
      rintro rfl
      cases hc.symm.trans he
      rw [Cell.isTerminal, hout, Bool.or_true] at hterm
      cases hterm
    rw [Array.getElem?_push, if_neg (h.size ▸ hne)]
    exact h.inner j (by omega) e he hterm
  shown := by
    have : net.outputStart ≤ count := (net.obeys hc).isOutput_iff.1 hout
    simp only [List.range_succ, List.filter_append]
    refine List.rel_append h.shown ?_
    simpa [this] using hl
  port ports k hk := by
    rcases List.mem_append.1 hk with hk | hk
    · exact h.port ports k hk
    · exact List.mem_singleton.1 hk ▸ hport ports

lemma step_input (h : Mirrored store net m τ count places shown b)
    (hc : net.cells[count]? = some c) (hinput : c.isInput = true)
    {fs : List ((Nat → Bool) → Bool)} (hlinks : b.ShowsAll m links fs)
    (hlength : links.length = net.numInputs) (hτ : ∀ σ j f, fs[j]? = some f → τ σ j = f σ) :
    ∃ l, addInstanceCell links.toArray (places, shown) c b = .ok ((places.push l, shown), b) ∧
      Mirrored store net m τ (count + 1) (places.push l) shown b := by
  have hlt : count < net.numInputs := (net.obeys hc).isInput_iff.1 hinput
  obtain ⟨l, f, hl, hf, shows⟩ := hlinks.getElem? (hlength ▸ hlt)
  have hkind : c.kind.symbol = .gate .input := beq_iff_eq.1 hinput
  refine ⟨l, (addInstanceCell_input_iff hinput).2 ⟨l, h.size ▸ hl, rfl⟩,
    h.push hc (by simp [Cell.isOutput, hkind])
      (fun _ => shows.congr fun σ => (hτ σ count f hf).symm) fun hterm => ?_⟩
  rw [Cell.isTerminal, hinput, Bool.true_or] at hterm
  cases hterm

lemma step_output (h : Mirrored store net m τ count places shown b) (wf : WellFormed b)
    (evaluable : b.Evaluable store) (hnet : store.Evaluable net) (hc : net.cells[count]? = some c)
    (hout : c.isOutput = true) :
    ∃ l, addInstanceCell links.toArray (places, shown) c b =
        .ok ((places.push (.of 0), shown ++ [l]), b) ∧
      Mirrored store net m τ (count + 1) (places.push (.of 0)) (shown ++ [l]) b := by
  have hkind : c.kind.symbol = .gate .output := beq_iff_eq.1 hout
  have hinput : c.isInput = false := by simp [Cell.isInput, hkind]
  have hne := (Store.evaluableBelow_gate hkind).1 (hnet count c hc hinput).1 rfl
  obtain ⟨l, rest, hlinks⟩ := List.exists_cons_of_ne_nil hne
  have hmem : l ∈ c.links := by simp [hlinks]
  obtain ⟨l', hl', delivers, hport⟩ := h.relink_delivers wf evaluable hnet hc hinput hmem
  refine ⟨l', (addInstanceCell_output_iff hout).2 ⟨l, rest, l', hlinks, hl', rfl⟩,
    h.push_output hc hout (delivers.congr fun σ => ?_) fun ports => ?_⟩
  · rw [Subnet.values_of_output hc hout hlinks, List.headD_cons]
  · exact hport (ports c (Array.mem_of_getElem? hc) l hmem)

/-- The operands of an inner cell deliver what the cell reads. -/
lemma exists_operands (h : Mirrored store net m τ count places shown b) (wf : WellFormed b)
    (evaluable : b.Evaluable store) (hnet : store.Evaluable net) (hc : net.cells[count]? = some c)
    (hinput : c.isInput = false) :
    ∃ operands, c.links.mapM (relink places) = .ok operands ∧
      operands.length = c.links.length ∧
      (∀ l' ∈ operands, ∃ l ∈ c.links,
        Delivers store b m l' (fun σ => l.read (net.values m (τ σ))) ∧ (l.port = 0 → l'.port = 0)) ∧
      ∀ σ, operands.map (Link.read (b.values m σ)) =
        c.links.map (Link.read (net.values m (τ σ))) := by
  obtain ⟨operands, hoperands, hall⟩ := @exists_mapM_eq_ok _ _ _ (relink places)
    (fun l l' => Delivers store b m l' (fun σ => l.read (net.values m (τ σ))) ∧
      (l.port = 0 → l'.port = 0)) c.links fun l hl =>
        h.relink_delivers wf evaluable hnet hc hinput hl
  refine ⟨operands, hoperands, hall.length_eq.symm, exists_of_forall₂_right hall, fun σ => ?_⟩
  refine List.forall₂_eq_eq_eq ▸ List.forall₂_map_left_iff.2 (List.forall₂_map_right_iff.2 ?_)
  exact hall.flip.imp fun l' l hl => hl.1.read σ

lemma step_inner (h : Mirrored store net m τ count places shown b) (wf : WellFormed b)
    (plain : b.options = {}) (evaluable : b.Evaluable store) (hnet : store.Evaluable net)
    (hc : net.cells[count]? = some c) (hterm : c.isTerminal = false) :
    ∃ l b', addInstanceCell links.toArray (places, shown) c b = .ok ((places.push l, shown), b') ∧
      Grown b b' ∧ b'.Evaluable store ∧
      (∀ strict : Prop, (∀ c ∈ net.cells, store.Regular strict c) → b.Regular store strict →
        b'.Regular store strict) ∧
      Mirrored store net m τ (count + 1) (places.push l) shown b' := by
  obtain ⟨hinput, hout⟩ := Bool.or_eq_false_iff.1 hterm
  have hge := Subnet.numInputs_le hc hinput
  obtain ⟨operands, hoperands, hlength, hoperand, hread⟩ :=
    h.exists_operands wf evaluable hnet hc hinput
  have readable : ∀ l' ∈ operands, b.Readable l' := fun l' hl' => by
    obtain ⟨l, -, delivers, -⟩ := hoperand l' hl'
    exact delivers.readable
  obtain ⟨-, grown, inner, hcells⟩ := wf.append (c := ⟨c.kind, operands⟩) hterm readable
  have order : ∀ id ∈ (b.append ⟨c.kind, operands⟩).2.order, id ∈ b.order ∨ id = b.size :=
    fun _ => wf.mem_order_append (c := ⟨c.kind, operands⟩) hterm readable
  have below : store.EvaluableBelow store.subnets.size ⟨c.kind, operands⟩ :=
    (hnet count c hc hinput).1.congr rfl hlength
  refine ⟨.of b.size, _, (addInstanceCell_inner_iff hterm).2
    ⟨operands, _, _, hoperands, wf.addPositive_eq plain readable, rfl⟩, grown, ?_,
    fun strict regular hb => ?_, (h.grown wf grown).push hc hout (fun hlt => absurd hlt (Nat.not_lt.2 hge)) fun _ => ?_⟩
  · refine evaluable.push wf order hcells (fun l hl => wf.mem_order (readable l hl)) ⟨below, ?_⟩
    intro l' hl' d hd
    obtain ⟨l, -, delivers, -⟩ := hoperand l' hl'
    exact delivers.port d hd
  · have regular := regular c (Array.mem_of_getElem? hc)
    refine wf.regular_append hterm readable ⟨fun l' hl' => ?_, fun _ => below, fun hs hconst => ?_⟩ hb
    · obtain ⟨l, hl, -, hport⟩ := hoperand l' hl'
      exact hport (regular.port l hl)
    · rw [regular.constant hs hconst] at hlength
      exact List.length_eq_zero_iff.1 hlength
  · refine ⟨b.size, ⟨c.kind, operands⟩, rfl, by simp [inner], by simp [hcells, Builder.size], rfl,
      fun σ => ?_⟩
    rw [wf.values_append (m := m) (c := ⟨c.kind, operands⟩) hterm readable σ,
      Subnet.values_of_le hge hc, Cell.portsIn, hread]
    rfl

/-- One more cell is copied. -/
lemma step (h : Mirrored store net m τ count places shown b) (wf : WellFormed b)
    (plain : b.options = {}) (evaluable : b.Evaluable store) (hnet : store.Evaluable net)
    (hc : net.cells[count]? = some c) {fs : List ((Nat → Bool) → Bool)}
    (hlinks : b.ShowsAll m links fs) (hlength : links.length = net.numInputs)
    (hτ : ∀ σ j f, fs[j]? = some f → τ σ j = f σ) :
    ∃ places' shown' b', addInstanceCell links.toArray (places, shown) c b =
        .ok ((places', shown'), b') ∧ Grown b b' ∧ b'.Evaluable store ∧
      (∀ strict : Prop, (∀ c ∈ net.cells, store.Regular strict c) → b.Regular store strict →
        b'.Regular store strict) ∧
      Mirrored store net m τ (count + 1) places' shown' b' := by
  cases hinput : c.isInput with
  | true =>
      obtain ⟨l, hrun, h'⟩ := h.step_input hc hinput hlinks hlength hτ
      exact ⟨_, _, b, hrun, .refl wf, evaluable, fun _ _ => id, h'⟩
  | false =>
      cases hout : c.isOutput with
      | true =>
          obtain ⟨l, hrun, h'⟩ := h.step_output wf evaluable hnet hc hout
          exact ⟨_, _, b, hrun, .refl wf, evaluable, fun _ _ => id, h'⟩
      | false =>
          have hterm : c.isTerminal = false := Bool.or_eq_false_iff.2 ⟨hinput, hout⟩
          obtain ⟨l, b', hrun, rest⟩ := h.step_inner wf plain evaluable hnet hc hterm
          exact ⟨_, _, b', hrun, rest⟩

end Mirrored

/-- A copy of an evaluable network shows what its outputs show. -/
theorem exists_addInstance {net : Subnet} {links : List Link} (wf : WellFormed b)
    (plain : b.options = {}) (evaluable : b.Evaluable store) (hnet : store.Evaluable net)
    {fs : List ((Nat → Bool) → Bool)} (hlinks : b.ShowsAll m links fs)
    (hlength : links.length = net.numInputs) :
    ∃ shown b', addInstance net links b = .ok (shown, b') ∧ Grown b b' ∧ b'.Evaluable store ∧
      (∀ strict : Prop, (∀ c ∈ net.cells, store.Regular strict c) →
        (b.Regular store strict → b'.Regular store strict) ∧ ∀ l ∈ shown, l.port = 0) ∧
      List.Forall₂ (fun l o => Delivers store b' m l fun σ =>
        (net.values m (fun j => (fs.map (· σ)).getD j false) o).headD false) shown net.outputs := by
  have hτ : ∀ σ j f, fs[j]? = some f → (fs.map (· σ)).getD j false = f σ := by
    intro σ j f hf
    simp [List.getD_eq_getElem?_getD, hf]
  obtain ⟨⟨places, shown⟩, b', hrun, grown, evaluable', regular, done⟩ := @exists_build_foldlM _ _
    (addInstanceCell links.toArray) net.cells.toList (#[], []) b
    (fun done state b' => Grown b b' ∧ b'.Evaluable store ∧
      (∀ strict : Prop, (∀ c ∈ net.cells, store.Regular strict c) → b.Regular store strict →
        b'.Regular store strict) ∧
      Mirrored store net m (fun σ j => (fs.map (· σ)).getD j false) done.length state.1 state.2 b')
    ⟨.refl wf, evaluable, fun _ _ => id, rfl, by simp, by simp, by simp, .nil⟩ (by
      rintro done c rest ⟨places, shown⟩ b₁ hcells ⟨grown, evaluable₁, regular₁, hdone⟩
      have hc : net.cells[done.length]? = some c := by
        rw [← Array.getElem?_toList, hcells]
        simp
      obtain ⟨places', shown', b₂, hrun, grown', evaluable₂, regular₂, hdone'⟩ :=
        hdone.step grown.wellFormed (grown.options.trans plain) evaluable₁ hnet hc
          (hlinks.grown wf grown) hlength hτ
      exact ⟨(places', shown'), b₂, hrun, grown.trans grown', evaluable₂,
        fun strict hr hb => regular₂ strict hr (regular₁ strict hr hb), by simpa using hdone'⟩)
  refine ⟨shown, b', ?_, grown, evaluable', fun strict hr =>
    ⟨regular strict hr, done.port fun c hc => (hr c hc).port⟩, ?_⟩
  · unfold addInstance
    rw [if_pos hlength, build_bind_eq_ok_iff]
    exact ⟨(places, shown), b', hrun, rfl⟩
  · have := done.shown
    rwa [Array.length_toList, show net.cells.size = net.size from rfl, net.filter_outputs] at this

/-- Inputs do not change the options. -/
lemma WellFormed.options_addInputs {count : Nat} {links : List Link} (h : WellFormed b)
    (run : addInputs count b = .ok (links, b')) : b'.options = b.options := by
  induction count generalizing b links with
  | zero =>
      cases run
      rfl
  | succ count ih =>
      rw [addInputs, List.replicate_succ, List.mapM_cons, build_bind_eq_ok_iff] at run
      obtain ⟨l, b₁, hfirst, run⟩ := run
      obtain ⟨ls, b₂, hrest, run⟩ := build_bind_eq_ok_iff.1 run
      obtain ⟨b₁', hfirst', h₁, -, -, -, options, -⟩ := h.addInput
      cases hfirst.symm.trans hfirst'
      cases run
      exact (ih h₁ hrest).trans options

end Builder

end Gatework
