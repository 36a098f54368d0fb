import Gatework.Proofs.Mapping.Construction
import Gatework.Proofs.Reach

/-!
# The mapped network of a choice

The entries that the outputs need are closed under what their realisations read, and together with the
inputs they are realised in order.  Each of them is placed by a step that keeps the invariant
(`leads_place`), so at the end the outputs have the values of the original network.

**Main statement.** `MappedNetwork.ofChoice_spec`.
-/

namespace Gatework

open Builder

/-- A network of regular cells has as many inputs and outputs as another one and, for every assignment of
the inputs, the same values at the outputs. -/
structure Subnet.Agrees (store : Store) (mapped net : Subnet) : Prop where
  numInputs : mapped.numInputs = net.numInputs
  numOutputs : mapped.numOutputs = net.numOutputs
  values : ∀ σ, mapped.outputValues store.ports σ = net.outputValues store.ports σ
  regular : ∀ c ∈ mapped.cells, store.Regular True c

/-- The links of a realisation to the entries that it reads. -/
def Realization.links : Realization → List Link
  | input | zero | one | wire _ => []
  | output l => [l]
  | cell _ pins => pins

namespace MappedNetwork

variable {net : Subnet} {store : Store} {library : Library} {choice : Choice} {taken : Nat → Prop}
  {k : Nat} {l : Link} {s : Builder × Places}

/-! ## What is realised -/

/-- What is taken has a choice that reads only what is taken, and all inputs and outputs are taken. -/
structure Closed (net : Subnet) (choice : Choice) (taken : Nat → Prop) : Prop where
  reads : ∀ e < net.size, taken e → ∃ r, choice.getD e none = some r ∧
    ∀ leaf ∈ r.leaves, leaf < net.size → taken leaf
  inputs : ∀ e < net.numInputs, taken e
  outputs : ∀ e < net.size, net.outputStart ≤ e → taken e

/-- The needed entries and the inputs are closed. -/
lemma closed_of_needed (input : ∀ e < net.numInputs, choice.getD e none = some .input)
    {needed : List Nat} (h : neededEntries net choice = .ok needed) :
    Closed net choice fun e => e ∈ needed ∨ e < net.numInputs := by
  simp only [neededEntries] at h
  split at h
  · cases h
  · rename_i hnone
    cases h
    refine ⟨fun e _ he => ?_, fun e => .inr, fun e hlt hle => .inl (mem_reachable_of_root ?_ hlt)⟩
    · rcases he with he | he
      · have hsome := List.find?_eq_none.1 hnone e he
        obtain ⟨r, hr⟩ : ∃ r, choice.getD e none = some r :=
          Option.ne_none_iff_exists'.1 (by simpa using hsome)
        refine ⟨r, hr, fun leaf hleaf hlt => .inl (mem_reachable_of_next he ?_ hlt)⟩
        rw [hr]
        exact hleaf
      · exact ⟨.input, input e he, nofun⟩
    · rw [← net.filter_outputs]
      exact List.mem_filter.2 ⟨List.mem_range.2 hlt, decide_eq_true hle⟩

lemma getD_foldl_mark (entries : List Nat) (marks : Array Bool) {v : Nat} (hv : v < marks.size) :
    (entries.foldl (fun marks v => marks.setIfInBounds v true) marks).getD v false =
      (marks.getD v false || decide (v ∈ entries)) := by
  induction entries generalizing marks with
  | nil => simp
  | cons w entries ih =>
      rw [List.foldl_cons, ih _ (by simpa using hv)]
      by_cases hw : w = v
      · subst hw
        simp [Array.getD_eq_getD_getElem?, hv]
      · simp [Array.getD_eq_getD_getElem?, Array.getElem?_setIfInBounds_ne hw, Ne.symm hw]

/-- The entries to realise are filtered by a test for being needed or an input. -/
lemma exists_realized (net : Subnet) (needed : List Nat) : ∃ test : Nat → Bool,
    realized net needed = (List.range net.size).filter test ∧
      ∀ v < net.size, test v = true ↔ v ∈ needed ∨ v < net.numInputs := by
  refine ⟨_, rfl, fun v hv => ?_⟩
  obtain ⟨c, hc⟩ := Subnet.exists_cell hv
  rw [getD_foldl_mark _ _ (by simpa using hv), hc, Option.any_some, Bool.or_eq_true,
    (net.obeys hc).isInput_iff]
  simp [Array.getD_eq_getD_getElem?, hv]

/-! ## One more entry -/

lemma filter_outputs_succ (net : Subnet) (k : Nat) :
    (List.range (k + 1)).filter (net.outputStart ≤ ·) =
      (List.range k).filter (net.outputStart ≤ ·) ++ if net.outputStart ≤ k then [k] else [] := by
  rw [List.range_succ, List.filter_append]
  by_cases h : net.outputStart ≤ k <;> simp [h]

namespace Placed

/-- An entry that is not taken. -/
lemma skip (h : Placed net store library taken k s) (closed : Closed net choice taken) (hk : k < net.size)
    (hnot : ¬taken k) : Placed net store library taken (k + 1) s := by
  have hin : ¬k < net.numInputs := fun hlt => hnot (closed.inputs k hlt)
  have hout : ¬net.outputStart ≤ k := fun hle => hnot (closed.outputs k hk hle)
  refine ⟨h.wellFormed, h.regular, ?_, fun σ => ?_, h.size, fun d hd hout htaken => ?_, h.inverted⟩
  · rw [h.inputs]
    omega
  · rw [h.outputs, filter_outputs_succ, if_neg hout, List.append_nil]
  · have hne : d ≠ k := fun e => hnot (e ▸ htaken)
    exact h.direct d (by omega) hout htaken

/-- The link of one more entry is known. -/
lemma assign {b : Builder} {places : Places} (h : Placed net store library taken k (b, places))
    (hk : k < net.outputStart) {l : Link} {b' : Builder} (wf : WellFormed b')
    (regular : b'.Regular store True)
    (inputs : b'.inputs.length = min (k + 1) net.numInputs)
    (outputs : ∀ σ, b'.outputValues store.ports σ = b.outputValues store.ports σ)
    (kept : Keeps store.ports (b, places) (b', places))
    (shows : b'.Shows store.ports l fun σ => net.first store.ports σ k) :
    Placed net store library taken (k + 1)
      (b', { places with direct := places.direct.setIfInBounds k l }) where
  wellFormed := wf
  regular := regular
  inputs := inputs
  outputs σ := by
    rw [outputs, h.outputs, filter_outputs_succ, if_neg (Nat.not_le.2 hk), List.append_nil]
  size := by simpa using h.size
  direct d hd hout htaken := by
    have hsize := h.size
    have hstart := net.outputStart_add_numOutputs
    dsimp only at hsize ⊢
    by_cases hdk : k = d
    · subst hdk
      have hlt : k < places.direct.size := by omega
      rwa [Array.getD_eq_getD_getElem?, Array.getElem?_setIfInBounds_self_of_lt hlt]
    · rw [Array.getD_eq_getD_getElem?, Array.getElem?_setIfInBounds_ne hdk,
        ← Array.getD_eq_getD_getElem?]
      exact kept _ _ (h.direct d (by omega) hout htaken)
  inverted d l hl := (h.inverted d l hl).imp_right (kept _ _)

/-- One more output shows its driver. -/
lemma show_output {b b' : Builder} {places : Places} (h : Placed net store library taken k (b, places))
    (hk : net.outputStart ≤ k) (wf : WellFormed b') (regular : b'.Regular store True)
    (inputs : b'.inputs = b.inputs)
    (outputs : ∀ σ, b'.outputValues store.ports σ =
      b.outputValues store.ports σ ++ [net.first store.ports σ k])
    (kept : Keeps store.ports (b, places) (b', places)) :
    Placed net store library taken (k + 1) (b', places) where
  wellFormed := wf
  regular := regular
  inputs := by
    have := net.numInputs_le_outputStart
    rw [inputs, h.inputs]
    omega
  outputs σ := by
    rw [outputs, h.outputs, filter_outputs_succ, if_pos hk, List.map_append, List.map_singleton]
  size := h.size
  direct d hd hout htaken := kept _ _ (h.direct d (by omega) hout htaken)
  inverted d l hl := (h.inverted d l hl).imp_right (kept _ _)

end Placed

/-- The realisation of an inner entry shows its value. -/
lemma leads_realize (installed : library.Installed store) (h : Placed net store library taken k s)
    {r : Realization} (below : ∀ leaf ∈ r.leaves, net.IsBelow leaf k ∧ taken leaf)
    (value : ∀ σ, r.value? library (net.first store.ports σ) =
      some (net.first store.ports σ k)) :
    Leads (∀ l ∈ r.links, l.Served library) (realize store library k r) s fun shown s' =>
      ∃ l, shown = some l ∧ Placed net store library taken k s' ∧
        s'.1.Shows store.ports l fun σ => net.first store.ports σ k := by
  have constant : ∀ value, (∀ σ, value = net.first store.ports σ k) →
      Leads True (some <$> onBuilder (addConst value)) s fun shown s' => ∃ l, shown = some l ∧
        Placed net store library taken k s' ∧
          s'.1.Shows store.ports l fun σ => net.first store.ports σ k := by
    intro value hvalue
    obtain ⟨l, b, hrun, step, shows⟩ := addConst_shows store (m := store.ports) h.wellFormed value
    exact (leads_onBuilder hrun ⟨l, rfl, (h.step step).1, shows.congr hvalue⟩).map
  cases r with
  | input => exact absurd (value fun _ => false) nofun
  | output l => exact absurd (value fun _ => false) nofun
  | zero =>
      refine (constant false fun σ => Option.some.inj (value σ)).congr ?_
      simp [Realization.links]
  | one =>
      refine (constant true fun σ => Option.some.inj (value σ)).congr ?_
      simp [Realization.links]
  | wire leaf =>
      obtain ⟨⟨hlt, hout⟩, htaken⟩ := below leaf (List.mem_singleton_self leaf)
      have shows := (h.direct leaf hlt hout htaken).congr fun σ => Option.some.inj (value σ)
      exact .goes _ s rfl ⟨_, rfl, h, shows⟩ (by simp [Realization.links])
  | cell i pins =>
      obtain ⟨c, hc, -⟩ := Option.bind_eq_some_iff.1 (value fun _ => false)
      have hvalue : ∀ σ, pins.length = c.inputs ∧ c.function.value (encode c.inputs fun p =>
          (pins.map (Link.valueOn (net.first store.ports σ))).getD p false) =
            net.first store.ports σ k := by
        intro σ
        have hσ := value σ
        rw [Realization.value?, hc, Option.bind_some] at hσ
        split at hσ
        · rename_i hpins
          exact ⟨hpins.1, Option.some.inj hσ⟩
        · cases hσ
      have hpins : ∀ l ∈ pins, l.entry < k ∧ l.entry < net.outputStart ∧ taken l.entry := fun l hl =>
        and_assoc.1 (below l.entry (List.mem_map_of_mem hl))
      refine (leads_signals installed k hpins h).finally ?_
      rintro links s₁ ⟨placed, -, shows⟩
      have hlength : links.length = c.inputs := by
        rw [shows.length_eq, List.length_map, (hvalue fun _ => false).1]
      refine Leads.map ((leads_addCell installed placed hc shows hlength).mono ?_)
      rintro l s₂ ⟨placed', -, shows'⟩
      refine ⟨l, rfl, placed', shows'.congr fun σ => ?_⟩
      rw [List.map_map]
      exact (hvalue σ).2

lemma leads_place_input (h : Placed net store library taken k s) (hin : k < net.numInputs)
    (hchoice : choice.getD k none = some .input) :
    Leads True (place store library choice k) s fun _ s' =>
      Placed net store library taken (k + 1) s' := by
  have hstart := net.numInputs_le_outputStart
  -- no output has been realised yet
  have houtputs : s.1.outputs = [] := by
    have hvalues := h.outputs fun _ => false
    rw [List.filter_eq_nil_iff.2 fun d hd => by
      have := List.mem_range.1 hd
      simp only [decide_eq_true_eq]
      omega] at hvalues
    exact List.map_eq_nil_iff.1 hvalues
  have hcount : s.1.inputs.length = k := by
    rw [h.inputs]
    omega
  obtain ⟨b, hrun, wf, inputs, -, outputs, -, kept, new, regular⟩ :=
    h.wellFormed.addInput_shows store (m := store.ports)
  unfold place
  simp only [hchoice]
  refine (Leads.map (R := fun shown t => shown = some (.of s.1.size) ∧ t = (b, s.2))
    (leads_onBuilder hrun ⟨rfl, rfl⟩)).andThen ?_
  rintro _ _ ⟨rfl, rfl⟩
  refine leads_modify (h.assign (by omega) wf (regular h.regular) ?_ (fun σ => ?_) kept
    (new.congr fun σ => ?_))
  · rw [inputs, List.length_append, hcount, List.length_singleton]
    omega
  · rw [outputValues, outputValues, outputs, houtputs]
    rfl
  · rw [hcount, Subnet.first_of_lt hin]

lemma leads_place_output (installed : library.Installed store) (h : Placed net store library taken k s)
    (start : net.outputStart ≤ k) (below : net.IsBelow l.entry k) (htaken : taken l.entry)
    (value : ∀ σ, net.first store.ports σ k = l.valueOn (net.first store.ports σ))
    (hchoice : choice.getD k none = some (.output l)) :
    Leads (l.Served library) (place store library choice k) s fun _ s' =>
      Placed net store library taken (k + 1) s' := by
  unfold place
  simp only [hchoice]
  refine Leads.finally (Q := fun shown t => shown = none ∧ Placed net store library taken (k + 1) t)
    ((leads_signal installed h below.1 below.2 htaken k).finally ?_) ?_
  · rintro link ⟨b, places⟩ ⟨placed, -, shows⟩
    obtain ⟨b', hrun, wf, inputs, -, outputs, kept, regular⟩ :=
      placed.wellFormed.addOutput_shows store shows
    have done := placed.show_output start wf (regular placed.regular) inputs
      (fun σ => by rw [outputs, value]) kept
    exact (Leads.discard (leads_onBuilder hrun done)).andThen fun _ _ placed =>
      leads_pure trivial ⟨rfl, placed⟩
  · rintro _ t ⟨rfl, placed⟩
    exact leads_pure trivial placed

lemma leads_place_inner (installed : library.Installed store) (h : Placed net store library taken k s)
    (hin : net.numInputs ≤ k) (hout : k < net.outputStart) {r : Realization}
    (below : ∀ leaf ∈ r.leaves, net.IsBelow leaf k ∧ taken leaf)
    (value : ∀ σ, r.value? library (net.first store.ports σ) = some (net.first store.ports σ k))
    (hchoice : choice.getD k none = some r) :
    Leads (∀ l ∈ r.links, l.Served library) (place store library choice k) s fun _ s' =>
      Placed net store library taken (k + 1) s' := by
  unfold place
  simp only [hchoice]
  refine (leads_realize installed h below value).finally ?_
  rintro _ ⟨b, places⟩ ⟨l, rfl, placed, shows⟩
  refine leads_modify (placed.assign hout placed.wellFormed placed.regular ?_ (fun _ => rfl)
    (fun _ _ => id) shows)
  rw [placed.inputs]
  omega

/-- The links of what a choice takes for an entry are served. -/
def ServedAt (library : Library) (choice : Choice) (entry : Nat) : Prop :=
  ∀ r, choice.getD entry none = some r → ∀ l ∈ r.links, l.Served library

/-- Placing one more entry keeps the invariant. -/
lemma leads_place (installed : library.Installed store) (closed : Closed net choice taken)
    (realizedBy : ∀ e < net.size, ∀ r, choice.getD e none = some r →
      net.RealizedBy store library e r)
    (h : Placed net store library taken k s) (hk : k < net.size) (htaken : taken k) :
    Leads (ServedAt library choice k) (place store library choice k) s fun _ s' =>
      Placed net store library taken (k + 1) s' := by
  obtain ⟨r, hr, reads⟩ := closed.reads k hk htaken
  have hserved : (∀ l ∈ r.links, l.Served library) ↔ ServedAt library choice k := by
    simp [ServedAt, hr]
  cases realizedBy k hk r hr with
  | input hin => exact (leads_place_input h hin hr).congr (by simpa [Realization.links] using hserved)
  | output start below value =>
      have htaken' := reads _ (List.mem_singleton_self _) (below.1.trans hk)
      exact (leads_place_output installed h start below htaken' value hr).congr
        (by simpa [Realization.links] using hserved)
  | inner hin hout below value =>
      have hbelow : ∀ leaf ∈ r.leaves, net.IsBelow leaf k ∧ taken leaf := fun leaf hleaf =>
        ⟨below leaf hleaf, reads leaf hleaf ((below leaf hleaf).1.trans hk)⟩
      exact (leads_place_inner installed h hin hout hbelow value hr).congr hserved

/-! ## The whole network -/

lemma placed_empty (net : Subnet) (store : Store) (library : Library) (taken : Nat → Prop) :
    Placed net store library taken 0
      (.empty {}, ⟨Array.replicate net.size (.of 0), Array.replicate net.size none⟩) where
  wellFormed := wellFormed_empty {}
  regular := regular_empty store True {}
  inputs := by simp [(layout_empty {}).inputs_eq]
  outputs σ := by simp [outputValues, (layout_empty {}).outputs_eq]
  size := by simp
  direct d hd := absurd hd (Nat.not_lt_zero d)
  inverted d l hl := by
    by_cases hd : d < net.size <;> simp [hd] at hl

/-- Placing the taken entries in order. -/
lemma leads_forM_place (installed : library.Installed store) {test : Nat → Bool}
    (htest : ∀ e < net.size, test e = true ↔ taken e) (closed : Closed net choice taken)
    (realizedBy : ∀ e < net.size, ∀ r, choice.getD e none = some r →
      net.RealizedBy store library e r)
    (start : Placed net store library taken 0 s) (hk : k ≤ net.size) :
    Leads (∀ e < k, taken e → ServedAt library choice e)
      (((List.range k).filter test).forM (place store library choice)) s
      fun _ s' => Placed net store library taken k s' := by
  induction k with
  | zero => exact leads_pure (by simp) start
  | succ k ih =>
      have before := ih (Nat.le_of_succ_le hk)
      rw [List.range_succ, List.filter_append]
      rw [List.forM_eq_forM, List.forM_append]
      refine (before.bind (q := taken k → ServedAt library choice k) fun _ s' placed => ?_).congr
        Nat.forall_lt_succ_right.symm
      by_cases htaken : test k = true
      · rw [List.filter_singleton, htaken]
        have htaken := (htest k hk).1 htaken
        refine ((leads_place installed closed realizedBy placed hk htaken).finally ?_).congr
          ⟨fun h _ => h, fun h => h htaken⟩
        exact fun _ s'' placed => leads_pure trivial placed
      · rw [List.filter_singleton, Bool.eq_false_iff.2 htaken]
        have hnot : ¬taken k := fun h => htaken ((htest k hk).2 h)
        exact leads_pure (fun h => absurd h hnot) (placed.skip closed hk hnot)

/-- Building the network of a choice ends with an error of the mapping or with a network that agrees with
the original one.  The latter happens exactly if everything that the outputs need has a choice and all
complemented links of that are served. -/
theorem ofChoice_spec (installed : library.Installed store)
    (input : ∀ e < net.numInputs, choice.getD e none = some .input)
    (realizedBy : ∀ e < net.size, ∀ r, choice.getD e none = some r →
      net.RealizedBy store library e r) :
    ∃ result, ofChoice store net library choice = .ok result ∧
      (∀ mapped, result = .ok mapped → Subnet.Agrees store mapped net) ∧
      ((∃ mapped, result = .ok mapped) ↔ ∃ needed, neededEntries net choice = .ok needed ∧
        ∀ e < net.size, e ∈ needed → ServedAt library choice e) ∧
      ∀ entry, result = .error (.noAdmissibleCut entry) ↔
        neededEntries net choice = .error (.noAdmissibleCut entry) := by
  cases hneeded : neededEntries net choice with
  | error e =>
      refine ⟨.error e, ?_, nofun, ⟨nofun, nofun⟩, fun entry => ?_⟩
      · rw [ofChoice, build, hneeded]
        rfl
      · simp only [Except.error.injEq]
  | ok needed =>
      obtain ⟨test, hrealized, htest⟩ := exists_realized net needed
      have placing := leads_forM_place installed htest (closed_of_needed input hneeded) realizedBy
        (placed_empty net store library _) (le_refl net.size)
      rw [← hrealized] at placing
      -- inputs have no links that would have to be served
      have hserved : (∀ e < net.size, e ∈ needed ∨ e < net.numInputs → ServedAt library choice e) ↔
          ∃ needed', .ok needed = (.ok needed' : Except MapError (List Nat)) ∧
            ∀ e < net.size, e ∈ needed' → ServedAt library choice e := by
        refine ⟨fun h => ⟨needed, rfl, fun e he hmem => h e he (.inl hmem)⟩, ?_⟩
        rintro ⟨_, ⟨⟩, h⟩ e he (hmem | hin)
        · exact h e he hmem
        · intro r hr
          cases (input e hin).symm.trans hr
          exact nofun
      cases placing with
      | stops entry run unmet =>
          refine ⟨.error (.missingInverter entry), ?_, nofun, ⟨nofun, fun h => absurd (hserved.2 h) unmet⟩,
            fun _ => ⟨nofun, nofun⟩⟩
          simp only [ofChoice, build, hneeded, StateT.run, run]
          rfl
      | goes a s run placed met =>
          obtain ⟨mapped, hmapped, hin, hout, values, regular⟩ := placed.wellFormed.exists_finish
          refine ⟨.ok mapped, ?_, ?_, ⟨fun _ => hserved.1 met, fun _ => ⟨mapped, rfl⟩⟩,
            fun _ => ⟨nofun, nofun⟩⟩
          · simp only [ofChoice, build, hneeded, StateT.run, run, ok_bind]
            rw [hmapped]
            rfl
          · rintro _ ⟨⟩
            have houtputs : ∀ σ, mapped.outputValues store.ports σ =
                net.outputValues store.ports σ := fun σ => by
              rw [values, placed.outputs, net.filter_outputs, Subnet.outputValues_eq]
            refine ⟨?_, ?_, houtputs, regular store True placed.regular⟩
            · have := net.numInputs_add_numOutputs_le
              rw [hin, placed.inputs]
              omega
            · have hlength := congrArg List.length (houtputs fun _ => false)
              simpa [Subnet.outputValues, Subnet.outputs] using hlength

/-- The same without saying which of the two happens. -/
lemma exists_ofChoice (installed : library.Installed store)
    (input : ∀ e < net.numInputs, choice.getD e none = some .input)
    (realizedBy : ∀ e < net.size, ∀ r, choice.getD e none = some r →
      net.RealizedBy store library e r) :
    ∃ result, ofChoice store net library choice = .ok result ∧
      ∀ mapped, result = .ok mapped → Subnet.Agrees store mapped net := by
  obtain ⟨result, hresult, agrees, -⟩ := ofChoice_spec installed input realizedBy
  exact ⟨result, hresult, agrees⟩

end MappedNetwork

end Gatework
