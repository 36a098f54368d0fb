import Gatework.Npn.Population
import Gatework.Proofs.Synthesis.Method

/-!
# How catalogues come about

A catalogue is filled by storing networks one after the other, while the store may grow at any time.
`Catalogue.Filling` keeps account of the networks that were stored.  Filling in whole classes does
nothing else (`Filling.populate`): each network that a method makes is stored in turn.

* `Filling.sound`: the catalogue lists what it says.
* `Method.makes`: the methods make networks that can be evaluated.
* `Catalogue.exists_populate`: all classes of up to four variables can be filled in.
-/

namespace Gatework

/-- All that is made for a function when a catalogue is filled over a store that begins with `store`
has the property `P`. -/
def Resynthesizer.Makes (m : Resynthesizer) (store : Store) (P : Store → Subnet → Prop) : Prop :=
  ∀ store₁, store.Extends store₁ → ∀ {n : Nat} (f : TruthTable n), n ≤ maxClassVariables →
    ∀ store₂ result,
      m.resynthesize store₁ f none Catalogue.populationArity = .ok (store₂, result) →
        store₁.Extends store₂ ∧ ∀ net ∈ result, P store₂ net

namespace Catalogue

variable {store store' : Store} {strict : Prop} {c c' : Catalogue} {pushed : List Subnet}

/-- The catalogues that come out of storing networks that can be evaluated, the latest first. -/
inductive Filling : Store → Catalogue → List Subnet → Prop
  | empty (store : Store) : Filling store .empty []
  | grow {store store' : Store} {c : Catalogue} {pushed : List Subnet} (h : Filling store c pushed)
      (grows : store.Extends store') : Filling store' c pushed
  | push {store store' : Store} {c c' : Catalogue} {pushed : List Subnet} {net : Subnet}
      {added : Option Nat} (h : Filling store c pushed) (evaluable : store.Evaluable net)
      (step : c.insert store net = .ok (added, store', c')) : Filling store' c' (net :: pushed)

lemma Filling.evaluable (h : Filling store c pushed) : ∀ net ∈ pushed, store.Evaluable net := by
  induction h with
  | empty => simp
  | grow _ grows ih => exact fun net hnet => grows.evaluable (ih net hnet)
  | push _ evaluable step ih =>
      have grows := extends_insert evaluable step
      intro net hnet
      rcases List.mem_cons.1 hnet with rfl | hnet
      · exact grows.evaluable evaluable
      · exact grows.evaluable (ih net hnet)

/-- What such catalogues list. -/
theorem Filling.sound (h : Filling store c pushed) : Sound store c := by
  induction h with
  | empty store => exact sound_empty store
  | grow _ grows ih => exact ih.extends grows
  | push _ evaluable step ih => exact insert_sound ih evaluable step

/-- Cells of an evaluable network that are regular in the grown store are so in the store before. -/
lemma regular_of_extends {net : Subnet} (evaluable : store.Evaluable net)
    (regular : ∀ cell ∈ net.cells, store'.Regular strict cell) :
    ∀ cell ∈ net.cells, store.Regular strict cell := by
  intro cell hcell
  obtain ⟨i, hi⟩ := Array.mem_iff_getElem?.1 hcell
  exact ⟨(regular cell hcell).port, fun hinput => (evaluable i cell hi hinput).1,
    (regular cell hcell).constant⟩

/-- If the cells of all networks that were stored are regular, so are those that are listed. -/
theorem Filling.regular (h : Filling store c pushed)
    (regular : ∀ net ∈ pushed, ∀ cell ∈ net.cells, store.Regular strict cell) :
    Regular store strict c := by
  induction h with
  | empty store => exact fun entry hentry => nomatch hentry
  | grow h grows ih =>
      exact (ih fun net hnet => regular_of_extends (h.evaluable net hnet) (regular net hnet)).extends grows
  | push h evaluable step ih =>
      exact insert_regular
        (ih fun net hnet => regular_of_extends (h.evaluable net hnet) (regular net (.tail _ hnet)))
        (regular_of_extends evaluable (regular _ (.head _))) step

/-! ## Filling in classes -/

/-- Learning a function stores what the method makes. -/
lemma Filling.learn {P : Store → Subnet → Prop} (h : Filling store c pushed)
    (evaluable : ∀ store net, P store net → store.Evaluable net)
    (grow : ∀ store store' net, store.Extends store' → P store net → P store' net)
    {base : Store} (hbase : base.Extends store) {m : Resynthesizer} (makes : m.Makes base P) {n : Nat}
    {f : TruthTable n} (hn : n ≤ maxClassVariables)
    (run : Catalogue.learn f (store, c) m = .ok (store', c')) :
    store.Extends store' ∧ ∃ made, Filling store' c' (made ++ pushed) ∧ ∀ net ∈ made, P store' net := by
  obtain ⟨⟨store₁, result⟩, hresult, run⟩ := bind_eq_ok_iff.1 run
  obtain ⟨grows, hmade⟩ := makes store hbase f hn store₁ result hresult
  cases result with
  | none =>
      cases run
      exact ⟨grows, [], h.grow grows, by simp⟩
  | some net =>
      obtain ⟨⟨added, store₂, c₂⟩, hinsert, run⟩ := bind_eq_ok_iff.1 run
      cases run
      have hnet := hmade net rfl
      have grows' := extends_insert (evaluable _ _ hnet) hinsert
      exact ⟨grows.trans grows', [net], (h.grow grows).push (evaluable _ _ hnet) hinsert,
        by simpa using grow _ _ _ grows' hnet⟩

/-- Filling in all classes stores what the methods make, and nothing else. -/
theorem Filling.populate {P : Store → Subnet → Prop} (h : Filling store c pushed)
    (evaluable : ∀ store net, P store net → store.Evaluable net)
    (grow : ∀ store store' net, store.Extends store' → P store net → P store' net)
    {methods : List Resynthesizer} (makes : ∀ m ∈ methods, m.Makes store P) {maxVariables count : Nat}
    (run : c.populate store maxVariables methods = .ok (count, store', c')) :
    store.Extends store' ∧ ∃ made, Filling store' c' (made ++ pushed) ∧ ∀ net ∈ made, P store' net := by
  obtain ⟨⟨store₁, c₁⟩, hfold, run⟩ := bind_eq_ok_iff.1 run
  cases run
  -- what every function that is learnt keeps
  let Kept : Store × Catalogue → Prop := fun state => store.Extends state.1 ∧
    ∃ made, Filling state.1 state.2 (made ++ pushed) ∧ ∀ net ∈ made, P state.1 net
  refine foldlM_invariant Kept ⟨.refl _, [], h, by simp⟩ ?_ hfold
  intro n _ state state' hstate hclasses
  obtain ⟨forms, hforms, hclasses⟩ := bind_eq_ok_iff.1 hclasses
  have hn : n ≤ maxClassVariables := by
    unfold canonicalForms at hforms
    split at hforms
    · rename_i hrange
      exact hrange.2.trans (by decide)
    · cases hforms
  refine foldlM_invariant Kept hstate ?_ hclasses
  intro f _ state state' hstate hmethod
  refine foldlM_invariant Kept hstate ?_ hmethod
  rintro m hm ⟨store₁, c₁⟩ ⟨store₂, c₂⟩ ⟨grows, made, hmade, hP⟩ hlearn
  obtain ⟨grows', more, hmore, hP'⟩ := hmade.learn evaluable grow grows (makes m hm) hn hlearn
  refine ⟨grows.trans grows', more ++ made, by rwa [List.append_assoc], fun net hnet => ?_⟩
  rcases List.mem_append.1 hnet with hnet | hnet
  · exact hP' net hnet
  · exact grow _ _ _ grows' (hP net hnet)

end Catalogue

/-! ## The methods -/

namespace Method

variable {store : Store} {strict : Prop} {m : Method}

/-- What a method makes for a class is what it was asked for. -/
lemma computes_of_resynthesize {n : Nat} {f : TruthTable n} {store' : Store} {result : Option Subnet}
    (h : m.Sound store) (hn : n ≤ maxClassVariables)
    (run : m.resynthesizer.resynthesize store f none Catalogue.populationArity = .ok (store', result)) :
    store.Extends store' ∧ ∀ net ∈ result, net.Computes store' f ∧
      ∀ strict, m.Regular store strict → ∀ cell ∈ net.cells, store'.Regular strict cell := by
  obtain ⟨store₁, result₁, run₁, grows, made⟩ := exists_resynthesize h (hn.trans (by decide))
    (by decide : Catalogue.populationArity ≤ maxArity) f
  cases run.symm.trans run₁
  exact ⟨grows, made⟩

/-- The methods make networks that can be evaluated. -/
theorem makes (h : m.Sound store) : m.resynthesizer.Makes store Store.Evaluable := by
  intro store₁ grows n f hn store₂ result run
  obtain ⟨grows', made⟩ := computes_of_resynthesize (h.extends grows) hn run
  exact ⟨grows', fun net hnet => (made net hnet).1.evaluable⟩

/-- Methods whose networks have regular cells make such networks. -/
theorem makes_regular (h : m.Sound store) (regular : m.Regular store strict) :
    m.resynthesizer.Makes store fun store net => ∀ cell ∈ net.cells, store.Regular strict cell := by
  intro store₁ grows n f hn store₂ result run
  obtain ⟨grows', made⟩ := computes_of_resynthesize (h.extends grows) hn run
  exact ⟨grows', fun net hnet => (made net hnet).2 strict (regular.extends grows)⟩

end Method

namespace Catalogue

variable {store store' : Store} {strict : Prop} {c c' : Catalogue}

/-- All classes of up to four variables can be filled in. -/
theorem exists_populate {methods : List Method} (sound : ∀ m ∈ methods, m.Sound store)
    (c : Catalogue) {maxVariables : Nat} (hmax : maxVariables ≤ 4) :
    ∃ count store' c', c.populate store maxVariables (methods.map Method.resynthesizer) =
      .ok (count, store', c') := by
  suffices ∃ state : Store × Catalogue, (List.range' 1 maxVariables).foldlM
      (learnClasses (methods.map Method.resynthesizer)) (store, c) = .ok state ∧
        store.Extends state.1 by
    obtain ⟨⟨store', c'⟩, hrun, -⟩ := this
    exact ⟨_, store', c', by rw [populate, hrun]; rfl⟩
  refine exists_foldlM_eq_ok (fun _ (state : Store × Catalogue) => store.Extends state.1) (.refl store) ?_
  intro done n rest state hsplit hstate
  have hn : 1 ≤ n ∧ n ≤ 4 := by
    have hmem : n ∈ List.range' 1 maxVariables := by simp [hsplit]
    rw [List.mem_range'_1] at hmem
    omega
  rw [learnClasses, canonicalForms, if_pos hn, ok_bind]
  refine exists_foldlM_eq_ok (fun _ (state : Store × Catalogue) => store.Extends state.1) hstate ?_
  intro _ f _ state _ hstate
  refine exists_foldlM_eq_ok (fun _ (state : Store × Catalogue) => store.Extends state.1) hstate ?_
  rintro _ r _ ⟨store₁, c₁⟩ hsplit hstate
  obtain ⟨m, hm, rfl⟩ := List.mem_map.1 (show r ∈ methods.map Method.resynthesizer by simp [hsplit])
  obtain ⟨store₂, result, hrun, grows, made⟩ := Method.exists_resynthesize
    ((sound m hm).extends hstate) (hn.2.trans (by decide)) (by decide : populationArity ≤ maxArity) f
  rw [learn]
  simp only [hrun, ok_bind]
  cases result with
  | none => exact ⟨_, rfl, hstate.trans grows⟩
  | some net =>
      obtain ⟨computes, -⟩ := made net rfl
      have hwide : net.numInputs ≤ maxEvaluatedVariables := by
        rw [computes.numInputs]
        exact hn.2.trans (by decide)
      obtain ⟨added, store₃, c₃, hinsert⟩ := exists_insert c₁ computes.evaluable computes.numOutputs hwide
      simp only [hinsert, ok_bind]
      exact ⟨_, rfl, (hstate.trans grows).trans (extends_insert computes.evaluable hinsert)⟩

/-! ## Catalogues of networks of regular cells -/

/-- The catalogues that come out of storing networks whose cells read first ports and can be evaluated,
in the strict sense also without constants that have operands. -/
def Filled (store : Store) (strict : Prop) (c : Catalogue) : Prop :=
  ∃ pushed, Filling store c pushed ∧ ∀ net ∈ pushed, ∀ cell ∈ net.cells, store.Regular strict cell

lemma Filled.sound (h : Filled store strict c) : Sound store c ∧ Regular store strict c := by
  obtain ⟨pushed, filling, regular⟩ := h
  exact ⟨filling.sound, filling.regular regular⟩

/-- A method whose catalogue, if it has one, came about in this way. -/
lemma sound_of_filled {m : Method} (filled : ∀ c, m = .catalogue c → Filled store strict c) :
    m.Sound store ∧ m.Regular store strict := by
  cases m with
  | sumOfProducts => exact ⟨trivial, trivial⟩
  | biDecomposition => exact ⟨trivial, trivial⟩
  | catalogue c => exact (filled c rfl).sound

/-- Filling in classes by methods with such catalogues makes such a catalogue. -/
theorem Filled.populate {methods : List Method} (h : Filled store strict c)
    (catalogues : ∀ c, .catalogue c ∈ methods → Filled store strict c) {maxVariables count : Nat}
    (run : c.populate store maxVariables (methods.map Method.resynthesizer) = .ok (count, store', c')) :
    Filled store' strict c' := by
  obtain ⟨pushed, filling, regular⟩ := h
  have sound : ∀ m ∈ methods, m.Sound store ∧ m.Regular store strict := fun m hm =>
    sound_of_filled fun c hc => catalogues c (hc ▸ hm)
  obtain ⟨grows, made, hmade, hregular⟩ := filling.populate
    (fun _ _ => Store.evaluable_of_regular)
    (fun _ _ _ grows hnet cell hcell => grows.regular (hnet cell hcell))
    (List.forall_mem_map.2 fun m hm => Method.makes_regular (sound m hm).1 (sound m hm).2) run
  refine ⟨made ++ pushed, hmade, fun net hnet => ?_⟩
  rcases List.mem_append.1 hnet with hnet | hnet
  · exact hregular net hnet
  · exact fun cell hcell => grows.regular (regular net hnet cell hcell)

end Catalogue

end Gatework
