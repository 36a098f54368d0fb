import Gatework.Proofs.Imprint
import Gatework.Proofs.Npn.Classes
import Gatework.Proofs.Npn.Filling

/-!
# What a catalogue guarantees

`Catalogue.Faithful` relates a catalogue to the networks that were stored: the classes are those of the
stored networks, and the imprints are those of the listed networks, each once.  Storing one more network
keeps it (`Faithful.push`); the case that needs an argument is that of an imprint that is known, where
the network found must be the one that was to be stored.

**Main statement.** `Filling.guarantees`.
-/

namespace Gatework

/-- Evaluating a network gives one table and no other. -/
def Store.Evaluates (store : Store) (net : Subnet) {n : Nat} (f : TruthTable n) : Prop :=
  (store.tabulate net).map (List.map TruthTable.any) = .ok [f.any]

/-- All networks of a store fit the fields of imprints, and their cells carry the symbols of their types. -/
def Store.Addressable (store : Store) : Prop :=
  ∀ net ∈ store.subnets, net.Addressable ∧ store.Conforms net

/-- A store that begins with the gates and has one network is addressable if the network is and has only
cells of built-in types. -/
lemma Store.addressable_of_cells {store : Store} (gates : Store.empty.Extends store) {cells : Array Cell}
    (hcells : store.subnets.toList.map (·.cells) = [cells]) (size : cells.size ≤ 2 ^ 32)
    (links : ∀ c ∈ cells, c.links.length < 2 ^ 32)
    (built : ∀ c ∈ cells, ∃ g, c.kind = .ofGate g) : store.Addressable := by
  intro net hnet
  have hmem : net.cells ∈ store.subnets.toList.map (·.cells) :=
    List.mem_map_of_mem (Arena.mem_toList.2 hnet)
  rw [hcells, List.mem_singleton] at hmem
  subst hmem
  refine ⟨⟨size, links, fun c hc => ?_⟩, fun c hc => ?_⟩
  · obtain ⟨g, hg⟩ := built c hc
    rw [hg]
    exact g.position_lt.trans (by decide)
  · obtain ⟨g, hg⟩ := built c hc
    rw [hg]
    exact ⟨_, gates.type_of_gate g, rfl⟩

/-- Networks of the store have different imprints. -/
def Store.Imprinted (store : Store) : Prop :=
  ∀ (i j : Nat) (a b : Subnet), store.subnets[i]? = some a → store.subnets[j]? = some b →
    a.imprint = b.imprint → a = b

lemma Store.Addressable.imprinted {store : Store} (h : store.Addressable) : store.Imprinted := by
  intro i j a b ha hb himprint
  obtain ⟨addressable, conforms⟩ := h _ (Arena.mem_of_getElem? ha)
  obtain ⟨addressable', conforms'⟩ := h _ (Arena.mem_of_getElem? hb)
  exact imprint_injective conforms conforms' addressable addressable' himprint

lemma Store.Imprinted.of_extends {store store' : Store} (h : store'.Imprinted)
    (grows : store.Extends store') : store.Imprinted := fun i j a b ha hb himprint =>
  h i j a b (grows.subnets _ _ ha) (grows.subnets _ _ hb) himprint

namespace Subnet

variable {net : Subnet} {store store' : Store} {n : Nat} {f g : TruthTable n}

/-- A network computes one function. -/
lemma Computes.unique (hf : net.Computes store f) (hg : net.Computes store g) : f = g := by
  refine TruthTable.ext_value fun x hx => ?_
  have h := (hf.values x.testBit).symm.trans (hg.values x.testBit)
  rwa [encode_testBit hx, List.singleton_inj] at h

lemma Computes.evaluates (h : net.Computes store f) (hn : n ≤ maxEvaluatedVariables) :
    store.Evaluates net f := by
  obtain rfl := h.numInputs
  obtain ⟨g, hg, computes⟩ := store.exists_tabulate_single h.evaluable h.numOutputs hn
  rw [Store.Evaluates, hg, h.unique computes]
  rfl

lemma Computes.of_evaluates (h : store.Evaluates net f) (evaluable : store.Evaluable net) :
    net.Computes store f := by
  cases htables : store.tabulate net with
  | error e => simp [Store.Evaluates, htables, Except.map] at h
  | ok tables =>
      have hmap : tables.map TruthTable.any = [f.any] := by
        simpa [Store.Evaluates, htables, Except.map] using h
      obtain ⟨g, rfl, hg⟩ := List.map_eq_singleton_iff.1 hmap
      have hwide := Store.numInputs_le_of_tabulate htables
      obtain ⟨tables, htables', hlength⟩ := store.exists_tabulate evaluable hwide
      cases htables.symm.trans htables'
      obtain ⟨g', hg', computes⟩ := store.exists_tabulate_single evaluable hlength.symm hwide
      cases htables.symm.trans hg'
      have hn : net.numInputs = n := congrArg AnyTable.numVars hg
      subst hn
      cases hg
      exact computes

/-- The class of what a network computes. -/
def InClass (net : Subnet) (store : Store) (key : WordTable) : Prop :=
  ∃ (f form : TruthTable net.numInputs) (t : Transform), net.Computes store f ∧
    f.canonical? = some (form, t) ∧ key = .ofTable form

lemma InClass.extends {key : WordTable} (h : net.InClass store key) (grows : store.Extends store') :
    net.InClass store' key := by
  obtain ⟨f, form, t, computes, canonical, hkey⟩ := h
  exact ⟨f, form, t, computes.extends grows, canonical, hkey⟩

end Subnet

namespace Catalogue

open Subnet

variable {store store' : Store} {c c' : Catalogue} {pushed : List Subnet} {net : Subnet}
  {added : Option Nat} {key : WordTable} {position : Nat}

/-- How a catalogue relates to the networks that were stored. -/
structure Faithful (store : Store) (c : Catalogue) (pushed : List Subnet) : Prop where
  sound : Sound store c
  ordered : Ordered c.classes
  /-- Each class has networks. -/
  nonempty : ∀ entry ∈ c.classes, entry.2 ≠ []
  /-- Each class is that of a stored network. -/
  origin : ∀ entry ∈ c.classes, ∃ net ∈ pushed, net.InClass store entry.1
  /-- Each stored network of few variables has its class. -/
  filed : ∀ net ∈ pushed, net.numInputs ≤ maxClassVariables →
    ∃ key, net.InClass store key ∧ (c.networksOf? key).isSome
  /-- The networks listed are those with an imprint. -/
  positions : (c.imprints.map (·.2)).Perm c.positions
  imprints : ∀ x ∈ c.imprints, ∃ net, store.subnets[x.2]? = some net ∧ net.imprint = x.1
  nodup : (c.imprints.map (·.1)).Nodup

namespace Faithful

lemma empty (store : Store) : Faithful store .empty [] where
  sound := sound_empty store
  ordered := .nil
  nonempty _ h := nomatch h
  origin _ h := nomatch h
  filed _ h := nomatch h
  positions := .nil
  imprints _ h := nomatch h
  nodup := .nil

lemma grow (h : Faithful store c pushed) (grows : store.Extends store') :
    Faithful store' c pushed where
  sound := h.sound.extends grows
  ordered := h.ordered
  nonempty := h.nonempty
  origin entry hentry := by
    obtain ⟨net, hnet, hclass⟩ := h.origin entry hentry
    exact ⟨net, hnet, hclass.extends grows⟩
  filed net hnet hn := by
    obtain ⟨key, hclass, hsome⟩ := h.filed net hnet hn
    exact ⟨key, hclass.extends grows, hsome⟩
  positions := h.positions
  imprints x hx := by
    obtain ⟨net, hnet, himprint⟩ := h.imprints x hx
    exact ⟨net, grows.subnets _ _ hnet, himprint⟩
  nodup := h.nodup

/-- A network that was stored and has its class already. -/
lemma cons (h : Faithful store c pushed) (hnet : net.numInputs ≤ maxClassVariables →
    ∃ key, net.InClass store key ∧ (c.networksOf? key).isSome) :
    Faithful store c (net :: pushed) where
  sound := h.sound
  ordered := h.ordered
  nonempty := h.nonempty
  origin entry hentry := by
    obtain ⟨net, hnet, hclass⟩ := h.origin entry hentry
    exact ⟨net, .tail _ hnet, hclass⟩
  filed net' hnet' hn := by
    rcases List.mem_cons.1 hnet' with rfl | hnet'
    · exact hnet hn
    · exact h.filed net' hnet' hn
  positions := h.positions
  imprints := h.imprints
  nodup := h.nodup

/-- A listed network stands under the form that it computes. -/
lemma exists_networksOf? (h : Faithful store c pushed) (hposition : position ∈ c.positions)
    (hnet : store.subnets[position]? = some net) {n : Nat} {form : TruthTable n}
    (computes : net.Computes store form) :
    ∃ networks, c.networksOf? (.ofTable form) = some networks ∧ position ∈ networks := by
  obtain ⟨entry, hentry, hmem⟩ := List.mem_flatMap.1 hposition
  obtain ⟨k, form', net', -, hkey, hnet', computes'⟩ := h.sound entry hentry position hmem
  cases hnet.symm.trans hnet'
  obtain rfl : n = k := computes.numInputs.symm.trans computes'.numInputs
  rw [computes.unique computes', ← hkey]
  exact ⟨entry.2, h.ordered.lookup_eq hentry, hmem⟩

/-- Where the imprint of a network is known, the network found is the same one. -/
lemma exists_of_known (h : Faithful store c pushed) (imprinted : store.Imprinted) {q : Nat}
    (hnet : store.subnets[q]? = some net) {n : Nat} {form : TruthTable n}
    (computes : net.Computes store form) (known : c.known? net.imprint = some position) :
    ∃ networks, c.networksOf? (.ofTable form) = some networks ∧ position ∈ networks := by
  have hmem : (net.imprint, position) ∈ c.imprints := by
    obtain ⟨l₁, l₂, hsplit, -⟩ := List.lookup_eq_some_iff.1 known
    simp [hsplit]
  have hposition := h.positions.subset (List.mem_map_of_mem hmem)
  obtain ⟨net', hnet', himprint⟩ := h.imprints _ hmem
  obtain ⟨entry, hentry, hlisted⟩ := List.mem_flatMap.1 hposition
  obtain ⟨_, _, net'', -, -, hnet'', computes''⟩ := h.sound entry hentry position hlisted
  cases hnet'.symm.trans hnet''
  obtain rfl := imprinted q position net net' hnet hnet' himprint.symm
  exact h.exists_networksOf? hposition hnet' computes

/-- Listing a network whose imprint is not known. -/
lemma listed (h : Faithful store c pushed) {form : TruthTable net.numInputs} {stored : Subnet}
    (hclass : net.InClass store (.ofTable form)) (hn : net.numInputs ≤ maxClassVariables)
    (hstored : store.subnets[position]? = some stored) (computes : stored.Computes store form)
    (unknown : c.known? stored.imprint = none) :
    Faithful store (c.listed (.ofTable form) stored.imprint position) (net :: pushed) where
  sound := forall_listed h.sound ⟨_, form, stored, hn, rfl, hstored, computes⟩
  ordered := h.ordered.alterClass
  nonempty entry hentry := by
    rcases mem_alterClass hentry with hentry | ⟨-, old, hnetworks, -⟩
    · exact h.nonempty entry hentry
    · rw [hnetworks]
      exact List.append_ne_nil_of_right_ne_nil _ (List.cons_ne_nil _ _)
  origin entry hentry := by
    rcases mem_alterClass hentry with hentry | ⟨hkey, -⟩
    · obtain ⟨net', hnet', hclass'⟩ := h.origin entry hentry
      exact ⟨net', .tail _ hnet', hclass'⟩
    · exact ⟨net, .head _, hkey ▸ hclass⟩
  filed net' hnet' hn' := by
    rcases List.mem_cons.1 hnet' with rfl | hnet'
    · exact ⟨_, hclass, by rw [networksOf?_listed h.ordered, if_pos rfl]; rfl⟩
    · obtain ⟨key, hclass', hsome⟩ := h.filed net' hnet' hn'
      refine ⟨key, hclass', ?_⟩
      rw [networksOf?_listed h.ordered]
      split
      · rfl
      · exact hsome
  positions := (h.positions.cons position).trans positions_listed.symm
  imprints x hx := by
    rcases List.mem_cons.1 hx with rfl | hx
    · exact ⟨stored, hstored, rfl⟩
    · exact h.imprints x hx
  nodup := by
    refine List.nodup_cons.2 ⟨fun hmem => ?_, h.nodup⟩
    obtain ⟨x, hx, hkey⟩ := List.mem_map.1 hmem
    have := List.lookup_eq_none_iff.1 unknown x hx
    simp [hkey] at this

/-- Storing one more network.  What is returned stands under the class of the network. -/
theorem push (h : Faithful store c pushed) (evaluable : store.Evaluable net)
    (step : c.insert store net = .ok (added, store', c')) (imprinted : store'.Imprinted) :
    Faithful store' c' (net :: pushed) ∧ ∀ p, added = some p →
      ∃ (f form : TruthTable net.numInputs) (t : Transform) (networks : List Nat),
        net.Computes store f ∧ f.canonical? = some (form, t) ∧
          c'.networksOf? (.ofTable form) = some networks ∧ p ∈ networks := by
  have grows := extends_insert evaluable step
  obtain ⟨f, -, computes, ⟨hnone, rfl, rfl, rfl⟩ | ⟨form, t, stored, hstored, rfl, found⟩⟩ :=
    insert_cases evaluable step
  · refine ⟨h.cons fun hn => ?_, nofun⟩
    exact absurd hn (Nat.not_le.2 (TruthTable.canonical?_eq_none_iff.1 hnone))
  have hclass : net.InClass (store.addSubnet stored).1 (.ofTable form) :=
    ⟨f, form, t, computes.extends grows, hstored.canonical, rfl⟩
  have hposition : (store.addSubnet stored).1.subnets[store.subnets.size]? = some stored := by
    simp [Store.addSubnet]
  have hcomputes := hstored.computes.extends grows
  have h := h.grow grows
  rcases found with ⟨p, hknown, rfl, rfl⟩ | ⟨hnew, rfl, rfl⟩
  · obtain ⟨networks, hnetworks, hp⟩ := h.exists_of_known imprinted hposition hcomputes hknown
    refine ⟨h.cons fun _ => ⟨_, hclass, by rw [hnetworks]; rfl⟩, fun q hq => ?_⟩
    cases hq
    exact ⟨f, form, t, networks, computes, hstored.canonical, hnetworks, hp⟩
  · refine ⟨h.listed hclass hstored.le hposition hcomputes hnew, fun q hq => ?_⟩
    cases hq
    have hnetworks : (c.listed (.ofTable form) stored.imprint store.subnets.size).networksOf?
        (.ofTable form) =
          some ((c.networksOf? (.ofTable form)).getD [] ++ [store.subnets.size]) := by
      rw [networksOf?_listed h.ordered, if_pos rfl]
    exact ⟨f, form, t, _, computes, hstored.canonical, hnetworks,
      List.mem_append_right _ (List.mem_singleton_self _)⟩

/-- The imprints are those of the listed networks. -/
lemma perm_imprints (h : Faithful store c pushed) : ((c.imprints.map (·.1)).map some).Perm
    ((c.positions.map (store.subnets[·]?)).map (Option.map Subnet.imprint)) := by
  have heq : ((c.imprints.map (·.2)).map (store.subnets[·]?)).map (Option.map Subnet.imprint) =
      (c.imprints.map (·.1)).map some := by
    rw [List.map_map, List.map_map, List.map_map]
    refine List.map_congr_left fun x hx => ?_
    obtain ⟨net, hnet, himprint⟩ := h.imprints x hx
    simp [hnet, himprint]
  rw [← heq]
  exact (h.positions.map (store.subnets[·]?)).map (Option.map Subnet.imprint)

/-- No two listed networks are equal. -/
lemma nodup_networks (h : Faithful store c pushed) :
    (c.positions.map (store.subnets[·]?)).Nodup := by
  refine List.Nodup.of_map (Option.map Subnet.imprint) ?_
  rw [← h.perm_imprints.nodup_iff]
  exact h.nodup.map (Option.some_injective _)

/-- The class of a listed network is its own canonical form. -/
lemma exists_form (h : Faithful store c pushed) {entry : WordTable × List Nat}
    (hentry : entry ∈ c.classes) : ∃ (n : Nat) (k : TruthTable n) (t : Transform),
      n ≤ maxClassVariables ∧ entry.1 = .ofTable k ∧ k.canonical? = some (k, t) := by
  obtain ⟨net, -, f, form, t, -, canonical, hkey⟩ := h.origin entry hentry
  obtain ⟨t', ht'⟩ := TruthTable.canonical?_canonical canonical
  exact ⟨_, form, t', (TruthTable.canonical?_reached canonical).1, hkey, ht'⟩

/-- A query that finds its class finds networks. -/
lemma networks_ne_nil (h : Faithful store c pushed) {n : Nat} {f : TruthTable n} {finding : Finding}
    (hfind : c.find? f = some finding) : finding.networks ≠ [] := by
  obtain ⟨form, t, networks, -, hnetworks, rfl⟩ := find?_eq_some_iff.1 hfind
  exact h.nonempty _ (mem_of_lookup hnetworks)

/-- A query finds networks exactly if a stored network computes an equivalent function. -/
lemma isSome_find?_iff (h : Faithful store c pushed) {n : Nat} (hn : n ≤ maxClassVariables)
    (f : TruthTable n) : (c.find? f).isSome ↔
      ∃ net ∈ pushed, ∃ g : TruthTable n, net.Computes store g ∧ g.Equivalent f := by
  obtain ⟨t, canonical, -⟩ := TruthTable.exists_canonical? hn f
  generalize t.onTable f = form at canonical
  have hsome : (c.find? f).isSome ↔ (c.networksOf? (.ofTable form)).isSome := by
    rw [find?, canonical]
    cases hnetworks : c.networksOf? (.ofTable form) <;> simp [hnetworks]
  rw [hsome]
  constructor
  · intro hnetworks
    obtain ⟨networks, hnetworks⟩ := Option.isSome_iff_exists.1 hnetworks
    obtain ⟨net, hnet, g, form', t', computes, canonical', hkey⟩ :=
      h.origin _ (mem_of_lookup hnetworks)
    obtain rfl : n = net.numInputs := congrArg WordTable.numVars hkey
    obtain rfl := WordTable.ofTable_injective hn hkey
    exact ⟨net, hnet, g, computes, (TruthTable.equivalent_iff_canonical canonical').2 ⟨t, canonical⟩⟩
  · rintro ⟨net, hnet, g, computes, equivalent⟩
    obtain rfl := computes.numInputs
    obtain ⟨key, ⟨g', form', t', computes', canonical', rfl⟩, hfiled⟩ := h.filed net hnet hn
    rw [← computes.unique computes'] at canonical'
    obtain ⟨t'', ht''⟩ := (TruthTable.equivalent_iff_canonical canonical').1 equivalent
    cases canonical.symm.trans ht''
    exact hfiled

end Faithful

lemma Filling.faithful (h : Filling store c pushed) (imprinted : store.Imprinted) :
    Faithful store c pushed := by
  induction h with
  | empty store => exact .empty store
  | grow _ grows ih => exact (ih (imprinted.of_extends grows)).grow grows
  | push _ evaluable step ih =>
      have grows := extends_insert evaluable step
      exact ((ih (imprinted.of_extends grows)).push evaluable step imprinted).1

/-- Methods that look functions up in catalogues which came about in the same way list what they say. -/
lemma sound_of_filling {methods : List Method}
    (catalogues : ∀ other, .catalogue other ∈ methods → ∃ pushed, Filling store other pushed) :
    ∀ m ∈ methods, m.Sound store := by
  intro m hm
  cases m with
  | sumOfProducts => trivial
  | biDecomposition => trivial
  | catalogue other =>
      obtain ⟨pushed, filling⟩ := catalogues other hm
      exact filling.sound

/-- What a catalogue guarantees that was filled by storing networks, in a store in which all numbers fit their
fields and all cells carry the symbols of their types.

* The classes are canonical forms, and every network listed under one evaluates to it.
* No two listed networks are equal.
* A network that can be evaluated, with one output and few enough inputs to be tabulated, can be stored.
  With more than six inputs it changes nothing and has no position; otherwise its position stands under
  its canonical form.
* Filling in whole classes stores what the methods make, whatever they are.  For up to four variables and
  methods that look up catalogues of this kind, if any, it succeeds.
* A query of up to six variables finds its class exactly if a stored network computes an equivalent
  function of as many variables, and every network found is turned into one that evaluates to the query. -/
theorem Filling.guarantees (filling : Filling store c pushed) (addressable : store.Addressable) :
    (∀ entry ∈ c.classes, ∃ (n : Nat) (k : TruthTable n), entry.1 = .ofTable k ∧
      (∃ t, k.canonical? = some (k, t)) ∧
        ∀ p ∈ entry.2, ∃ net, store.subnets[p]? = some net ∧ store.Evaluates net k) ∧
    (c.positions.map (store.subnets[·]?)).Nodup ∧
    (∀ net, store.Evaluable net → net.numOutputs = 1 → net.numInputs ≤ maxEvaluatedVariables →
      ∃ added store' c', c.insert store net = .ok (added, store', c') ∧
        Filling store' c' (net :: pushed) ∧ (added = none ↔ 6 < net.numInputs) ∧
        (added = none → store' = store ∧ c' = c) ∧
        (store'.Addressable → ∀ p, added = some p →
          ∃ (f form : TruthTable net.numInputs) (t : Transform) (networks : List Nat),
            store.Evaluates net f ∧ f.canonical? = some (form, t) ∧
              c'.networksOf? (.ofTable form) = some networks ∧ p ∈ networks)) ∧
    (∀ (methods : List Resynthesizer) maxVariables count store' c',
      (∀ m ∈ methods, m.Makes store Store.Evaluable) →
        c.populate store maxVariables methods = .ok (count, store', c') →
          store.Extends store' ∧ ∃ made, Filling store' c' (made ++ pushed)) ∧
    (∀ (methods : List Method) maxVariables, maxVariables ≤ 4 →
      (∀ other, .catalogue other ∈ methods → ∃ pushed, Filling store other pushed) →
        ∃ count store' c' made,
          c.populate store maxVariables (methods.map (·.resynthesizer)) = .ok (count, store', c') ∧
            Filling store' c' (made ++ pushed)) ∧
    ∀ {n : Nat} (f : TruthTable n), n ≤ 6 →
      ((c.find? f).isSome ↔
        ∃ net ∈ pushed, ∃ g : TruthTable n, store.Evaluates net g ∧ g.Equivalent f) ∧
      ∀ finding, c.find? f = some finding → finding.networks ≠ [] ∧
        ∀ i < finding.networks.length,
          ∃ net, finding.realize store i = .ok net ∧ store.Evaluates net f := by
  have faithful := filling.faithful addressable.imprinted
  have evaluable_extends : ∀ (store store' : Store) (net : Subnet), store.Extends store' →
      store.Evaluable net → store'.Evaluable net := fun _ _ _ grows h => grows.evaluable h
  refine ⟨fun entry hentry => ?_, faithful.nodup_networks, fun net evaluable single hwide => ?_,
    fun methods maxVariables count store' c' makes run => ?_,
    fun methods maxVariables hmax catalogues => ?_, fun f hn => ⟨?_, fun finding hfind =>
      ⟨faithful.networks_ne_nil hfind, fun i hi => ?_⟩⟩⟩
  · obtain ⟨n, k, t, hn, hkey, canonical⟩ := faithful.exists_form hentry
    refine ⟨n, k, hkey, ⟨t, canonical⟩, fun p hp => ?_⟩
    obtain ⟨n', k', net, hn', hkey', hnet, computes⟩ := faithful.sound entry hentry p hp
    obtain rfl : n = n' := congrArg WordTable.numVars (hkey.symm.trans hkey')
    rw [← WordTable.ofTable_injective hn (hkey.symm.trans hkey')] at computes
    exact ⟨net, hnet, computes.evaluates (hn.trans (by decide))⟩
  · obtain ⟨added, store', c', step⟩ := exists_insert c evaluable single hwide
    obtain ⟨hnone, unchanged⟩ := insert_eq_none evaluable step
    refine ⟨added, store', c', step, filling.push evaluable step, hnone, unchanged,
      fun addressable' p hp => ?_⟩
    obtain ⟨f, form, t, networks, computes, canonical, hnetworks, hmem⟩ :=
      (faithful.push evaluable step addressable'.imprinted).2 p hp
    exact ⟨f, form, t, networks, computes.evaluates hwide, canonical, hnetworks, hmem⟩
  · obtain ⟨grows, made, hmade, -⟩ := filling.populate (fun _ _ h => h) evaluable_extends makes run
    exact ⟨grows, made, hmade⟩
  · have sound := sound_of_filling catalogues
    obtain ⟨count, store', c', run⟩ := exists_populate sound c hmax
    obtain ⟨-, made, hmade, -⟩ := filling.populate (fun _ _ h => h) evaluable_extends
      (List.forall_mem_map.2 fun m hm => Method.makes (sound m hm)) run
    exact ⟨count, store', c', made, run, hmade⟩
  · rw [faithful.isSome_find?_iff hn]
    refine exists_congr fun net => and_congr_right fun hnet => exists_congr fun g => ?_
    refine and_congr_left fun _ => ⟨fun h => h.evaluates (hn.trans (by decide)), fun h => ?_⟩
    exact .of_evaluates h (filling.evaluable net hnet)
  · obtain ⟨net, hrun, computes, -⟩ := exists_realize filling.sound hfind hi
    exact ⟨net, hrun, computes.evaluates (hn.trans (by decide))⟩

/-- One bit and not another. -/
def difference : Subnet where
  cells := #[.input, .input, ⟨.ofGate .and, [.of 0, (Link.of 1).invert]⟩, .output (.of 2)]
  numInputs := 2
  numOutputs := 1
  valid := by decide

/-- The difference is stored, and all functions of its class are found. -/
theorem guarantees_difference : ∃ store c, Filling store c [difference] ∧
    store.Addressable ∧ ∀ f : TruthTable 2, (c.find? f).isSome ↔
      ∃ net ∈ [difference], ∃ g : TruthTable 2, store.Evaluates net g ∧ g.Equivalent f := by
  have hrun : (Catalogue.empty.insert .empty difference).map
      (fun r => r.2.1.subnets.toList.map (·.cells)) = .ok [#[.input, .input,
        ⟨.ofGate .and, [(Link.of 0).invert, (Link.of 1).invert]⟩, .output (.of 2)]] := by cbv
  obtain ⟨⟨added, store, c⟩, step, hcells⟩ := map_eq_ok_iff.1 hrun
  have evaluable : Store.empty.Evaluable difference := by
    refine Store.evaluable_of_port_zero (fun c hc hinput => ?_) (by decide)
    have unary : ∀ c ∈ difference.cells, ∃ g, c.kind.symbol = .gate g ∧
        (g.isUnary = true → c.links ≠ []) := by
      intro c hc
      simp only [difference, List.mem_toArray, List.mem_cons, List.not_mem_nil, or_false] at hc
      rcases hc with rfl | rfl | rfl | rfl <;> exact ⟨_, rfl, by decide⟩
    obtain ⟨g, hkind, hlinks⟩ := unary c hc
    exact (Store.evaluableBelow_gate hkind).2 hlinks
  have filling : Filling store c [difference] := (Filling.empty .empty).push evaluable step
  have gates := extends_insert evaluable step
  have built : ∀ c ∈ (#[.input, .input, ⟨.ofGate .and, [(Link.of 0).invert, (Link.of 1).invert]⟩,
      .output (.of 2)] : Array Cell), ∃ g, c.kind = .ofGate g := by
    simp [Cell.input, Cell.output]
  have addressable := Store.addressable_of_cells gates hcells (by decide) (by decide) built
  obtain ⟨-, -, -, -, -, find⟩ := filling.guarantees addressable
  exact ⟨store, c, filling, addressable, fun f => (find f (by decide)).1⟩

end Catalogue

end Gatework
