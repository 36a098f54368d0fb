import Gatework.Npn.Archive
import Gatework.Proofs.Image
import Gatework.Proofs.Npn.Built
import Gatework.Proofs.Npn.Contract
import Gatework.Proofs.Npn.Mirror

/-!
# Catalogues in files

A catalogue of networks of gates is restored from its bytes over any store with the built-in gates.
The file keeps neither the positions of the networks nor the imprints.  Restoring adds the networks to
the store one after the other and takes their imprints anew, and the classes come out in the order in
which they stand in the file, which is their order in a catalogue.

* `Archive.reads`: an archive is read back from its bytes as long as its numbers fit their fields.
* `readArchive_encode`: a file that holds an archive begins with the version, which is not the mark of a
  compressed file, so the file is taken as it is.
* `exists_restoreClasses`: what restoring makes of the classes of an archive.
* `Faithful.imprints_perm`: the imprints that a catalogue knows are those of the networks it lists.

**Main statement.** `Built.restores`.
-/

namespace Gatework

/-! ## The layout -/

namespace Archive

open Bytes

/-- The numbers in an archive fit the fields that the layout has for them. -/
structure Fits (a : Archive) : Prop where
  version : a.version < 2 ^ 32
  size : a.classes.length < 2 ^ 64
  numVars : ∀ entry ∈ a.classes, entry.1.numVars < 2 ^ 32
  words : ∀ entry ∈ a.classes, entry.1.words.length < 2 ^ 64
  length : ∀ entry ∈ a.classes, entry.2.length < 2 ^ 64
  images : ∀ entry ∈ a.classes, ∀ image ∈ entry.2, image.Fits

lemma reads_word (w : UInt64) : Reads decodeWord (fun w => encodeNat 8 w.toNat) w := by
  intro rest
  rw [decodeWord, reads_nat (show w.toNat < 256 ^ 8 from w.toNat_lt), Except.map]
  dsimp only
  rw [UInt64.ofNat_toNat]

lemma reads_table {t : WordTable} (numVars : t.numVars < 2 ^ 32) (words : t.words.length < 2 ^ 64) :
    Reads decodeTable encodeTable t := by
  intro rest
  rw [encodeTable, List.append_assoc, decodeTable]
  simp only [reads_nat (show t.numVars < 256 ^ 4 from numVars) _, ok_bind,
    reads_list (show t.words.length < 256 ^ 8 from words) (fun w _ => reads_word w) _]
  rfl

lemma reads_class {entry : WordTable × List Image} (numVars : entry.1.numVars < 2 ^ 32)
    (words : entry.1.words.length < 2 ^ 64) (length : entry.2.length < 2 ^ 64)
    (images : ∀ image ∈ entry.2, image.Fits) : Reads decodeClass encodeClass entry := by
  intro rest
  rw [encodeClass, List.append_assoc, decodeClass]
  simp only [reads_table numVars words _, ok_bind,
    reads_list (show entry.2.length < 256 ^ 8 from length)
      (fun image himage => Image.reads (images image himage)) _]
  rfl

/-- An archive is read back. -/
lemma reads {a : Archive} (fits : a.Fits) : Reads decode encode a := by
  intro rest
  have classes := reads_list (show a.classes.length < 256 ^ 8 from fits.size) fun entry hentry =>
    reads_class (fits.numVars entry hentry) (fits.words entry hentry) (fits.length entry hentry)
      (fits.images entry hentry)
  rw [encode, List.append_assoc, decode]
  simp only [reads_nat (show a.version < 256 ^ 4 from fits.version) _, classes _, ok_bind]
  rfl

end Archive

namespace Catalogue

/-- An archive of the current version is read back from its file. -/
theorem readArchive_encode {a : Archive} (fits : a.Fits) (current : a.version = Archive.currentVersion) :
    readArchive a.encode = .ok a := by
  have expanded : Gzip.expand a.encode = .ok a.encode := by
    rw [Archive.encode, current]
    rfl
  have hread := Archive.reads fits []
  rw [List.append_nil] at hread
  rw [readArchive, expanded, ok_bind, hread]
  exact if_pos current

end Catalogue

/-! ## Restoring -/

namespace Catalogue

variable {store other : Store} {c d : Catalogue} {groups : List (WordTable × List Subnet)}
  {key : WordTable} {nets : List Subnet} {pushed : List Subnet}

/-- A catalogue lists the networks of some groups, each group under its table. -/
def Holds (store : Store) (c : Catalogue) (groups : List (WordTable × List Subnet)) : Prop :=
  c.contents store = groups.map fun group => (group.1, group.2.map some)

namespace Holds

variable (h : Holds store c groups)
include h

lemma networks : c.positions.map (store.subnets[·]?) = (groups.flatMap (·.2)).map some := by
  have := congrArg (List.flatMap (·.2)) h
  rw [contents, List.flatMap_map, List.flatMap_map] at this
  rw [positions, List.map_flatMap, List.map_flatMap]
  exact this

lemma placed : Placed store c := by
  intro p hp
  have hmem : store.subnets[p]? ∈ c.positions.map (store.subnets[·]?) := List.mem_map_of_mem hp
  rw [h.networks] at hmem
  obtain ⟨net, -, hnet⟩ := List.mem_map.1 hmem
  exact Arena.lt_size_of_getElem? hnet.symm

lemma keys : c.classes.map (·.1) = groups.map (·.1) := by
  have := congrArg (List.map (·.1)) h
  rw [contents, List.map_map, List.map_map] at this
  exact this

lemma grow {store' : Store} (grows : store.Extends store') : Holds store' c groups :=
  (contents_extends h.placed grows).trans h

/-- The images of the groups make up the archive. -/
lemma archive_eq : c.archive store =
    ⟨Archive.currentVersion, groups.map fun group => (group.1, group.2.map Subnet.image)⟩ := by
  have hclasses : (c.archive store).classes =
      (c.contents store).map fun entry => (entry.1, entry.2.filterMap (Option.map Subnet.image)) := by
    simp only [archive, contents, List.map_map]
    refine List.map_congr_left fun entry _ => ?_
    simp [List.filterMap_map]
  rw [h, List.map_map] at hclasses
  refine congrArg (Archive.mk Archive.currentVersion) (hclasses.trans ?_)
  refine List.map_congr_left fun group _ => ?_
  simp [List.filterMap_map, List.filterMap_eq_map']

end Holds

/-- A catalogue whose positions are positions of the store lists the networks at these positions. -/
lemma exists_holds (placed : Placed store c) : ∃ groups, Holds store c groups := by
  refine ⟨c.classes.map fun entry => (entry.1, entry.2.filterMap (store.subnets[·]?)), ?_⟩
  rw [Holds, List.map_map]
  refine List.map_congr_left fun entry hentry => congrArg _ ?_
  have hplaced : ∀ p ∈ entry.2, p < store.subnets.size := fun p hp =>
    placed p (List.mem_flatMap.2 ⟨entry, hentry, hp⟩)
  dsimp only
  generalize entry.2 = positions at hplaced
  induction positions with
  | nil => rfl
  | cons p positions ih =>
      obtain ⟨hp, hrest⟩ := List.forall_mem_cons.1 hplaced
      rw [List.map_cons, List.filterMap_cons, Arena.getElem?_eq_getElem hp, List.map_cons, ih hrest]

/-! ## Restoring -/

/-- Changing a class behind all others adds it at the end. -/
lemma alterClass_of_lt {classes : List (WordTable × List Nat)} {f : List Nat → List Nat}
    (h : ∀ k ∈ classes.map (·.1), k.order key = .lt) :
    alterClass key f classes = classes ++ [(key, f [])] := by
  induction classes with
  | nil => rfl
  | cons head rest ih =>
      obtain ⟨hhead, hrest⟩ := List.forall_mem_cons.1 h
      rw [alterClass, Std.OrientedCmp.gt_of_lt hhead]
      dsimp only
      rw [ih hrest, List.cons_append]

/-- What restoring has made of some networks of one class. -/
structure Refilled (other : Store) (d : Catalogue) (nets : List Subnet)
    (state : Store × Catalogue × List Nat) : Prop where
  grows : other.Extends state.1
  classes : state.2.1.classes = d.classes
  imprints : state.2.1.imprints.map (·.1) = (nets.map Subnet.imprint).reverse ++ d.imprints.map (·.1)
  positions : state.2.2.map (state.1.subnets[·]?) = nets.map some

/-- The networks of one class are restored one after the other. -/
lemma exists_restoreImages (gates : Store.empty.Extends other) (ofGates : ∀ net ∈ nets, net.OfGates)
    (d : Catalogue) :
    ∃ state, (nets.map Subnet.image).foldlM Archive.restoreImage (other, d, []) = .ok state ∧
      Refilled other d nets state := by
  rw [List.foldlM_map]
  refine exists_foldlM_eq_ok (Refilled other d) ⟨.refl other, rfl, rfl, rfl⟩ ?_
  rintro done net rest ⟨store, c, positions⟩ hnets ⟨grows, classes, imprints, hpositions⟩
  have hnet := ofGates net (by simp [hnets])
  have hrun : net.image.restore store = .ok net :=
    Store.restore_eq_ok_iff.2 ⟨rfl, hnet.hosts (gates.trans grows),
      fun c hc => (hnet.type_lt c hc).trans (by decide)⟩
  have grows' := Store.Extends.addSubnet store net
  have hlast : (store.addSubnet net).1.subnets[store.subnets.size]? = some net := by
    simp [Store.addSubnet]
  refine ⟨((store.addSubnet net).1,
    { c with imprints := (net.imprint, store.subnets.size) :: c.imprints },
    positions ++ [store.subnets.size]), ?_, grows.trans grows', classes, ?_, ?_⟩
  · simp only [Archive.restoreImage, hrun]
    rfl
  · simp [imprints]
  · have same : positions.map ((store.addSubnet net).1.subnets[·]?) = done.map some := by
      rw [← hpositions]
      refine List.map_congr_left fun p hp => ?_
      have hmem : store.subnets[p]? ∈ positions.map (store.subnets[·]?) := List.mem_map_of_mem hp
      rw [hpositions] at hmem
      obtain ⟨net', -, hnet'⟩ := List.mem_map.1 hmem
      rw [← hnet']
      exact grows'.subnets p net' hnet'.symm
    rw [List.map_append, List.map_append, same, List.map_singleton, hlast, List.map_singleton]

/-- What restoring has made of some classes. -/
structure Restored (other : Store) (groups : List (WordTable × List Subnet))
    (state : Store × Catalogue) : Prop where
  grows : other.Extends state.1
  holds : Holds state.1 state.2 groups
  imprints : state.2.imprints.map (·.1) = ((groups.flatMap (·.2)).map Subnet.imprint).reverse

/-- One more class, whose table is behind those of the others. -/
lemma Restored.step {state : Store × Catalogue} (h : Restored other groups state)
    (gates : Store.empty.Extends other) (ofGates : ∀ net ∈ nets, net.OfGates)
    (behind : ∀ k ∈ groups.map (·.1), k.order key = .lt) :
    ∃ state', Archive.restoreClass state (key, nets.map Subnet.image) = .ok state' ∧
      Restored other (groups ++ [(key, nets)]) state' := by
  obtain ⟨store, c⟩ := state
  obtain ⟨⟨store', c', positions⟩, hrun, refilled⟩ := exists_restoreImages (gates.trans h.grows) ofGates c
  have hclasses := refilled.classes
  refine ⟨(store', { c' with classes := alterClass key (fun _ => positions) c'.classes }), ?_,
    h.grows.trans refilled.grows, ?_, ?_⟩
  · rw [Archive.restoreClass]
    dsimp only
    rw [hrun]
    rfl
  · have holds := h.holds.grow refilled.grows
    rw [Holds, contents]
    dsimp only at hclasses holds ⊢
    rw [hclasses, alterClass_of_lt (h.holds.keys ▸ behind), List.map_append, List.map_append,
      List.map_singleton, List.map_singleton, refilled.positions]
    exact congrArg (· ++ _) holds
  · rw [show _ = _ from refilled.imprints, h.imprints]
    simp

/-- The classes of an archive are restored one after the other. -/
theorem exists_restoreClasses (gates : Store.empty.Extends other)
    (ofGates : ∀ group ∈ groups, ∀ net ∈ group.2, net.OfGates)
    (ordered : (groups.map (·.1)).Pairwise fun k l => k.order l = .lt) :
    ∃ state, (groups.map fun group => (group.1, group.2.map Subnet.image)).foldlM
      Archive.restoreClass (other, empty) = .ok state ∧ Restored other groups state := by
  rw [List.foldlM_map]
  refine exists_foldlM_eq_ok (Restored other) ⟨.refl other, rfl, rfl⟩ ?_
  rintro done ⟨key, nets⟩ rest state hgroups restored
  refine restored.step gates (ofGates (key, nets) (by simp [hgroups])) ?_
  rw [hgroups, List.map_append, List.map_cons] at ordered
  exact fun k hk => (List.pairwise_append.1 ordered).2.2 k hk key (List.mem_cons_self ..)

/-! ## What a catalogue knows -/

lemma isSome_known?_iff {imprint : List UInt8} :
    (c.known? imprint).isSome ↔ imprint ∈ c.imprints.map (·.1) := by
  rw [← not_iff_not, Bool.not_eq_true, Option.isSome_eq_false_iff, Option.isNone_iff_eq_none, known?,
    List.lookup_eq_none_iff]
  simp only [List.mem_map, Prod.exists, exists_and_right, exists_eq_right, not_exists, bne_iff_ne, ne_eq,
    Prod.forall]
  exact ⟨fun h p hp => h imprint p hp rfl, fun h _ p hp heq => h p (heq ▸ hp)⟩

/-- The imprints that a catalogue knows are those of the networks that it lists. -/
lemma Faithful.imprints_perm (h : Faithful store c pushed) (holds : Holds store c groups) :
    (c.imprints.map (·.1)).Perm ((groups.flatMap (·.2)).map Subnet.imprint) := by
  have listed : (c.positions.map (store.subnets[·]?)).map (Option.map Subnet.imprint) =
      ((groups.flatMap (·.2)).map Subnet.imprint).map some := by
    rw [holds.networks, List.map_map, List.map_map]
    rfl
  have perm := h.perm_imprints
  rw [listed] at perm
  exact (List.map_perm_map_iff (Option.some_injective _)).1 perm

/-- A catalogue and what is restored of it mirror each other. -/
lemma Restored.mirrors {state : Store × Catalogue} (h : Restored other groups state)
    (faithful : Faithful store c pushed) (holds : Holds store c groups) :
    Mirrors store c state.1 state.2 where
  placed := holds.placed
  placed' := h.holds.placed
  contents := h.holds.trans holds.symm
  known imprint := by
    rw [Bool.eq_iff_iff, isSome_known?_iff, isSome_known?_iff, h.imprints, List.mem_reverse,
      (faithful.imprints_perm holds).mem_iff]

/-! ## The numbers in the file -/

/-- A network with one output whose numbers fit the fields of imprints can be written. -/
lemma encodable_of_addressable {net : Subnet} (addressable : net.Addressable)
    (single : net.numOutputs = 1) : net.Encodable := by
  have hsize := addressable.size
  have hterminals := net.numInputs_add_numOutputs_le
  refine ⟨by omega, by omega, by omega, fun c hc => ?_, fun c hc e he => ?_, addressable.types⟩
  · exact (addressable.links c hc).trans (by decide)
  · obtain ⟨l, hl, rfl⟩ := List.mem_map.1 he
    exact addressable.fitsImprint.entries c hc l hl

lemma length_networks_le {entry : WordTable × List Nat} (hentry : entry ∈ c.classes) :
    entry.2.length ≤ c.positions.length := by
  rw [positions, List.flatMap_def]
  exact (List.sublist_flatten_of_mem (List.mem_map_of_mem hentry)).length_le

namespace Faithful

variable (h : Faithful store c pushed)
include h

lemma placed : Placed store c := by
  intro p hp
  obtain ⟨entry, hentry, hmem⟩ := List.mem_flatMap.1 hp
  obtain ⟨_, _, net, -, -, hnet, -⟩ := h.sound entry hentry p hmem
  exact Arena.lt_size_of_getElem? hnet

/-- There are no more listed networks than networks in the store. -/
lemma length_positions_le : c.positions.length ≤ store.subnets.size := by
  have nodup : c.positions.Nodup := List.Nodup.of_map _ h.nodup_networks
  have within : c.positions ⊆ List.range store.subnets.size := fun p hp => List.mem_range.2 (h.placed p hp)
  simpa using (nodup.subperm within).length_le

lemma length_classes_le : c.classes.length ≤ c.positions.length := by
  have nonempty := h.nonempty
  rw [Catalogue.positions]
  generalize c.classes = classes at nonempty
  induction classes with
  | nil => exact Nat.le_refl _
  | cons entry classes ih =>
      obtain ⟨hentry, hrest⟩ := List.forall_mem_cons.1 nonempty
      have hpos := List.length_pos_of_ne_nil hentry
      have hle := ih hrest
      rw [List.flatMap_cons, List.length_append, List.length_cons]
      omega

/-- The numbers in the archive of a catalogue of networks of gates fit their fields. -/
theorem fits (gates : OfGates store c) (addressable : store.Addressable)
    (room : store.subnets.size ≤ 2 ^ Handle.positionBits) : (c.archive store).Fits := by
  have limit : c.positions.length < 2 ^ 64 :=
    (h.length_positions_le.trans room).trans_lt (show 2 ^ 56 < 2 ^ 64 by decide)
  have table : ∀ entry ∈ c.classes, entry.1.numVars ≤ 6 ∧ entry.1.words.length = 1 := by
    intro entry hentry
    obtain ⟨n, form, -, hn, hkey, -⟩ := h.exists_form hentry
    have hn : n ≤ 6 := hn
    rw [hkey]
    refine ⟨hn, (length_wordsOfNat _ _).trans ?_⟩
    rw [wordCount, if_pos hn]
  refine ⟨show 1 < 2 ^ 32 by decide, ?_, ?_, ?_, ?_, ?_⟩
  · rw [archive, List.length_map]
    exact h.length_classes_le.trans_lt limit
  · refine List.forall_mem_map.2 fun entry hentry => ?_
    exact (table entry hentry).1.trans_lt (by decide)
  · refine List.forall_mem_map.2 fun entry hentry => ?_
    exact (table entry hentry).2.trans_lt (by decide)
  · refine List.forall_mem_map.2 fun entry hentry => ?_
    exact (List.length_filterMap_le ..).trans_lt ((length_networks_le hentry).trans_lt limit)
  · refine List.forall_mem_map.2 fun entry hentry image himage => ?_
    obtain ⟨p, hp, himage⟩ := List.mem_filterMap.1 himage
    obtain ⟨net, hnet, rfl⟩ := Option.map_eq_some_iff.1 himage
    obtain ⟨net', hnet', ofGates⟩ := gates p (List.mem_flatMap.2 ⟨entry, hentry, hp⟩)
    cases hnet.symm.trans hnet'
    obtain ⟨_, _, net'', -, -, hnet'', computes⟩ := h.sound entry hentry p hp
    cases hnet.symm.trans hnet''
    exact Store.fits_image
      (encodable_of_addressable (addressable net (Arena.mem_of_getElem? hnet)).1 computes.numOutputs)

end Faithful

/-! ## Restored catalogues -/

/-- Dumping a catalogue and restoring it are inverse to each other.  Let a catalogue come about by
storing networks of gates, in a store in which all numbers fit their fields and there is a handle for
every network.  Over any store with the built-in gates it is restored from its bytes, and

* equal networks are listed under the same tables, in the same order, none of them missing;
* the restored catalogue has the same bytes;
* whatever networks of gates are stored in both catalogues afterwards, while the two stores may grow
  apart, the same ones are new, and where one of them cannot be stored the faults are the same. -/
theorem Built.restores (built : Built store c) (addressable : store.Addressable)
    (room : store.subnets.size ≤ 2 ^ Handle.positionBits) (gates : Store.empty.Extends other) :
    ∃ other' d, ofBytes other (c.toBytes store) = (other', .ok d) ∧ other.Extends other' ∧
      d.contents other' = c.contents store ∧ (∀ entry ∈ c.contents store, none ∉ entry.2) ∧
      d.toBytes other' = c.toBytes store ∧
      ∀ nets : List Subnet, (∀ net ∈ nets, ∀ cell ∈ net.cells, ∃ g, cell.kind.symbol = .gate g) →
        ∀ store₁ other₁, store.Extends store₁ → other'.Extends other₁ →
          d.news other₁ nets = c.news store₁ nets := by
  obtain ⟨pushed, filling, -⟩ := built.exists_filling
  have faithful := filling.faithful addressable.imprinted
  have fits := faithful.fits built.ofGates addressable room
  obtain ⟨groups, holds⟩ := exists_holds faithful.placed
  have ofGates : ∀ group ∈ groups, ∀ net ∈ group.2, net.OfGates := by
    intro group hgroup net hnet
    have hmem : some net ∈ c.positions.map (store.subnets[·]?) := by
      rw [holds.networks]
      exact List.mem_map_of_mem (List.mem_flatMap.2 ⟨group, hgroup, hnet⟩)
    obtain ⟨p, hp, hnet⟩ := List.mem_map.1 hmem
    obtain ⟨net', hnet', cells⟩ := built.ofGates p hp
    cases hnet.symm.trans hnet'
    exact cells
  have ordered : (groups.map (·.1)).Pairwise fun k l => k.order l = .lt := by
    rw [← holds.keys, List.pairwise_map]
    exact faithful.ordered
  obtain ⟨⟨other', d⟩, hrun, restored⟩ := exists_restoreClasses gates ofGates ordered
  have mirrors := restored.mirrors faithful holds
  refine ⟨other', d, ?_, restored.grows, mirrors.contents, ?_, ?_, ?_⟩
  · have hread := readArchive_encode fits rfl
    rw [holds.archive_eq] at hread
    rw [ofBytes, toBytes, holds.archive_eq, hread]
    dsimp only
    rw [hrun]
  · rw [holds]
    intro entry hentry
    obtain ⟨group, -, rfl⟩ := List.mem_map.1 hentry
    simp
  · rw [toBytes, toBytes, holds.archive_eq, restored.holds.archive_eq]
  · exact fun nets hnets store₁ other₁ grows grows' => (mirrors.grow grows grows').news_eq hnets

/-- Both of two bits. -/
def conjunction : Subnet where
  cells := #[.input, .input, ⟨.ofGate .and, [.of 0, .of 1]⟩, .output (.of 2)]
  numInputs := 2
  numOutputs := 1
  valid := by decide

/-- Whether two bits are equal. -/
def equivalence : Subnet where
  cells := #[.input, .input, ⟨.ofGate .xnor, [.of 0, .of 1]⟩, .output (.of 2)]
  numInputs := 2
  numOutputs := 1
  valid := by decide

lemma ofGates_conjunction : conjunction.OfGates := by
  simp only [Subnet.OfGates, conjunction, List.mem_toArray, List.forall_mem_cons]
  exact ⟨⟨_, rfl, rfl⟩, ⟨_, rfl, rfl⟩, ⟨_, rfl, rfl⟩, ⟨_, rfl, rfl⟩, by simp⟩

lemma ofGates_equivalence : equivalence.OfGates := by
  simp only [Subnet.OfGates, equivalence, List.mem_toArray, List.forall_mem_cons]
  exact ⟨⟨_, rfl, rfl⟩, ⟨_, rfl, rfl⟩, ⟨_, rfl, rfl⟩, ⟨_, rfl, rfl⟩, by simp⟩

/-- A catalogue with one network is restored over a store with a composite.  There the same network is
not new, and one of another class is new once. -/
theorem Built.restores_conjunction : ∃ store c, Built store c ∧
    store.Addressable ∧ store.subnets.size ≤ 2 ^ Handle.positionBits ∧
    Store.empty.Extends Store.crossingStore ∧
    ∃ other d, ofBytes Store.crossingStore (c.toBytes store) = (other, .ok d) ∧
      d.contents other = c.contents store ∧
      d.news other [conjunction, equivalence, equivalence] = .ok [false, true, false] := by
  have hrun : (Catalogue.empty.insert .empty conjunction).map (fun r =>
      (r.2.1.subnets.toList.map (·.cells),
        r.2.2.news r.2.1 [conjunction, equivalence, equivalence])) = .ok ([#[.input, .input,
        ⟨.ofGate .and, [(Link.of 0).invert, (Link.of 1).invert]⟩, .output (.of 2)]],
        .ok [false, true, false]) := by cbv
  obtain ⟨⟨added, store, c⟩, step, hresult⟩ := map_eq_ok_iff.1 hrun
  obtain ⟨hcells, hnews⟩ := Prod.mk.inj hresult
  have built : Built store c := (Built.empty .empty).push ofGates_conjunction step
  have gates : Store.empty.Extends store :=
    extends_insert (evaluable_of_insert ofGates_conjunction step) step
  have cells : ∀ c ∈ (#[.input, .input, ⟨.ofGate .and, [(Link.of 0).invert, (Link.of 1).invert]⟩,
      .output (.of 2)] : Array Cell), ∃ g, c.kind = .ofGate g := by
    simp [Cell.input, Cell.output]
  have addressable := Store.addressable_of_cells gates hcells (by decide) (by decide) cells
  have room : store.subnets.size ≤ 2 ^ Handle.positionBits := by
    have hsize : store.subnets.size = 1 := by simpa using congrArg List.length hcells
    rw [hsize]
    decide
  obtain ⟨other, d, hread, -, hcontents, -, -, same⟩ :=
    built.restores addressable room Store.gates_crossingStore
  refine ⟨store, c, built, addressable, room, Store.gates_crossingStore, other, d, hread,
    hcontents, ?_⟩
  rw [same _ ?_ store other (.refl store) (.refl other), hnews]
  simpa using ⟨ofGates_conjunction.symbols, ofGates_equivalence.symbols⟩

end Catalogue

end Gatework
