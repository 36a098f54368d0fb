import Gatework.Proofs.Gates
import Gatework.Proofs.Meaning
import Gatework.Proofs.Npn.Listing

/-!
# Catalogues that cannot be told apart

Two catalogues over different stores mirror each other if they list equal networks under the same
classes, in the same order, and know the same imprints, wherever in the stores the networks are.
Storing one more network of gates keeps this (`Mirrors.insert`), so the two go on in step: whatever
networks are stored in them, the same ones are new (`Mirrors.news_eq`).
-/

namespace Gatework

namespace Catalogue

variable {store store' other other' : Store} {c d : Catalogue} {key : WordTable} {net : Subnet}
  {p q : Nat}

/-- The networks that are listed, class by class, as they are in the store. -/
def contents (c : Catalogue) (store : Store) : List (WordTable × List (Option Subnet)) :=
  c.classes.map fun entry => (entry.1, entry.2.map (store.subnets[·]?))

/-- Stores networks one after the other, and tells of each of them whether it was new. -/
def news (c : Catalogue) (store : Store) : List Subnet → Except Fault (List Bool)
  | [] => .ok []
  | net :: nets => do
      let (_, store', c') ← c.insert store net
      return decide (c.networkCount < c'.networkCount) :: (← c'.news store' nets)

/-- All listed positions are positions of the store. -/
def Placed (store : Store) (c : Catalogue) : Prop := ∀ p ∈ c.positions, p < store.subnets.size

lemma Placed.extends (h : Placed store c) (grows : store.Extends store') : Placed store' c :=
  fun p hp => (h p hp).trans_le grows.size_le

lemma contents_extends (placed : Placed store c) (grows : store.Extends store') :
    c.contents store' = c.contents store := by
  refine List.map_congr_left fun entry hentry => congrArg _ (List.map_congr_left fun p hp => ?_)
  have hlt := placed p (List.mem_flatMap.2 ⟨entry, hentry, hp⟩)
  rw [Arena.getElem?_eq_getElem hlt]
  exact grows.subnets p _ (Arena.getElem?_eq_getElem hlt)

lemma networkCount_eq (c : Catalogue) (store : Store) :
    c.networkCount = (c.contents store).foldl (fun n entry => n + entry.2.length) 0 := by
  simp [networkCount, contents, List.foldl_map]

/-- Two catalogues, each over its store, that list equal networks and know the same imprints. -/
structure Mirrors (store : Store) (c : Catalogue) (other : Store) (d : Catalogue) : Prop where
  placed : Placed store c
  placed' : Placed other d
  contents : d.contents other = c.contents store
  known : ∀ imprint, (d.known? imprint).isSome = (c.known? imprint).isSome

/-! ## One more network -/

/-- Equal networks are listed in the same place. -/
lemma contents_alterClass {cs ds : List (WordTable × List Nat)}
    (h : ds.map (fun entry => (entry.1, entry.2.map (other.subnets[·]?))) =
      cs.map fun entry => (entry.1, entry.2.map (store.subnets[·]?)))
    (same : other.subnets[q]? = store.subnets[p]?) :
    (alterClass key (· ++ [q]) ds).map (fun entry => (entry.1, entry.2.map (other.subnets[·]?))) =
      (alterClass key (· ++ [p]) cs).map fun entry => (entry.1, entry.2.map (store.subnets[·]?)) := by
  induction cs generalizing ds with
  | nil =>
      obtain rfl := List.map_eq_nil_iff.1 h
      simp [alterClass, same]
  | cons head cs ih =>
      obtain ⟨head', ds, rfl, hhead, hrest⟩ := List.map_eq_cons_iff.1 h
      obtain ⟨hkey, hnetworks⟩ := Prod.mk.inj hhead
      rw [alterClass, alterClass, hkey]
      split
      · simp [hnetworks, hrest, same]
      · simp [hnetworks, hrest, same]
      · simp [hnetworks, ih hrest]

namespace Mirrors

lemma grow (h : Mirrors store c other d) (grows : store.Extends store')
    (grows' : other.Extends other') : Mirrors store' c other' d where
  placed := h.placed.extends grows
  placed' := h.placed'.extends grows'
  contents := by rw [contents_extends h.placed grows, contents_extends h.placed' grows', h.contents]
  known := h.known

lemma networkCount_eq (h : Mirrors store c other d) : d.networkCount = c.networkCount := by
  rw [d.networkCount_eq other, c.networkCount_eq store, h.contents]

lemma listed (h : Mirrors store c other d) (hp : store.subnets[p]? = some net)
    (hq : other.subnets[q]? = some net) :
    Mirrors store (c.listed key net.imprint p) other (d.listed key net.imprint q) where
  placed r hr := by
    rcases List.mem_cons.1 (positions_listed.subset hr) with rfl | hr
    · exact Arena.lt_size_of_getElem? hp
    · exact h.placed r hr
  placed' r hr := by
    rcases List.mem_cons.1 (positions_listed.subset hr) with rfl | hr
    · exact Arena.lt_size_of_getElem? hq
    · exact h.placed' r hr
  contents := contents_alterClass h.contents (hq.trans hp.symm)
  known imprint := by
    have hknown := h.known imprint
    simp only [known?, Catalogue.listed, List.lookup_cons] at hknown ⊢
    split
    · rfl
    · exact hknown

/-- Storing a network of gates fails in both catalogues, or it succeeds in both and they go on
mirroring each other. -/
theorem insert (h : Mirrors store c other d) (gates : ∀ cell ∈ net.cells, ∃ g, cell.kind.symbol = .gate g) :
    (∃ e, c.insert store net = .error e ∧ d.insert other net = .error e) ∨
      ∃ added added' store' other' c' d', c.insert store net = .ok (added, store', c') ∧
        d.insert other net = .ok (added', other', d') ∧ Mirrors store' c' other' d' := by
  unfold Catalogue.insert
  by_cases single : net.numOutputs ≠ 1
  · exact .inl ⟨_, if_pos single, if_pos single⟩
  rw [if_neg single, if_neg single, Subnet.tabulate_eq_of_gates gates other store]
  cases store.tabulate net with
  | error e => exact .inl ⟨e, rfl, rfl⟩
  | ok tables =>
      cases tables with
      | nil => exact .inl ⟨_, rfl, rfl⟩
      | cons f tables =>
          simp only [ok_bind]
          cases f.canonical? with
          | none => exact .inr ⟨_, _, _, _, _, _, rfl, rfl, h⟩
          | some pair =>
              obtain ⟨form, t⟩ := pair
              dsimp only
              cases t.onSubnet net with
              | error e => exact .inl ⟨e, rfl, rfl⟩
              | ok stored =>
                  have grown := h.grow (.addSubnet store stored) (.addSubnet other stored)
                  have hknown := h.known stored.imprint
                  simp only [ok_bind]
                  refine .inr ?_
                  cases hc : c.known? stored.imprint with
                  | some existing =>
                      obtain ⟨existing', hd⟩ := Option.isSome_iff_exists.1 (hknown.trans (by rw [hc]; rfl))
                      rw [hd]
                      exact ⟨_, _, _, _, _, _, rfl, rfl, grown⟩
                  | none =>
                      have hd : d.known? stored.imprint = none :=
                        Option.isNone_iff_eq_none.1 <|
                          Option.isSome_eq_false_iff.1 (hknown.trans (by rw [hc]; rfl))
                      rw [hd]
                      refine ⟨_, _, _, _, _, _, rfl, rfl, grown.listed ?_ ?_⟩
                      · simp [Store.addSubnet]
                      · simp [Store.addSubnet]

/-- Of several networks that are stored in both catalogues the same ones are new. -/
theorem news_eq (h : Mirrors store c other d) {nets : List Subnet}
    (gates : ∀ net ∈ nets, ∀ cell ∈ net.cells, ∃ g, cell.kind.symbol = .gate g) :
    d.news other nets = c.news store nets := by
  induction nets generalizing store c other d with
  | nil => rfl
  | cons net nets ih =>
      obtain ⟨hnet, hnets⟩ := List.forall_mem_cons.1 gates
      rw [news, news]
      rcases h.insert hnet with ⟨e, hc, hd⟩ | ⟨added, added', store', other', c', d', hc, hd, h'⟩
      · rw [hc, hd]
        rfl
      · rw [hc, hd, ok_bind, ok_bind]
        dsimp only
        rw [h.networkCount_eq, h'.networkCount_eq, ih h' hnets]

end Mirrors

end Catalogue

end Gatework
