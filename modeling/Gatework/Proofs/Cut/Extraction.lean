import Gatework.Cut.Cone
import Gatework.Proofs.Builder.Hosting
import Gatework.Proofs.Builder.Plain
import Gatework.Proofs.Cut.Separation
import Gatework.Proofs.Gates
import Gatework.Proofs.Npn.Contract

/-!
# Extracted cones

A cone is copied cell by cell into a builder that simplifies nothing, so its entries stand in the order
in which their sources were listed (`Cone.Copied`).  A negative gate is copied as its positive
counterpart, and the complement is moved onto the links that read it (`Cone.place`).

* `Cone.exists_copy`: the walk down from an entry copies what is between the entry and the leaves.
* `Cone.Copied.dependsOn`: every copy is reached from that of the root, so none is dropped in the end.
* `Cone.Copied.solution`: the values of the copies, taken back to their sources, obey the cells of the
  network.

**Main statement.** `Network.exists_extract`.
-/

namespace Gatework

/-- The kind of the cell that is added for a cell of some kind, and whether its links are complemented. -/
def CellKind.positive (kind : CellKind) : CellKind × Bool :=
  match kind.symbol with
  | .gate g => (.ofGate g.positive.1, g.positive.2)
  | .cell => (kind, false)

lemma CellKind.positive_gate {kind : CellKind} {g : Gate} (h : kind.symbol = .gate g) :
    kind.positive = (.ofGate g.positive.1, g.positive.2) := by
  rw [positive, h]

lemma CellKind.positive_composite {kind : CellKind} (h : kind.symbol = .cell) :
    kind.positive = (kind, false) := by
  rw [positive, h]

/-- A builder adds a cell of some kind with this many operands: the gate of its symbol takes them, or the
type of the composite does. -/
structure Store.Adds (store : Store) (kind : CellKind) (arity : Nat) : Prop where
  gate : ∀ g, kind.symbol = .gate g → g.arity.1 ≤ arity ∧ arity ≤ g.arity.2
  composite : kind.symbol = .cell → ∃ type, store.types[kind.type]? = some type ∧
    type.symbol = .cell ∧ type.accepts arity = true

/-- A network of gates could be added cell by cell. -/
lemma Subnet.OfGates.adds {net : Subnet} (gates : net.OfGates) (store : Store) :
    ∀ c ∈ net.cells, store.Adds c.kind c.links.length := by
  intro c hc
  obtain ⟨g, hkind, accepts⟩ := gates c hc
  rw [hkind]
  refine ⟨fun g' hg => ?_, nofun⟩
  cases hg
  exact CellType.accepts_ofGate_iff.1 accepts

/-- All inner cells of a network could be added by a builder. -/
def Network.Addable (N : Network) (store : Store) : Prop :=
  ∀ entry ∈ N.order, ∀ c, N.cells[entry]? = some c → c.isTerminal = false →
    store.Adds c.kind c.links.length

lemma Network.addable_subnet {net : Subnet} {store : Store}
    (adds : ∀ c ∈ net.cells, store.Adds c.kind c.links.length) : (Network.subnet net).Addable store :=
  fun _ _ c hc _ => adds c (Array.mem_of_getElem? hc)

/-- A path that gets around the leaves can be continued by an entry that is no leaf. -/
lemma Bypasses.tail {cells : Array Cell} {leaves : List Nat} {root e d : Nat} {c : Cell}
    (h : Bypasses cells leaves root e) (hc : cells[e]? = some c) (hd : d ∈ c.drivers)
    (hleaf : d ∉ leaves) : Bypasses cells leaves root d := by
  induction h with
  | refl he => exact .step he hc hd (.refl hleaf)
  | step he hc' hd' _ ih => exact .step he hc' hd' (ih hc)

namespace Cone

open Builder

/-! ## Copies -/

section Places

variable (cells : Array Cell) (leaves sources : List Nat)

/-- Whether the link to the copy of an entry is complemented.  Leaves are copied as inputs. -/
def complemented (e : Nat) : Bool :=
  !leaves.contains e && (cells[e]?).any fun c => c.kind.positive.2

/-- The link to the copy of an entry, when the copies stand in the order of their sources. -/
def place (e : Nat) : Link := { entry := sources.idxOf e, inverted := complemented cells leaves e }

/-- A link between the copies. -/
def relinked (l : Link) : Link :=
  { place cells leaves sources l.entry with
    port := l.port, inverted := complemented cells leaves l.entry ^^ l.inverted }

/-- The copy of a cell. -/
def image (c : Cell) : Cell := ⟨c.kind.positive.1, c.links.map (relinked cells leaves sources)⟩

end Places

variable {store : Store} {cells : Array Cell} {leaves inner sources : List Nat} {root e : Nat}
  {c : Cell} {l : Link} {copies : Copies} {b b' : Builder}

lemma complemented_leaf (he : e ∈ leaves) : complemented cells leaves e = false := by
  simp [complemented, he]

lemma complemented_cell (he : e ∉ leaves) (hc : cells[e]? = some c) :
    complemented cells leaves e = c.kind.positive.2 := by
  simp [complemented, he, hc]

/-- Further copies do not move those that there are. -/
lemma place_append (he : e ∈ sources) (more : List Nat) :
    place cells leaves (sources ++ more) e = place cells leaves sources e := by
  rw [place, place, List.idxOf_append_of_mem he]

/-- The next copy comes last. -/
lemma place_next (he : e ∉ sources) : place cells leaves (sources ++ [e]) e =
    (Link.of sources.length).invertIf (complemented cells leaves e) := by
  rw [place, List.idxOf_append_of_notMem he, List.idxOf_cons_self]
  simp [Link.invertIf, Link.of]

lemma place_leaf (he : e ∈ leaves) (sources : List Nat) :
    place cells leaves sources e = .of (sources.idxOf e) := by
  rw [place, complemented_leaf he]
  rfl

lemma image_append (hc : ∀ d ∈ c.drivers, d ∈ sources) (more : List Nat) :
    image cells leaves (sources ++ more) c = image cells leaves sources c := by
  rw [image, image, Cell.mk.injEq]
  refine ⟨rfl, List.map_congr_left fun l hl => ?_⟩
  rw [relinked, relinked, place_append (hc _ (List.mem_map_of_mem hl))]

/-- Where the copies of entries went. -/
def Places (cells : Array Cell) (leaves sources : List Nat) (places : Std.HashMap Nat Link) : Prop :=
  ∀ e, places[e]? = if e ∈ sources then some (place cells leaves sources e) else none

lemma Places.insert {places : Std.HashMap Nat Link} (h : Places cells leaves sources places) (e : Nat) :
    Places cells leaves (sources ++ [e])
      (places.insert e (place cells leaves (sources ++ [e]) e)) := by
  intro x
  rw [Std.HashMap.getElem?_insert, h x]
  by_cases hx : e = x
  · simp [hx]
  · have hne : x ≠ e := Ne.symm hx
    by_cases hmem : x ∈ sources
    · simp [hx, hmem, place_append hmem]
    · simp [hx, hmem, hne]

/-- The builder of a cone, after the leaves and some of the entries between them and the root have been
copied. -/
structure Copied (cells : Array Cell) (leaves : List Nat) (root : Nat) (inner : List Nat)
    (copies : Copies) (b : Builder) : Prop where
  plain : b.Plain leaves.length inner.length 0
  sources : copies.sources = leaves ++ inner
  nodup : (leaves ++ inner).Nodup
  places : Places cells leaves (leaves ++ inner) copies.places
  bypasses : ∀ e ∈ inner, Bypasses cells leaves root e
  cell : ∀ j e, inner[j]? = some e → ∃ c, cells[e]? = some c ∧ c.isTerminal = false ∧
    (∀ d ∈ c.drivers, d ∈ leaves ++ inner) ∧
      b.cells[leaves.length + j]? = some (image cells leaves (leaves ++ inner) c)

namespace Copied

lemma contains_iff (h : Copied cells leaves root inner copies b) :
    copies.places.contains e = true ↔ e ∈ leaves ++ inner := by
  rw [Std.HashMap.contains_iff_mem, ← Std.HashMap.isSome_getElem?_iff_mem, h.places e]
  split <;> simp_all

/-- A link to an entry that has a copy is turned into a link to the copy. -/
lemma relink_eq (h : Copied cells leaves root inner copies b) (hl : l.entry ∈ leaves ++ inner) :
    relink copies l = .ok (relinked cells leaves (leaves ++ inner) l) := by
  rw [relink, h.places l.entry, if_pos hl]
  rfl

lemma relinks (h : Copied cells leaves root inner copies b)
    (reads : ∀ d ∈ c.drivers, d ∈ leaves ++ inner) :
    c.links.mapM (relink copies) = .ok (image cells leaves (leaves ++ inner) c).links := by
  refine mapM_eq_ok_iff.2 (List.forall₂_map_right_iff.2 (List.forall₂_same.2 fun l hl => ?_))
  exact h.relink_eq (reads _ (List.mem_map_of_mem hl))

/-- The links of a copy stay among the copies. -/
lemma lt_of_mem_links (reads : ∀ d ∈ c.drivers, d ∈ leaves ++ inner) :
    ∀ l ∈ (image cells leaves (leaves ++ inner) c).links, l.entry < leaves.length + inner.length := by
  intro l hl
  obtain ⟨k, hk, rfl⟩ := List.mem_map.1 hl
  rw [← List.length_append]
  exact List.idxOf_lt_length_of_mem (reads _ (List.mem_map_of_mem hk))

/-- Another leaf. -/
lemma copyLeaf (h : Copied cells leaves root [] copies b) (he : e ∉ leaves) :
    ∃ copies' b', Cone.copyLeaf copies e b = .ok (copies', b') ∧
      Copied cells (leaves ++ [e]) root [] copies' b' := by
  obtain ⟨b', hrun, plain, -⟩ := h.plain.addInput
  have nodup : leaves.Nodup := by simpa using h.nodup
  have places : Places cells (leaves ++ [e]) leaves copies.places := fun x => by
    have hx := h.places x
    rw [List.append_nil] at hx
    rw [hx]
    split
    · rename_i hmem
      rw [place_leaf hmem, place_leaf (List.mem_append_left _ hmem)]
    · rfl
  have hplace : place cells (leaves ++ [e]) (leaves ++ [e]) e = .of leaves.length := by
    rw [place_next he, complemented_leaf (by simp)]
    rfl
  refine ⟨_, b', build_bind_eq_ok_iff.2 ⟨_, b', hrun, rfl⟩, ?_, ?_, ?_, ?_, by simp, by simp⟩
  · simpa using plain
  · simp [h.sources]
  · rw [List.append_nil]
    exact List.nodup_append.2 ⟨nodup, List.nodup_singleton e, fun x hx y hy =>
      (List.mem_singleton.1 hy) ▸ ne_of_mem_of_not_mem hx he⟩
  · rw [List.append_nil, ← hplace]
    exact places.insert e

/-- Another entry that reads what has been copied. -/
lemma push (h : Copied cells leaves root inner copies b) (he : e ∉ leaves ++ inner)
    (bypass : Bypasses cells leaves root e) (hc : cells[e]? = some c) (inside : c.isTerminal = false)
    (reads : ∀ d ∈ c.drivers, d ∈ leaves ++ inner) (plain : b'.Plain leaves.length (inner.length + 1) 0)
    (hcells : b'.cells = b.cells.push (image cells leaves (leaves ++ inner) c)) :
    Copied cells leaves root (inner ++ [e])
      { places := copies.places.insert e (place cells leaves (leaves ++ inner ++ [e]) e)
        sources := copies.sources ++ [e] } b' := by
  have hsize : b.cells.size = leaves.length + inner.length := h.plain.size_eq
  refine ⟨?_, ?_, ?_, ?_, ?_, fun j x hx => ?_⟩
  · rw [List.length_append]
    exact plain
  · rw [h.sources, List.append_assoc]
  · rw [← List.append_assoc]
    exact List.nodup_append.2 ⟨h.nodup, List.nodup_singleton e, fun x hx y hy =>
      (List.mem_singleton.1 hy) ▸ ne_of_mem_of_not_mem hx he⟩
  · rw [← List.append_assoc]
    exact h.places.insert e
  · intro x hx
    rcases List.mem_append.1 hx with hx | hx
    · exact h.bypasses x hx
    · rwa [List.mem_singleton.1 hx]
  · rw [← List.append_assoc, hcells]
    rcases Nat.lt_trichotomy j inner.length with hj | rfl | hj
    · rw [List.getElem?_append_left hj] at hx
      obtain ⟨c', hc', inside', reads', hcell⟩ := h.cell j x hx
      refine ⟨c', hc', inside', fun d hd => List.mem_append_left _ (reads' d hd), ?_⟩
      rw [Array.getElem?_push, if_neg (by omega), hcell, image_append reads']
    · rw [List.getElem?_concat_length, Option.some.injEq] at hx
      subst hx
      refine ⟨c, hc, inside, fun d hd => List.mem_append_left _ (reads d hd), ?_⟩
      rw [Array.getElem?_push, if_pos hsize.symm, image_append reads]
    · rw [List.getElem?_eq_none (by simp; omega)] at hx
      cases hx

end Copied

/-! ## The walk -/

/-- Adds a cell of some kind. -/
def addKind (store : Store) (links : List Link) (kind : CellKind) : Build Link :=
  match kind.symbol with
  | .gate g => Builder.addCell (.gate g) links
  | .cell => Builder.addOfType store kind.type links

/-- A cell that a builder adds is added without its complement. -/
lemma exists_addKind {ins count : Nat} (h : b.Plain ins count 0) {links : List Link}
    (inside : c.isTerminal = false) (adds : store.Adds c.kind links.length)
    (reads : ∀ l ∈ links, l.entry < ins + count) :
    ∃ b', addKind store links c.kind b = .ok ((Link.of (ins + count)).invertIf c.kind.positive.2, b') ∧
      b'.Plain ins (count + 1) 0 ∧ b'.cells = b.cells.push ⟨c.kind.positive.1, links⟩ := by
  cases hkind : c.kind.symbol with
  | gate g =>
      have terminal : g ≠ .input ∧ g ≠ .output := by
        simpa [Cell.isTerminal, Cell.isInput, Cell.isOutput, hkind] using inside
      obtain ⟨b', hrun, plain, hcells⟩ :=
        h.addPositive (isTerminal_positive g terminal.1 terminal.2) reads
      simp only [addKind, CellKind.positive_gate hkind, hkind]
      exact ⟨b', addCell_eq_ok_iff.2 ⟨g, _, rfl, terminal.1, terminal.2, adds.gate g hkind, hrun, rfl⟩,
        plain, hcells⟩
  | cell =>
      obtain ⟨b', hrun, plain, hcells⟩ := @Plain.addPositive _ _ _ c.kind _ h inside reads
      obtain ⟨type, htype, hsymbol, accepts⟩ := adds.composite hkind
      have kind : type.kindAt c.kind.type = c.kind := by rw [CellType.kindAt, hsymbol, ← hkind]
      simp only [addKind, CellKind.positive_composite hkind, hkind]
      exact ⟨b', addOfType_eq_ok_iff.2 ⟨type, htype, .inr ⟨hsymbol, accepts, kind ▸ hrun⟩⟩, plain, hcells⟩

/-- How an entry without a copy is copied. -/
lemma copy_cell {fuel : Nat} (hnew : ¬ copies.places.contains e = true) (hc : cells[e]? = some c)
    (hinput : c.isInput = false) : copy store cells root (fuel + 1) copies e = do
      let copies ← c.drivers.foldlM (copy store cells root fuel) copies
      let links ← (c.links.mapM (relink copies) : Except Fault (List Link))
      let place ← addKind store links c.kind
      return { places := copies.places.insert e place, sources := copies.sources ++ [e] } := by
  rw [copy, if_neg hnew]
  simp only [hc, hinput, addKind]
  cases c.kind.symbol <;> rfl

/-- The leaves are copied as inputs. -/
lemma exists_copyLeaves (cells : Array Cell) (root : Nat) (nodup : leaves.Nodup) :
    ∃ copies b, leaves.foldlM copyLeaf {} (.empty {}) = .ok (copies, b) ∧
      Copied cells leaves root [] copies b := by
  refine exists_build_foldlM (fun done copies b => Copied cells done root [] copies b)
    ⟨plain_empty, rfl, List.nodup_nil, fun e => by simp, by simp, by simp⟩ ?_
  rintro done e rest copies b rfl h
  exact h.copyLeaf fun he => (List.nodup_append.1 nodup).2.2 e he e (by simp) rfl

/-- An entry is copied when all that it reads has been. -/
lemma Copied.exists_push (h : Copied cells leaves root inner copies b)
    (adds : store.Adds c.kind c.links.length) (he : e ∉ leaves ++ inner)
    (bypass : Bypasses cells leaves root e) (hc : cells[e]? = some c) (inside : c.isTerminal = false)
    (reads : ∀ d ∈ c.drivers, d ∈ leaves ++ inner) :
    ∃ copies' b', (do
      let links ← (c.links.mapM (relink copies) : Except Fault (List Link))
      let place ← addKind store links c.kind
      return { places := copies.places.insert e place, sources := copies.sources ++ [e] } : Build Copies)
        b = .ok (copies', b') ∧ Copied cells leaves root (inner ++ [e]) copies' b' := by
  have adds' : store.Adds c.kind (image cells leaves (leaves ++ inner) c).links.length := by
    rw [image, List.length_map]
    exact adds
  obtain ⟨b', hadd, plain, hcells⟩ :=
    exists_addKind h.plain inside adds' (Copied.lt_of_mem_links reads)
  have hplace : place cells leaves (leaves ++ inner ++ [e]) e = _ := place_next he
  rw [complemented_cell (fun hleaf => he (List.mem_append_left _ hleaf)) hc, List.length_append] at hplace
  rw [← hplace] at hadd
  exact ⟨_, b', build_lift_bind_eq_ok_iff.2 ⟨_, h.relinks reads, build_bind_eq_ok_iff.2
    ⟨_, b', hadd, rfl⟩⟩, h.push he bypass hc inside reads plain hcells⟩

/-- Entries of which each can be copied can be copied one after the other. -/
lemma exists_copyAll {fuel : Nat} {entries : List Nat} {P : Nat → Prop}
    (each : ∀ d ∈ entries, ∀ inner copies b, Copied cells leaves root inner copies b →
      ∃ copies' b' more, copy store cells root fuel copies d b = .ok (copies', b') ∧
        Copied cells leaves root (inner ++ more) copies' b' ∧ d ∈ leaves ++ (inner ++ more) ∧
        ∀ x ∈ more, P x) (h : Copied cells leaves root inner copies b) :
    ∃ copies' b' more, entries.foldlM (copy store cells root fuel) copies b = .ok (copies', b') ∧
      Copied cells leaves root (inner ++ more) copies' b' ∧
      (∀ d ∈ entries, d ∈ leaves ++ (inner ++ more)) ∧ ∀ x ∈ more, P x := by
  obtain ⟨copies', b', hrun, more, h', hall⟩ := @exists_build_foldlM _ _ (copy store cells root fuel)
    entries copies b
    (fun done copies' b' => ∃ more, Copied cells leaves root (inner ++ more) copies' b' ∧
      (∀ d ∈ done, d ∈ leaves ++ (inner ++ more)) ∧ ∀ x ∈ more, P x)
    ⟨[], by rwa [List.append_nil], by simp, by simp⟩ (by
      rintro done d rest copies₁ b₁ hsplit ⟨more, h₁, hdone, hmore⟩
      obtain ⟨copies₂, b₂, next, hrun, h₂, hd, hnext⟩ := each d
        (hsplit ▸ List.mem_append_right done (List.mem_cons_self ..)) _ _ _ h₁
      rw [List.append_assoc] at h₂ hd
      refine ⟨copies₂, b₂, hrun, more ++ next, h₂, List.forall_mem_append.2 ⟨fun x hx => ?_, ?_⟩,
        List.forall_mem_append.2 ⟨hmore, hnext⟩⟩
      · rw [← List.append_assoc inner, ← List.append_assoc leaves]
        exact List.mem_append_left _ (hdone x hx)
      · exact List.forall_mem_singleton.2 hd)
  exact ⟨copies', b', more, hrun, h', hall⟩

section Walk

variable {N : Network} (addable : N.Addable store)
  (separates : ∀ i c, Bypasses N.cells leaves root i → N.cells[i]? = some c → c.isInput = false)
include addable separates

/-- The walk copies an entry and what is between it and the leaves, the deepest entries first. -/
theorem exists_copy {fuel : Nat} (he : e ∈ N.order)
    (driver : ∀ c, N.cells[e]? = some c → c.isOutput = false) (hfuel : N.order.idxOf e < fuel)
    (bypass : e ∉ leaves → Bypasses N.cells leaves root e)
    (h : Copied N.cells leaves root inner copies b) :
    ∃ copies' b' more, copy store N.cells root fuel copies e b = .ok (copies', b') ∧
      Copied N.cells leaves root (inner ++ more) copies' b' ∧ e ∈ leaves ++ (inner ++ more) ∧
      ∀ x ∈ more, N.order.idxOf x ≤ N.order.idxOf e := by
  induction fuel generalizing e inner copies b with
  | zero => exact absurd hfuel (Nat.not_lt_zero _)
  | succ fuel ih =>
      by_cases hmem : e ∈ leaves ++ inner
      · rw [copy, if_pos (h.contains_iff.2 hmem)]
        exact ⟨copies, b, [], rfl, by rwa [List.append_nil], by rwa [List.append_nil], by simp⟩
      obtain ⟨c, hc⟩ := Network.exists_cell he
      have hleaf : e ∉ leaves := fun hleaf => hmem (List.mem_append_left _ hleaf)
      have hinput := separates e c (bypass hleaf) hc
      have inside : c.isTerminal = false := Bool.or_eq_false_iff.2 ⟨hinput, driver c hc⟩
      -- the drivers are copied first, and all that this copies is in front of the entry
      obtain ⟨copies₁, b₁, more, hdrivers, h₁, reads, hfront⟩ :=
        @exists_copyAll _ _ _ _ _ _ _ fuel c.drivers (N.order.idxOf · < N.order.idxOf e)
          (fun d hd inner copies b h => by
            obtain ⟨horder, hlt⟩ := Network.reads_front he hc hd
            obtain ⟨copies', b', more, hrun, h', hmem, hmore⟩ := ih horder
              (fun _ => Network.isOutput_of_reads he hc hd) (hlt.trans_le (Nat.le_of_lt_succ hfuel))
              (fun hout => (bypass hleaf).tail hc hd hout) h
            exact ⟨copies', b', more, hrun, h', hmem, fun x hx => (hmore x hx).trans_lt hlt⟩) h
      have hnew : e ∉ leaves ++ (inner ++ more) := by
        rw [← List.append_assoc]
        exact fun hin => (List.mem_append.1 hin).elim hmem fun hin => lt_irrefl _ (hfront e hin)
      obtain ⟨copies₂, b₂, hrun, pushed⟩ :=
        h₁.exists_push (addable e he c hc inside) hnew (bypass hleaf) hc inside reads
      rw [List.append_assoc inner more [e]] at pushed
      rw [copy_cell (fun hcontains => hmem (h.contains_iff.1 hcontains)) hc hinput]
      exact ⟨copies₂, b₂, more ++ [e], build_bind_eq_ok_iff.2 ⟨copies₁, b₁, hdrivers, hrun⟩, pushed,
        by simp, List.forall_mem_append.2 ⟨fun x hx => (hfront x hx).le, by simp⟩⟩

end Walk

/-! ## The finished cone -/

lemma drivers_image (sources : List Nat) (c : Cell) :
    (image cells leaves sources c).drivers = c.drivers.map (sources.idxOf ·) := by
  simp only [Cell.drivers, image, List.map_map]
  rfl

namespace Copied

variable (h : Copied cells leaves root inner copies b)
include h

lemma size_eq : b.cells.size = leaves.length + inner.length := h.plain.size_eq

/-- The copy of an entry between the leaves and the root. -/
lemma exists_image (he : e ∈ inner) : ∃ c, cells[e]? = some c ∧ c.isTerminal = false ∧
    (∀ d ∈ c.drivers, d ∈ leaves ++ inner) ∧
      b.cells[(leaves ++ inner).idxOf e]? = some (image cells leaves (leaves ++ inner) c) := by
  have hleaf : e ∉ leaves := fun hleaf => (List.nodup_append.1 h.nodup).2.2 e hleaf e he rfl
  rw [List.idxOf_append_of_notMem hleaf]
  exact h.cell _ e (List.getElem?_idxOf he)

/-- Entries that a path leads to around the leaves have copies, and the copy of the entry that the path
starts from depends on them. -/
lemma dependsOn (grown : ∀ (i : Nat) c, b.cells[i]? = some c → b'.cells[i]? = some c) {i : Nat}
    (bypass : Bypasses cells leaves e i) (he : e ∈ leaves ++ inner) :
    i ∈ inner ∧ b'.DependsOn ((leaves ++ inner).idxOf e) ((leaves ++ inner).idxOf i) := by
  induction bypass with
  | refl hleaf => exact ⟨(List.mem_append.1 he).resolve_left hleaf, .refl⟩
  | @step e d i c hleaf hc hd _ ih =>
      obtain ⟨c', hc', -, reads, hcell⟩ := h.exists_image ((List.mem_append.1 he).resolve_left hleaf)
      cases hc.symm.trans hc'
      obtain ⟨hi, hdep⟩ := ih (reads d hd)
      refine ⟨hi, .head ?_ hdep⟩
      rw [driversOf, grown _ _ hcell]
      show _ ∈ (image cells leaves (leaves ++ inner) c).drivers
      rw [drivers_image]
      exact List.mem_map_of_mem hd

/-- The entries with copies, apart from the leaves, are those between the leaves and the root. -/
lemma mem_inner_iff (hroot : root ∈ leaves ++ inner) : e ∈ inner ↔ Bypasses cells leaves root e :=
  ⟨h.bypasses e, fun bypass => (h.dependsOn (fun _ _ => id) bypass hroot).1⟩

/-- The root is shown, and then the builder is finished as it is. -/
lemma exists_finish (hroot : root ∈ leaves ++ inner) : ∃ b' net,
    addOutput (place cells leaves (leaves ++ inner) root) b =
      .ok (leaves.length + inner.length, b') ∧ b'.finish = .ok net ∧
      net.cells = b.cells.push (.output (place cells leaves (leaves ++ inner) root)) ∧
      net.numInputs = leaves.length ∧ net.numOutputs = 1 := by
  have hlt : (leaves ++ inner).idxOf root < leaves.length + inner.length := by
    rw [← List.length_append]
    exact List.idxOf_lt_length_of_mem hroot
  obtain ⟨b', hrun, plain, hcells⟩ :=
    h.plain.addOutput (l := place cells leaves (leaves ++ inner) root) hlt
  have grown : ∀ (i : Nat) c, b.cells[i]? = some c → b'.cells[i]? = some c := fun i c hc => by
    have hsize := (Array.getElem?_eq_some_iff.1 hc).1
    rw [hcells, Array.getElem?_push, if_neg hsize.ne, hc]
  obtain ⟨net, hnet, hsame, hin, hout⟩ := plain.exists_finish fun i hge hlt => by
    have hinner : i - leaves.length < inner.length := by omega
    have hmem : inner[i - leaves.length] ∈ inner := List.getElem_mem _
    have hidx : (leaves ++ inner).idxOf inner[i - leaves.length] = i := by
      have hi : i < (leaves ++ inner).length := by
        rw [List.length_append]
        omega
      have hget : (leaves ++ inner)[i] = inner[i - leaves.length] := List.getElem_append_right hge
      rw [← hget]
      exact h.nodup.idxOf_getElem i hi
    have dep := (h.dependsOn grown (h.bypasses _ hmem) hroot).2
    rw [hidx] at dep
    refine ⟨leaves.length + inner.length, by rw [plain.outputs_eq]; simp, .head ?_ dep⟩
    rw [driversOf, hcells, ← h.size_eq, Array.getElem?_push_size]
    simp [Cell.drivers, Cell.output, place]
  exact ⟨b', net, hrun, hnet, hsame.trans hcells, hin, hout⟩

/-- The cells of a finished cone. -/
lemma cell_cases {net : Subnet} (hcells : net.cells =
      b.cells.push (.output (place cells leaves (leaves ++ inner) root))) {i : Nat} {d : Cell}
    (hd : net.cells[i]? = some d) : d = .input ∨
      d = .output (place cells leaves (leaves ++ inner) root) ∨
      ∃ e ∈ inner, ∃ c, cells[e]? = some c ∧ d = image cells leaves (leaves ++ inner) c := by
  rw [hcells, Array.getElem?_push] at hd
  split at hd
  · exact .inr (.inl (Option.some.inj hd).symm)
  have hlt := (Array.getElem?_eq_some_iff.1 hd).1
  rw [h.size_eq] at hlt
  by_cases hi : i < leaves.length
  · exact .inl (Option.some.inj (hd.symm.trans (h.plain.getElem?_input hi)))
  · have hinner : inner[i - leaves.length]? = some inner[i - leaves.length] :=
      List.getElem?_eq_getElem (by omega)
    obtain ⟨c, hc, -, -, hcell⟩ := h.cell _ _ hinner
    rw [Nat.add_sub_cancel' (Nat.not_lt.1 hi)] at hcell
    exact .inr (.inr ⟨_, List.getElem_mem _, c, hc, Option.some.inj (hd.symm.trans hcell)⟩)

end Copied

/-! ## Values -/

/-- The values of the copies, taken back to their sources. -/
def backwards (cells : Array Cell) (leaves sources : List Nat) (v : Valuation) : Valuation := fun e =>
  (v (sources.idxOf e)).map (· ^^ complemented cells leaves e)

/-- A link between the copies reads what the link between the sources does, if the copies of negative
gates have one port. -/
lemma read_relinked {v : Valuation} (hport : l.port = 0)
    (single : complemented cells leaves l.entry = true → ∃ x, v (sources.idxOf l.entry) = [x]) :
    (relinked cells leaves sources l).read v = l.read (backwards cells leaves sources v) := by
  simp only [Link.read, relinked, place, backwards, hport]
  cases hcomp : complemented cells leaves l.entry with
  | false => simp
  | true =>
      obtain ⟨x, hx⟩ := single hcomp
      simp [hx]

/-- The copy of a cell has the values of the cell, apart from the complement. -/
lemma portsIn_image {m : Meaning} {v v' : Valuation}
    (reads : ∀ l ∈ c.links, (relinked cells leaves sources l).read v = l.read v') :
    ((image cells leaves sources c).portsIn m v).map (· ^^ c.kind.positive.2) = c.portsIn m v' := by
  have operands : (image cells leaves sources c).links.map (Link.read v) = c.links.map (Link.read v') := by
    rw [image, List.map_map]
    exact List.map_congr_left reads
  rw [Cell.portsIn, Cell.portsIn, operands]
  cases hkind : c.kind.symbol with
  | gate g => simp [Cell.ports, image, hkind, CellKind.positive_gate hkind, ← Gate.value_positive]
  | cell => simp [Cell.ports, image, hkind, CellKind.positive_composite hkind]

namespace Copied

variable (h : Copied cells leaves root inner copies b) {net : Subnet} {m : Meaning} {σ : Nat → Bool}
  (numInputs : net.numInputs = leaves.length)
  (grown : ∀ (i : Nat) c, b.cells[i]? = some c → net.cells[i]? = some c)
include h numInputs grown

/-- An inner copy has the value of its cell. -/
lemma values_of_image (m : Meaning) (σ : Nat → Bool) (he : e ∈ inner) : ∃ c,
    cells[e]? = some c ∧ c.isTerminal = false ∧
    (∀ d ∈ c.drivers, d ∈ leaves ++ inner) ∧
      net.values m σ ((leaves ++ inner).idxOf e) =
        (image cells leaves (leaves ++ inner) c).portsIn m (net.values m σ) := by
  obtain ⟨c, hc, inside, reads, hcell⟩ := h.exists_image he
  refine ⟨c, hc, inside, reads, Subnet.values_of_le ?_ (grown _ _ hcell)⟩
  have hleaf : e ∉ leaves := fun hleaf => (List.nodup_append.1 h.nodup).2.2 e hleaf e he rfl
  rw [numInputs, List.idxOf_append_of_notMem hleaf]
  exact Nat.le_add_right _ _

/-- The copy of a negative gate has one port. -/
lemma single (he : e ∈ leaves ++ inner) (hcomp : complemented cells leaves e = true) :
    ∃ x, net.values m σ ((leaves ++ inner).idxOf e) = [x] := by
  by_cases hleaf : e ∈ leaves
  · rw [complemented_leaf hleaf] at hcomp
    cases hcomp
  obtain ⟨c, hc, -, -, hvalues⟩ :=
    h.values_of_image numInputs grown m σ ((List.mem_append.1 he).resolve_left hleaf)
  rw [complemented_cell hleaf hc] at hcomp
  rw [hvalues]
  cases hkind : c.kind.symbol with
  | gate g => exact ⟨_, by rw [Cell.portsIn, Cell.ports, image, CellKind.positive_gate hkind]; rfl⟩
  | cell =>
      rw [CellKind.positive_composite hkind] at hcomp
      cases hcomp

/-- The values of the copies, taken back to their sources, obey the cells of the network. -/
theorem solution (port : ∀ e ∈ inner, ∀ c, cells[e]? = some c → ∀ l ∈ c.links, l.port = 0) (x : Nat) :
    ConeSolution m cells leaves x
      (backwards cells leaves (leaves ++ inner) (net.values m x.testBit)) (· ∈ leaves ++ inner) := by
  refine ⟨fun k e hk => ?_, fun e he hleaf c hc hinput => ?_, fun e he hleaf c hc d hd => ?_⟩
  · obtain ⟨hlt, rfl⟩ := List.getElem?_eq_some_iff.1 hk
    have hmem : leaves[k] ∈ leaves := List.getElem_mem hlt
    have hidx : (leaves ++ inner).idxOf leaves[k] = k := by
      rw [List.idxOf_append_of_mem hmem]
      exact (List.nodup_append.1 h.nodup).1.idxOf_getElem k hlt
    rw [backwards, hidx, Subnet.values_of_lt (numInputs ▸ hlt), complemented_leaf hmem]
    simp
  · have hinner := (List.mem_append.1 he).resolve_left hleaf
    obtain ⟨c', hc', -, reads, hvalues⟩ :=
      h.values_of_image numInputs grown m x.testBit hinner
    cases hc.symm.trans hc'
    rw [backwards, hvalues, complemented_cell hleaf hc]
    refine portsIn_image fun l hl => read_relinked (port e hinner c hc l hl) fun hcomp => ?_
    exact h.single numInputs grown (reads _ (List.mem_map_of_mem hl)) hcomp
  · obtain ⟨c', hc', -, reads, -⟩ :=
      h.exists_image ((List.mem_append.1 he).resolve_left hleaf)
    cases hc.symm.trans hc'
    exact reads d hd

/-- The output of a finished cone has the value that the cells of the network give to the root. -/
lemma outputValues_eq (hroot : root ∈ leaves ++ inner)
    (hcells : net.cells = b.cells.push (.output (place cells leaves (leaves ++ inner) root)))
    (numOutputs : net.numOutputs = 1) :
    net.outputValues m σ =
      [(backwards cells leaves (leaves ++ inner) (net.values m σ) root).headD false] := by
  have hstart : net.outputStart = b.cells.size := by
    rw [Subnet.outputStart, Subnet.size, hcells, Array.size_push, numOutputs, Nat.add_sub_cancel]
  have hout : net.cells[b.cells.size]? =
      some (.output (place cells leaves (leaves ++ inner) root)) := by
    rw [hcells, Array.getElem?_push_size]
  have hread := @read_relinked cells leaves (leaves ++ inner) (.of root) (net.values m σ) rfl
    fun hcomp => h.single numInputs grown hroot hcomp
  have hplace : relinked cells leaves (leaves ++ inner) (.of root) =
      place cells leaves (leaves ++ inner) root := by simp [relinked, place, Link.of]
  rw [hplace] at hread
  rw [Subnet.outputValues, Subnet.outputs, numOutputs, hstart, List.range'_one, List.map_singleton,
    Subnet.values_of_output hout rfl rfl, List.headD_cons, hread]
  cases hv : backwards cells leaves (leaves ++ inner) (net.values m σ) root <;>
    simp [Link.read, Link.of, hv]

end Copied

lemma isUnary_positive (g : Gate) : g.positive.1.isUnary = g.isUnary := by cases g <;> rfl

/-- The copy of a cell that can be evaluated can be evaluated. -/
lemma evaluableBelow_image {limit : Nat} (h : store.EvaluableBelow limit c) :
    store.EvaluableBelow limit (image cells leaves sources c) := by
  have hlength : (image cells leaves sources c).links.length = c.links.length := by
    rw [image, List.length_map]
  cases hkind : c.kind.symbol with
  | gate g =>
      have kind : (image cells leaves sources c).kind.symbol = .gate g.positive.1 := by
        rw [image, CellKind.positive_gate hkind]
        rfl
      refine (Store.evaluableBelow_gate kind).2 fun hunary => ?_
      have := (Store.evaluableBelow_gate hkind).1 h (isUnary_positive g ▸ hunary)
      exact List.ne_nil_of_length_pos (hlength ▸ List.length_pos_of_ne_nil this)
  | cell => exact h.congr (by rw [image, CellKind.positive_composite hkind]) hlength

/-- A cone can be evaluated if what it was copied from can be. -/
lemma Copied.evaluable (h : Copied cells leaves root inner copies b) {net : Subnet}
    (hcells : net.cells = b.cells.push (.output (place cells leaves (leaves ++ inner) root)))
    (port : ∀ e ∈ inner, ∀ c, cells[e]? = some c → ∀ l ∈ c.links, l.port = 0)
    (cell : ∀ e ∈ inner, ∀ c, cells[e]? = some c → store.EvaluableBelow store.subnets.size c) :
    store.Evaluable net := by
  refine Store.evaluable_of_port_zero (fun d hd hinput => ?_) fun d hd l hl => ?_
  · obtain ⟨i, hi⟩ := Array.mem_iff_getElem?.1 hd
    rcases h.cell_cases hcells hi with rfl | rfl | ⟨e, he, c, hc, rfl⟩
    · cases hinput
    · exact (Store.evaluableBelow_gate rfl).2 fun _ => List.cons_ne_nil _ _
    · exact evaluableBelow_image (cell e he c hc)
  · obtain ⟨i, hi⟩ := Array.mem_iff_getElem?.1 hd
    rcases h.cell_cases hcells hi with rfl | rfl | ⟨e, he, c, hc, rfl⟩
    · cases hl
    · rw [List.mem_singleton.1 hl]
      rfl
    · obtain ⟨k, hk, rfl⟩ := List.mem_map.1 hl
      exact port e he c hc k hk

/-- A cone whose entries are the leaves of a cut, what is between them and the root, and the root once
more as the output; every cell reads copies of what its source reads, in the same order. -/
structure Mirrors (cone : Cone) (cells : Array Cell) (cut : Cut) (inner : List Nat) : Prop where
  sources : cone.sources = cut.leaves ++ inner ++ [cut.root]
  size : cone.sources.length = cone.net.size
  numInputs : cone.net.numInputs = cut.leaves.length
  numOutputs : cone.net.numOutputs = 1
  nodup : (cut.leaves ++ inner).Nodup
  mem_iff : ∀ e, e ∈ inner ↔ Bypasses cells cut.leaves cut.root e
  drivers : ∀ (j e : Nat), inner[j]? = some e → ∃ c d, cells[e]? = some c ∧
    cone.net.cells[cut.leaves.length + j]? = some d ∧
      d.drivers.map (cone.sources[·]?) = c.drivers.map some

lemma Copied.mirrors {cut : Cut} (h : Copied cells cut.leaves cut.root inner copies b)
    (hroot : cut.root ∈ cut.leaves ++ inner) {net : Subnet}
    (hcells : net.cells =
      b.cells.push (.output (place cells cut.leaves (cut.leaves ++ inner) cut.root)))
    (numInputs : net.numInputs = cut.leaves.length) (numOutputs : net.numOutputs = 1) :
    Mirrors ⟨net, copies.sources ++ [cut.root]⟩ cells cut inner := by
  refine ⟨by rw [h.sources], ?_, numInputs, numOutputs, h.nodup, fun e => h.mem_inner_iff hroot,
    fun j e he => ?_⟩
  · rw [Subnet.size, hcells, Array.size_push, h.size_eq, h.sources, List.length_append,
      List.length_append]
    rfl
  · obtain ⟨c, hc, -, reads, hcell⟩ := h.cell j e he
    have hlt := (Array.getElem?_eq_some_iff.1 hcell).1
    refine ⟨c, _, hc, by rw [hcells, Array.getElem?_push, if_neg hlt.ne, hcell], ?_⟩
    rw [drivers_image, List.map_map, h.sources]
    refine List.map_congr_left fun d hd => ?_
    have hmem := reads d hd
    rw [Function.comp_apply, List.getElem?_append_left (List.idxOf_lt_length_of_mem hmem),
      List.getElem?_idxOf hmem]

end Cone

namespace Network

open Cone Builder

variable {store : Store} {N : Network} {cut : Cut}

/-- A path down from an entry of the order stays in the order. -/
lemma mem_order_of_bypasses {leaves : List Nat} {root e : Nat} (hroot : root ∈ N.order)
    (bypass : Bypasses N.cells leaves root e) : e ∈ N.order := by
  induction bypass with
  | refl => exact hroot
  | step _ hc hd _ ih => exact ih (reads_front hroot hc hd).1

/-- The cone of a cut of few enough leaves is a network with an input for each leaf and one output that
computes the function of the cut, if the leaves separate the root from the inputs, all links of the
network read first ports, and its cells can be evaluated and, apart from inputs and outputs, could be added
by a builder. -/
theorem exists_extract (addable : N.Addable store) (evaluable : N.Evaluable store)
    (hroot : cut.root ∈ N.order) (driver : ∀ c, N.cells[cut.root]? = some c → c.isOutput = false)
    (nodup : cut.leaves.Nodup) (hn : cut.leaves.length ≤ maxEvaluatedVariables)
    (separates : ∀ i c, Bypasses N.cells cut.leaves cut.root i → N.cells[i]? = some c →
      c.isInput = false) :
    ∃ cone inner t, extract store N.cells cut = .ok cone ∧
      Subnet.violation? cone.net.cells cone.net.numInputs cone.net.numOutputs = none ∧
      store.tabulateCone N.cells cut.root cut.leaves = .ok t ∧ store.Evaluates cone.net t ∧
      cone.Mirrors N.cells cut inner := by
  obtain ⟨t, ht, -⟩ := exists_table evaluable hroot hn separates
  obtain ⟨start, b₀, hleaves, h₀⟩ := exists_copyLeaves N.cells cut.root nodup
  obtain ⟨copies, b, inner, hcopy, h, hmem, -⟩ := exists_copy addable separates hroot driver
    (Nat.lt_succ_of_le (idxOf_le_size hroot)) .refl h₀
  rw [List.nil_append] at h hmem
  obtain ⟨b', net, hshow, hfinish, hcells, hin, hout⟩ := h.exists_finish hmem
  have mirrors := h.mirrors hmem hcells hin hout
  have grown : ∀ (i : Nat) c, b.cells[i]? = some c → net.cells[i]? = some c := fun i c hc => by
    rw [hcells, Array.getElem?_push, if_neg (Array.getElem?_eq_some_iff.1 hc).1.ne, hc]
  have horder : ∀ e ∈ inner, e ∈ N.order := fun e he => mem_order_of_bypasses hroot (h.bypasses e he)
  have hplaces := h.places cut.root
  rw [if_pos hmem] at hplaces
  have hbuild : build store N.cells cut (.empty {}) = .ok (copies.sources ++ [cut.root], b') := by
    refine build_bind_eq_ok_iff.2 ⟨start, b₀, hleaves, build_bind_eq_ok_iff.2 ⟨copies, b, hcopy, ?_⟩⟩
    simp only [hplaces]
    exact build_bind_eq_ok_iff.2 ⟨(), b', build_discard_eq_ok_iff.2 ⟨_, hshow⟩, rfl⟩
  have hextract : extract store N.cells cut = .ok ⟨net, copies.sources ++ [cut.root]⟩ :=
    bind_eq_ok_iff.2 ⟨_, hbuild, bind_eq_ok_iff.2 ⟨net, hfinish, rfl⟩⟩
  have computes : net.Computes store t := by
    refine ⟨hin, hout, fun σ => ?_, ?_⟩
    · have solution := h.solution hin grown (m := store.ports)
        (fun e he c hc => evaluable.port e (horder e he) c hc) (encode cut.leaves.length σ)
      have same := Store.tabulateCone_sound ht (encode_lt _ _) solution hmem
      rw [same, ← h.outputValues_eq hin grown hmem hcells hout]
      refine Subnet.outputValues_congr fun v hv => ?_
      rw [testBit_encode (hin ▸ hv)]
    · refine h.evaluable hcells (fun e he c hc => evaluable.port e (horder e he) c hc) fun e he c hc => ?_
      exact evaluable.cell e (horder e he) c hc (separates e c (h.bypasses e he) hc)
  exact ⟨_, inner, t, hextract, net.valid, ht, computes.evaluates hn, mirrors⟩

/-- The cone between the inputs and the gate that is shown: the conjunction is copied before the gate
that reads it. -/
theorem exists_extract_reconvergent : ∃ cone t,
    extract .empty reconvergent.cells ⟨3, [0, 1]⟩ = .ok cone ∧ cone.sources = [0, 1, 2, 3, 3] ∧
      Store.empty.tabulateCone reconvergent.cells 3 [0, 1] = .ok t ∧
      Store.empty.Evaluates cone.net t := by
  have hsources : (extract .empty reconvergent.cells ⟨3, [0, 1]⟩).map (·.sources) =
      .ok [0, 1, 2, 3, 3] := by cbv
  have separated : Separated reconvergent.cells [0, 1] 3 := by
    refine @Separated.cell _ _ _ ⟨.ofGate .xor, [.of 2, .of 0]⟩ rfl rfl fun d hd => ?_
    have : d = 2 ∨ d = 0 := by simpa [Cell.drivers, Link.of] using hd
    rcases this with rfl | rfl
    · refine @Separated.cell _ _ _ ⟨.ofGate .and, [.of 0, .of 1]⟩ rfl rfl fun d hd => .leaf ?_
      simpa [Cell.drivers, Link.of] using hd
    · exact .leaf (by simp)
  have gates : reconvergent.OfGates := by
    refine Subnet.ofGates_of_toList ?_
    simp only [reconvergent, List.forall_mem_cons]
    exact ⟨⟨_, rfl, rfl⟩, ⟨_, rfl, rfl⟩, ⟨_, rfl, rfl⟩, ⟨_, rfl, rfl⟩, ⟨_, rfl, rfl⟩,
      List.forall_mem_nil _⟩
  obtain ⟨cone, inner, t, hextract, -, ht, evaluates, -⟩ :=
    @exists_extract .empty (subnet reconvergent) ⟨3, [0, 1]⟩ (addable_subnet (gates.adds _))
      (evaluable_reconvergent .empty) (by decide) (by decide) (by decide) (by decide)
      fun i c bypass => separated.isInput_of_bypasses bypass
  obtain ⟨_, hextract', hsources⟩ := map_eq_ok_iff.1 hsources
  cases hextract.symm.trans hextract'
  exact ⟨cone, t, hextract, hsources, ht, evaluates⟩

/-- A type of conjunctions of one bit. -/
def single : CellType where
  name := "single"
  symbol := .gate .and
  minInputs := 1
  maxInputs := 1
  numPorts := 1
  traits := Gate.and.traits

/-- A conjunction of one bit. -/
def lone : Subnet where
  cells := #[.input, ⟨single.kindAt 13, [.of 0]⟩, .output (.of 1)]
  numInputs := 1
  numOutputs := 1
  valid := by decide

lemma cells_lone : ∀ c ∈ lone.cells, c = .input ∨ c = ⟨single.kindAt 13, [.of 0]⟩ ∨
    c = .output (.of 1) := by
  simp [lone]

lemma hosts_lone : (Store.empty.addType single).1.Hosts lone := by
  have gates := Store.Extends.addType Store.empty single
  intro c hc
  rcases cells_lone c hc with rfl | rfl | rfl
  · exact ⟨_, gates.admits_gate .input rfl⟩
  · exact ⟨single, Store.getElem?_addType _ single, rfl, rfl⟩
  · exact ⟨_, gates.admits_gate .output rfl⟩

lemma evaluable_lone (store : Store) : (subnet lone).Evaluable store where
  port _ _ c hc := by
    rcases cells_lone c (Array.mem_of_getElem? hc) with rfl | rfl | rfl
    · exact nofun
    · decide
    · decide
  cell _ _ c hc hinput := by
    rcases cells_lone c (Array.mem_of_getElem? hc) with rfl | rfl | rfl
    · cases hinput
    · exact (Store.evaluableBelow_gate rfl).2 fun _ => List.cons_ne_nil _ _
    · exact (Store.evaluableBelow_gate rfl).2 fun _ => List.cons_ne_nil _ _

/-- The cone of a composite has no function if a part of its implementation has none, although the
composite is implemented.  A gate that was registered for one operand has a function, but it cannot be
copied, since copies keep to the bounds of the built-in gates. -/
theorem extract_veiled_lone :
    (Store.veiledStore.Hosts Store.veiled ∧
      (∀ c ∈ Store.veiled.cells, (∀ l ∈ c.links, l.port = 0) ∧ Store.veiledStore.Implemented c) ∧
      Separated Store.veiled.cells [0, 1] 2 ∧
      (extract Store.veiledStore Store.veiled.cells ⟨2, [0, 1]⟩).map (·.net) = .ok Store.veiled ∧
      Store.veiledStore.tabulate Store.veiled = .error (.noImplementation "box") ∧
      Store.veiledStore.tabulateCone Store.veiled.cells 2 [0, 1] = .error (.noImplementation "box")) ∧
    (Store.empty.addType single).1.Hosts lone ∧
      (subnet lone).Evaluable (Store.empty.addType single).1 ∧ Separated lone.cells [0] 1 ∧
      (Store.empty.addType single).1.tabulateCone lone.cells 1 [0] = .ok (.ofNat 1 2) ∧
      extract (Store.empty.addType single).1 lone.cells ⟨1, [0]⟩ = .error (.badArity "and" 1) := by
  have veil : Separated Store.veiled.cells [0, 1] 2 := by
    refine @Separated.cell _ _ _ ⟨⟨.cell, 14⟩, [.of 0, .of 1]⟩ rfl rfl fun d hd => .leaf ?_
    simpa [Cell.drivers, Link.of] using hd
  have gate : Separated lone.cells [0] 1 := by
    refine @Separated.cell _ _ _ ⟨single.kindAt 13, [.of 0]⟩ rfl rfl fun d hd => .leaf ?_
    simpa [Cell.drivers, Link.of] using hd
  exact ⟨⟨Store.hosts_veiled, Store.implemented_veiled, veil, by cbv, by cbv, by cbv⟩,
    hosts_lone, evaluable_lone _, gate, by cbv, by cbv⟩

end Network

end Gatework
