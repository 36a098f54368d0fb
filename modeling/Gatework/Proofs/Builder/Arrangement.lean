import Mathlib.Data.List.Perm.Subperm
import Mathlib.Order.Nat
import Gatework.Proofs.Builder.Linked
import Gatework.Proofs.Values

/-!
# Entries in topological order

`Arranged b xs` says that a builder is a graph in good order: the linked list runs through `xs`, the
living entries are those of `xs`, every entry reads only entries in front of it, none of them an
output, and the readers kept with an entry are the entries that read it.

A builder changes in three ways, and each keeps the graph in order: `Arranged.insert` puts a new
entry between two others, `Arranged.remove` takes out an entry that nothing reads, and
`Arranged.exchange` gives an entry another cell.
-/

namespace Gatework

namespace Builder

/-! ## Readers -/

section Readers

variable (readers : Array (List Nat)) (user : Nat)

@[simp] lemma size_addReaders (drivers : List Nat) :
    (addReaders readers user drivers).size = readers.size := by
  induction drivers generalizing readers with
  | nil => rfl
  | cons d drivers ih => exact (ih (readers.modify d _)).trans Array.size_modify

@[simp] lemma size_dropReaders (drivers : List Nat) :
    (dropReaders readers user drivers).size = readers.size := by
  induction drivers generalizing readers with
  | nil => rfl
  | cons d drivers ih => exact (ih (readers.modify d _)).trans Array.size_modify

/-- Reading one place of a modified array. -/
lemma getD_modify {readers : Array (List Nat)} {f : List Nat → List Nat} {d e : Nat}
    (h : e < readers.size) :
    (readers.modify d f).getD e [] = if d = e then f (readers.getD e []) else readers.getD e [] := by
  simp only [Array.getD_eq_getD_getElem?, Array.getElem?_modify, h, Array.getElem?_eq_getElem]
  split <;> rfl

/-- A reader that is taken out is one less, wherever the last one goes. -/
lemma swapErase_perm (user : Nat) (xs : List Nat) : (swapErase user xs).Perm (xs.erase user) := by
  induction xs with
  | nil => rfl
  | cons x xs ih =>
      rw [swapErase, List.erase_cons]
      by_cases hx : x = user
      · rw [if_pos hx, if_pos (beq_iff_eq.2 hx)]
        cases hlast : xs.getLast? with
        | none => rw [List.getLast?_eq_none_iff.1 hlast]; rfl
        | some last =>
            obtain ⟨front, rfl⟩ := List.getLast?_eq_some_iff.1 hlast
            simpa using (List.perm_append_singleton last front).symm
      · rw [if_neg hx, if_neg (by simpa using hx)]
        exact ih.cons x

lemma count_swapErase (user : Nat) (xs : List Nat) (v : Nat) :
    (swapErase user xs).count v = xs.count v - if v = user then 1 else 0 := by
  rw [(swapErase_perm user xs).count_eq, List.count_erase]
  simp only [beq_iff_eq, @eq_comm _ user v]

lemma count_addReaders (drivers : List Nat) {e : Nat} (h : e < readers.size) (v : Nat) :
    ((addReaders readers user drivers).getD e []).count v =
      (readers.getD e []).count v + if v = user then drivers.count e else 0 := by
  induction drivers generalizing readers with
  | nil => simp [addReaders]
  | cons d drivers ih =>
      have step := ih (readers.modify d (· ++ [user])) (by simpa using h)
      rw [getD_modify h] at step
      rw [show addReaders readers user (d :: drivers) =
        addReaders (readers.modify d (· ++ [user])) user drivers from rfl, step]
      by_cases hd : d = e <;> by_cases hv : v = user
      all_goals simp [hd, hv, Ne.symm, eq_comm]
      omega

lemma count_dropReaders (drivers : List Nat) {e : Nat} (h : e < readers.size) (v : Nat) :
    ((dropReaders readers user drivers).getD e []).count v =
      (readers.getD e []).count v - if v = user then drivers.count e else 0 := by
  induction drivers generalizing readers with
  | nil => simp [dropReaders]
  | cons d drivers ih =>
      have step := ih (readers.modify d (swapErase user)) (by simpa using h)
      rw [getD_modify h] at step
      rw [show dropReaders readers user (d :: drivers) =
        dropReaders (readers.modify d (swapErase user)) user drivers from rfl, step]
      by_cases hd : d = e <;> by_cases hv : v = user
      all_goals simp [hd, hv, eq_comm, count_swapErase]
      omega

end Readers

/-! ## New entries -/

section Create

variable {b : Builder} {c : Cell} {id : Nat}

@[simp] lemma size_create : (b.create c).2.size = b.size + 1 := by simp [Builder.size, create]

lemma getElem?_create_of_lt (h : id < b.size) : (b.create c).2.cells[id]? = b.cells[id]? := by
  simp only [create, Array.getElem?_push, if_neg (show id ≠ b.cells.size from h.ne)]

@[simp] lemma getElem?_create_self : (b.create c).2.cells[b.size]? = some c := by
  simp [create, Builder.size]

lemma driversOf_create_of_lt (h : id < b.size) : (b.create c).2.driversOf id = b.driversOf id := by
  simp only [driversOf, getElem?_create_of_lt h]

@[simp] lemma driversOf_create_self : (b.create c).2.driversOf b.size = c.drivers := by
  simp [driversOf]

/-- An array with one element more, read with the default that was added. -/
lemma getD_push_default {α : Type} {xs : Array α} {i : Nat} {d : α} :
    (xs.push d).getD i d = xs.getD i d := by
  simp only [Array.getD_eq_getD_getElem?, Array.getElem?_push]
  split
  · simp [*]
  · rfl

lemma succ_create : (b.create c).2.succ = b.succ := by
  funext x
  cases x with
  | none => rfl
  | some id => exact getD_push_default

lemma pred_create : (b.create c).2.pred = b.pred := by
  funext x
  cases x with
  | none => rfl
  | some id => exact getD_push_default

lemma isAlive_create (h : b.living.size = b.size) :
    (b.create c).2.isAlive id = true ↔ id = b.size ∨ b.isAlive id = true := by
  simp only [isAlive, create, Array.getD_eq_getD_getElem?, Array.getElem?_push, h]
  split <;> simp_all

/-- The readers of an entry gain the new one for each of its links. -/
lemma count_fanouts_create (h : b.readers.size = b.size) {d : Nat} (hd : d < b.size) (user : Nat) :
    ((b.create c).2.fanouts d).count user =
      (b.fanouts d).count user + if user = b.size then c.drivers.count d else 0 := by
  have added := count_addReaders b.readers b.size c.drivers (h ▸ hd) user
  simpa only [fanouts, create, getD_push_default] using added

lemma fanouts_create_self (h : b.readers.size = b.size) :
    (b.create c).2.fanouts b.size = [] := by
  simp only [fanouts, create, getD_push_default]
  simp [h]

end Create

/-! ## Builders in order -/

/-- Whether an entry may be read: it exists and is not an output. -/
def IsDriver (b : Builder) (id : Nat) : Prop := ∃ c, b.cells[id]? = some c ∧ c.isOutput = false

lemma IsDriver.create {b : Builder} {d : Nat} (h : b.IsDriver d) (c : Cell) :
    (b.create c).2.IsDriver d := by
  obtain ⟨e, he, hout⟩ := h
  exact ⟨e, (getElem?_create_of_lt (Array.getElem?_eq_some_iff.1 he).1).trans he, hout⟩

/-- Every array of a builder has one place for each entry. -/
structure Sized (b : Builder) : Prop where
  depths : b.depths.size = b.size
  readers : b.readers.size = b.size
  living : b.living.size = b.size
  prevs : b.prevs.size = b.size
  nexts : b.nexts.size = b.size

namespace Sized

variable {b : Builder}

lemma create (h : Sized b) (c : Cell) : Sized (b.create c).2 where
  depths := by simp [Builder.create, Builder.size, h.depths]
  readers := by simp [Builder.create, Builder.size, h.readers]
  living := by simp [Builder.create, Builder.size, h.living]
  prevs := by simp [Builder.create, Builder.size, h.prevs]
  nexts := by simp [Builder.create, Builder.size, h.nexts]

lemma linkBetween (h : Sized b) (front : Option Nat) (id : Nat) (behind : Option Nat) :
    Sized (b.linkBetween front id behind) where
  depths := h.depths
  readers := h.readers
  living := h.living
  prevs := by cases behind <;> simpa [Builder.linkBetween, Builder.size] using h.prevs
  nexts := by cases front <;> simpa [Builder.linkBetween, Builder.size] using h.nexts

lemma unlink (h : Sized b) (id : Nat) : Sized (b.unlink id) where
  depths := h.depths
  readers := h.readers
  living := h.living
  prevs := by cases hn : b.next? id <;> simpa [Builder.unlink, hn, Builder.size] using h.prevs
  nexts := by cases hp : b.prev? id <;> simpa [Builder.unlink, hp, Builder.size] using h.nexts

/-- The steps forward when a new entry was put between two others. -/
lemma succ_insert (h : Sized b) {c : Cell} {front : Option Nat} (hfront : ∀ p ∈ front, p < b.size)
    (behind : Option Nat) : ((b.create c).2.linkBetween front b.size behind).succ =
      Function.update (Function.update b.succ (some b.size) behind) front (some b.size) := by
  have sized := h.create c
  rw [← @succ_create b c]
  refine succ_linkBetween (by simp [sized.nexts]) fun p hp => ?_
  rw [sized.nexts, size_create]
  exact Nat.lt_succ_of_lt (hfront p hp)

/-- The steps back when a new entry was put between two others. -/
lemma pred_insert (h : Sized b) {c : Cell} (front : Option Nat) {behind : Option Nat}
    (hbehind : ∀ n ∈ behind, n < b.size) : ((b.create c).2.linkBetween front b.size behind).pred =
      Function.update (Function.update b.pred (some b.size) front) behind (some b.size) := by
  have sized := h.create c
  rw [← @pred_create b c]
  refine pred_linkBetween (by simp [sized.prevs]) fun n hn => ?_
  rw [sized.prevs, size_create]
  exact Nat.lt_succ_of_lt (hbehind n hn)

end Sized

/-- The living entries are those of a list, which is kept as the order of the builder; every entry
reads only entries in front of it, and the readers of an entry are known. -/
structure Arranged (b : Builder) (xs : List Nat) : Prop where
  sized : Sized b
  linked : Linked b.succ b.pred xs
  isAlive_iff : ∀ id, b.isAlive id = true ↔ id ∈ xs
  mem_of_reads : ∀ id ∈ xs, ∀ d ∈ b.driversOf id, d ∈ xs
  isDriver_of_reads : ∀ id ∈ xs, ∀ d ∈ b.driversOf id, b.IsDriver d
  topological : Topological b.driversOf xs
  count_fanouts : ∀ d < b.size, ∀ user,
    (b.fanouts d).count user = if user ∈ xs then (b.driversOf user).count d else 0

namespace Arranged

variable {b : Builder} {xs ys : List Nat} {id : Nat} {c : Cell}

lemma lt_size_of_isAlive (h : Arranged b xs) (alive : b.isAlive id = true) : id < b.size := by
  rw [← h.sized.living]
  by_contra hlt
  simp [isAlive, Nat.not_lt.1 hlt] at alive

lemma lt_size (h : Arranged b xs) (hid : id ∈ xs) : id < b.size :=
  h.lt_size_of_isAlive ((h.isAlive_iff id).2 hid)

lemma lt_size_of_reads (h : Arranged b xs) (hid : id ∈ xs) {d : Nat} (hd : d ∈ b.driversOf id) :
    d < b.size := h.lt_size (h.mem_of_reads id hid d hd)

lemma length_le_size (h : Arranged b xs) : xs.length ≤ b.size := by
  have hsub : xs ⊆ List.range b.size := fun id hid => List.mem_range.2 (h.lt_size hid)
  simpa using (List.subperm_of_subset h.linked.nodup hsub).length_le

/-- What an entry reads is in front of it. -/
lemma mem_front (h : Arranged b (xs ++ id :: ys)) {d : Nat} (hd : d ∈ b.driversOf id) : d ∈ xs :=
  h.topological.mem_front hd (h.mem_of_reads id (by simp) d hd)

/-- What the entries of the first part read is in the first part. -/
lemma mem_left (h : Arranged b (xs ++ ys)) (hid : id ∈ xs) {d : Nat} (hd : d ∈ b.driversOf id) :
    d ∈ xs :=
  h.topological.mem_left hid hd (h.mem_of_reads id (List.mem_append_left _ hid) d hd)

/-- The readers of an entry are the living entries that read it. -/
lemma mem_fanouts_iff (h : Arranged b xs) {d user : Nat} (hd : d < b.size) :
    user ∈ b.fanouts d ↔ user ∈ xs ∧ d ∈ b.driversOf user := by
  rw [← List.count_pos_iff, h.count_fanouts d hd]
  split
  · rename_i hmem
    simp [hmem, List.count_pos_iff]
  · rename_i hmem
    simp [hmem]

/-- The list is what the builder gives as its order. -/
theorem order_eq (h : Arranged b xs) : b.order = xs :=
  Linked.chain_eq h.linked.forward b.size h.length_le_size

/-- Putting a new entry between two others. -/
theorem insert (h : Arranged b (xs ++ ys)) (front : ∀ d ∈ c.drivers, d ∈ xs)
    (drivers : ∀ d ∈ c.drivers, b.IsDriver d) :
    Arranged ((b.create c).2.linkBetween xs.getLast? b.size ys.head?) (xs ++ b.size :: ys) := by
  have fresh : b.size ∉ xs ++ ys := fun hmem => absurd (h.lt_size hmem) (lt_irrefl _)
  have old : ∀ id ∈ xs ++ ys, (b.create c).2.driversOf id = b.driversOf id := fun id hid =>
    driversOf_create_of_lt (h.lt_size hid)
  have new : (b.create c).2.driversOf b.size = c.drivers := driversOf_create_self
  have unread : ∀ id ∈ xs ++ ys, b.size ∉ b.driversOf id := fun id hid hd =>
    absurd (h.lt_size_of_reads hid hd) (lt_irrefl _)
  have apart : b.size ∉ c.drivers := fun hd => fresh (List.mem_append_left _ (front _ hd))
  have mem_iff : ∀ {id}, id ∈ xs ++ b.size :: ys ↔ id = b.size ∨ id ∈ xs ++ ys := by
    intro id
    simp [or_left_comm]
  exact {
    sized := (h.sized.create c).linkBetween ..
    linked := by
      rw [h.sized.succ_insert fun p hp => h.lt_size (List.mem_append_left _ (List.mem_of_getLast? hp)),
        h.sized.pred_insert _ fun n hn => h.lt_size (List.mem_append_right _ (List.mem_of_head? hn))]
      exact h.linked.insert fresh
    isAlive_iff := fun id => by
      rw [mem_iff, ← h.isAlive_iff, ← isAlive_create (c := c) h.sized.living]
      rfl
    mem_of_reads := by
      intro id hid d (hd : d ∈ (b.create c).2.driversOf id)
      rw [mem_iff] at hid ⊢
      rcases hid with rfl | hid
      · exact .inr (List.mem_append_left _ (front d (new ▸ hd)))
      · exact .inr (h.mem_of_reads id hid d (old id hid ▸ hd))
    isDriver_of_reads := by
      intro id hid d (hd : d ∈ (b.create c).2.driversOf id)
      rcases mem_iff.1 hid with rfl | hid
      · exact (drivers d (new ▸ hd)).create c
      · exact (h.isDriver_of_reads id hid d (old id hid ▸ hd)).create c
    topological := by
      refine (h.topological.congr old).insert (by rwa [new]) (fun x hx => ?_) fun y hy => ?_
      · have hx := List.mem_append_left ys hx
        rw [old x hx]
        exact unread x hx
      · rw [new]
        exact fun hd => h.linked.apart (front y hd) hy
    count_fanouts := by
      intro d (hd : d < (b.create c).2.size) user
      show ((b.create c).2.fanouts d).count user =
        if user ∈ xs ++ b.size :: ys then ((b.create c).2.driversOf user).count d else 0
      rw [size_create] at hd
      rcases Nat.lt_succ_iff_lt_or_eq.1 hd with hd | rfl
      · rw [count_fanouts_create h.sized.readers hd, h.count_fanouts d hd]
        by_cases hnew : user = b.size
        · simp [hnew, fresh]
        · by_cases hmem : user ∈ xs ++ ys
          · rw [if_pos hmem, if_neg hnew, if_pos (mem_iff.2 (.inr hmem)), old user hmem]
            rfl
          · rw [if_neg hmem, if_neg hnew, if_neg (fun hu => (mem_iff.1 hu).elim hnew hmem)]
      · rw [fanouts_create_self h.sized.readers, List.count_nil, eq_comm]
        split
        · rename_i hmem
          rcases mem_iff.1 hmem with rfl | hmem
          · rw [new]; exact List.count_eq_zero.2 apart
          · rw [old user hmem]; exact List.count_eq_zero.2 (unread user hmem)
        · rfl }

/-- What does not belong to the graph may change. -/
lemma congr {b' : Builder} (h : Arranged b xs) (cells : b'.cells = b.cells)
    (depths : b'.depths.size = b.depths.size) (readers : b'.readers = b.readers)
    (living : b'.living = b.living) (prevs : b'.prevs = b.prevs) (nexts : b'.nexts = b.nexts)
    (head : b'.head = b.head) (tail : b'.tail = b.tail) : Arranged b' xs := by
  obtain ⟨⟩ := b
  obtain ⟨⟩ := b'
  simp only at cells depths readers living prevs nexts head tail
  subst cells readers living prevs nexts head tail
  exact ⟨⟨depths.trans h.sized.depths, h.sized.readers, h.sized.living, h.sized.prevs,
    h.sized.nexts⟩, h.linked, h.isAlive_iff, h.mem_of_reads, h.isDriver_of_reads, h.topological,
    h.count_fanouts⟩

end Arranged

/-! ## What a change leaves as it was -/

lemma offer_eq (b : Builder) (id : Nat) (c : Cell) :
    b.offer id c = { b with table := (b.offer id c).table } := by
  unfold offer
  split <;> rfl

lemma withdraw_eq (b : Builder) (id : Nat) :
    b.withdraw id = { b with table := (b.withdraw id).table } := by
  unfold withdraw
  split
  · split <;> rfl
  · rfl

/-- Taking out an entry touches the list, the marks of the living and the readers of what it read. -/
lemma remove_eq (b : Builder) (id : Nat) : b.remove id = { b.unlink id with
    table := (b.withdraw id).table
    living := b.living.setIfInBounds id false
    readers := dropReaders b.readers id (b.driversOf id) } := by
  unfold Builder.remove
  rw [withdraw_eq]
  rfl

/-- An exchange touches the cell of the root and the readers of what the two cells read. -/
lemma exchange_eq (b : Builder) (root : Nat) (c : Cell) : b.exchange root c = { b with
    table := (b.exchange root c).table
    cells := b.cells.setIfInBounds root c
    readers := dropReaders (addReaders b.readers root c.drivers) root (b.driversOf root) } := by
  unfold Builder.exchange
  rw [withdraw_eq, offer_eq]

/-! ## Entries with another cell -/

section Exchange

variable {b : Builder} {c : Cell} {root id d : Nat}

@[simp] lemma size_exchange : (b.exchange root c).size = b.size := by
  rw [exchange_eq]
  exact Array.size_setIfInBounds

lemma getElem?_exchange_self (h : root < b.size) : (b.exchange root c).cells[root]? = some c := by
  rw [exchange_eq]
  exact Array.getElem?_setIfInBounds_self_of_lt h

lemma getElem?_exchange_of_ne (h : id ≠ root) :
    (b.exchange root c).cells[id]? = b.cells[id]? := by
  rw [exchange_eq]
  exact Array.getElem?_setIfInBounds_ne h.symm

lemma driversOf_exchange_self (h : root < b.size) :
    (b.exchange root c).driversOf root = c.drivers := by
  simp only [driversOf, getElem?_exchange_self h, Option.elim_some]

lemma driversOf_exchange_of_ne (h : id ≠ root) :
    (b.exchange root c).driversOf id = b.driversOf id := by
  simp only [driversOf, getElem?_exchange_of_ne h]

@[simp] lemma isAlive_exchange : (b.exchange root c).isAlive id = b.isAlive id := by
  rw [exchange_eq]
  rfl

/-- The root is counted anew among the readers of an entry, the other readers stay. -/
lemma count_fanouts_exchange (h : b.readers.size = b.size) (hd : d < b.size) (user : Nat) :
    ((b.exchange root c).fanouts d).count user =
      ((b.fanouts d).count user + if user = root then c.drivers.count d else 0) -
        if user = root then (b.driversOf root).count d else 0 := by
  have hd := h.symm ▸ hd
  rw [exchange_eq]
  refine (count_dropReaders (addReaders b.readers root c.drivers) root _ (by simpa using hd)
    user).trans ?_
  rw [count_addReaders b.readers root c.drivers hd]
  rfl

lemma IsDriver.exchange (h : b.IsDriver d) (root : Nat) (hc : c.isOutput = false) :
    (b.exchange root c).IsDriver d := by
  obtain ⟨e, he, hout⟩ := h
  by_cases hd : d = root
  · subst hd
    exact ⟨c, getElem?_exchange_self (Array.getElem?_eq_some_iff.1 he).1, hc⟩
  · exact ⟨e, (getElem?_exchange_of_ne hd).trans he, hout⟩

lemma Sized.exchange (h : Sized b) (root : Nat) (c : Cell) : Sized (b.exchange root c) := by
  rw [exchange_eq]
  constructor
  all_goals simp [Builder.size, h.depths, h.readers, h.living, h.prevs, h.nexts]

end Exchange

namespace Arranged

variable {b : Builder} {xs ys : List Nat} {id : Nat} {c : Cell}

lemma offer (h : Arranged b xs) (id : Nat) (c : Cell) : Arranged (b.offer id c) xs := by
  rw [offer_eq]
  exact h.congr rfl rfl rfl rfl rfl rfl rfl rfl

lemma prev?_eq (h : Arranged b (xs ++ id :: ys)) : b.prev? id = xs.getLast? := by
  have : b.pred (id :: ys).head? = xs.getLast? := h.linked.pred_head?
  exact this

lemma next?_eq (h : Arranged b (xs ++ id :: ys)) : b.next? id = ys.head? := by
  have hl := h.linked
  rw [List.append_cons] at hl
  have := hl.succ_getLast?
  rwa [List.getLast?_concat] at this

/-- Taking out an entry that nothing reads. -/
theorem remove (h : Arranged b (xs ++ id :: ys)) (unused : b.fanouts id = []) :
    Arranged (b.remove id) (xs ++ ys) := by
  have hid : id ∈ xs ++ id :: ys := by simp
  have sub : (xs ++ ys).Sublist (xs ++ id :: ys) := (List.sublist_cons_self id ys).append_left xs
  have gone : id ∉ xs ++ ys := h.linked.notMem_middle
  have mem_iff : ∀ {x}, x ∈ xs ++ id :: ys ↔ x = id ∨ x ∈ xs ++ ys := by
    intro x
    simp [or_left_comm]
  have unread : ∀ x ∈ xs ++ id :: ys, id ∉ b.driversOf x := fun x hx hd => by
    have := h.count_fanouts id (h.lt_size hid) x
    rw [unused, if_pos hx] at this
    exact List.count_eq_zero.1 this.symm hd
  have unlinked : Linked (b.unlink id).succ (b.unlink id).pred (xs ++ ys) := by
    rw [succ_unlink, pred_unlink, h.prev?_eq, h.next?_eq]
    · exact h.linked.erase
    · rw [h.next?_eq, h.sized.prevs]
      exact fun n hn => h.lt_size (sub.subset (List.mem_append_right _ (List.mem_of_head? hn)))
    · rw [h.prev?_eq, h.sized.nexts]
      exact fun p hp => h.lt_size (sub.subset (List.mem_append_left _ (List.mem_of_getLast? hp)))
  have sized := h.sized.unlink id
  rw [remove_eq]
  exact {
    sized := ⟨sized.depths, (size_dropReaders ..).trans sized.readers,
      Array.size_setIfInBounds.trans sized.living, sized.prevs, sized.nexts⟩
    linked := unlinked
    isAlive_iff := fun x => by
      have hx := h.isAlive_iff x
      rw [mem_iff] at hx
      by_cases e : x = id
      · subst e
        simp [isAlive, gone]
      · simpa [isAlive, Ne.symm e, e] using hx
    mem_of_reads := fun x hx d (hd : d ∈ b.driversOf x) => by
      have hx := sub.subset hx
      rcases mem_iff.1 (h.mem_of_reads x hx d hd) with rfl | hd'
      · exact absurd hd (unread x hx)
      · exact hd'
    isDriver_of_reads := fun x hx => h.isDriver_of_reads x (sub.subset hx)
    topological := h.topological.sublist sub
    count_fanouts := fun d hd user => by
      have dropped := count_dropReaders b.readers id (b.driversOf id)
        (h.sized.readers.symm ▸ hd : d < b.readers.size) user
      rw [show (b.readers.getD d []).count user = _ from h.count_fanouts d hd user] at dropped
      refine dropped.trans ?_
      by_cases e : user = id
      · subst e
        simp [gone]
      · rw [if_neg e, Nat.sub_zero]
        refine if_congr ?_ rfl rfl
        rw [mem_iff, or_iff_right e] }

/-- Giving an entry another cell, which reads only entries in front of it. -/
theorem exchange (h : Arranged b (xs ++ id :: ys)) (front : ∀ d ∈ c.drivers, d ∈ xs)
    (drivers : ∀ d ∈ c.drivers, b.IsDriver d) (hc : c.isOutput = false) :
    Arranged (b.exchange id c) (xs ++ id :: ys) := by
  have hid : id ∈ xs ++ id :: ys := by simp
  have old : ∀ x, x ≠ id → (b.exchange id c).driversOf x = b.driversOf x := fun x hx =>
    driversOf_exchange_of_ne hx
  have new : (b.exchange id c).driversOf id = c.drivers := driversOf_exchange_self (h.lt_size hid)
  have ahead : id ∉ xs ++ ys := h.linked.notMem_middle
  exact {
    sized := h.sized.exchange id c
    linked := by rw [exchange_eq]; exact h.linked
    isAlive_iff := fun x => by rw [isAlive_exchange]; exact h.isAlive_iff x
    mem_of_reads := fun x hx d hd => by
      by_cases e : x = id
      · subst e
        exact List.mem_append_left _ (front d (new ▸ hd))
      · exact h.mem_of_reads x hx d (old x e ▸ hd)
    isDriver_of_reads := fun x hx d hd => by
      by_cases e : x = id
      · subst e
        exact (drivers d (new ▸ hd)).exchange x hc
      · exact (h.isDriver_of_reads x hx d (old x e ▸ hd)).exchange id hc
    topological := by
      have rest : Topological (b.exchange id c).driversOf (xs ++ ys) := by
        refine (h.topological.sublist ((List.sublist_cons_self id ys).append_left xs)).congr ?_
        exact fun x hx => old x fun e => ahead (e ▸ hx)
      refine rest.insert (fun hd => ahead (List.mem_append_left _ (front id (new ▸ hd))))
        (fun x hx hd => ?_) fun y hy hd => ?_
      · have hx' := List.mem_append_left ys hx
        rw [old x fun e => ahead (e ▸ hx')] at hd
        exact ahead (List.mem_append_left _ (h.mem_left hx hd))
      · exact h.linked.apart (front y (new ▸ hd)) (List.mem_cons_of_mem id hy)
    count_fanouts := fun d hd user => by
      rw [size_exchange] at hd
      rw [count_fanouts_exchange h.sized.readers hd, h.count_fanouts d hd]
      by_cases e : user = id
      · subst e
        simp [new]
      · simp [e, old user e] }

end Arranged

end Builder

end Gatework
