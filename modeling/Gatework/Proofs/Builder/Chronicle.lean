import Gatework.Proofs.Builder.Exchange

/-!
# The order of all entries, dead or alive

An entry that was taken out keeps the follower that it had, which may be taken out later on.  What
such pointers lead to is said in terms of a list of all entries that were met so far, in an order that
never changes: new entries are put in between, and dead ones keep their places.  `Chronicle b es` says
that `es` is such a list for the builder `b`; from every entry of it the pointer leads to a later one,
and what it steps over is dead (`Resumes`).

* `Chronicle.start`: the order of a builder is its first chronicle.
* `Chronicle.insert` and `Chronicle.remove` for the two changes of the linked list.
-/

namespace Gatework

/-- From every entry of a list `next` leads to a later one, or to nothing from behind the last living
one, and all that it steps over is dead. -/
def Resumes (alive : Nat → Bool) (next : Nat → Option Nat) : List Nat → Prop
  | [] => True
  | id :: behind =>
      (∃ skipped ahead, behind = skipped ++ ahead ∧ next id = ahead.head? ∧
        ∀ x ∈ skipped, alive x = false) ∧ Resumes alive next behind

namespace Resumes

variable {alive alive' : Nat → Bool} {next next' : Nat → Option Nat} {front mid behind es : List Nat}
  {id p : Nat}

/-- Entries may die. -/
lemma mono (h : Resumes alive next es) (hnext : ∀ x ∈ es, next' x = next x)
    (hdead : ∀ x ∈ es, alive x = false → alive' x = false) : Resumes alive' next' es := by
  induction es with
  | nil => trivial
  | cons id behind ih =>
      obtain ⟨⟨skipped, ahead, rfl, hid, dead⟩, rest⟩ := h
      obtain ⟨hfirst, hnext⟩ := List.forall_mem_cons.1 hnext
      obtain ⟨-, hdead⟩ := List.forall_mem_cons.1 hdead
      refine ⟨⟨skipped, ahead, rfl, hfirst.trans hid, fun x hx => ?_⟩, ih rest hnext hdead⟩
      exact hdead x (List.mem_append_left _ hx) (dead x hx)

lemma drop (h : Resumes alive next (front ++ es)) : Resumes alive next es := by
  induction front with
  | nil => exact h
  | cons x front ih => exact ih h.2

/-- The first living entry of a list comes behind dead ones. -/
lemma exists_skipped (alive : Nat → Bool) (es : List Nat) : ∃ skipped ahead, es = skipped ++ ahead ∧
    (es.filter alive).head? = ahead.head? ∧ ∀ x ∈ skipped, alive x = false := by
  induction es with
  | nil => exact ⟨[], [], rfl, rfl, by simp⟩
  | cons x es ih =>
      cases hx : alive x with
      | true => exact ⟨[], x :: es, rfl, by simp [hx], by simp⟩
      | false =>
          obtain ⟨skipped, ahead, rfl, hhead, dead⟩ := ih
          refine ⟨x :: skipped, ahead, rfl, ?_, List.forall_mem_cons.2 ⟨hx, dead⟩⟩
          rw [List.filter_cons, if_neg (by simp [hx]), hhead]

/-- A new entry that leads to the next living one. -/
lemma cons (h : Resumes alive next es) (hid : next id = (es.filter alive).head?) :
    Resumes alive next (id :: es) := by
  obtain ⟨skipped, ahead, hes, hhead, dead⟩ := exists_skipped alive es
  exact ⟨⟨skipped, ahead, hes, hid.trans hhead, dead⟩, h⟩

/-- What a pointer of an earlier entry steps over ends in front of a living entry, so something may be
put behind that one. -/
lemma insert_behind (h : Resumes alive next (front ++ p :: behind)) (hp : alive p = true)
    (rest : Resumes alive' next' (p :: id :: behind)) (hnext : ∀ x ∈ front, next' x = next x)
    (hdead : ∀ x ∈ front, alive x = false → alive' x = false) :
    Resumes alive' next' (front ++ p :: id :: behind) := by
  induction front with
  | nil => exact rest
  | cons x front ih =>
      obtain ⟨⟨skipped, ahead, hsplit, hx, dead⟩, h⟩ := h
      obtain ⟨hfirst, hnext⟩ := List.forall_mem_cons.1 hnext
      obtain ⟨-, hdead⟩ := List.forall_mem_cons.1 hdead
      refine ⟨?_, ih h hnext hdead⟩
      rcases List.append_eq_append_iff.1 hsplit with ⟨extra, rfl, hextra⟩ | ⟨short, rfl, rfl⟩
      · -- nothing living is stepped over, so the pointer leads to `p` at most
        cases extra with
        | nil =>
            refine ⟨front, p :: id :: behind, rfl, ?_, fun y hy => hdead y hy (dead y (by simp [hy]))⟩
            rw [hfirst, hx]
            rw [List.nil_append] at hextra
            rw [← hextra]
            rfl
        | cons q extra =>
            cases hextra
            have := dead p (by simp)
            rw [hp] at this
            cases this
      · refine ⟨skipped, short ++ p :: id :: behind, by simp, ?_, fun y hy =>
          hdead y (by simp [hy]) (dead y hy)⟩
        rw [hfirst, hx]
        cases short <;> rfl

/-- When an entry dies, the living one in front of it leads to where it led. -/
lemma erase (h : Resumes alive next (front ++ p :: (mid ++ id :: behind)))
    (hmid : ∀ x ∈ mid, alive' x = false) (hid : alive' id = false) (hp : next' p = next id)
    (hnext : ∀ x ∈ front ++ (mid ++ id :: behind), next' x = next x)
    (hdead : ∀ x, alive x = false → alive' x = false) :
    Resumes alive' next' (front ++ p :: (mid ++ id :: behind)) := by
  induction front with
  | nil =>
      obtain ⟨-, rest⟩ := h
      obtain ⟨skipped, ahead, rfl, hnextId, dead⟩ := rest.drop.1
      refine ⟨⟨mid ++ id :: skipped, ahead, by simp, hp.trans hnextId, ?_⟩,
        rest.mono hnext fun x _ => hdead x⟩
      intro x hx
      rcases List.mem_append.1 hx with hx | hx
      · exact hmid x hx
      · rcases List.mem_cons.1 hx with rfl | hx
        · exact hid
        · exact hdead x (dead x hx)
  | cons x front ih =>
      obtain ⟨⟨skipped, ahead, hsplit, hx, dead⟩, h⟩ := h
      obtain ⟨hfirst, hnext⟩ := List.forall_mem_cons.1 hnext
      refine ⟨⟨skipped, ahead, hsplit, hfirst.trans hx, fun y hy => hdead y (dead y hy)⟩, ?_⟩
      exact ih h hnext

end Resumes

/-- A list splits in front of any living entry, behind the living entry before that one. -/
lemma exists_split_filter {alive : Nat → Bool} {es xs ys : List Nat}
    (h : es.filter alive = xs ++ ys) : ∃ front behind, es = front ++ behind ∧
      front.filter alive = xs ∧ behind.filter alive = ys ∧ front.getLast? = xs.getLast? := by
  rcases List.eq_nil_or_concat xs with rfl | ⟨xs, p, rfl⟩
  · exact ⟨[], es, rfl, rfl, h, rfl⟩
  · rw [List.concat_eq_append, List.append_assoc, List.singleton_append] at h
    obtain ⟨before, rest, rfl, hbefore, hrest⟩ := List.filter_eq_append_iff.1 h
    obtain ⟨dead, behind, rfl, hdead, hp, hbehind⟩ := List.filter_eq_cons_iff.1 hrest
    refine ⟨before ++ dead ++ [p], behind, by simp, ?_, hbehind, by simp⟩
    rw [List.filter_append, List.filter_append, hbefore, List.filter_eq_nil_iff.2 hdead]
    simp [hp]

namespace Builder

variable {b b' : Builder} {es front behind : List Nat} {id root : Nat} {c : Cell}

/-- A list of entries, with the living ones among them, in an order that all pointers follow. -/
structure Chronicle (b : Builder) (es : List Nat) : Prop where
  sized : Sized b
  nodup : es.Nodup
  lt_size : ∀ id ∈ es, id < b.size
  mem_of_isAlive : ∀ id, b.isAlive id = true → id ∈ es
  linked : Linked b.succ b.pred (es.filter b.isAlive)
  resumes : Resumes b.isAlive b.next? es

namespace Chronicle

/-- The order of a builder, without the dead entries. -/
lemma start (h : Arranged b es) : Chronicle b es where
  sized := h.sized
  nodup := h.linked.nodup
  lt_size _ := h.lt_size
  mem_of_isAlive id := (h.isAlive_iff id).1
  linked := by
    rw [List.filter_eq_self.2 fun id hid => (h.isAlive_iff id).2 hid]
    exact h.linked
  resumes := by
    suffices ∀ behind front, es = front ++ behind → Resumes b.isAlive b.next? behind from
      this es [] rfl
    intro behind
    induction behind with
    | nil => exact fun _ _ => trivial
    | cons id behind ih =>
        rintro front rfl
        exact ⟨⟨[], behind, rfl, h.next?_eq, by simp⟩, ih (front ++ [id]) (by simp)⟩

/-- What does not belong to the list may change. -/
lemma congr (h : Chronicle b es) (cells : b'.cells.size = b.cells.size)
    (depths : b'.depths.size = b.depths.size) (readers : b'.readers.size = b.readers.size)
    (living : b'.living = b.living) (prevs : b'.prevs = b.prevs) (nexts : b'.nexts = b.nexts)
    (head : b'.head = b.head) (tail : b'.tail = b.tail) : Chronicle b' es := by
  have size : b'.size = b.size := cells
  have alive : b'.isAlive = b.isAlive := by
    funext id
    rw [isAlive, isAlive, living]
  have next : b'.next? = b.next? := by
    funext id
    rw [next?, next?, nexts]
  have succ : b'.succ = b.succ := by
    funext x
    cases x with
    | none => exact head
    | some id => exact congrFun next id
  have pred : b'.pred = b.pred := by
    funext x
    cases x with
    | none => exact tail
    | some id => rw [Builder.pred, Builder.pred, prev?, prev?, prevs]
  refine ⟨⟨?_, ?_, ?_, ?_, ?_⟩, h.nodup, ?_, ?_, ?_, ?_⟩
  · rw [depths, h.sized.depths, size]
  · rw [readers, h.sized.readers, size]
  · rw [living, h.sized.living, size]
  · rw [prevs, h.sized.prevs, size]
  · rw [nexts, h.sized.nexts, size]
  · rw [size]
    exact h.lt_size
  · rw [alive]
    exact h.mem_of_isAlive
  · rw [succ, pred, alive]
    exact h.linked
  · rw [alive, next]
    exact h.resumes

/-- Apart from a new entry, the same ones are alive. -/
lemma isAlive_insert (h : Chronicle b es) {last first : Option Nat} (hid : id ∈ es) :
    ((b.create c).2.linkBetween last b.size first).isAlive id = b.isAlive id := by
  have created := @isAlive_create b c id h.sized.living
  rw [or_iff_right (h.lt_size id hid).ne] at created
  exact Bool.eq_iff_iff.2 created

/-- Apart from a new entry and the one in front of it, all are followed by what followed them. -/
lemma next?_insert (h : Chronicle b es) {last first : Option Nat} (hlast : ∀ p ∈ last, p ∈ es)
    (hid : id ∈ es) (hne : some id ≠ last) :
    ((b.create c).2.linkBetween last b.size first).next? id = b.next? id := by
  have hsucc := h.sized.succ_insert (c := c) (fun p hp => h.lt_size p (hlast p hp)) first
  have hnew : some id ≠ some b.size := fun e => (h.lt_size id hid).ne (Option.some.inj e)
  have := congrFun hsucc (some id)
  rwa [Function.update_of_ne hne, Function.update_of_ne hnew] at this

/-- A new entry right behind a living one, or in front of all entries, leads to the next living one,
and no pointer of an earlier entry steps over it. -/
lemma resumes_insert (h : Chronicle b (front ++ behind))
    (hlast : (front.filter b.isAlive).getLast? = front.getLast?) {b' : Builder}
    (hb' : b' = (b.create c).2.linkBetween front.getLast? b.size (behind.filter b.isAlive).head?) :
    Resumes b'.isAlive b'.next? (front ++ b.size :: behind) := by
  have mem_front : ∀ p ∈ front.getLast?, p ∈ front := fun p hp => List.mem_of_getLast? hp
  have mem_last : ∀ p ∈ front.getLast?, p ∈ front ++ behind :=
    fun p hp => List.mem_append_left _ (mem_front p hp)
  have apart := List.nodup_append.1 h.nodup
  have hsucc := h.sized.succ_insert (c := c) (fun p hp => h.lt_size p (mem_last p hp))
    (behind.filter b.isAlive).head?
  rw [← hb'] at hsucc
  have same : ∀ x ∈ front ++ behind, b'.isAlive x = b.isAlive x := fun x hx => by
    rw [hb']
    exact h.isAlive_insert hx
  have aside : ∀ x ∈ front ++ behind, some x ≠ front.getLast? → b'.next? x = b.next? x :=
    fun x hx hne => by
      rw [hb']
      exact h.next?_insert mem_last hx hne
  have new : b'.next? b.size = (behind.filter b'.isAlive).head? := by
    rw [List.filter_congr fun x hx => same x (List.mem_append_right _ hx)]
    have := congrFun hsucc (some b.size)
    rwa [Function.update_of_ne, Function.update_self] at this
    exact fun e => absurd (h.lt_size _ (mem_last _ e.symm)) (lt_irrefl _)
  have later : Resumes b'.isAlive b'.next? (b.size :: behind) := by
    refine Resumes.cons (h.resumes.drop.mono (fun x hx => ?_) fun x hx hdead => ?_) new
    · refine aside x (List.mem_append_right _ hx) fun e => ?_
      exact apart.2.2 x (mem_front x e.symm) x hx rfl
    · exact (same x (List.mem_append_right _ hx)).trans hdead
  rcases List.eq_nil_or_concat front with rfl | ⟨before, p, rfl⟩
  · exact later
  · rw [List.concat_eq_append] at *
    rw [List.getLast?_concat] at hlast aside hsucc
    have alive : b.isAlive p = true := (List.mem_filter.1 (List.mem_of_getLast? hlast)).2
    have hp : b'.next? p = some b.size := by
      have := congrFun hsucc (some p)
      rwa [Function.update_self] at this
    have hbefore : ∀ x ∈ before, some x ≠ some p := fun x hx e =>
      (List.nodup_append.1 apart.1).2.2 x hx p (by simp) (Option.some.inj e)
    have old := h.resumes
    rw [List.append_assoc, List.singleton_append] at old ⊢
    refine old.insert_behind alive ⟨⟨[], _, rfl, hp, by simp⟩, later⟩ (fun x hx => ?_) fun x hx hdead => ?_
    · exact aside x (by simp [hx]) (hbefore x hx)
    · exact (same x (by simp [hx])).trans hdead

/-- The living entries with a new one among them are linked. -/
lemma linked_insert (h : Chronicle b (front ++ behind))
    (hlast : (front.filter b.isAlive).getLast? = front.getLast?) {b' : Builder}
    (hb' : b' = (b.create c).2.linkBetween front.getLast? b.size (behind.filter b.isAlive).head?) :
    Linked b'.succ b'.pred ((front ++ b.size :: behind).filter b'.isAlive) := by
  have mem_first : ∀ n ∈ (behind.filter b.isAlive).head?, n ∈ front ++ behind :=
    fun n hn => List.mem_append_right _ (List.mem_filter.1 (List.mem_of_head? hn)).1
  have hsucc := h.sized.succ_insert (c := c) (fun p hp =>
    h.lt_size p (List.mem_append_left _ (List.mem_of_getLast? hp))) (behind.filter b.isAlive).head?
  have hpred := h.sized.pred_insert (c := c) front.getLast? fun n hn => h.lt_size n (mem_first n hn)
  have same : ∀ x ∈ front ++ behind, b'.isAlive x = b.isAlive x := fun x hx => by
    rw [hb']
    exact h.isAlive_insert hx
  have new : b'.isAlive b.size = true := by
    rw [hb']
    exact (@isAlive_create b c b.size h.sized.living).2 (.inl rfl)
  have fresh : b.size ∉ front.filter b.isAlive ++ behind.filter b.isAlive := by
    rw [← List.filter_append]
    exact fun hmem => absurd (h.lt_size _ (List.mem_filter.1 hmem).1) (lt_irrefl _)
  have linked := h.linked
  rw [List.filter_append] at linked
  have inserted := linked.insert fresh
  rw [hlast] at inserted
  rw [List.filter_append, List.filter_cons, if_pos new,
    List.filter_congr fun x hx => same x (List.mem_append_left _ hx),
    List.filter_congr fun x hx => same x (List.mem_append_right _ hx), hb', hsucc, hpred]
  exact inserted

/-- A new entry right behind a living one, or in front of all entries. -/
lemma insert (h : Chronicle b (front ++ behind))
    (hlast : (front.filter b.isAlive).getLast? = front.getLast?) :
    Chronicle ((b.create c).2.linkBetween front.getLast? b.size (behind.filter b.isAlive).head?)
      (front ++ b.size :: behind) where
  sized := (h.sized.create c).linkBetween ..
  nodup := by
    have fresh : b.size ∉ front ++ behind := fun hmem => absurd (h.lt_size _ hmem) (lt_irrefl _)
    exact (List.perm_middle.nodup_iff).2 (List.nodup_cons.2 ⟨fresh, h.nodup⟩)
  lt_size id hid := by
    show id < (b.create c).2.size
    rw [size_create]
    rcases List.mem_cons.1 (List.perm_middle.subset hid) with rfl | hid
    · exact Nat.lt_succ_self _
    · exact Nat.lt_succ_of_lt (h.lt_size id hid)
  mem_of_isAlive id hid := by
    refine List.perm_middle.symm.subset (List.mem_cons.2 ?_)
    exact ((@isAlive_create b c id h.sized.living).1 hid).imp_right (h.mem_of_isAlive id)
  linked := h.linked_insert hlast rfl
  resumes := h.resumes_insert hlast rfl

section Remove

variable {xs ys : List Nat} (h : Chronicle b es) (hsplit : es.filter b.isAlive = xs ++ id :: ys)
include h hsplit

lemma lt_of_split {x : Nat} (hx : x ∈ xs ++ id :: ys) : x < b.size := by
  rw [← hsplit] at hx
  exact h.lt_size x (List.mem_filter.1 hx).1

lemma prev?_eq : b.prev? id = xs.getLast? := by
  have linked := h.linked
  rw [hsplit] at linked
  exact linked.pred_head?

lemma next?_eq : b.next? id = ys.head? := by
  have linked := h.linked
  rw [hsplit, List.append_cons] at linked
  have := linked.succ_getLast?
  rwa [List.getLast?_concat] at this

/-- Taking out an entry leaves all others alive. -/
lemma isAlive_remove (x : Nat) : (b.remove id).isAlive x = (decide (x ≠ id) && b.isAlive x) := by
  have hlt : id < b.living.size := by
    rw [h.sized.living]
    exact h.lt_of_split hsplit (by simp)
  rw [remove_eq]
  refine (getD_setIfInBounds hlt : _ = if x = id then false else b.isAlive x).trans ?_
  split <;> simp [*, isAlive]

lemma succ_remove : (b.remove id).succ = Function.update b.succ xs.getLast? (b.next? id) := by
  have hprev := h.prev?_eq hsplit
  rw [← hprev, remove_eq, ← succ_unlink]
  · rfl
  · rw [hprev, h.sized.nexts]
    intro p hp
    exact h.lt_of_split hsplit (List.mem_append_left _ (List.mem_of_getLast? hp))

lemma pred_remove : (b.remove id).pred = Function.update b.pred ys.head? xs.getLast? := by
  have hnext := h.next?_eq hsplit
  rw [← hnext, ← h.prev?_eq hsplit, remove_eq, ← pred_unlink]
  · rfl
  · rw [hnext, h.sized.prevs]
    intro n hn
    exact h.lt_of_split hsplit (List.mem_append_right _ (List.mem_cons_of_mem _ (List.mem_of_head? hn)))

/-- The living entries without one of them are linked. -/
lemma linked_remove : Linked (b.remove id).succ (b.remove id).pred (es.filter (b.remove id).isAlive) := by
  have linked := h.linked
  rw [hsplit] at linked
  have apart := linked.notMem_middle
  have others : (xs ++ ys).filter (fun x => decide (x ≠ id)) = xs ++ ys :=
    List.filter_eq_self.2 fun x hx => decide_eq_true fun (e : x = id) => apart (e ▸ hx)
  have hfilter : es.filter (b.remove id).isAlive = xs ++ ys := by
    rw [funext (h.isAlive_remove hsplit), ← List.filter_filter, hsplit,
      ← others, List.filter_append, List.filter_append, List.filter_cons, if_neg (by simp)]
  rw [hfilter, h.succ_remove hsplit, h.pred_remove hsplit, h.next?_eq hsplit]
  exact linked.erase

/-- An entry that is taken out keeps its pointer, and the living one in front of it gets the same. -/
lemma resumes_remove : Resumes (b.remove id).isAlive (b.remove id).next? es := by
  have halive := h.isAlive_remove hsplit
  have hsucc := h.succ_remove hsplit
  have hdead : ∀ x, b.isAlive x = false → (b.remove id).isAlive x = false := fun x hx => by
    rw [halive, hx, Bool.and_false]
  obtain ⟨front, rest, rfl, hfront, hrest, hlast⟩ := exists_split_filter hsplit
  obtain ⟨dead, behind, rfl, hdead', -, -⟩ := List.filter_eq_cons_iff.1 hrest
  rw [← hlast] at hsucc
  have aside : ∀ x, some x ≠ front.getLast? → (b.remove id).next? x = b.next? x := fun x hne => by
    have := congrFun hsucc (some x)
    rwa [Function.update_of_ne hne] at this
  rcases List.eq_nil_or_concat front with rfl | ⟨before, p, rfl⟩
  · exact h.resumes.mono (fun x _ => aside x (by simp)) fun x _ => hdead x
  · have old := h.resumes
    have nodup := h.nodup
    rw [List.concat_eq_append] at *
    rw [List.getLast?_concat] at aside hsucc
    rw [List.append_assoc, List.singleton_append] at old nodup ⊢
    have apart := (List.nodup_cons.1 ((List.perm_middle.nodup_iff).1 nodup)).1
    refine old.erase (fun x hx => ?_) ?_ ?_ (fun x hx => aside x fun e => ?_) hdead
    · exact hdead x (Bool.eq_false_iff.2 (hdead' x hx))
    · simp [halive]
    · have := congrFun hsucc (some p)
      rwa [Function.update_self] at this
    · exact apart (Option.some.inj e ▸ hx)

end Remove

/-- An entry that is taken out keeps its place. -/
lemma remove (h : Chronicle b es) (alive : b.isAlive id = true) : Chronicle (b.remove id) es := by
  obtain ⟨xs, ys, hsplit⟩ := List.append_of_mem
    (List.mem_filter.2 ⟨h.mem_of_isAlive id alive, alive⟩)
  have sized := h.sized.unlink id
  refine ⟨?_, h.nodup, ?_, fun x hx => ?_, h.linked_remove hsplit, h.resumes_remove hsplit⟩
  · rw [remove_eq]
    exact ⟨sized.depths, (size_dropReaders ..).trans sized.readers,
      Array.size_setIfInBounds.trans sized.living, sized.prevs, sized.nexts⟩
  · rw [remove_eq]
    exact h.lt_size
  · rw [h.isAlive_remove hsplit, Bool.and_eq_true] at hx
    exact h.mem_of_isAlive x hx.2

lemma length_le_size (h : Chronicle b es) : es.length ≤ b.size := by
  have hsub : es ⊆ List.range b.size := fun id hid => List.mem_range.2 (h.lt_size id hid)
  simpa using (List.subperm_of_subset h.nodup hsub).length_le

/-- The living entries in order. -/
lemma order_eq (h : Chronicle b es) : b.order = es.filter b.isAlive :=
  Linked.chain_eq h.linked.forward b.size ((List.length_filter_le ..).trans h.length_le_size)

end Chronicle

end Builder

end Gatework
