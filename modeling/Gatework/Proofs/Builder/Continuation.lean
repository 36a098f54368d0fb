import Gatework.Proofs.Builder.Chronicle
import Gatework.Proofs.Builder.Growth
import Gatework.Proofs.Builder.Replacement

/-!
# Changes prolong the order of all entries

What happens to a builder only puts new entries between those that it had, and takes some of the old
ones out: a chronicle of the builder is one of the later builder when the new entries are left out, and
no dead entry comes back (`Prolongs`).  So every change, whatever it is, `Continues` the builder.

* `Continues.replace` for replacements,
* `Continues.addInput`, `Continues.addOutput` for the terminals,
* `cellwise_continues` for all that is built from single cells.
-/

namespace Gatework

namespace Builder

variable {b b' : Builder} {es : List Nat} {id root : Nat} {c : Cell}

/-- A chronicle of a later builder has new entries between those of the earlier one, and of these none
has come back. -/
structure Prolongs (b : Builder) (es : List Nat) (b' : Builder) (es' : List Nat) : Prop where
  chronicle : Chronicle b' es'
  size_le : b.size ≤ b'.size
  old : es'.filter (· < b.size) = es
  isAlive_of_lt : ∀ id < b.size, b'.isAlive id = true → b.isAlive id = true

namespace Prolongs

variable {b'' : Builder} {es' es'' : List Nat}

/-- A later builder without new entries. -/
lemma same (h : Chronicle b' es) (size : b'.size = b.size)
    (alive : ∀ id, b'.isAlive id = true → b.isAlive id = true) : Prolongs b es b' es :=
  ⟨h, size.ge, List.filter_eq_self.2 fun id hid => decide_eq_true (size ▸ h.lt_size id hid),
    fun id _ => alive id⟩

lemma refl (h : Chronicle b es) : Prolongs b es b es := same h rfl fun _ => id

lemma trans (h : Prolongs b es b' es') (h' : Prolongs b' es' b'' es'') : Prolongs b es b'' es'' where
  chronicle := h'.chronicle
  size_le := h.size_le.trans h'.size_le
  old := by
    rw [← h.old, ← h'.old, List.filter_filter]
    refine List.filter_congr fun id _ => ?_
    rw [← Bool.decide_and, decide_eq_decide]
    exact (and_iff_left_of_imp fun hid => hid.trans_le h.size_le).symm
  isAlive_of_lt id hid alive :=
    h.isAlive_of_lt id hid (h'.isAlive_of_lt id (hid.trans_le h.size_le) alive)

/-- What does not belong to the list may change. -/
lemma congr (h : Prolongs b es b' es') (cells : b''.cells.size = b'.cells.size)
    (depths : b''.depths.size = b'.depths.size) (readers : b''.readers.size = b'.readers.size)
    (living : b''.living = b'.living) (prevs : b''.prevs = b'.prevs) (nexts : b''.nexts = b'.nexts)
    (head : b''.head = b'.head) (tail : b''.tail = b'.tail) : Prolongs b es b'' es' where
  chronicle := h.chronicle.congr cells depths readers living prevs nexts head tail
  size_le := h.size_le.trans_eq cells.symm
  old := h.old
  isAlive_of_lt id hid alive := by
    rw [isAlive, living] at alive
    exact h.isAlive_of_lt id hid alive

end Prolongs

namespace Chronicle

/-- A new entry between two living ones. -/
lemma exists_insert {xs ys : List Nat} (h : Chronicle b es) (hsplit : es.filter b.isAlive = xs ++ ys)
    (c : Cell) : ∃ es', Prolongs b es ((b.create c).2.linkBetween xs.getLast? b.size ys.head?) es' := by
  obtain ⟨front, behind, rfl, rfl, rfl, hlast⟩ := exists_split_filter hsplit
  have inserted := h.insert (c := c) hlast.symm
  refine ⟨front ++ b.size :: behind, hlast ▸ inserted, ?_, ?_, fun id hid alive => ?_⟩
  · exact (Nat.le_succ _).trans_eq size_create.symm
  · have old := fun id hid => decide_eq_true (h.lt_size id hid)
    rw [List.filter_append, List.filter_cons, if_neg (by simp), ← List.filter_append,
      List.filter_eq_self.2 old]
  · exact ((@isAlive_create b c id h.sized.living).1 alive).resolve_left hid.ne

lemma exchange (h : Chronicle b es) (root : Nat) (c : Cell) : Chronicle (b.exchange root c) es := by
  rw [exchange_eq]
  exact h.congr Array.size_setIfInBounds rfl (by simp) rfl rfl rfl rfl rfl

end Chronicle

/-- Every chronicle is prolonged by a later builder. -/
def Continues (b b' : Builder) : Prop := ∀ es, Chronicle b es → ∃ es', Prolongs b es b' es'

namespace Continues

variable {b'' : Builder}

lemma refl (b : Builder) : Continues b b := fun es h => ⟨es, .refl h⟩

lemma trans (h : Continues b b') (h' : Continues b' b'') : Continues b b'' := by
  intro es hes
  obtain ⟨es', h₁⟩ := h es hes
  obtain ⟨es'', h₂⟩ := h' es' h₁.chronicle
  exact ⟨es'', h₁.trans h₂⟩

/-- A new entry right in front of a living one. -/
lemma splice (alive : b.isAlive root = true) (c : Cell) : Continues b (b.splice root c).2 := by
  intro es h
  obtain ⟨xs, ys, hsplit⟩ := List.append_of_mem
    (List.mem_filter.2 ⟨h.mem_of_isAlive root alive, alive⟩)
  obtain ⟨es', prolongs⟩ := h.exists_insert hsplit c
  have hprev : (b.create c).2.prev? root = xs.getLast? :=
    (congrFun pred_create (some root)).trans (h.prev?_eq hsplit)
  refine ⟨es', ?_⟩
  rw [Builder.splice]
  dsimp only
  rw [offer_eq, hprev]
  exact prolongs.congr rfl rfl rfl rfl rfl rfl rfl rfl

/-- An entry is taken out. -/
lemma remove (alive : b.isAlive id = true) : Continues b (b.remove id) := by
  intro es h
  obtain ⟨xs, ys, hsplit⟩ := List.append_of_mem
    (List.mem_filter.2 ⟨h.mem_of_isAlive id alive, alive⟩)
  refine ⟨es, .same (h.remove alive) ?_ fun x hx => ?_⟩
  · rw [remove_eq]
    rfl
  · rw [h.isAlive_remove hsplit, Bool.and_eq_true] at hx
    exact hx.2

lemma collect (b : Builder) (waiting : List Nat) : Continues b (b.collect waiting) := by
  induction b, waiting using Builder.collect.induct with
  | case1 b =>
      rw [Builder.collect]
      exact refl b
  | case2 b id waiting idle ih =>
      rw [Builder.collect, dif_pos idle]
      simp only [isIdle, Bool.and_eq_true] at idle
      exact (remove idle.1.1).trans ih
  | case3 b id waiting idle ih =>
      rw [Builder.collect, dif_neg idle]
      exact ih

lemma exchange (b : Builder) (root : Nat) (c : Cell) : Continues b (b.exchange root c) := by
  intro es h
  refine ⟨es, .same (h.exchange root c) size_exchange fun x hx => ?_⟩
  rwa [isAlive_exchange] at hx

lemma rewriteCell (b : Builder) (root : Nat) (c : Cell) : Continues b (b.rewriteCell root c) :=
  (exchange b root c).trans (collect _ _)

lemma updateDepths {root : Nat} (step : b.updateDepths root = .ok b') : Continues b b' := by
  obtain ⟨depths, size, rfl⟩ := exists_of_updateDepths step
  exact fun es h => ⟨es, (Prolongs.refl h).congr rfl size rfl rfl rfl rfl rfl rfl⟩

lemma isAlive_splice (alive : b.isAlive id = true) : (b.splice root c).2.isAlive id = true := by
  have hlt : id < b.living.size := by
    by_contra hlt
    simp [isAlive, Nat.not_lt.1 hlt] at alive
  rw [Builder.splice]
  dsimp only
  rw [offer_eq]
  show (b.living.push true).getD id false = true
  rw [← alive, isAlive, Array.getD_eq_getD_getElem?, Array.getElem?_push_lt hlt]
  simp [hlt]

/-- A copied cell goes in front of the root, which stays alive. -/
lemma replaceCell {r : Replacement} {rootPosition : Option Nat}
    {state state' : Builder × Array Link × Option Cell} {x : Cell × Nat}
    (alive : state.1.isAlive r.root = true)
    (step : Builder.replaceCell r rootPosition state x = .ok state') :
    Continues state.1 state'.1 ∧ state'.1.isAlive r.root = true := by
  obtain ⟨b, places, rootCell⟩ := state
  obtain ⟨links, -, step⟩ := bind_eq_ok_iff.1 step
  dsimp only at step
  split at step
  · cases step
    exact ⟨refl b, alive⟩
  · cases step
    exact ⟨splice alive _, isAlive_splice alive⟩

/-- A replacement that succeeds. -/
theorem replace {r : Replacement} (step : b.replace r = .ok b') : Continues b b' := by
  obtain ⟨⟨⟩, hcheck, step⟩ := bind_eq_ok_iff.1 step
  obtain ⟨shown, -, step⟩ := bind_eq_ok_iff.1 step
  obtain ⟨⟨b₁, places, rootCell⟩, hcopy, step⟩ := bind_eq_ok_iff.1 step
  have alive : b.isAlive r.root = true := (checkReplacement_eq_ok_iff.1 hcheck).2.2.1
  have copied : Continues b b₁ ∧ b₁.isAlive r.root = true := by
    refine foldlM_invariant (fun s : Builder × Array Link × Option Cell =>
      Continues b s.1 ∧ s.1.isAlive r.root = true) ⟨refl b, alive⟩ ?_ hcopy
    rintro x - s s' ⟨hs, halive⟩ hstep
    obtain ⟨hs', halive'⟩ := replaceCell halive hstep
    exact ⟨hs.trans hs', halive'⟩
  dsimp only at step
  split at step
  · exact (copied.1.trans (rewriteCell _ _ _)).trans (updateDepths step)
  · obtain ⟨l, -, step⟩ := bind_eq_ok_iff.1 step
    exact (copied.1.trans (rewriteCell _ _ _)).trans (updateDepths step)

/-! ## Additions -/

section Additions

variable {ins inn outs : List Nat} (layout : Layout b ins inn outs)
include layout

/-- A new inner cell goes in front of the outputs. -/
lemma append (c : Cell) : Continues b (b.append c).2 := by
  intro es h
  have hsplit := h.order_eq.symm.trans layout.order_eq
  obtain ⟨es', prolongs⟩ := h.exists_insert hsplit c
  rw [← layout.front_outputs c, ← layout.firstOutput] at prolongs
  refine ⟨es', ?_⟩
  rw [Builder.append]
  dsimp only
  rw [offer_eq]
  exact prolongs.congr rfl rfl rfl rfl rfl rfl rfl rfl

lemma place (c : Cell) : Continues b (b.place c).2 := by
  unfold Builder.place
  split
  · exact refl b
  · exact append layout c

/-- What is left of a cell is placed. -/
lemma placed (kind : CellKind) (folded : Folded) : Continues b (folded.placed b kind).2 := by
  cases folded with
  | link l => exact refl b
  | constant value => exact place layout _
  | cell links inverted => exact place layout _

/-- A new input goes behind the other inputs. -/
lemma addInput {l : Link} (step : Builder.addInput b = .ok (l, b')) : Continues b b' := by
  intro es h
  have hsplit := h.order_eq.symm.trans (layout.order_eq.trans (List.append_assoc ..))
  obtain ⟨es', prolongs⟩ := h.exists_insert hsplit .input
  rw [← layout.behind_inputs .input, ← layout.lastInput] at prolongs
  cases step
  exact ⟨es', prolongs.congr rfl rfl rfl rfl rfl rfl rfl rfl⟩

/-- A new output goes behind all other entries. -/
lemma addOutput {l : Link} (step : Builder.addOutput l b = .ok (id, b')) : Continues b b' := by
  intro es h
  have hsplit := h.order_eq.symm.trans (layout.order_eq.trans (List.append_nil _).symm)
  obtain ⟨es', prolongs⟩ := h.exists_insert hsplit (.output l)
  rw [← layout.tail_eq] at prolongs
  obtain ⟨⟨⟩, -, step⟩ := bind_eq_ok_iff.1 step
  cases step
  exact ⟨es', prolongs.congr rfl rfl rfl rfl rfl rfl rfl rfl⟩

end Additions

end Continues

/-- Whatever is built from single cells keeps a builder well-formed and continues it. -/
lemma cellwise_continues : Cellwise fun b b' => WellFormed b → WellFormed b' ∧ Continues b b' where
  refl b h := ⟨h, .refl b⟩
  trans h h' wf := by
    obtain ⟨wf', continues⟩ := h wf
    obtain ⟨wf'', continues'⟩ := h' wf'
    exact ⟨wf'', continues.trans continues'⟩
  addPositive kind links hkind b l b' hrun wf := by
    refine ⟨(grows_addPositive hkind links b l b' wf hrun).wellFormed, ?_⟩
    have placed := Continues.placed wf.layout kind (b.simplified kind links)
    rwa [(Builder.addPositive_eq_ok_iff.1 hrun).2.2] at placed

end Builder

end Gatework
