import Std.Data.HashMap.Lemmas
import Gatework.Proofs.Builder.Arrangement

/-!
# Well-formed builders

`Layout b ins inn outs` says that a builder holds a network: its order are the inputs `ins`, the
inner cells `inn` and the outputs `outs`, in this order, its entries are arranged, and what it offers
for reuse are living inner cells under their normal forms.  `Settled` says that the depths kept with
the entries are those of their cells.  A builder with both is `WellFormed`.

This module shows that each of the elementary changes of a builder keeps the layout and, where
depths are not changed on purpose, the depths.
-/

namespace Gatework

/-- A bound on the largest number of a list. -/
lemma foldl_max_le_iff {xs : List Nat} {m bound : Nat} :
    xs.foldl max m ≤ bound ↔ m ≤ bound ∧ ∀ x ∈ xs, x ≤ bound := by
  induction xs generalizing m with
  | nil => simp
  | cons x xs ih => rw [List.foldl_cons, ih, Nat.max_le, List.forall_mem_cons, and_assoc]

/-- The depth of a cell depends only on the depths of its drivers. -/
lemma Cell.depth_congr {c : Cell} {f g : Nat → Nat} (h : ∀ d ∈ c.drivers, f d = g d) :
    c.depth f = c.depth g := by
  simp only [Cell.depth, List.map_congr_left h]

namespace Builder

/-- The living entries of a builder are inputs, inner cells and outputs, in this order. -/
structure Layout (b : Builder) (ins inn outs : List Nat) : Prop where
  arranged : Arranged b (ins ++ inn ++ outs)
  isInput : ∀ id ∈ ins, b.cells[id]? = some .input
  isInner : ∀ id ∈ inn, ∃ c, b.cells[id]? = some c ∧ c.isTerminal = false
  isOutput : ∀ id ∈ outs, ∃ l, b.cells[id]? = some (.output l)
  lastInput : b.lastInput = ins.getLast?
  firstOutput : b.firstOutput = outs.head?
  numInputs : b.numInputs = ins.length
  numOutputs : b.numOutputs = outs.length
  /-- What is offered for reuse is a living inner cell under its normal form. -/
  offered : ∀ key id, b.table[key]? = some id →
    id ∈ inn ∧ ∃ c, b.cells[id]? = some c ∧ c.normal = key
  /-- Without the option nothing is offered. -/
  unshared : b.options.share = false → ∀ key : Cell, b.table[key]? = none

/-- The depth of every living entry is that of its cell. -/
def Settled (b : Builder) : Prop :=
  ∀ id ∈ b.order, ∀ c, b.cells[id]? = some c → b.depth id = c.depth b.depth

/-- A builder whose entries are laid out in order and whose depths are up to date. -/
structure WellFormed (b : Builder) : Prop where
  layout : Layout b b.inputs b.inner b.outputs
  settled : Settled b

namespace Layout

variable {b : Builder} {ins inn inn' outs : List Nat}

lemma order_eq (h : Layout b ins inn outs) : b.order = ins ++ inn ++ outs := h.arranged.order_eq

/-- A builder that is laid out is in order. -/
lemma arranged_order (h : Layout b ins inn outs) : Arranged b b.order := h.order_eq ▸ h.arranged

/-- The order in front of an inner cell and behind it. -/
lemma arranged_middle {root : Nat} (h : Layout b ins (inn ++ root :: inn') outs) :
    Arranged b (ins ++ inn ++ root :: (inn' ++ outs)) := by simpa using h.arranged

/-- What an inner cell reads is neither the cell itself nor behind it. -/
lemma notMem_behind {root x : Nat} (h : Layout b ins (inn ++ root :: inn') outs)
    (hx : x ∈ b.driversOf root) : x ∉ root :: inn' := fun hmem =>
  h.arranged_middle.linked.apart (h.arranged_middle.mem_front hx) (List.mem_append_left outs hmem)

/-- The entries that pass a test on their cells, where the test is decided on each of the three
parts. -/
lemma entriesWith_eq (h : Layout b ins inn outs) (test : Cell → Bool) (keepIn keepInner keepOut : Bool)
    (hin : test .input = keepIn) (hinner : ∀ c : Cell, c.isTerminal = false → test c = keepInner)
    (hout : ∀ l, test (.output l) = keepOut) :
    b.entriesWith test = (if keepIn then ins else []) ++ (if keepInner then inn else []) ++
      (if keepOut then outs else []) := by
  have part : ∀ (xs : List Nat) (keep : Bool),
      (∀ id ∈ xs, ∃ c, b.cells[id]? = some c ∧ test c = keep) →
      xs.filter (fun id => (b.cells[id]?).any test) = if keep then xs else [] := by
    intro xs keep hxs
    cases keep with
    | true =>
        rw [if_pos rfl, List.filter_eq_self]
        intro id hid
        obtain ⟨c, hc, htest⟩ := hxs id hid
        simp [hc, htest]
    | false =>
        rw [if_neg (by decide), List.filter_eq_nil_iff]
        intro id hid
        obtain ⟨c, hc, htest⟩ := hxs id hid
        simp [hc, htest]
  rw [entriesWith, h.order_eq, List.filter_append, List.filter_append]
  rw [part ins keepIn fun id hid => ⟨_, h.isInput id hid, hin⟩]
  rw [part inn keepInner fun id hid => (h.isInner id hid).imp fun c hc => ⟨hc.1, hinner c hc.2⟩]
  rw [part outs keepOut fun id hid => (h.isOutput id hid).elim fun l hl => ⟨_, hl, hout l⟩]

lemma inputs_eq (h : Layout b ins inn outs) : b.inputs = ins := by
  have := h.entriesWith_eq Cell.isInput true false false rfl
    (fun c hc => (Bool.or_eq_false_iff.1 hc).1) (fun l => rfl)
  simpa [inputs] using this

lemma inner_eq (h : Layout b ins inn outs) : b.inner = inn := by
  have := h.entriesWith_eq (!·.isTerminal) false true false rfl (fun c hc => by simp [hc]) (fun l => rfl)
  simpa [inner] using this

lemma outputs_eq (h : Layout b ins inn outs) : b.outputs = outs := by
  have := h.entriesWith_eq Cell.isOutput false false true rfl
    (fun c hc => (Bool.or_eq_false_iff.1 hc).2) (fun l => rfl)
  simpa [outputs] using this

/-- The three parts of the order are those that the builder gives. -/
lemma wellFormed (h : Layout b ins inn outs) (settled : Settled b) : WellFormed b where
  layout := by rwa [h.inputs_eq, h.inner_eq, h.outputs_eq]
  settled := settled

end Layout

/-! ## What is offered for reuse -/

section Sharing

variable {b : Builder} {id : Nat} {c : Cell}

/-- An offered entry is the new one under its normal form, or it was offered before. -/
lemma offered_offer {key : Cell} {x : Nat} (h : (b.offer id c).table[key]? = some x) :
    (b.options.share = true ∧ x = id ∧ key = c.normal) ∨ b.table[key]? = some x := by
  unfold offer at h
  split at h
  · rename_i share
    simp only [Std.HashMap.getElem?_insertIfNew] at h
    split at h
    · rename_i hnew
      exact .inl ⟨share, (Option.some.inj h).symm, (beq_iff_eq.1 hnew.1).symm⟩
    · exact .inr h
  · exact .inr h

/-- What is still offered after a withdrawal was offered before, and not under the normal form of
the withdrawn entry. -/
lemma offered_withdraw {key : Cell} {x : Nat} (hc : b.cells[id]? = some c)
    (h : (b.withdraw id).table[key]? = some x) :
    b.table[key]? = some x ∧ (b.options.share = true → x = id → key ≠ c.normal) := by
  unfold withdraw at h
  rw [hc] at h
  simp only at h
  split at h
  · rename_i hshare
    simp only [Std.HashMap.getElem?_erase] at h
    split at h
    · cases h
    · rename_i hkey
      exact ⟨h, fun _ _ e => hkey (by simp [e])⟩
  · rename_i hshare
    refine ⟨h, ?_⟩
    rintro share rfl rfl
    simp [share, h] at hshare

@[simp] lemma options_withdraw : (b.withdraw id).options = b.options := by rw [withdraw_eq]

end Sharing

/-! ## One more entry -/

/-- The second builder is the first with one more entry, which holds the cell `c`. -/
structure Added (b b' : Builder) (c : Cell) : Prop where
  options : b'.options = b.options
  cells : b'.cells = b.cells.push c
  depths : b'.depths = b.depths.push (c.depth b.depth)

namespace Added

variable {b b' : Builder} {c : Cell} {id : Nat}

lemma size (h : Added b b' c) : b'.size = b.size + 1 := by simp [Builder.size, h.cells]

lemma getElem?_of_lt (h : Added b b' c) (hid : id < b.size) : b'.cells[id]? = b.cells[id]? := by
  rw [h.cells, Array.getElem?_push, if_neg (show id ≠ b.cells.size from hid.ne)]

lemma getElem?_self (h : Added b b' c) : b'.cells[b.size]? = some c := by
  simp [h.cells, Builder.size]

lemma depth_of_lt (h : Added b b' c) (sized : Sized b) (hid : id < b.size) :
    b'.depth id = b.depth id := by
  have : id < b.depths.size := sized.depths.symm ▸ hid
  simp [depth, h.depths, Array.getElem?_push, this.ne]

/-- The depth of the new entry is that of its cell, and no other depth changes. -/
lemma settled (h : Added b b' c) (sized : Sized b) (settled : Settled b)
    (order : ∀ id ∈ b'.order, id = b.size ∨ id ∈ b.order)
    (reads : ∀ id ∈ b.order, ∀ d ∈ b.driversOf id, d < b.size)
    (hlt : ∀ id ∈ b.order, id < b.size) (new : ∀ d ∈ c.drivers, d < b.size) : Settled b' := by
  have same : ∀ e : Cell, (∀ d ∈ e.drivers, d < b.size) → e.depth b'.depth = e.depth b.depth :=
    fun e he => Cell.depth_congr fun d hd => h.depth_of_lt sized (he d hd)
  intro id hid e he
  rcases order id hid with rfl | hid
  · rw [h.getElem?_self] at he
    cases he
    rw [same c new]
    simp [depth, h.depths, ← sized.depths]
  · rw [h.getElem?_of_lt (hlt id hid)] at he
    rw [h.depth_of_lt sized (hlt id hid), settled id hid e he, same e]
    intro d hd
    exact reads id hid d (by simpa [driversOf, he] using hd)

end Added

namespace Layout

variable {b b' : Builder} {ins inn outs : List Nat} {c : Cell}

lemma lt_size (h : Layout b ins inn outs) {id : Nat} (hid : id ∈ ins ++ inn ++ outs) :
    id < b.size := h.arranged.lt_size hid

/-- Inputs and inner cells may be read. -/
lemma isDriver (h : Layout b ins inn outs) {id : Nat} (hid : id ∈ ins ++ inn) : b.IsDriver id := by
  rcases List.mem_append.1 hid with hid | hid
  · exact ⟨_, h.isInput id hid, rfl⟩
  · obtain ⟨c, hc, hterm⟩ := h.isInner id hid
    exact ⟨c, hc, (Bool.or_eq_false_iff.1 hterm).2⟩

/-- One more entry, together with where it was put, keeps the depths. -/
lemma settled_of_added (h : Layout b ins inn outs) (added : Added b b' c) (settled : Settled b)
    (new : ∀ d ∈ c.drivers, d ∈ ins ++ inn) {ins' inn' outs' : List Nat}
    (h' : Layout b' ins' inn' outs')
    (order : ∀ id ∈ ins' ++ inn' ++ outs', id = b.size ∨ id ∈ ins ++ inn ++ outs) :
    Settled b' := by
  refine added.settled h.arranged.sized settled (fun id hid => ?_) (fun id hid d hd => ?_)
    (fun id hid => ?_) fun d hd => ?_
  · rw [h'.order_eq] at hid
    rw [h.order_eq]
    exact order id hid
  · rw [h.order_eq] at hid
    exact h.arranged.lt_size_of_reads hid hd
  · exact h.lt_size (h.order_eq ▸ hid)
  · exact h.lt_size (List.mem_append_left _ (new d hd))

/-- The cells of the entries that were there before are kept by one more entry. -/
lemma getElem?_added (h : Layout b ins inn outs) (added : Added b b' c) {id : Nat}
    (hid : id ∈ ins ++ inn ++ outs) : b'.cells[id]? = b.cells[id]? :=
  added.getElem?_of_lt (h.lt_size hid)

lemma isInput_added (h : Layout b ins inn outs) (added : Added b b' c) :
    ∀ id ∈ ins, b'.cells[id]? = some .input := fun id hid => by
  rw [h.getElem?_added added (by simp [hid])]
  exact h.isInput id hid

lemma isInner_added (h : Layout b ins inn outs) (added : Added b b' c) :
    ∀ id ∈ inn, ∃ e, b'.cells[id]? = some e ∧ e.isTerminal = false := fun id hid => by
  rw [h.getElem?_added added (by simp [hid])]
  exact h.isInner id hid

lemma isOutput_added (h : Layout b ins inn outs) (added : Added b b' c) :
    ∀ id ∈ outs, ∃ l, b'.cells[id]? = some (.output l) := fun id hid => by
  rw [h.getElem?_added added (by simp [hid])]
  exact h.isOutput id hid

lemma offered_added (h : Layout b ins inn outs) (added : Added b b' c) {key : Cell} {id : Nat}
    (hkey : b.table[key]? = some id) : id ∈ inn ∧ ∃ e, b'.cells[id]? = some e ∧ e.normal = key := by
  have old := h.offered key id hkey
  rwa [← h.getElem?_added added (by simp [old.1])] at old

/-- What a new input is put in front of. -/
lemma behind_inputs (h : Layout b ins inn outs) (c : Cell) :
    b.lastInput.elim (b.create c).2.head (b.create c).2.next? = (inn ++ outs).head? := by
  have linked := h.arranged.linked
  rw [List.append_assoc] at linked
  rw [← linked.succ_getLast?, ← h.lastInput]
  cases b.lastInput with
  | none => rfl
  | some id => exact congrFun succ_create (some id)

/-- What a new inner cell is put behind. -/
lemma front_outputs (h : Layout b ins inn outs) (c : Cell) :
    b.firstOutput.elim (b.create c).2.tail (b.create c).2.prev? = (ins ++ inn).getLast? := by
  rw [← h.arranged.linked.pred_head?, ← h.firstOutput]
  cases b.firstOutput with
  | none => rfl
  | some id => exact congrFun pred_create (some id)

/-- What a new output is put behind. -/
lemma tail_eq (h : Layout b ins inn outs) : b.tail = (ins ++ inn ++ outs).getLast? := by
  have linked := h.arranged.linked
  rw [← List.append_nil (ins ++ inn ++ outs)] at linked
  exact linked.pred_head?

/-- A new input goes behind the other inputs. -/
theorem addInput (h : Layout b ins inn outs) :
    ∃ b', Builder.addInput b = .ok (.of b.size, b') ∧ Layout b' (ins ++ [b.size]) inn outs ∧
      Added b b' .input := by
  have harr : Arranged b (ins ++ (inn ++ outs)) := by simpa using h.arranged
  have inserted := harr.insert (c := .input) (by simp [Cell.drivers, Cell.input])
    (by simp [Cell.drivers, Cell.input])
  refine ⟨_, rfl, ?_⟩
  have added : Added b { (b.create .input).2.linkBetween b.lastInput b.size
      (b.lastInput.elim (b.create .input).2.head (b.create .input).2.next?) with
      lastInput := some b.size, numInputs := b.numInputs + 1 } .input := ⟨rfl, rfl, rfl⟩
  refine ⟨?_, added⟩
  exact {
    arranged := by
      have : Arranged ((b.create .input).2.linkBetween b.lastInput b.size
          (b.lastInput.elim (b.create .input).2.head (b.create .input).2.next?))
          (ins ++ [b.size] ++ inn ++ outs) := by
        rw [h.behind_inputs, h.lastInput]
        simpa using inserted
      exact this.congr rfl rfl rfl rfl rfl rfl rfl rfl
    isInput := fun id hid => by
      rcases List.mem_append.1 hid with hid | hid
      · exact h.isInput_added added id hid
      · rw [List.mem_singleton.1 hid]
        exact added.getElem?_self
    isInner := h.isInner_added added
    isOutput := h.isOutput_added added
    lastInput := by simp
    firstOutput := h.firstOutput
    numInputs := by
      show b.numInputs + 1 = (ins ++ [b.size]).length
      simp [h.numInputs]
    numOutputs := h.numOutputs
    offered := fun key id hkey => h.offered_added added hkey
    unshared := h.unshared }

/-- A link may be read exactly if it names an input or an inner cell. -/
lemma checkDriver_eq_ok_iff (h : Layout b ins inn outs) {l : Link} :
    b.checkDriver l = .ok () ↔ l.entry ∈ ins ++ inn := by
  have halive := h.arranged.isAlive_iff l.entry
  constructor
  · intro hok
    unfold checkDriver at hok
    split at hok
    · cases hok
    · rename_i e he
      split at hok
      · cases hok
      · rename_i alive
        split at hok
        · cases hok
        · rename_i hout
          rcases List.mem_append.1 (halive.1 (by simpa using alive)) with hmem | hmem
          · exact hmem
          · obtain ⟨k, hk⟩ := h.isOutput _ hmem
            rw [hk] at he
            cases he
            exact absurd rfl hout
  · intro hmem
    obtain ⟨e, he, hout⟩ := h.isDriver hmem
    have alive := halive.2 (List.mem_append_left _ hmem)
    simp [checkDriver, he, alive, hout]

/-- A new output goes behind the other outputs. -/
theorem addOutput (h : Layout b ins inn outs) {l : Link} (hl : l.entry ∈ ins ++ inn) :
    ∃ b', Builder.addOutput l b = .ok (b.size, b') ∧ Layout b' ins inn (outs ++ [b.size]) ∧
      Added b b' (.output l) := by
  have harr : Arranged b (ins ++ inn ++ outs ++ []) := by simpa using h.arranged
  have inserted := harr.insert (c := .output l)
    (fun d hd => by
      rw [List.mem_singleton.1 hd]
      exact List.mem_append_left _ hl)
    (fun d hd => by
      rw [List.mem_singleton.1 hd]
      exact h.isDriver hl)
  rw [← h.tail_eq] at inserted
  have added : Added b { (b.create (.output l)).2.linkBetween b.tail b.size none with
      firstOutput := b.firstOutput.or (some b.size), numOutputs := b.numOutputs + 1 } (.output l) :=
    ⟨rfl, rfl, rfl⟩
  refine ⟨_, by rw [Builder.addOutput, h.checkDriver_eq_ok_iff.2 hl]; rfl, ?_, added⟩
  exact {
    arranged := by
      rw [← List.append_assoc]
      exact inserted.congr rfl rfl rfl rfl rfl rfl rfl rfl
    isInput := h.isInput_added added
    isInner := h.isInner_added added
    isOutput := fun id hid => by
      rcases List.mem_append.1 hid with hid | hid
      · exact h.isOutput_added added id hid
      · rw [List.mem_singleton.1 hid]
        exact ⟨l, added.getElem?_self⟩
    lastInput := h.lastInput
    firstOutput := by
      show b.firstOutput.or (some b.size) = (outs ++ [b.size]).head?
      rw [h.firstOutput]
      cases outs <;> rfl
    numInputs := h.numInputs
    numOutputs := by
      show b.numOutputs + 1 = (outs ++ [b.size]).length
      simp [h.numOutputs]
    offered := fun key id hkey => h.offered_added added hkey
    unshared := h.unshared }

/-- A new inner cell in front of some inner cells and the outputs, which is offered for reuse. -/
theorem insertInner {inn' : List Nat} (h : Layout b ins (inn ++ inn') outs)
    (new : ∀ d ∈ c.drivers, d ∈ ins ++ inn) (hc : c.isTerminal = false) {front behind : Option Nat}
    (hfront : front = (ins ++ inn).getLast?) (hbehind : behind = (inn' ++ outs).head?) :
    Layout (((b.create c).2.linkBetween front b.size behind).offer b.size c) ins
        (inn ++ b.size :: inn') outs ∧
      Added b (((b.create c).2.linkBetween front b.size behind).offer b.size c) c := by
  subst hfront hbehind
  have harr : Arranged b (ins ++ inn ++ (inn' ++ outs)) := by simpa using h.arranged
  have inserted := harr.insert new fun d hd => h.isDriver (by
    rcases List.mem_append.1 (new d hd) with hd | hd <;> simp [hd])
  set linked := (b.create c).2.linkBetween (ins ++ inn).getLast? b.size (inn' ++ outs).head?
  have added : Added b (linked.offer b.size c) c := by
    rw [offer_eq]
    exact ⟨rfl, rfl, rfl⟩
  have mem_inner : ∀ id, id ∈ inn ++ b.size :: inn' ↔ id = b.size ∨ id ∈ inn ++ inn' := by
    intro id
    simp [or_left_comm]
  have frame : linked.offer b.size c = { linked with table := (linked.offer b.size c).table } :=
    offer_eq ..
  refine ⟨?_, added⟩
  exact {
    arranged := by
      have := inserted.offer b.size c
      simpa using this
    isInput := h.isInput_added added
    isInner := fun id hid => by
      rcases (mem_inner id).1 hid with rfl | hid
      · exact ⟨c, added.getElem?_self, hc⟩
      · exact h.isInner_added added id hid
    isOutput := h.isOutput_added added
    lastInput := by rw [frame]; exact h.lastInput
    firstOutput := by rw [frame]; exact h.firstOutput
    numInputs := by rw [frame]; exact h.numInputs
    numOutputs := by rw [frame]; exact h.numOutputs
    offered := fun key id hkey => by
      rcases offered_offer hkey with ⟨-, rfl, rfl⟩ | hkey
      · exact ⟨(mem_inner _).2 (.inl rfl), c, added.getElem?_self, rfl⟩
      · have old := h.offered_added added hkey
        exact ⟨(mem_inner id).2 (.inr old.1), old.2⟩
    unshared := fun hshare key => by
      have hshare : b.options.share = false := by rwa [added.options] at hshare
      cases hkey : (linked.offer b.size c).table[key]? with
      | none => rfl
      | some id =>
          rcases offered_offer hkey with ⟨share, -⟩ | hkey
          · exact absurd (share.symm.trans hshare) (by decide)
          · exact absurd ((h.unshared hshare key).symm.trans hkey) (by simp) }

/-- A new inner cell goes behind the other inner cells. -/
theorem append (h : Layout b ins inn outs) (new : ∀ d ∈ c.drivers, d ∈ ins ++ inn)
    (hc : c.isTerminal = false) :
    (b.append c).1 = b.size ∧ Layout (b.append c).2 ins (inn ++ [b.size]) outs ∧
      Added b (b.append c).2 c := by
  have hfront := h.front_outputs c
  have h : Layout b ins (inn ++ []) outs := by simpa using h
  exact ⟨rfl, h.insertInner new hc hfront h.firstOutput⟩

/-- A new inner cell right in front of another one. -/
theorem splice {root : Nat} {inn' : List Nat} (h : Layout b ins (inn ++ root :: inn') outs)
    (new : ∀ d ∈ c.drivers, d ∈ ins ++ inn) (hc : c.isTerminal = false) :
    (b.splice root c).1 = b.size ∧
      Layout (b.splice root c).2 ins (inn ++ b.size :: root :: inn') outs ∧
      Added b (b.splice root c).2 c := by
  have hfront : (b.create c).2.prev? root = (ins ++ inn).getLast? := by
    rw [← h.arranged_middle.prev?_eq]
    exact congrFun pred_create (some root)
  exact ⟨rfl, h.insertInner new hc hfront rfl⟩

end Layout

end Builder

end Gatework
