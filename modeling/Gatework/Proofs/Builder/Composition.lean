import Gatework.Builder.Growth
import Gatework.Proofs.Runs

/-!
# Construction steps one after the other

Construction steps are built from single cells by sequencing, loops and trees.  What a step does to a
builder is often a relation between the builder before and after it: the builder has grown, or its cells
are still narrow.  If the relation composes (`Composes`), then what holds of the parts holds of the whole,
and only the single cells are left to be looked at.

* `addPositive_eq_ok_iff`, `addCell_eq_ok_iff`, `addOfType_eq_ok_iff`: when a single cell is added, and
  what the step returns,
* `Composes.bind`, `Composes.mapM`, `Composes.foldlM`, `Composes.forM` for sequences and loops,
* `relates_addCell`, `Composes.addTree` for gates and trees of them,
* `Cellwise` for the relations of which it is enough to know that single cells keep them.
-/

namespace Gatework

namespace Builder

section Sequence

variable {α β : Type}

lemma build_bind_eq_ok_iff {x : Build α} {f : α → Build β} {b : Builder} {r : β × Builder} :
    (x >>= f) b = .ok r ↔ ∃ a b', x b = .ok (a, b') ∧ f a b' = .ok r := state_bind_eq_ok_iff

/-- A sequence whose first part leaves the builder alone. -/
lemma build_lift_bind_eq_ok_iff {x : Except Fault α} {f : α → Build β} {b : Builder}
    {r : β × Builder} : ((liftM x : Build α) >>= f) b = .ok r ↔ ∃ a, x = .ok a ∧ f a b = .ok r := by
  rw [build_bind_eq_ok_iff]
  cases x with
  | error e => exact ⟨fun ⟨_, _, h, _⟩ => (nomatch h), fun ⟨_, h, _⟩ => (nomatch h)⟩
  | ok a =>
      constructor
      · rintro ⟨_, _, h, hr⟩
        cases h
        exact ⟨a, rfl, hr⟩
      · rintro ⟨_, h, hr⟩
        cases h
        exact ⟨a, b, rfl, hr⟩

lemma build_discard_eq_ok_iff {x : Build α} {b b' : Builder} :
    discard x b = .ok ((), b') ↔ ∃ a, x b = .ok (a, b') := by
  show (x b >>= fun p => .ok ((), p.2)) = _ ↔ _
  rw [bind_eq_ok_iff]
  constructor
  · rintro ⟨⟨a, b₁⟩, h, e⟩
    cases e
    exact ⟨a, h⟩
  · rintro ⟨a, h⟩
    exact ⟨(a, b'), h, rfl⟩

/-- What every successful step keeps holds at the end of a loop of steps that succeeded. -/
lemma build_foldlM_invariant {f : β → α → Build β} {xs : List α} {s s' : β} {b b' : Builder}
    (P : List α → β → Builder → Prop) (start : P [] s b)
    (step : ∀ done x rest s b s' b', xs = done ++ x :: rest → P done s b →
      f s x b = .ok (s', b') → P (done ++ [x]) s' b')
    (h : xs.foldlM f s b = .ok (s', b')) : P xs s' b' := by
  rw [state_foldlM_eq] at h
  exact foldlM_invariant_along (fun done p => P done p.1 p.2) start
    (fun done x rest p p' hxs hP hrun => step done x rest p.1 p.2 p'.1 p'.2 hxs hP hrun) h

/-- A loop of steps succeeds if every step from a state with the invariant does. -/
lemma exists_build_foldlM {f : β → α → Build β} {xs : List α} {s : β} {b : Builder}
    (P : List α → β → Builder → Prop) (start : P [] s b)
    (step : ∀ done x rest s b, xs = done ++ x :: rest → P done s b →
      ∃ s' b', f s x b = .ok (s', b') ∧ P (done ++ [x]) s' b') :
    ∃ s' b', xs.foldlM f s b = .ok (s', b') ∧ P xs s' b' := by
  obtain ⟨⟨s', b'⟩, hrun, hP⟩ := @exists_foldlM_eq_ok _ _ _
    (fun (p : β × Builder) x => f p.1 x p.2) xs (s, b) (fun done p => P done p.1 p.2) start
    fun done x rest p hxs hP => by
      obtain ⟨s', b', hrun, hP'⟩ := step done x rest p.1 p.2 hxs hP
      exact ⟨(s', b'), hrun, hP'⟩
  exact ⟨s', b', state_foldlM_eq.trans hrun, hP⟩

end Sequence

section Pieces

variable {α : Type} {size : Nat}

lemma flatten_pieces (xs : List α) : (pieces size xs).flatten = xs := by
  fun_induction pieces size xs with
  | case1 => rfl
  | case2 x xs ih => rw [List.flatten_cons, ih, List.cons_append, List.take_append_drop]

lemma mem_of_mem_pieces {xs piece : List α} {x : α} (hpiece : piece ∈ pieces size xs)
    (hx : x ∈ piece) : x ∈ xs := by
  rw [← @flatten_pieces _ size xs]
  exact List.mem_flatten.2 ⟨piece, hpiece, hx⟩

lemma length_of_mem_pieces (xs : List α) :
    ∀ piece ∈ pieces size xs, 1 ≤ piece.length ∧ piece.length ≤ size + 1 := by
  fun_induction pieces size xs with
  | case1 => simp
  | case2 x xs ih =>
      refine List.forall_mem_cons.2 ⟨?_, ih⟩
      rw [List.length_cons, List.length_take]
      omega

lemma length_pieces_le (xs : List α) : (pieces size xs).length ≤ xs.length := by
  fun_induction pieces size xs with
  | case1 => simp
  | case2 x xs ih =>
      rw [List.length_drop] at ih
      simp only [List.length_cons]
      omega

/-- Elements that fill at most `m` pieces are cut into no more. -/
lemma length_pieces_le_of {m : Nat} {xs : List α} (h : xs.length ≤ m * (size + 1)) :
    (pieces size xs).length ≤ m := by
  fun_induction pieces size xs generalizing m with
  | case1 => exact Nat.zero_le m
  | case2 x xs ih =>
      rw [List.length_cons] at h ⊢
      cases m with
      | zero => omega
      | succ m =>
          refine Nat.succ_le_succ (ih ?_)
          rw [Nat.succ_mul] at h
          rw [List.length_drop]
          omega

/-- Pieces of at least two elements are fewer than the elements. -/
lemma length_pieces_lt (hsize : 1 ≤ size) {xs : List α} (hxs : 2 ≤ xs.length) :
    (pieces size xs).length < xs.length := by
  obtain ⟨x, xs, rfl⟩ := List.exists_cons_of_length_pos (show 0 < xs.length by omega)
  have : (pieces size (xs.drop size)).length ≤ _ := length_pieces_le _
  rw [List.length_drop] at this
  rw [pieces, List.length_cons, List.length_cons]
  rw [List.length_cons] at hxs
  omega

end Pieces

/-! ## Single cells -/

/-- What is left of a cell in a builder that may simplify it. -/
def simplified (b : Builder) (kind : CellKind) (links : List Link) : Folded :=
  if b.options.fold then b.foldCell kind.symbol links else .cell links false

/-- The operand is there to which a builder that may simplify reduces a buffer. -/
def Reducible (b : Builder) (kind : CellKind) (links : List Link) : Prop :=
  b.options.fold = true → kind.symbol = .gate .buf → links ≠ []

lemma reducible_of_ne_nil {b : Builder} {kind : CellKind} {links : List Link} (h : links ≠ []) :
    b.Reducible kind links := fun _ _ => h

lemma reducible_of_ne_buf {b : Builder} {kind : CellKind} {links : List Link}
    (h : kind.symbol ≠ .gate .buf) : b.Reducible kind links := fun _ hbuf => absurd hbuf h

/-- A link to what is left of a cell. -/
def Folded.placed (b : Builder) (kind : CellKind) : Folded → Link × Builder
  | .link l => (l, b)
  | .constant value => b.place ⟨.ofGate (.ofBool value), []⟩
  | .cell links inverted =>
      ((b.place ⟨kind, links⟩).1.invertIf inverted, (b.place ⟨kind, links⟩).2)

/-- A cell is added exactly if its operands pass the check and a buffer can be reduced to its operand, and
then what is left of the cell is placed. -/
lemma addPositive_eq_ok_iff {b : Builder} {kind : CellKind} {links : List Link}
    {r : Link × Builder} : addPositive kind links b = .ok r ↔
      (∀ l ∈ links, b.checkDriver l = .ok ()) ∧ b.Reducible kind links ∧
        (b.simplified kind links).placed b kind = r := by
  have hrun : addPositive kind links b = (links.forM b.checkDriver >>= fun _ =>
      if b.options.fold ∧ kind.symbol = .gate .buf ∧ links = [] then .error .internal
      else .ok ((b.simplified kind links).placed b kind)) := by
    refine congrArg _ (funext fun _ => ?_)
    by_cases hbroken : b.options.fold = true ∧ kind.symbol = .gate .buf ∧ links = []
    · rw [if_pos hbroken, if_pos hbroken]
      rfl
    · rw [if_neg hbroken, if_neg hbroken, simplified]
      generalize (if b.options.fold then b.foldCell kind.symbol links else .cell links false) = folded
      cases folded <;> rfl
  have reducible : b.Reducible kind links ↔
      ¬(b.options.fold = true ∧ kind.symbol = .gate .buf ∧ links = []) := by
    simp only [Reducible, ne_eq, not_and]
  rw [hrun, bind_eq_ok_iff, ← forM_eq_ok_iff, reducible]
  constructor
  · rintro ⟨⟨⟩, hcheck, hr⟩
    split at hr
    · cases hr
    · rename_i hreducible
      exact ⟨hcheck, hreducible, Except.ok.inj hr⟩
  · rintro ⟨hcheck, hreducible, hr⟩
    exact ⟨(), hcheck, by rw [if_neg hreducible, hr]⟩

/-- A gate is added exactly if it may be and takes the operands; its complement goes onto the link. -/
lemma addCell_eq_ok_iff {symbol : Symbol} {links : List Link} {l : Link} {b b' : Builder} :
    addCell symbol links b = .ok (l, b') ↔ ∃ g k, symbol = .gate g ∧ g ≠ .input ∧ g ≠ .output ∧
      (g.arity.1 ≤ links.length ∧ links.length ≤ g.arity.2) ∧
      addPositive (.ofGate g.positive.1) links b = .ok (k, b') ∧ k.invertIf g.positive.2 = l := by
  constructor
  · intro hrun
    unfold addCell at hrun
    split at hrun
    · cases hrun
    · cases hrun
    · cases hrun
    · rename_i g hin hout
      split at hrun
      · rename_i harity
        obtain ⟨k, _, hk, hrun⟩ := build_bind_eq_ok_iff.1 hrun
        cases hrun
        exact ⟨g, k, rfl, fun e => hin (by rw [e]), fun e => hout (by rw [e]), harity, hk, rfl⟩
      · cases hrun
  · rintro ⟨g, k, rfl, hin, hout, harity, hk, rfl⟩
    have : addCell (.gate g) links = (do
        return (← addPositive (.ofGate g.positive.1) links).invertIf g.positive.2) := by
      unfold addCell
      cases g <;> first | contradiction | exact if_pos harity
    rw [this, build_bind_eq_ok_iff]
    exact ⟨k, b', hk, rfl⟩

/-- A cell of a registered type is a gate, or a composite that takes the operands. -/
lemma addOfType_eq_ok_iff {store : Store} {type : Nat} {links : List Link} {b : Builder}
    {r : Link × Builder} : addOfType store type links b = .ok r ↔
      ∃ t, store.types[type]? = some t ∧
        ((∃ g, t.symbol = .gate g ∧ addCell (.gate g) links b = .ok r) ∨
          (t.symbol = .cell ∧ t.accepts links.length = true ∧
            addPositive (t.kindAt type) links b = .ok r)) := by
  have fails : ∀ e : Fault, (throw e : Build Link) b ≠ .ok r := fun e h => by cases h
  unfold addOfType
  cases store.types[type]? with
  | none => simp [fails]
  | some t =>
      cases hsymbol : t.symbol with
      | gate g => simp [hsymbol]
      | cell => by_cases accepts : t.accepts links.length = true <;> simp [hsymbol, accepts, fails]

/-! ## Relations -/

/-- A construction step that, if it succeeds, leads to a related builder. -/
def Relates {α : Type} (R : Builder → Builder → Prop) (x : Build α) : Prop :=
  ∀ b a b', x b = .ok (a, b') → R b b'

/-- A relation between builders that holds of steps one after the other if it holds of each. -/
structure Composes (R : Builder → Builder → Prop) : Prop where
  refl : ∀ b, R b b
  trans : ∀ {b b' b''}, R b b' → R b' b'' → R b b''

/-- What a step keeps is kept by several. -/
lemma composes_keeps (P : Builder → Prop) : Composes fun b b' => P b → P b' where
  refl _ := id
  trans h h' hb := h' (h hb)

variable {α β : Type} {R : Builder → Builder → Prop}

lemma relates_throw (e : Fault) : Relates R (throw e : Build α) := by
  rintro b a b' hrun
  cases hrun

lemma Relates.discard {x : Build α} (hx : Relates R x) : Relates R (discard x) := by
  rintro b _ b' hrun
  obtain ⟨a, hrun⟩ := build_discard_eq_ok_iff.1 hrun
  exact hx b a b' hrun

/-- A gate comes down to the gate without its complement. -/
lemma relates_addCell {symbol : Symbol} {links : List Link}
    (hgate : ∀ g : Gate, g ≠ .input → g ≠ .output →
      Relates R (addPositive (.ofGate g.positive.1) links)) :
    Relates R (addCell symbol links) := by
  rintro b l b' hrun
  obtain ⟨g, k, rfl, hin, hout, -, hk, rfl⟩ := addCell_eq_ok_iff.1 hrun
  exact hgate g hin hout b k b' hk

namespace Composes

lemma pure (h : Composes R) (a : α) : Relates R (pure a : Build α) := by
  rintro b a' b' hrun
  cases hrun
  exact h.refl b

lemma lift (h : Composes R) (x : Except Fault α) : Relates R (liftM x : Build α) := by
  rintro b a b' hrun
  cases x with
  | error e => cases hrun
  | ok a =>
      cases hrun
      exact h.refl b

lemma bind (h : Composes R) {x : Build α} {f : α → Build β} (hx : Relates R x)
    (hf : ∀ a, Relates R (f a)) : Relates R (x >>= f) := by
  rintro b r b' hrun
  obtain ⟨a, b₁, h₁, h₂⟩ := build_bind_eq_ok_iff.1 hrun
  exact h.trans (hx b a b₁ h₁) (hf a b₁ r b' h₂)

lemma mapM (h : Composes R) {f : α → Build β} {xs : List α} (hf : ∀ x ∈ xs, Relates R (f x)) :
    Relates R (xs.mapM f) := by
  induction xs with
  | nil => exact h.pure []
  | cons x xs ih =>
      obtain ⟨hx, hxs⟩ := List.forall_mem_cons.1 hf
      rw [List.mapM_cons]
      exact h.bind hx fun y => h.bind (ih hxs) fun ys => h.pure _

lemma foldlM (h : Composes R) {f : β → α → Build β} {xs : List α}
    (hf : ∀ s, ∀ x ∈ xs, Relates R (f s x)) (s : β) : Relates R (xs.foldlM f s) := by
  induction xs generalizing s with
  | nil => exact h.pure s
  | cons x xs ih =>
      rw [List.foldlM_cons]
      exact h.bind (hf s x (by simp)) (ih fun s y hy => hf s y (by simp [hy]))

lemma forM (h : Composes R) {f : α → Build Unit} {xs : List α} (hf : ∀ x ∈ xs, Relates R (f x)) :
    Relates R (xs.forM f) := by
  induction xs with
  | nil => exact h.pure ()
  | cons x xs ih =>
      show Relates R (f x >>= fun _ => xs.forM f)
      exact h.bind (hf x (by simp)) fun _ => ih fun y hy => hf y (by simp [hy])

section Tree

variable {symbol : Symbol} {width : Nat}

lemma joinGroups (h : Composes R) {groups : List (List Link)}
    (hcell : ∀ group ∈ groups, Relates R (Builder.addCell symbol group)) :
    Relates R (joinGroups symbol groups) := by
  refine h.mapM fun group hgroup => ?_
  split
  · exact h.pure _
  · exact hcell _ hgroup

lemma joinLevels (h : Composes R) (hwidth : 1 ≤ width)
    (hcell : ∀ group, group.length ≤ width → Relates R (Builder.addCell symbol group)) (levels : Nat)
    (links : List Link) : Relates R (joinLevels symbol width levels links) := by
  fun_induction Builder.joinLevels symbol width levels links with
  | case1 => exact h.pure _
  | case2 => exact relates_throw _
  | case3 levels operands _ ih =>
      refine h.bind (h.joinGroups fun group hgroup => hcell group ?_) ih
      refine (length_of_mem_pieces operands group hgroup).2.trans_eq ?_
      omega

/-- A tree comes down to gates with few enough operands. -/
lemma addTree (h : Composes R) {maxArity : Nat}
    (hcell : ∀ group, group.length ≤ max 2 maxArity → Relates R (Builder.addCell symbol group))
    (hconst : ∀ value, Relates R (addConst value)) (links : List Link) :
    Relates R (addTree symbol links maxArity) := by
  rw [Nat.max_comm] at hcell
  unfold Builder.addTree
  split
  · dsimp only
    split
    · exact hconst _
    · exact h.pure _
    · split
      · rename_i hlength
        exact hcell links hlength
      · exact h.joinLevels (by omega) hcell _ links
  · exact relates_throw _

end Tree

section Instance

/-- An inner cell is copied with as many operands as it has. -/
lemma addInstanceCell (h : Composes R) {c : Cell}
    (hcell : (Cell.mk c.kind []).isTerminal = false → ∀ operands : List Link,
      operands.length = c.links.length → Relates R (Builder.addPositive c.kind operands))
    (links : Array Link) (state : Array Link × List Link) :
    Relates R (Builder.addInstanceCell links state c) := by
  obtain ⟨places, shown⟩ := state
  unfold Builder.addInstanceCell
  dsimp only
  split
  · split
    · exact h.pure _
    · exact relates_throw _
  · rename_i hin
    split
    · split
      · exact h.bind (h.lift _) fun l => h.pure _
      · exact relates_throw _
    · rename_i hout
      have inner : (Cell.mk c.kind []).isTerminal = false :=
        Bool.or_eq_false_iff.2 ⟨Bool.eq_false_iff.2 hin, Bool.eq_false_iff.2 hout⟩
      rintro b r b' hrun
      obtain ⟨operands, hoperands, hrun⟩ := build_lift_bind_eq_ok_iff.1 hrun
      have hlength := (mapM_eq_ok_iff.1 hoperands).length_eq.symm
      exact h.bind (hcell inner operands hlength) (fun l => h.pure _) b r b' hrun

lemma addInstance (h : Composes R) {net : Subnet}
    (hcell : ∀ c ∈ net.cells, (Cell.mk c.kind []).isTerminal = false → ∀ operands : List Link,
      operands.length = c.links.length → Relates R (Builder.addPositive c.kind operands))
    (links : List Link) : Relates R (Builder.addInstance net links) := by
  unfold Builder.addInstance
  split
  · refine h.bind (h.foldlM (fun state c hc => ?_) _) fun _ => h.pure _
    exact h.addInstanceCell (hcell c (Array.mem_toList_iff.1 hc)) _ state
  · exact relates_throw _

end Instance

end Composes

/-- A relation that composes and holds of each inner cell that is added. -/
structure Cellwise (R : Builder → Builder → Prop) : Prop extends Composes R where
  addPositive : ∀ kind links, (Cell.mk kind []).isTerminal = false →
    Relates R (Builder.addPositive kind links)

lemma isTerminal_positive (g : Gate) (hin : g ≠ .input) (hout : g ≠ .output) :
    (Cell.mk (.ofGate g.positive.1) []).isTerminal = false := by
  cases g <;> first | rfl | contradiction

lemma isTerminal_kindAt {t : CellType} {type : Nat} (h : t.symbol = .cell) :
    (Cell.mk (t.kindAt type) []).isTerminal = false := by
  simp [Cell.isTerminal, Cell.isInput, Cell.isOutput, CellType.kindAt, h]

namespace Cellwise

variable (h : Cellwise R)
include h

lemma addCell (symbol : Symbol) (links : List Link) : Relates R (Builder.addCell symbol links) :=
  relates_addCell fun g hin hout => h.addPositive _ _ (isTerminal_positive g hin hout)

lemma addOfType (store : Store) (type : Nat) (links : List Link) :
    Relates R (Builder.addOfType store type links) := by
  rintro b l b' hrun
  obtain ⟨t, -, ⟨g, -, hcell⟩ | ⟨hsymbol, -, hcell⟩⟩ := addOfType_eq_ok_iff.1 hrun
  · exact h.addCell _ links b l b' hcell
  · exact h.addPositive _ links (isTerminal_kindAt hsymbol) b l b' hcell

lemma addConst (value : Bool) : Relates R (Builder.addConst value) :=
  h.addPositive _ _ (by cases value <;> rfl)

lemma joinGroups (symbol : Symbol) (groups : List (List Link)) :
    Relates R (Builder.joinGroups symbol groups) :=
  h.toComposes.joinGroups fun group _ => h.addCell symbol group

lemma addTree (symbol : Symbol) (links : List Link) (maxArity : Nat) :
    Relates R (Builder.addTree symbol links maxArity) :=
  h.toComposes.addTree (fun group _ => h.addCell symbol group) h.addConst links

lemma addInstanceCell (links : Array Link) (state : Array Link × List Link) (c : Cell) :
    Relates R (Builder.addInstanceCell links state c) :=
  h.toComposes.addInstanceCell (fun inner operands _ => h.addPositive _ operands inner) links state

lemma addInstance (net : Subnet) (links : List Link) :
    Relates R (Builder.addInstance net links) :=
  h.toComposes.addInstance (fun _ _ inner operands _ => h.addPositive _ operands inner) links

end Cellwise

end Builder

end Gatework
