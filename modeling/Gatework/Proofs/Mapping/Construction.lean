import Gatework.Mapping.Network
import Gatework.Proofs.Builder.Finish
import Gatework.Proofs.Library.Loading
import Gatework.Proofs.Mapping.Candidates

/-!
# Steps of building a mapped network

A step either leads to a state of which something holds, or stops because the network cannot be mapped,
and which of the two it does is known in advance: it goes on exactly if the complemented links that it
meets are served by an inverter of the library (`Link.Served`).  It never breaks a contract (`Leads`).
The invariant of the states is `Placed`: the entries realised so far are shown by their links, and the
inverters by theirs.  A step may add cells and inverters, but every link keeps showing what it showed
(`Keeps`), so links found one after the other can be used together.

* `leads_signal`: the link for a link of the original network.
* `leads_addCell`: a cell of the library.
-/

namespace Gatework

open Builder

/-- There is an inverter for a link that needs one. -/
def Link.Served (library : Library) (l : Link) : Prop :=
  l.inverted = true → library.inverter.isSome = true

namespace MappedNetwork

/-- A step goes on in a state of which something holds if a condition is met, and stops for want of an
inverter if it is not. -/
inductive Leads {α : Type} (p : Prop) (x : Construction α) (s : Builder × Places)
    (Q : α → Builder × Places → Prop) : Prop
  | stops (entry : Nat) (run : x s = .error (.error (.missingInverter entry))) (unmet : ¬p)
  | goes (a : α) (s' : Builder × Places) (run : x s = .ok (a, s')) (holds : Q a s') (met : p)

section Leads

variable {α β : Type} {p q : Prop} {s : Builder × Places}

lemma leads_pure {a : α} {Q : α → Builder × Places → Prop} (met : p) (h : Q a s) :
    Leads p (pure a) s Q := .goes a s rfl h met

lemma leads_modify {g : Builder × Places → Builder × Places} {Q : Unit → Builder × Places → Prop}
    (h : Q () (g s)) : Leads True (modify g) s Q := .goes () (g s) rfl h trivial

lemma leads_onBuilder {step : Build α} {a : α} {b : Builder} (run : step s.1 = .ok (a, b))
    {Q : α → Builder × Places → Prop} (h : Q a (b, s.2)) : Leads True (onBuilder step) s Q := by
  refine .goes a (b, s.2) ?_ h trivial
  rw [onBuilder, StateT.run, run]

lemma Leads.congr {x : Construction α} {Q : α → Builder × Places → Prop} (h : Leads p x s Q)
    (iff : p ↔ q) : Leads q x s Q := by
  cases h with
  | stops entry run unmet => exact .stops entry run (unmet ∘ iff.2)
  | goes a s' run holds met => exact .goes a s' run holds (iff.1 met)

lemma Leads.bind {x : Construction α} {f : α → Construction β} {Q : α → Builder × Places → Prop}
    {R : β → Builder × Places → Prop} (h : Leads p x s Q)
    (rest : ∀ a s', Q a s' → Leads q (f a) s' R) : Leads (p ∧ q) (x >>= f) s R := by
  have hbind : (x >>= f) s = x s >>= fun p => f p.1 p.2 := rfl
  cases h with
  | stops entry run unmet => exact .stops entry (by rw [hbind, run]; rfl) fun both => unmet both.1
  | goes a s' run holds met =>
      rw [run, ok_bind] at hbind
      cases rest a s' holds with
      | stops entry run unmet => exact .stops entry (hbind.trans run) fun both => unmet both.2
      | goes b s'' run holds met' => exact .goes b s'' (hbind.trans run) holds ⟨met, met'⟩

/-- A step that always goes on, and then another one. -/
lemma Leads.andThen {x : Construction α} {f : α → Construction β} {Q : α → Builder × Places → Prop}
    {R : β → Builder × Places → Prop} (h : Leads True x s Q)
    (rest : ∀ a s', Q a s' → Leads p (f a) s' R) : Leads p (x >>= f) s R :=
  (h.bind rest).congr (iff_of_eq (true_and p))

/-- A step, and then one that always goes on. -/
lemma Leads.finally {x : Construction α} {f : α → Construction β} {Q : α → Builder × Places → Prop}
    {R : β → Builder × Places → Prop} (h : Leads p x s Q)
    (rest : ∀ a s', Q a s' → Leads True (f a) s' R) : Leads p (x >>= f) s R :=
  (h.bind rest).congr (iff_of_eq (and_true p))

lemma Leads.mono {x : Construction α} {Q R : α → Builder × Places → Prop} (h : Leads p x s Q)
    (sub : ∀ a s', Q a s' → R a s') : Leads p x s R := by
  cases h with
  | stops entry run unmet => exact .stops entry run unmet
  | goes a s' run holds met => exact .goes a s' run (sub a s' holds) met

lemma Leads.map {x : Construction α} {g : α → β} {R : β → Builder × Places → Prop}
    (h : Leads p x s fun a s' => R (g a) s') : Leads p (g <$> x) s R := by
  rw [map_eq_pure_bind]
  exact h.finally fun a s' holds => leads_pure trivial holds

lemma Leads.discard {x : Construction α} {R : Unit → Builder × Places → Prop}
    (h : Leads p x s fun _ s' => R () s') : Leads p (discard x) s R :=
  Leads.map (g := fun _ => ()) h

end Leads

/-- Every link still shows what it showed. -/
def Keeps (m : Meaning) (s s' : Builder × Places) : Prop :=
  ∀ l f, s.1.Shows m l f → s'.1.Shows m l f

lemma Keeps.trans {m : Meaning} {s s' s'' : Builder × Places} (h : Keeps m s s') (h' : Keeps m s' s'') :
    Keeps m s s'' := fun l f shows => h' l f (h l f shows)

/-- The entries in front of `k` that are taken have been realised: inputs and outputs are there, and links
are known for all others, and for the complements of some. -/
structure Placed (net : Subnet) (store : Store) (library : Library) (taken : Nat → Prop) (k : Nat)
    (s : Builder × Places) : Prop where
  wellFormed : WellFormed s.1
  regular : s.1.Regular store True
  inputs : s.1.inputs.length = min k net.numInputs
  outputs : ∀ σ, s.1.outputValues store.ports σ =
    ((List.range k).filter (net.outputStart ≤ ·)).map (net.first store.ports σ)
  size : s.2.direct.size = net.size
  direct : ∀ d < k, d < net.outputStart → taken d →
    s.1.Shows store.ports (s.2.direct.getD d (.of 0)) fun σ => net.first store.ports σ d
  inverted : ∀ d l, s.2.inverted.getD d none = some l → library.inverter.isSome = true ∧
    s.1.Shows store.ports l fun σ => !net.first store.ports σ d

variable {net : Subnet} {store : Store} {library : Library} {taken : Nat → Prop} {k reader : Nat}
  {s : Builder × Places} {l : Link} {links : List Link}

namespace Placed

/-- More inner cells keep everything that has been realised. -/
lemma step (h : Placed net store library taken k s) {b : Builder} (step : Step store s.1 b) :
    Placed net store library taken k (b, s.2) ∧ Keeps store.ports s (b, s.2) := by
  have kept : Keeps store.ports s (b, s.2) := fun l f shows => shows.grown h.wellFormed step.grown
  refine ⟨⟨step.wellFormed, step.regular h.regular, ?_, fun σ => ?_, h.size,
    fun d hd hout htaken => kept _ _ (h.direct d hd hout htaken),
    fun d l hl => (h.inverted d l hl).imp_right (kept _ _)⟩, kept⟩
  · rw [step.grown.inputs, h.inputs]
  · rw [step.grown.outputValues_eq h.wellFormed, h.outputs]

/-- One more inverter is known. -/
lemma invert (h : Placed net store library taken k s) {d : Nat}
    (inverts : library.inverter.isSome = true)
    (shows : s.1.Shows store.ports l fun σ => !net.first store.ports σ d) :
    Placed net store library taken k
      (s.1, { s.2 with inverted := s.2.inverted.setIfInBounds d (some l) }) where
  wellFormed := h.wellFormed
  regular := h.regular
  inputs := h.inputs
  outputs := h.outputs
  size := h.size
  direct := h.direct
  inverted e l' hl' := by
    by_cases he : d = e
    · subst he
      by_cases hlt : d < s.2.inverted.size
      · rw [Array.getD_eq_getD_getElem?, Array.getElem?_setIfInBounds_self_of_lt hlt] at hl'
        cases hl'
        exact ⟨inverts, shows⟩
      · simp [Array.getD_eq_getD_getElem?, Nat.not_lt.1 hlt] at hl'
    · refine h.inverted e l' ?_
      rwa [Array.getD_eq_getD_getElem?, Array.getElem?_setIfInBounds_ne he,
        ← Array.getD_eq_getD_getElem?] at hl'

end Placed

/-- A cell of the library shows the function of its operands. -/
lemma leads_addCell (installed : library.Installed store) (h : Placed net store library taken k s) {i : Nat}
    {c : LibraryCell} (hc : library.cells[i]? = some c) {fs : List ((Nat → Bool) → Bool)}
    (shows : s.1.ShowsAll store.ports links fs) (hlength : links.length = c.inputs) :
    Leads True (addCell store library i links) s fun l s' => Placed net store library taken k s' ∧
      Keeps store.ports s s' ∧ s'.1.Shows store.ports l fun σ =>
        c.function.value (encode c.inputs fun p => (fs.map (· σ)).getD p false) := by
  have cell := installed.cells c (Array.mem_of_getElem? hc)
  obtain ⟨t, htype, hsymbol, -, haccepts⟩ := cell.type
  have regular : store.Regular True ⟨⟨.cell, c.type⟩, links⟩ := cell.regular hlength shows.port
  obtain ⟨l, b, hrun, step, value⟩ :=
    addPositive_shows store (m := store.ports) h.wellFormed rfl shows.readable regular
  have hadd : addOfType store c.type links s.1 = .ok (l, b) := by
    simp only [addOfType, htype, CellType.kindAt, hsymbol, (haccepts _).2 hlength, if_true]
    exact hrun
  obtain ⟨placed, kept⟩ := h.step step
  unfold addCell
  simp only [hc]
  refine leads_onBuilder hadd ⟨placed, kept, value.congr fun σ => ?_⟩
  show (store.ports c.type (links.map (Link.read (s.1.values store.ports σ)))).headD false = _
  rw [cell.ports_eq, List.headD_cons, shows.read]

/-- The link for a link of the original network shows what that one reads. -/
lemma leads_signal (installed : library.Installed store) (h : Placed net store library taken k s)
    (hlt : l.entry < k) (hout : l.entry < net.outputStart) (htaken : taken l.entry) (reader : Nat) :
    Leads (l.Served library) (signal store library reader l) s fun l' s' =>
      Placed net store library taken k s' ∧ Keeps store.ports s s' ∧
        s'.1.Shows store.ports l' fun σ => l.valueOn (net.first store.ports σ) := by
  have direct := h.direct l.entry hlt hout htaken
  unfold signal
  refine Leads.andThen (Q := fun a s' => a = s ∧ s' = s) (.goes s s rfl ⟨rfl, rfl⟩ trivial) ?_
  rintro _ _ ⟨rfl, rfl⟩
  cases hinverted : l.inverted with
  | false =>
      refine leads_pure (by simp [Link.Served, hinverted]) ⟨h, fun _ _ => id, direct.congr fun σ => ?_⟩
      rw [Link.valueOn, hinverted, Bool.xor_false]
  | true =>
      have value : ∀ σ, l.valueOn (net.first store.ports σ) = !net.first store.ports σ l.entry :=
        fun σ => by rw [Link.valueOn, hinverted, Bool.xor_true]
      simp only [Bool.not_true, Bool.false_eq_true, if_false]
      cases hshared : Array.getD _ l.entry none with
      | some shared =>
          obtain ⟨served, complement⟩ := h.inverted _ _ hshared
          exact leads_pure (fun _ => served)
            ⟨h, fun _ _ => id, complement.congr fun σ => (value σ).symm⟩
      | none =>
          cases hinverter : library.inverter with
          | none => exact .stops _ rfl (by simp [Link.Served, hinverted, hinverter])
          | some i =>
              obtain ⟨c, hc, inverts⟩ := installed.inverter i hinverter
              obtain ⟨hinputs, complements⟩ := LibraryCell.isInverter_iff.1 inverts
              have served : library.inverter.isSome = true := by rw [hinverter, Option.isSome_some]
              refine (leads_addCell installed h hc (.cons direct .nil) hinputs.symm).andThen ?_
              rintro shared s' ⟨placed, kept, shows⟩
              have complement : s'.1.Shows store.ports shared fun σ =>
                  !net.first store.ports σ l.entry :=
                shows.congr fun σ => complements _
              refine (leads_modify (Q := fun _ t => Placed net store library taken k t ∧ t.1 = s'.1)
                ⟨placed.invert served complement, rfl⟩).andThen ?_
              rintro ⟨⟩ ⟨b, places⟩ ⟨placed', rfl⟩
              exact leads_pure (fun _ => served)
                ⟨placed', kept, complement.congr fun σ => (value σ).symm⟩

/-- The links for the pins of a cell. -/
lemma leads_signals (installed : library.Installed store) (reader : Nat) {pins : List Link}
    (hpins : ∀ l ∈ pins, l.entry < k ∧ l.entry < net.outputStart ∧ taken l.entry)
    (h : Placed net store library taken k s) :
    Leads (∀ l ∈ pins, l.Served library) (pins.mapM (signal store library reader)) s fun links s' =>
      Placed net store library taken k s' ∧ Keeps store.ports s s' ∧ s'.1.ShowsAll store.ports links
        (pins.map fun l σ => l.valueOn (net.first store.ports σ)) := by
  induction pins generalizing s with
  | nil => exact leads_pure (by simp) ⟨h, fun _ _ => id, .nil⟩
  | cons l pins ih =>
      obtain ⟨⟨hlt, hout, htaken⟩, hpins⟩ := List.forall_mem_cons.1 hpins
      rw [List.mapM_cons]
      refine ((leads_signal installed h hlt hout htaken reader).bind ?_).congr
        List.forall_mem_cons.symm
      rintro link s₁ ⟨placed, kept, shows⟩
      refine (ih hpins placed).finally ?_
      rintro links s₂ ⟨placed', kept', showsAll⟩
      exact leads_pure trivial ⟨placed', kept.trans kept', .cons (kept' _ _ shows) showsAll⟩

end MappedNetwork

end Gatework
