import Gatework.Proofs.Builder.Gates
import Gatework.Proofs.Library.Names
import Gatework.Proofs.Mapping.Preservation
import Gatework.Proofs.Reader.Faithful

/-!
# The text of mapped networks

A mapped network is built from gates and from cells of the library (`Library.Offers`), and these are found
by their names.  So it is read back from its text as soon as the names of its cells are what the reader
takes for names.  The loader does not ask for that, so a cell may be named in a way that is printed but
cannot be read.

**Main statement.** `Store.loadText_addMapped`.
-/

namespace Gatework

open Builder

/-- The cells that a library is mapped onto: gates with as many operands as they take, and its own cells
with as many as they have inputs. -/
def Library.Offers (library : Library) (kind : CellKind) (operands : Nat) : Prop :=
  kind.IsGate operands ∨ ∃ c ∈ library.cells, kind = ⟨.cell, c.type⟩ ∧ operands = c.inputs

namespace MappedNetwork

variable {library : Library} {store : Store}

/-! ## Steps -/

/-- A step that adds gates and cells of the library only. -/
def KeepsOffered (library : Library) {α : Type} (x : Construction α) : Prop :=
  ∀ s a s', x s = .ok (a, s') → s.1.Shaped library.Offers → s'.1.Shaped library.Offers

section Steps

variable {α β : Type} {x : Construction α} {f : α → Construction β}

lemma offered_pure (a : α) : KeepsOffered library (pure a) := by
  rintro s _ _ ⟨⟩ h
  exact h

lemma offered_throw (e : Stop) : KeepsOffered library (throw e : Construction α) := by
  rintro s a s' hrun
  cases hrun

lemma offered_get : KeepsOffered library (get : Construction _) := by
  rintro s _ _ ⟨⟩ h
  exact h

lemma offered_modify {g : Builder × Places → Builder × Places} (same : ∀ s, (g s).1 = s.1) :
    KeepsOffered library (modify g) := by
  rintro s _ _ ⟨⟩ h
  rwa [same]

lemma KeepsOffered.bind (hx : KeepsOffered library x) (hf : ∀ a, KeepsOffered library (f a)) :
    KeepsOffered library (x >>= f) := by
  rintro s b s'' hrun h
  obtain ⟨⟨a, s'⟩, ha, hb⟩ := bind_eq_ok_iff.1 hrun
  exact hf a s' b s'' hb (hx s a s' ha h)

lemma KeepsOffered.map {g : α → β} (hx : KeepsOffered library x) : KeepsOffered library (g <$> x) := by
  rw [map_eq_pure_bind]
  exact hx.bind fun a => offered_pure _

lemma offered_mapM {items : List α} {f : α → Construction β} (hf : ∀ a, KeepsOffered library (f a)) :
    KeepsOffered library (items.mapM f) := by
  induction items with
  | nil => exact offered_pure _
  | cons a items ih =>
      rw [List.mapM_cons]
      exact (hf a).bind fun b => ih.bind fun bs => offered_pure _

lemma offered_forM {items : List α} {f : α → Construction PUnit} (hf : ∀ a, KeepsOffered library (f a)) :
    KeepsOffered library (items.forM f) := by
  induction items with
  | nil => exact offered_pure _
  | cons a items ih => exact (hf a).bind fun _ => ih

lemma offered_onBuilder {step : Build α} (hstep : KeepsShaped library.Offers step) :
    KeepsOffered library (onBuilder step) := by
  rintro ⟨b, places⟩ a s' hrun h
  rw [onBuilder, StateT.run] at hrun
  cases hb : step b with
  | error f =>
      rw [hb] at hrun
      cases hrun
  | ok result =>
      rw [hb] at hrun
      cases hrun
      exact hstep b result.1 result.2 hb h

end Steps

/-! ## Cells -/

/-- Folding leaves a cell of the library as it is. -/
lemma offers_of_simplified {b : Builder} {kind : CellKind} {links kept : List Link} {inverted : Bool}
    (offers : library.Offers kind links.length) (h : b.simplified kind links = .cell kept inverted) :
    library.Offers kind kept.length := by
  rcases offers with gate | ⟨c, hc, rfl, hlength⟩
  · rw [CellKind.isGate_eq] at gate
    exact .inl (CellKind.isGate_eq ▸ takes_of_simplified gate h)
  · unfold simplified at h
    split at h
    · rcases foldCell_cases h with rfl | ⟨-, regroupable⟩
      · exact .inr ⟨c, hc, rfl, hlength⟩
      · cases regroupable
    · cases h
      exact .inr ⟨c, hc, rfl, hlength⟩

lemma offers_gate {g : Gate} {operands : Nat} (h : (CellType.ofGate g).accepts operands = true) :
    library.Offers (.ofGate g) operands := .inl ⟨g, rfl, h⟩

lemma offers_const (value : Bool) : library.Offers (.ofGate (.ofBool value)) 0 :=
  offers_gate (by cases value <;> rfl)

lemma shaped_addPositive_offers {kind : CellKind} {links : List Link}
    (offers : library.Offers kind links.length) :
    KeepsShaped library.Offers (addPositive kind links) :=
  shaped_addPositive offers_const fun _ _ _ h => offers_of_simplified offers h

/-- The type of a cell of the library takes as many operands as the cell has inputs. -/
lemma offered_addCell (installed : library.Installed store) (i : Nat) (links : List Link) :
    KeepsOffered library (addCell store library i links) := by
  unfold addCell
  split
  · rename_i c hc
    have hc := Array.mem_of_getElem? hc
    refine offered_onBuilder ?_
    rintro b l b' hrun
    obtain ⟨t, ht, hsymbol, -, haccepts⟩ := (installed.cells c hc).type
    obtain ⟨t', ht', ⟨g, hgate, -⟩ | ⟨-, accepts, hcell⟩⟩ := addOfType_eq_ok_iff.1 hrun
    · cases ht.symm.trans ht'
      cases hsymbol.symm.trans hgate
    · cases ht.symm.trans ht'
      rw [CellType.kindAt, hsymbol] at hcell
      exact shaped_addPositive_offers (.inr ⟨c, hc, rfl, (haccepts _).1 accepts⟩) b l b' hcell
  · exact offered_throw _

lemma offered_signal (installed : library.Installed store) (reader : Nat) (l : Link) :
    KeepsOffered library (signal store library reader l) := by
  unfold signal
  refine offered_get.bind fun ⟨b, places⟩ => ?_
  dsimp only
  split
  · exact offered_pure _
  · split
    · exact offered_pure _
    · split
      · exact offered_throw _
      · refine (offered_addCell installed _ _).bind fun shared => ?_
        refine KeepsOffered.bind (offered_modify ?_) fun _ => offered_pure _
        exact fun _ => rfl

/-! ## Whole networks -/

lemma offered_realize (installed : library.Installed store) (entry : Nat) (r : Realization) :
    KeepsOffered library (realize store library entry r) := by
  cases r with
  | input => exact (offered_onBuilder (shaped_addInput (offers_gate rfl))).map
  | output l =>
      refine (offered_signal installed entry l).bind fun driver => ?_
      exact (offered_onBuilder (shaped_addOutput (offers_gate rfl) driver)).map.bind fun _ =>
        offered_pure _
  | zero => exact (offered_onBuilder (shaped_addPositive_offers (offers_const false))).map
  | one => exact (offered_onBuilder (shaped_addPositive_offers (offers_const true))).map
  | wire leaf => exact offered_get.bind fun _ => offered_pure _
  | cell c pins =>
      refine (offered_mapM fun l => offered_signal installed entry l).bind fun links => ?_
      exact (offered_addCell installed c links).map

lemma offered_place (installed : library.Installed store) (choice : Choice) (entry : Nat) :
    KeepsOffered library (place store library choice entry) := by
  unfold place
  split
  · exact offered_throw _
  · refine (offered_realize installed entry _).bind fun l => ?_
    split
    · exact offered_pure _
    · exact offered_modify fun _ => rfl

/-- Whatever is chosen, the mapped network is built from gates and cells of the library. -/
theorem offered_ofChoice (installed : library.Installed store) {net mapped : Subnet} {choice : Choice}
    (run : ofChoice store net library choice = .ok (.ok mapped)) :
    ∀ e ∈ mapped.cells, library.Offers e.kind e.links.length := by
  unfold ofChoice at run
  split at run
  · rename_i mapped' hbuild
    cases run
    unfold build at hbuild
    split at hbuild
    · cases hbuild
    · rename_i needed hneeded
      obtain ⟨⟨⟨⟩, b, places⟩, hplaces, hbuild⟩ := bind_eq_ok_iff.1 hbuild
      have start : (Builder.empty {}).Shaped library.Offers := by simp [Shaped, Builder.empty]
      have shaped := offered_forM (offered_place installed choice) _ _ _ hplaces start
      dsimp only at hbuild
      split at hbuild
      · rename_i hfinish
        cases hbuild
        exact shaped.finish hfinish
      · cases hbuild
  · cases run
  · cases run

end MappedNetwork

namespace Store

variable {store loadedStore start store' : Store} {library : Library} {net mapped : Subnet}

/-! ## Reading back -/

/-- A store that grew out of the first one spells the gates. -/
lemma Retains.spells_gate (gates : Store.empty.Retains store) (g : Gate) : store.Spells (.ofGate g) := by
  have name : store.kindName (.ofGate g) = Store.empty.kindName (.ofGate g) :=
    (kindName_kindAt (gates.toExtends.type_of_gate g)).trans
      (kindName_kindAt ((Extends.refl _).type_of_gate g)).symm
  exact ⟨name ▸ (Store.spells_gate g).name, name ▸ gates.names _ _ (Store.spells_gate g).found⟩

/-- A cell that a library offers is legible, if its name is one. -/
lemma legible_of_offers (gates : Store.empty.Retains store)
    (installed : library.Installed store) (named : ∀ c ∈ library.cells, c.Named store) {e : Cell}
    (offers : library.Offers e.kind e.links.length)
    (names : ∀ c ∈ library.cells, e.kind = ⟨.cell, c.type⟩ → Reader.IsName c.name) :
    store.Legible e := by
  obtain ⟨kind, links⟩ := e
  rcases offers with ⟨g, rfl, accepts⟩ | ⟨c, hc, rfl, hlength⟩
  · exact ⟨⟨_, gates.toExtends.admits_gate g accepts⟩, gates.spells_gate g⟩
  · obtain ⟨t, ht, hsymbol, -, haccepts⟩ := (installed.cells c hc).type
    have hname := (named c hc).kindName_eq
    refine ⟨⟨t, ht, hsymbol, (haccepts _).2 hlength⟩, ?_, ?_⟩
    · rw [hname]
      exact names c hc rfl
    · rw [hname]
      exact (named c hc).found

/-- A network is read back from its text only if the names in it are names. -/
lemma isName_of_loadText (named : ∀ c ∈ library.cells, c.Named store)
    (h : store.loadText (store.render net) = (store', .ok net)) :
    net.size ≤ 2 ^ 32 ∧ ∀ c ∈ library.cells, ∀ e ∈ net.cells, e.kind = ⟨.cell, c.type⟩ →
      Reader.IsName c.name := by
  have hread : store.read (store.render net) = .ok net := by
    unfold loadText at h
    split at h
    · rename_i hread
      rw [hread, Except.ok.inj (Prod.mk.inj h).2]
    · cases (Prod.mk.inj h).2
  obtain ⟨legible, hsize⟩ := legible_of_read hread
  refine ⟨hsize, fun c hc e he hkind => ?_⟩
  have hname := (legible e he).spells.name
  rwa [hkind, (named c hc).kindName_eq] at hname

/-- A network of cells that a library offers is read back from its text exactly if there are no more
entries than entry numbers and the cells of the library in it have names that are read as names. -/
lemma loadText_of_offers (gates : Store.empty.Retains store)
    (installed : library.Installed store) (named : ∀ c ∈ library.cells, c.Named store)
    (offers : ∀ e ∈ net.cells, library.Offers e.kind e.links.length) :
    store.loadText (store.render net) = ((store.addSubnet net).1, .ok net) ↔
      net.size ≤ 2 ^ 32 ∧ ∀ c ∈ library.cells, ∀ e ∈ net.cells, e.kind = ⟨.cell, c.type⟩ →
        Reader.IsName c.name := by
  refine ⟨isName_of_loadText named, fun ⟨hsize, names⟩ => ?_⟩
  have legible : ∀ e ∈ net.cells, store.Legible e := fun e he =>
    legible_of_offers gates installed named (offers e he) fun c hc => names c hc e he
  rw [loadText, read_render legible hsize]

/-- What is mapped onto a loaded library is read back from its text exactly if there are no more entries
than entry numbers and the cells of the library in it have names that are read as names: a letter or an
underscore, and then letters, numbers and underscores. -/
theorem loadText_addMapped {file : List UInt8} (gates : Store.empty.Retains start)
    (loaded : Library.ofBytes start file = .ok (loadedStore, .ok library))
    (grows : loadedStore.Retains store) {strategy : Strategy} {options : MapOptions} {position : Nat}
    (run : store.addMapped net library strategy options = .ok (store', .ok position)) :
    ∃ mapped, store'.subnets[position]? = some mapped ∧
      (store'.loadText (store'.render mapped) = ((store'.addSubnet mapped).1, .ok mapped) ↔
        mapped.size ≤ 2 ^ 32 ∧ ∀ c ∈ library.cells, ∀ e ∈ mapped.cells, e.kind = ⟨.cell, c.type⟩ →
          Reader.IsName c.name) := by
  have installed := (Library.installed_ofBytes loaded).extends grows.toExtends
  obtain ⟨p, s, mapped, -, -, hresult, hstore⟩ := addMapped_eq_ok_ok run
  cases hstore
  have stored := Retains.addSubnet store mapped
  refine ⟨mapped, Arena.getElem?_push_size .., ?_⟩
  exact loadText_of_offers
    (((gates.trans (Library.retains_ofBytes loaded)).trans grows).trans stored)
    (installed.extends stored.toExtends)
    (fun c hc => (Library.named_ofBytes loaded c hc).retains (grows.trans stored))
    (MappedNetwork.offered_ofChoice installed hresult)

/-! ## Inverters -/

/-- The complement of a bit. -/
def complement : Subnet where
  cells := #[.input, .output (Link.of 0).invert]
  numInputs := 1
  numOutputs := 1
  valid := by decide

/-- With nothing to choose from, the earliest selection takes what is fixed. -/
lemma choice_earliest_complement {p : Problem} (h : p.net = complement) :
    (Selection.earliest p).choice = #[some .input, some (.output (Link.of 0).invert)] := by
  obtain ⟨store, net, library, options, candidates, fanout⟩ := p
  subst h
  rfl

/-- The library in a file, and the cells that the complement is mapped to: whether the file is read, the
number of types of the store, the names and types of the cells of the library, and the cells. -/
def mappedComplement (file : List UInt8) :
    Except Fault (Bool × Nat × List (String × Nat) × Option (Array Cell)) := do
  let read ← Library.ofBytes .empty file
  let library := read.2.toOption.getD {}
  let _ ← Problem.of read.1 complement library {}
  let result ← MappedNetwork.ofChoice read.1 complement library
    #[some .input, some (.output (Link.of 0).invert)]
  return (read.2.isOk, read.1.types.size, library.cells.toList.map fun c => (c.name, c.type),
    result.toOption.map Subnet.cells)

lemma exists_addMapped_of_mappedComplement {file : List UInt8} {size : Nat} {named : List (String × Nat)}
    {cells : Array Cell} (hrun : mappedComplement file = .ok (true, size, named, some cells)) :
    ∃ store library mapped, Library.ofBytes .empty file = .ok (store, .ok library) ∧
      store.addMapped complement library .minDelay {} =
        .ok ((store.addSubnet mapped).1, .ok (store.addSubnet mapped).2) ∧
      mapped.cells = cells ∧ store.types.size = size ∧
        library.cells.toList.map (fun c => (c.name, c.type)) = named := by
  obtain ⟨⟨store, loaded⟩, hload, hrun⟩ := bind_eq_ok_iff.1 hrun
  obtain ⟨p, hp, hrun⟩ := bind_eq_ok_iff.1 hrun
  obtain ⟨result, hresult, hrun⟩ := bind_eq_ok_iff.1 hrun
  obtain ⟨hok, hsize, hnamed, hcells⟩ :
      loaded.isOk = true ∧ store.types.size = size ∧
        (loaded.toOption.getD {}).cells.toList.map (fun c => (c.name, c.type)) = named ∧
        result.toOption.map Subnet.cells = some cells := by
    simpa [pure, Except.pure] using hrun
  rw [← choice_earliest_complement (Problem.net_of hp)] at hresult
  cases loaded with
  | error e => cases hok
  | ok library =>
      cases result with
      | error e => cases hcells
      | ok mapped =>
          have hselect : Strategy.minDelay.select p = .ok (Selection.earliest p) := rfl
          exact ⟨store, library, mapped, hload,
            addMapped_eq_ok_iff.2 ⟨p, _, _, hp, hselect, hresult, rfl⟩, Option.some.inj hcells, hsize,
            hnamed⟩

/-- The complement is mapped to the inverter. -/
lemma mappedComplement_inverterFile : mappedComplement inverterFile =
    .ok (true, 14, [("inv", 13)], some #[.input, ⟨⟨.cell, 13⟩, [.of 0]⟩, .output (.of 1)]) := by
  rw [mappedComplement, Library.ofBytes, describe_inverterFile]
  cbv

lemma isName_inv : Reader.IsName "inv" :=
  ⟨'i', ['n', 'v'], rfl, by decide +kernel, List.all_eq_true.1 (by decide +kernel)⟩

/-- The inverter is read back from its text. -/
theorem loadText_addMapped_inverter : ∃ store library mapped,
    Store.empty.Retains .empty ∧ Library.ofBytes .empty inverterFile = .ok (store, .ok library) ∧
      store.Retains store ∧
      store.addMapped complement library .minDelay {} =
        .ok ((store.addSubnet mapped).1, .ok (store.addSubnet mapped).2) ∧
      (store.addSubnet mapped).1.loadText ((store.addSubnet mapped).1.render mapped) =
        (((store.addSubnet mapped).1.addSubnet mapped).1, .ok mapped) := by
  obtain ⟨store, library, mapped, loaded, hmap, hcells, hsize, hnamed⟩ :=
    exists_addMapped_of_mappedComplement mappedComplement_inverterFile
  obtain ⟨mapped', hmapped, readable⟩ :=
    loadText_addMapped (.refl .empty) loaded (.refl store) hmap
  obtain rfl : mapped = mapped' := by
    rw [Store.addSubnet, Arena.getElem?_push_size] at hmapped
    exact Option.some.inj hmapped
  refine ⟨store, library, mapped, .refl _, loaded, .refl _, hmap, readable.2 ⟨?_, ?_⟩⟩
  · rw [Subnet.size, hcells]
    decide
  · intro c hc e he hkind
    have hname : (c.name, c.type) ∈ library.cells.toList.map fun c => (c.name, c.type) :=
      List.mem_map_of_mem (Array.mem_toList_iff.2 hc)
    rw [hnamed, List.mem_singleton, Prod.mk.injEq] at hname
    exact hname.1 ▸ isName_inv

/-- A dash is no part of a name. -/
lemma not_isName_dashed : ¬Reader.IsName "inv-1" := by
  rintro ⟨c, cs, hname, -, hpart⟩
  have hname : ['i', 'n', 'v', '-', '1'] = c :: cs := hname
  cases hname
  have dash : Text.isNamePart '-' = false := Text.isNamePart_of_gap (.inl (by decide))
  exact Bool.false_ne_true (dash.symm.trans (hpart '-' (by simp)))

/-- A library with an inverter whose name has a dash. -/
def dashedFile : List UInt8 :=
  "[[[\"inv-1\",[\"a\"],\"1\",1,[1]]]]".toList.map fun c => .ofNat c.toNat

lemma mappedComplement_dashedFile : mappedComplement dashedFile =
    .ok (true, 14, [("inv-1", 13)], some #[.input, ⟨⟨.cell, 13⟩, [.of 0]⟩, .output (.of 1)]) := by
  have hdescribe : Library.describe dashedFile = .ok [⟨"inv-1", ["a"], "1", ⟨1, [1], [], []⟩⟩] :=
    Library.describe_single (by decide +kernel)
  rw [mappedComplement, Library.ofBytes, hdescribe]
  cbv

/-- The loader accepts a name with a dash, and the reader takes only what stands in front of it. -/
theorem loadText_addMapped_fails_dashed : ∃ store library mapped,
    Library.ofBytes .empty dashedFile = .ok (store, .ok library) ∧
      library.cells.toList.map (fun c => (c.name, c.type)) = [("inv-1", 13)] ∧
      store.addMapped complement library .minDelay {} =
        .ok ((store.addSubnet mapped).1, .ok (store.addSubnet mapped).2) ∧
      ∀ store', (store.addSubnet mapped).1.loadText ((store.addSubnet mapped).1.render mapped) ≠
        (store', .ok mapped) := by
  obtain ⟨store, library, mapped, loaded, hmap, hcells, hsize, hnamed⟩ :=
    exists_addMapped_of_mappedComplement mappedComplement_dashedFile
  refine ⟨store, library, mapped, loaded, hnamed, hmap, fun store' h => ?_⟩
  obtain ⟨c, hc, hname, htype⟩ : ∃ c ∈ library.cells, c.name = "inv-1" ∧ c.type = 13 := by
    have hmem : ("inv-1", 13) ∈ library.cells.toList.map fun c => (c.name, c.type) := by simp [hnamed]
    obtain ⟨c, hc, hpair⟩ := List.mem_map.1 hmem
    exact ⟨c, Array.mem_toList_iff.1 hc, Prod.mk.inj hpair⟩
  obtain ⟨-, names⟩ := isName_of_loadText
    (fun c hc => (Library.named_ofBytes loaded c hc).retains (.addSubnet store mapped)) h
  have he : (⟨⟨.cell, 13⟩, [.of 0]⟩ : Cell) ∈ mapped.cells := by simp [hcells]
  exact not_isName_dashed (hname ▸ names c hc _ he (htype ▸ rfl))

end Store

end Gatework
