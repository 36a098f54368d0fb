import Gatework.Mapping.Problem
import Gatework.Proofs.Library.Match
import Gatework.Proofs.Mapping.Cuts

/-!
# Candidates have the value of their entry

The function of a cut, as a function of the leaves that it depends on, is a constant, one of the leaves,
or what a matching cell computes.  So whatever candidate an entry takes, its value is that of the entry.

* `Realization.value?`: the value of a realisation at the values of the entries it reads.
* `Subnet.RealizedBy`: a realisation suits an entry.
* `Problem.Admits.realizedBy`: every choice among the candidates suits.
* `Problem.exists_of_inner`: the problem of mapping a network exists.
-/

namespace Gatework

/-- What a link to a first port reads, given the values of the entries. -/
def Link.valueOn (v : Nat → Bool) (l : Link) : Bool := v l.entry ^^ l.inverted

/-- The value of a realisation of an inner entry at the values of the entries it reads.  There is none if
it names a cell that the library does not have, with too few pins or with pins on other ports. -/
def Realization.value? (library : Library) (v : Nat → Bool) : Realization → Option Bool
  | .input | .output _ => none
  | .zero => some false
  | .one => some true
  | .wire leaf => some (v leaf)
  | .cell c pins =>
      (library.cells[c]?).bind fun cell =>
        if pins.length = cell.inputs ∧ ∀ l ∈ pins, l.port = 0 then
          some (cell.function.value
            (encode cell.inputs fun p => (pins.map (Link.valueOn v)).getD p false))
        else none

namespace Problem

variable {library : Library} {leaves : List Nat} {r : Realization}

/-- A realisation reads leaves only and has the value of a function of them. -/
structure Computes (library : Library) (leaves : List Nat) (f : TruthTable leaves.length)
    (r : Realization) : Prop where
  leaf : ∀ leaf ∈ r.leaves, leaf ∈ leaves
  value : ∀ v, r.value? library v = some (f.value (encode leaves.length fun k => v (leaves.getD k 0)))

lemma getD_mem {i : Nat} (h : i < leaves.length) : leaves.getD i 0 ∈ leaves := by
  simp [List.getD_eq_getElem?_getD, h]

lemma computes_wire {f : TruthTable leaves.length} {leaf : Nat}
    (hf : f.any = (TruthTable.var 1 0).any) (h : leaf ∈ leaves.take 1) :
    Computes library leaves f (.wire leaf) := by
  have has : f.any.as? 1 = some (TruthTable.var 1 0) := by
    rw [hf]
    rfl
  obtain ⟨hlength, same⟩ := TruthTable.value_of_as? has
  refine ⟨fun l hl => ?_, fun v => congrArg some ?_⟩
  · rw [List.mem_singleton.1 hl]
    exact List.mem_of_mem_take h
  · rw [← same, hlength, TruthTable.value_var (encode_lt 1 _), testBit_encode Nat.one_pos]
    obtain ⟨x, rfl⟩ := List.length_eq_one_iff.1 hlength
    obtain rfl := List.mem_singleton.1 h
    rfl

lemma computes_match {f : TruthTable leaves.length} {m : CellMatch} (h : m ∈ library.matchesOf f) :
    Computes library leaves f (.cell m.cell (m.pins.map fun pin =>
      (Link.of (leaves.getD pin.leaf 0)).invertIf pin.inverted)) := by
  obtain ⟨c, hc, binds⟩ := Library.exists_cell_of_mem_matchesOf h
  refine ⟨fun leaf hmem => ?_, fun v => ?_⟩
  · simp only [Realization.leaves, List.map_map, List.mem_map] at hmem
    obtain ⟨pin, hpin, rfl⟩ := hmem
    exact getD_mem (binds.leaf_lt pin hpin)
  · have hread : (m.pins.map fun pin => (Link.of (leaves.getD pin.leaf 0)).invertIf pin.inverted).map
        (Link.valueOn v) = m.pins.map (PinSource.value fun k => v (leaves.getD k 0)) := by
      rw [List.map_map]
      refine List.map_congr_left fun pin _ => ?_
      simp [Link.valueOn, Link.invertIf, Link.of, PinSource.value]
    have hports : ∀ l ∈ m.pins.map fun pin =>
        (Link.of (leaves.getD pin.leaf 0)).invertIf pin.inverted, l.port = 0 := by
      intro l hl
      obtain ⟨pin, -, rfl⟩ := List.mem_map.1 hl
      rfl
    rw [Realization.value?, hc, Option.bind_some, if_pos ⟨by rw [List.length_map, binds.length], hports⟩,
      hread, ← binds.value]

lemma computes_of_mem_realizations {f : TruthTable leaves.length}
    (h : r ∈ realizations library leaves f) : Computes library leaves f r := by
  unfold realizations at h
  split at h
  · rename_i hzero
    rw [List.mem_singleton.1 h]
    exact ⟨nofun, fun v => congrArg some (TruthTable.isZero_iff.1 hzero _ (encode_lt _ _)).symm⟩
  · split at h
    · rename_i hone
      rw [List.mem_singleton.1 h]
      exact ⟨nofun, fun v => congrArg some (TruthTable.isOne_iff.1 hone _ (encode_lt _ _)).symm⟩
    · split at h
      · rename_i hwire
        obtain ⟨leaf, hleaf, rfl⟩ := List.mem_map.1 h
        exact computes_wire hwire hleaf
      · obtain ⟨m, hm, rfl⟩ := List.mem_map.1 h
        exact computes_match hm

/-- What a function does not depend on is left out. -/
lemma computes_of_mem_realizationsOn {f : TruthTable leaves.length}
    (h : r ∈ realizationsOn library leaves f) : Computes library leaves f r := by
  simp only [realizationsOn] at h
  split at h
  · rename_i g hg
    obtain ⟨-, same⟩ := TruthTable.value_of_as? hg
    have hlength : (f.support.map fun v => leaves.getD v 0).length = f.support.length := by simp
    have computes := computes_of_mem_realizations h
    refine ⟨fun leaf hmem => ?_, fun v => ?_⟩
    · obtain ⟨s, hs, rfl⟩ := List.mem_map.1 (computes.leaf leaf hmem)
      exact getD_mem (TruthTable.mem_support.1 hs).1
    · rw [computes.value v, same, ← TruthTable.value_project_support (encode_lt _ _), hlength]
      refine congrArg (some ∘ (f.project f.support).value) (encode_congr fun k hk => ?_)
      have hlt : f.support[k] < leaves.length := (TruthTable.mem_support.1 (List.getElem_mem hk)).1
      simp [List.getD_eq_getElem?_getD, hk, testBit_encode hlt]
  · cases h

end Problem

/-- A realisation suits an entry: an input stays an input, an output shows its driver, and an inner entry
has the value of the realisation.  Only entries in front are read. -/
inductive Subnet.RealizedBy (net : Subnet) (store : Store) (library : Library) (entry : Nat) :
    Realization → Prop
  | input (h : entry < net.numInputs) : RealizedBy net store library entry .input
  | output {l : Link} (start : net.outputStart ≤ entry) (below : net.IsBelow l.entry entry)
      (value : ∀ σ, net.first store.ports σ entry = l.valueOn (net.first store.ports σ)) :
      RealizedBy net store library entry (.output l)
  | inner {r : Realization} (inputs : net.numInputs ≤ entry) (outputs : entry < net.outputStart)
      (below : ∀ leaf ∈ r.leaves, net.IsBelow leaf entry)
      (value : ∀ σ, r.value? library (net.first store.ports σ) =
        some (net.first store.ports σ entry)) :
      RealizedBy net store library entry r

namespace Subnet

variable {net : Subnet} {store : Store} {library : Library} {entry : Nat} {c : Cell} {r : Realization}

/-- The realisation of an entry that leaves no choice suits it, if an output shows a first port. -/
lemma realizedBy_of_fixed (port : c.isOutput = true → ∀ l ∈ c.links, l.port = 0)
    (hc : net.cells[entry]? = some c) (hr : c.realization? = some r) :
    net.RealizedBy store library entry r := by
  have obeys := net.obeys hc
  have constant : ∀ value, c.kind.symbol = .gate (.ofBool value) →
      net.numInputs ≤ entry ∧ entry < net.outputStart ∧
        ∀ σ, net.first store.ports σ entry = value := by
    intro value hkind
    have hterm : c.isTerminal = false := by cases value <;> simp [Cell.isTerminal, Cell.isInput,
      Cell.isOutput, hkind, Gate.ofBool]
    obtain ⟨hin, hout⟩ := (isTerminal_eq_false_iff hc).1 hterm
    refine ⟨hin, hout, fun σ => ?_⟩
    rw [first, values_of_le hin hc, Cell.portsIn, Cell.ports, hkind]
    cases value <;> rfl
  unfold Cell.realization? at hr
  split at hr
  · rename_i hkind
    cases hr
    exact .input (obeys.isInput_iff.1 (beq_iff_eq.2 hkind))
  · rename_i hkind
    obtain ⟨l, hl, rfl⟩ := Option.map_eq_some_iff.1 hr
    obtain ⟨rest, hlinks⟩ := List.head?_eq_some_iff.1 hl
    have hmem : l ∈ c.links := by simp [hlinks]
    have hout : c.isOutput = true := beq_iff_eq.2 hkind
    refine .output (obeys.isOutput_iff.1 hout) (isBelow_of_mem_drivers hc (List.mem_map_of_mem hmem))
      fun σ => ?_
    rw [first, values_of_output hc hout hlinks, List.headD_cons]
    exact read_eq (port hout l hmem)
  · rename_i hkind
    cases hr
    obtain ⟨hin, hout, value⟩ := constant false hkind
    exact .inner hin hout (by simp [Realization.leaves]) fun σ => congrArg some (value σ).symm
  · rename_i hkind
    cases hr
    obtain ⟨hin, hout, value⟩ := constant true hkind
    exact .inner hin hout (by simp [Realization.leaves]) fun σ => congrArg some (value σ).symm
  · cases hr

/-- The realisations of a cut suit its root. -/
lemma realizedBy_of_cut (hc : net.cells[entry]? = some c)
    (hterm : c.isTerminal = false) {options : CutOptions} {cut : Cut}
    (hcut : cut ∈ net.cuts options entry) (proper : cut.isTrivial = false)
    {f : TruthTable cut.leaves.length}
    (hf : store.tabulateCone net.cells cut.root cut.leaves = .ok f)
    (hr : r ∈ Problem.realizationsOn library cut.leaves f) :
    net.RealizedBy store library entry r := by
  have hentry := lt_size hc
  have computes := Problem.computes_of_mem_realizationsOn hr
  obtain ⟨hin, hout⟩ := (isTerminal_eq_false_iff hc).1 hterm
  rcases leaf_of_mem_cuts hentry hcut with rfl | ⟨hroot, -, leaves⟩
  · simp [Cut.isTrivial, Cut.trivial] at proper
  · rw [hroot] at hf
    refine .inner hin hout (fun leaf hleaf => leaves leaf (computes.leaf leaf hleaf)) fun σ => ?_
    rw [computes.value]
    exact congrArg some (tabulateCone_value hentry hf σ)

end Subnet

namespace Problem

variable {net : Subnet} {store : Store} {library : Library} {options : MapOptions} {p : Problem}
  {entry : Nat} {c : Cell} {candidate : Candidate}

lemma mem_candidatesOf {cuts : List Cut} {found : List Candidate}
    (h : candidatesOf store net library cuts = .ok found) (hmem : candidate ∈ found) :
    ∃ cut ∈ cuts, cut.isTrivial = false ∧ ∃ f,
      store.tabulateCone net.cells cut.root cut.leaves = .ok f ∧
        candidate.realization ∈ realizationsOn library cut.leaves f := by
  obtain ⟨lists, hlists, h⟩ := bind_eq_ok_iff.1 h
  cases h
  obtain ⟨list, hlist, hmem⟩ := List.mem_flatten.1 hmem
  obtain ⟨⟨cut, i⟩, hcut, hrun⟩ := exists_of_forall₂_right (forall₂_of_mapM_eq_ok hlists) list hlist
  dsimp only at hrun
  split at hrun
  · cases hrun
    cases hmem
  · rename_i proper
    obtain ⟨f, hf, hrun⟩ := bind_eq_ok_iff.1 hrun
    cases hrun
    obtain ⟨r, hr, rfl⟩ := List.mem_map.1 hmem
    exact ⟨cut, (List.mem_zipIdx_iff_getElem?.1 hcut |> List.mem_of_getElem?),
      Bool.eq_false_iff.2 proper, f, hf, hr⟩

/-- What a problem is stated for. -/
lemma stated_of (h : of store net library options = .ok p) :
    p.store = store ∧ p.net = net ∧ p.library = library ∧ p.options = options := by
  obtain ⟨sets, -, h⟩ := bind_eq_ok_iff.1 h
  obtain ⟨candidates, -, h⟩ := bind_eq_ok_iff.1 h
  cases h
  exact ⟨rfl, rfl, rfl, rfl⟩

lemma net_of (h : of store net library options = .ok p) : p.net = net := (stated_of h).2.1

lemma size_pos (h : of store net library options = .ok p) : 0 < options.cuts.size := by
  obtain ⟨sets, hsets, -⟩ := bind_eq_ok_iff.1 h
  by_contra hzero
  rw [CutSets.enumerate, if_pos (by omega)] at hsets
  cases hsets

/-- The candidates of an entry come from its cuts. -/
lemma exists_cuts_of_mem (h : of store net library options = .ok p)
    (hmem : candidate ∈ p.candidatesAt entry) : ∃ c found, net.cells[entry]? = some c ∧
      c.isTerminal = false ∧ c.isConst = false ∧ candidate ∈ found ∧
        candidatesOf store net library (net.cuts options.cuts entry) = .ok found := by
  obtain ⟨sets, hsets, get⟩ := net.exists_enumerate (size_pos h)
  obtain ⟨sets', hsets', h⟩ := bind_eq_ok_iff.1 h
  cases hsets.symm.trans hsets'
  obtain ⟨candidates, hcandidates, h⟩ := bind_eq_ok_iff.1 h
  cases h
  rw [Array.mapM_eq_mapM_toList] at hcandidates
  obtain ⟨lists, hlists, rfl⟩ := map_eq_ok_iff.1 hcandidates
  obtain ⟨hlength, each⟩ := List.forall₂_iff_get.1 (forall₂_of_mapM_eq_ok hlists)
  have hentry : entry < lists.length := by
    by_contra hge
    simp [candidatesAt, Nat.not_lt.1 hge] at hmem
  have hfound : candidate ∈ lists[entry] := by
    simpa [candidatesAt, List.getD_eq_getElem?_getD, hentry] using hmem
  have hsize : entry < net.size := by simpa [Subnet.size] using hlength.trans_gt hentry
  have hrun := each entry (hlength.trans_gt hentry) hentry
  simp only [List.get_eq_getElem, Array.getElem_toList, Array.getElem_zipIdx, Nat.zero_add] at hrun
  split at hrun
  · rw [← show [] = lists[entry] from Except.ok.inj hrun] at hfound
    cases hfound
  · rename_i hinner
    rw [get entry hsize, ok_bind] at hrun
    obtain ⟨hterm, hconst⟩ := Bool.or_eq_false_iff.1 (Bool.eq_false_iff.2 hinner)
    exact ⟨_, _, Array.getElem?_eq_getElem hsize, hterm, hconst, hfound, hrun⟩

/-- Every candidate suits its entry. -/
theorem realizedBy_of_mem (h : of store net library options = .ok p)
    (hmem : candidate ∈ p.candidatesAt entry) :
    net.RealizedBy store library entry candidate.realization := by
  obtain ⟨c, found, hc, hterm, -, hfound, hrun⟩ := exists_cuts_of_mem h hmem
  obtain ⟨cut, hcut, proper, f, hf, hr⟩ := mem_candidatesOf hrun hfound
  exact Subnet.realizedBy_of_cut hc hterm hcut proper hf hr

/-- An entry that leaves no choice has no candidates. -/
lemma candidatesAt_of_fixed (h : of store net library options = .ok p) {r : Realization}
    (hfixed : p.fixed? entry = some r) : p.candidatesAt entry = [] := by
  refine List.eq_nil_iff_forall_not_mem.2 fun candidate hmem => ?_
  obtain ⟨c, found, hc, hterm, hconst, -⟩ := exists_cuts_of_mem h hmem
  rw [fixed?, net_of h, hc, Option.bind_some] at hfixed
  unfold Cell.realization? at hfixed
  split at hfixed
  · rename_i hkind
    simp [Cell.isTerminal, Cell.isInput, hkind] at hterm
  · rename_i hkind
    simp [Cell.isTerminal, Cell.isOutput, hkind] at hterm
  · rename_i hkind
    rw [Cell.isConst, hkind] at hconst
    cases hconst
  · rename_i hkind
    rw [Cell.isConst, hkind] at hconst
    cases hconst
  · cases hfixed

/-- What an entry may be realised by: what is fixed, or else one of its candidates or nothing. -/
def AdmitsAt (p : Problem) (entry : Nat) (taken : Option Realization) : Prop :=
  match p.fixed? entry with
  | some r => taken = some r
  | none => ∀ r, taken = some r → ∃ candidate ∈ p.candidatesAt entry, candidate.realization = r

/-- A choice takes for every entry what that may be realised by. -/
def Admits (p : Problem) (choice : Array (Option Realization)) : Prop :=
  ∀ entry < p.net.size, p.AdmitsAt entry (choice.getD entry none)

/-- Whatever an entry may be realised by suits it. -/
theorem realizedBy_of_admitsAt (h : of store net library options = .ok p)
    (mappable : store.Mappable net) {r : Realization} (admits : p.AdmitsAt entry (some r)) :
    net.RealizedBy store library entry r := by
  unfold AdmitsAt at admits
  split at admits
  · rename_i r' hfixed
    cases admits
    obtain ⟨c, hc, hreal⟩ := Option.bind_eq_some_iff.1 hfixed
    rw [net_of h] at hc
    exact Subnet.realizedBy_of_fixed (fun _ => mappable.port c (Array.mem_of_getElem? hc)) hc hreal
  · obtain ⟨candidate, hmem, rfl⟩ := admits r rfl
    exact realizedBy_of_mem h hmem

/-- Whatever a choice takes suits the entry. -/
theorem Admits.realizedBy {choice : Array (Option Realization)} (admits : p.Admits choice)
    (h : of store net library options = .ok p) (mappable : store.Mappable net) (hentry : entry < net.size)
    {r : Realization} (hr : choice.getD entry none = some r) : net.RealizedBy store library entry r :=
  realizedBy_of_admitsAt h mappable (hr ▸ admits entry (net_of h ▸ hentry))

/-- A choice takes the inputs as they are. -/
lemma Admits.input {choice : Array (Option Realization)} (admits : p.Admits choice)
    (h : of store net library options = .ok p) (hentry : entry < net.numInputs) :
    choice.getD entry none = some .input := by
  have hsize : entry < net.size := by
    have := net.numInputs_add_numOutputs_le
    omega
  obtain ⟨c, hc⟩ := Subnet.exists_cell hsize
  have hkind := Subnet.kind_of_lt hc hentry
  have hfixed : p.fixed? entry = some .input := by
    rw [fixed?, net_of h, hc, Option.bind_some, Cell.realization?, hkind]
  have hadmits := admits entry (net_of h ▸ hsize)
  rwa [AdmitsAt, hfixed] at hadmits

section Existence

variable (port : net.InnerAtFirstPorts)
  (evaluable : ∀ c ∈ net.cells, c.kind.symbol = .cell →
    store.EvaluableBelow store.subnets.size c)
  (most : options.cuts.size ≤ maxEvaluatedVariables)

include port evaluable most

lemma exists_candidatesOf (library : Library) (hentry : entry < net.size) : ∃ found,
    candidatesOf store net library (net.cuts options.cuts entry) = .ok found := by
  obtain ⟨lists, hlists, -⟩ := @exists_mapM_eq_ok _ _ _
    (fun x : Cut × Nat => if x.1.isTrivial then .ok [] else do
      let f ← store.tabulateCone net.cells x.1.root x.1.leaves
      return (realizationsOn library x.1.leaves f).map (Candidate.mk x.2)) (fun _ _ => True)
    (net.cuts options.cuts entry).zipIdx (by
      rintro ⟨cut, i⟩ hmem
      have hcut := List.mem_of_getElem? (List.mem_zipIdx_iff_getElem?.1 hmem)
      dsimp only at hcut ⊢
      split
      · exact ⟨[], rfl, trivial⟩
      · rename_i proper
        rcases Subnet.leaf_of_mem_cuts hentry hcut with rfl | ⟨hroot, hlength, -⟩
        · simp [Cut.isTrivial, Cut.trivial] at proper
        · obtain ⟨f, hf⟩ := Subnet.exists_tabulateCone port evaluable hentry hcut
            (hlength.trans most)
          rw [hroot, hf]
          exact ⟨_, rfl, trivial⟩)
  exact ⟨lists.flatten, bind_eq_ok_iff.2 ⟨lists, hlists, rfl⟩⟩

/-- The problem of mapping a network exists if its composites can be evaluated, only outputs read ports
other than the first, and the cuts are small enough. -/
theorem exists_of_inner (library : Library) (least : 1 ≤ options.cuts.size) :
    ∃ p, of store net library options = .ok p := by
  obtain ⟨sets, hsets, get⟩ := net.exists_enumerate least
  obtain ⟨lists, hlists, -⟩ := @exists_mapM_eq_ok _ _ _
    (fun x : Cell × Nat => if x.1.isTerminal || x.1.isConst then .ok [] else do
      candidatesOf store net library (← sets.get x.2)) (fun _ _ => True)
    net.cells.zipIdx.toList (by
      rintro ⟨c, i⟩ hmem
      rw [Array.toList_zipIdx] at hmem
      have hc : net.cells[i]? = some c :=
        Array.getElem?_toList.symm.trans (List.mem_zipIdx_iff_getElem?.1 hmem)
      dsimp only
      split
      · exact ⟨[], rfl, trivial⟩
      · obtain ⟨cs, hcs⟩ := exists_candidatesOf port evaluable most library (Subnet.lt_size hc)
        exact ⟨cs, by rw [get i (Subnet.lt_size hc), ok_bind, hcs], trivial⟩)
  refine ⟨⟨store, net, library, options, lists.toArray, countFanout net⟩, ?_⟩
  refine bind_eq_ok_iff.2 ⟨sets, hsets, bind_eq_ok_iff.2 ⟨lists.toArray, ?_, rfl⟩⟩
  rw [Array.mapM_eq_mapM_toList]
  exact map_eq_ok_iff.2 ⟨lists, hlists, rfl⟩

end Existence

/-- The same for a network that reads first ports only. -/
lemma exists_of (port : ∀ c ∈ net.cells, ∀ l ∈ c.links, l.port = 0)
    (evaluable : ∀ c ∈ net.cells, c.kind.symbol = .cell →
      store.EvaluableBelow store.subnets.size c)
    (most : options.cuts.size ≤ maxEvaluatedVariables) (library : Library)
    (least : 1 ≤ options.cuts.size) : ∃ p, of store net library options = .ok p :=
  exists_of_inner (fun c hc _ => port c hc) evaluable most library least

end Problem

end Gatework
