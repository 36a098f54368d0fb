import Gatework.Npn.Transform
import Gatework.Proofs.Builder.Invariant
import Gatework.Proofs.Builder.Plain
import Gatework.Proofs.Npn.Transform
import Gatework.Synthesis.Method

/-!
# Transforms of trim networks

What a transform makes of a network is trim: its output depends on all of its inner cells
(`Transform.trim_onSubnet`).  A trim network is transformed cell by cell, so the result has the same
kinds of cells with the same numbers of operands, and only the inputs are exchanged
(`Subnet.Rewired`).  Then it also has the same number of cells, the same widest cell and the same depths.

**Main statement.** `Subnet.Trim.exists_onSubnet`.
-/

namespace Gatework

open Builder

namespace Subnet

variable {net net' : Subnet} {spot : Nat → Nat} {i : Nat} {c c' : Cell}

/-! ## Depths -/

/-- The depth of the next cell goes behind those of the cells in front of it. -/
def pushDepth (depths : Array Nat) (c : Cell) : Array Nat :=
  depths.push (c.depth fun i => depths.getD i 0)

lemma depthsOf_eq (cells : Array Cell) : depthsOf cells = cells.toList.foldl pushDepth #[] := by
  rw [depthsOf, ← Array.foldl_toList]
  rfl

lemma size_foldl_pushDepth (cs : List Cell) (depths : Array Nat) :
    (cs.foldl pushDepth depths).size = depths.size + cs.length := by
  induction cs generalizing depths with
  | nil => rfl
  | cons c cs ih =>
      rw [List.foldl_cons, ih, pushDepth, Array.size_push, List.length_cons]
      omega

lemma getD_pushDepth (depths : Array Nat) (c : Cell) {i : Nat} (hi : i < depths.size) :
    (pushDepth depths c).getD i 0 = depths.getD i 0 := by
  rw [pushDepth, Array.getD_eq_getD_getElem?, Array.getElem?_push, if_neg hi.ne,
    Array.getD_eq_getD_getElem?]

/-- Depths that are known do not change. -/
lemma getD_foldl_pushDepth (cs : List Cell) {depths : Array Nat} {i : Nat} (hi : i < depths.size) :
    (cs.foldl pushDepth depths).getD i 0 = depths.getD i 0 := by
  induction cs generalizing depths with
  | nil => rfl
  | cons c cs ih =>
      have hpush : i < (pushDepth depths c).size := by
        rw [pushDepth, Array.size_push]
        omega
      rw [List.foldl_cons, ih hpush, getD_pushDepth depths c hi]

/-- The depth of a cell between others, all in front of which it may read. -/
lemma getD_foldl_pushDepth_append (front behind : List Cell)
    (reads : ∀ d ∈ c.drivers, d < front.length) :
    ((front ++ c :: behind).foldl pushDepth #[]).getD front.length 0 =
      c.depth fun d => ((front ++ c :: behind).foldl pushDepth #[]).getD d 0 := by
  rw [List.foldl_append, List.foldl_cons]
  have hsize : (front.foldl pushDepth #[]).size = front.length := by
    rw [size_foldl_pushDepth]
    exact Nat.zero_add _
  have hpushed : (pushDepth (front.foldl pushDepth #[]) c).size = front.length + 1 := by
    rw [pushDepth, Array.size_push, hsize]
  have hself : (pushDepth (front.foldl pushDepth #[]) c).getD front.length 0 =
      c.depth fun d => (front.foldl pushDepth #[]).getD d 0 := by
    rw [pushDepth, ← hsize, Array.getD_eq_getD_getElem?, Array.getElem?_push_size]
    rfl
  rw [getD_foldl_pushDepth behind (hpushed ▸ Nat.lt_succ_self _), hself]
  refine Cell.depth_congr fun d hd => ?_
  have hd := reads d hd
  rw [getD_foldl_pushDepth behind (by omega), getD_pushDepth _ c (hsize ▸ hd)]

/-- The depth of an entry is that of its cell over the depths of the entries that it reads. -/
theorem getD_depths (hc : net.cells[i]? = some c) :
    net.depths.getD i 0 = c.depth fun d => net.depths.getD d 0 := by
  have hlt : i < net.cells.toList.length := Subnet.lt_size hc
  have hlength : (net.cells.toList.take i).length = i := List.length_take_of_le hlt.le
  have hget : net.cells.toList[i] = c := by
    rw [← Option.some_inj, ← List.getElem?_eq_getElem hlt, Array.getElem?_toList, hc]
  have hsplit : net.cells.toList.take i ++ c :: net.cells.toList.drop (i + 1) = net.cells.toList := by
    rw [← hget, ← List.drop_eq_getElem_cons hlt, List.take_append_drop]
  have hdepth := getD_foldl_pushDepth_append (net.cells.toList.take i) (net.cells.toList.drop (i + 1))
    fun d hd => hlength.symm ▸ (net.obeys hc).lt_of_reads d hd
  rw [hsplit, hlength] at hdepth
  rwa [depths, depthsOf_eq]

lemma size_depths (net : Subnet) : net.depths.size = net.size := by
  rw [depths, depthsOf_eq, size_foldl_pushDepth, Array.length_toList]
  exact Nat.zero_add _

lemma getD_depths_input (hi : i < net.numInputs) : net.depths.getD i 0 = 0 := by
  obtain ⟨c, hc⟩ := Subnet.exists_cell
    (hi.trans_le (Nat.le_of_add_right_le net.numInputs_add_numOutputs_le))
  rw [getD_depths hc, Cell.depth, Subnet.kind_of_lt hc hi]

/-! ## Exchanged inputs -/

/-- Cells of the network; where they read an input, they read another one. -/
structure Rewires (spot : Nat → Nat) (net : Subnet) (cells : Array Cell) : Prop where
  cell : ∀ (i : Nat) c, net.cells[i]? = some c →
    ∃ c', cells[i]? = some c' ∧ c'.kind = c.kind ∧ c'.drivers = c.drivers.map spot
  input : ∀ d < net.numInputs, spot d < net.numInputs
  inner : ∀ d, net.numInputs ≤ d → spot d = d

/-- The second network has the cells of the first one and exchanges inputs. -/
structure Rewired (spot : Nat → Nat) (net net' : Subnet) : Prop extends Rewires spot net net'.cells where
  numInputs : net'.numInputs = net.numInputs
  numOutputs : net'.numOutputs = net.numOutputs
  size : net'.size = net.size

namespace Rewired

variable (h : Rewired spot net net')
include h

/-- The cells have as many operands. -/
lemma length_links {i : Nat} (hc : net.cells[i]? = some c) (hc' : net'.cells[i]? = some c') :
    c'.links.length = c.links.length := by
  obtain ⟨e, he, -, hdrivers⟩ := h.cell i c hc
  obtain rfl := Option.some.inj (hc'.symm.trans he)
  have := congrArg List.length hdrivers
  rwa [List.length_map, Cell.drivers, Cell.drivers, List.length_map, List.length_map] at this

lemma maxFanin_eq : Method.maxFanin net' = Method.maxFanin net := by
  have hlengths : net'.cells.toList.map (·.links.length) = net.cells.toList.map (·.links.length) := by
    refine List.ext_getElem? fun i => ?_
    rw [List.getElem?_map, List.getElem?_map, Array.getElem?_toList, Array.getElem?_toList]
    cases hc : net.cells[i]? with
    | none =>
        have hi : net'.size ≤ i := h.size ▸ Array.getElem?_eq_none_iff.1 hc
        rw [Array.getElem?_eq_none hi]
    | some c =>
        obtain ⟨c', hc', -⟩ := h.cell i c hc
        rw [hc', Option.map_some, Option.map_some, h.length_links hc hc']
  rw [Method.maxFanin, Method.maxFanin, hlengths]

lemma cellCount_eq : net'.cellCount = net.cellCount := by
  rw [cellCount, cellCount, h.size, h.numInputs, h.numOutputs]

/-- Inputs have no depth, so it does not matter which ones are read. -/
lemma getD_depths_eq (i : Nat) : net'.depths.getD i 0 = net.depths.getD i 0 := by
  induction i using Nat.strong_induction_on with
  | _ i ih =>
      by_cases hi : i < net.size
      swap
      · rw [Array.getD_eq_getD_getElem?, Array.getElem?_eq_none (by rw [size_depths, h.size]; omega),
          Array.getD_eq_getD_getElem?, Array.getElem?_eq_none (by rw [size_depths]; omega)]
      obtain ⟨c, hc⟩ := Subnet.exists_cell hi
      obtain ⟨c', hc', hkind, hdrivers⟩ := h.cell i c hc
      rw [getD_depths hc', getD_depths hc, Cell.depth, Cell.depth, hkind, hdrivers, List.map_map]
      have hdepths : c.drivers.map ((fun d => net'.depths.getD d 0) ∘ spot) =
          c.drivers.map fun d => net.depths.getD d 0 := by
        refine List.map_congr_left fun d hd => ?_
        have hlt := (net.obeys hc).lt_of_reads d hd
        by_cases hin : d < net.numInputs
        · rw [Function.comp_apply, getD_depths_input (h.numInputs ▸ h.input d hin),
            getD_depths_input hin]
        · rw [Function.comp_apply, h.inner d (Nat.not_lt.1 hin), ih d hlt]
      rw [hdepths]

lemma pathLength_eq : net'.pathLength = net.pathLength := by
  have houtputs : net'.outputs = net.outputs := by
    rw [outputs, outputs, outputStart, outputStart, h.size, h.numOutputs]
  simp only [pathLength, houtputs, h.getD_depths_eq]

end Rewired

/-! ## Trim networks -/

/-- An input reads nothing, an output one link, and the outputs depend on all inner cells. -/
structure Trim (net : Subnet) : Prop where
  terminals : PlainTerminals net
  needed : ∀ i, net.numInputs ≤ i → i < net.outputStart →
    ∃ o ∈ net.outputs, Relation.ReflTransGen (fun x y => y ∈ driversIn net.cells x) o i

end Subnet

open Subnet

/-- What a builder is finished with is trim. -/
lemma Builder.Finished.trim {b : Builder} {net : Subnet} (wf : WellFormed b) (h : Finished b net) :
    net.Trim := by
  refine ⟨h.plainTerminals wf, fun i hge hlt => ?_⟩
  obtain ⟨b', -, copied, cells⟩ := exists_ofSubnet (h.plainTerminals wf)
  have wf' := copied.layout.wellFormed copied.settled
  have hi : i ∈ b'.needed := by
    rw [h.needed_copy wf copied cells, copied.inner_eq, List.mem_range'_1]
    omega
  obtain ⟨o, ho, dep⟩ := (wf'.mem_needed_iff.1 hi).2
  refine ⟨o, copied.outputs_eq ▸ ho, ?_⟩
  rw [← cells]
  exact dep

namespace Transform

/-- Whatever a transform makes is trim. -/
theorem trim_onSubnet {t : Transform} {net net' : Subnet} (run : t.onSubnet net = .ok net') :
    net'.Trim := by
  have keeps := composes_keeps Reachable
  have built : Relates (fun b b' => Reachable b → Reachable b') (t.build net) := by
    refine keeps.bind (keeps.mapM fun _ _ b l b' hrun hb => hb.addInput hrun) fun inputs => ?_
    refine keeps.bind (fun b shown b' hrun hb => hb.addInstance hrun) fun shown => ?_
    split
    · exact Relates.discard fun b id b' hrun hb => hb.addOutput hrun
    · exact relates_throw _
  unfold onSubnet at run
  split at run
  · cases run
  split at run
  · cases run
  split at run
  swap
  · cases run
  obtain ⟨⟨⟨⟩, b⟩, hrun, hfinish⟩ := bind_eq_ok_iff.1 run
  have wf := (built _ _ _ hrun (.empty {})).wellFormed
  obtain ⟨net'', hfinish', finished⟩ := wf.exists_finished
  cases hfinish.symm.trans hfinish'
  exact finished.trim wf

end Transform

/-! ## Copies between inputs and an output -/

namespace Builder

variable {net : Subnet} {links : List Link} {count : Nat} {places : Array Link} {b : Builder} {c : Cell}
  {d : Nat}

/-- The entry that a copy reads where the network reads an entry: instead of an input it reads what
stands for it. -/
def spot (links : List Link) (d : Nat) : Nat := (links[d]?).elim d Link.entry

lemma spot_inner (hd : links.length ≤ d) : spot links d = d := by
  rw [spot, List.getElem?_eq_none hd]
  rfl

lemma spot_input (hlinks : ∀ l ∈ links, l.entry < links.length) (hd : d < links.length) :
    spot links d < links.length := by
  rw [spot, List.getElem?_eq_getElem hd]
  exact hlinks _ (List.getElem_mem hd)

/-- The first entries of a network have been copied into a builder of as many inputs, each under its own
number. -/
structure Pasted (net : Subnet) (links : List Link) (count : Nat) (places : Array Link) (b : Builder) :
    Prop where
  plain : b.Plain net.numInputs (count - net.numInputs) 0
  size : places.size = count
  place : ∀ i < count, ∃ l, places[i]? = some l ∧ l.entry = spot links i
  cell : ∀ i < count, net.numInputs ≤ i → ∀ c, net.cells[i]? = some c →
    ∃ d, b.cells[i]? = some d ∧ d.kind = c.kind ∧ d.drivers = c.drivers.map (spot links)

namespace Pasted

lemma place_push (h : Pasted net links count places b) {l : Link} (hl : l.entry = spot links count) :
    ∀ i < count + 1, ∃ k, (places.push l)[i]? = some k ∧ k.entry = spot links i := by
  intro i hi
  rw [Array.getElem?_push, h.size]
  split
  · rename_i e
    exact ⟨l, rfl, e ▸ hl⟩
  · exact h.place i (by omega)

variable (h : Pasted net links count places b) (hc : net.cells[count]? = some c)
  (hlength : links.length = net.numInputs)
include h hc

/-- What a cell reads is exchanged. -/
lemma exists_operands : ∃ operands, c.links.mapM (relink places) = .ok operands ∧
    operands.map Link.entry = c.drivers.map (spot links) := by
  obtain ⟨operands, hrun, hall⟩ := @exists_mapM_eq_ok _ _ _ (relink places)
    (fun l k => k.entry = spot links l.entry) c.links fun l hl => by
      obtain ⟨place, hplace, hspot⟩ :=
        h.place l.entry ((net.obeys hc).lt_of_reads _ (List.mem_map_of_mem hl))
      exact ⟨place.through l, relink_eq_ok_iff.2 ⟨place, hplace, rfl⟩, hspot⟩
  refine ⟨operands, hrun, ?_⟩
  rw [Cell.drivers, List.map_map]
  refine List.forall₂_eq_eq_eq ▸ List.forall₂_map_left_iff.2 (List.forall₂_map_right_iff.2 ?_)
  exact hall.flip.imp fun _ _ hk => hk

include hlength

lemma step_input (hinput : c.isInput = true) :
    ∃ places', addInstanceCell links.toArray (places, []) c b = .ok ((places', []), b) ∧
      Pasted net links (count + 1) places' b := by
  have hlt : count < net.numInputs := (net.obeys hc).isInput_iff.1 hinput
  have hl : links[count]? = some links[count] := List.getElem?_eq_getElem (hlength ▸ hlt)
  refine ⟨places.push links[count], (addInstanceCell_input_iff hinput).2 ⟨_, by rw [h.size, hl], rfl⟩,
    ?_, by simp [h.size], h.place_push ?_, fun i hi hge => by omega⟩
  · have := h.plain
    rw [Nat.sub_eq_zero_of_le hlt.le] at this
    rwa [Nat.sub_eq_zero_of_le hlt]
  · rw [spot, hl]
    rfl

lemma step_inner (hlinks : ∀ l ∈ links, l.entry < links.length) (hterm : c.isTerminal = false) :
    ∃ places' b', addInstanceCell links.toArray (places, []) c b = .ok ((places', []), b') ∧
      Pasted net links (count + 1) places' b' := by
  have hge := Subnet.numInputs_le hc (Bool.or_eq_false_iff.1 hterm).1
  obtain ⟨operands, hoperands, hentries⟩ := h.exists_operands hc
  have hnumber : net.numInputs + (count - net.numInputs) = count := Nat.add_sub_cancel' hge
  have reads : ∀ k ∈ operands, k.entry < net.numInputs + (count - net.numInputs) := by
    intro k hk
    obtain ⟨d, hd, hspot⟩ := List.mem_map.1 (hentries ▸ List.mem_map_of_mem hk)
    have hlt := (net.obeys hc).lt_of_reads d hd
    by_cases hin : d < links.length
    · have := spot_input hlinks hin
      omega
    · rw [spot_inner (Nat.not_lt.1 hin)] at hspot
      omega
  obtain ⟨b', hrun, plain, hcells⟩ := h.plain.addPositive hterm reads
  rw [hnumber] at hrun
  have hsize : b.cells.size = count := by
    have := h.plain.size_eq
    simp only [Builder.size] at this
    omega
  refine ⟨places.push (.of count), b', (addInstanceCell_inner_iff hterm).2
    ⟨operands, _, b', hoperands, hrun, rfl⟩, ?_, by simp [h.size], h.place_push ?_,
    fun i hi hin e he => ?_⟩
  · rwa [← Nat.sub_add_comm hge] at plain
  · rw [spot_inner (hlength ▸ hge)]
    rfl
  · rw [hcells, Array.getElem?_push, hsize]
    split
    · rename_i hi
      subst hi
      cases hc.symm.trans he
      exact ⟨_, rfl, rfl, hentries⟩
    · exact h.cell i (by omega) hin e he

end Pasted

/-- All but the outputs of a network can be copied. -/
lemma exists_pasted (hlength : links.length = net.numInputs)
    (hlinks : ∀ l ∈ links, l.entry < links.length) (plain : b.Plain net.numInputs 0 0) :
    ∃ places b', (net.cells.toList.take net.outputStart).foldlM (addInstanceCell links.toArray)
        (#[], []) b = .ok ((places, []), b') ∧ Pasted net links net.outputStart places b' := by
  obtain ⟨⟨places, shown⟩, b', hrun, rfl, pasted⟩ := @exists_build_foldlM _ _
    (addInstanceCell links.toArray) (net.cells.toList.take net.outputStart) (#[], []) b
    (fun done state b' => state.2 = [] ∧ Pasted net links done.length state.1 b')
    ⟨rfl, ⟨by simpa using plain, rfl, by simp, by simp⟩⟩ (by
      rintro done c rest ⟨places, _⟩ b₁ hsplit ⟨rfl, h⟩
      obtain ⟨hlt, hc⟩ : done.length < net.outputStart ∧ net.cells[done.length]? = some c := by
        have hget : (net.cells.toList.take net.outputStart)[done.length]? = some c := by
          rw [hsplit]
          simp
        rw [List.getElem?_take] at hget
        split at hget
        · rename_i hlt
          exact ⟨hlt, by rwa [Array.getElem?_toList] at hget⟩
        · cases hget
      have hnext : (done ++ [c]).length = done.length + 1 := List.length_append
      rw [hnext]
      cases hinput : c.isInput with
      | true =>
          obtain ⟨places', hrun, h'⟩ := h.step_input hc hlength hinput
          exact ⟨(places', []), b₁, hrun, rfl, h'⟩
      | false =>
          have hout : c.isOutput = false := Bool.eq_false_iff.2 fun hout =>
            absurd ((net.obeys hc).isOutput_iff.1 hout) (Nat.not_le.2 hlt)
          obtain ⟨places', b₂, hrun, h'⟩ :=
            h.step_inner hc hlength hlinks (Bool.or_eq_false_iff.2 ⟨hinput, hout⟩)
          exact ⟨(places', []), b₂, hrun, rfl, h'⟩)
  refine ⟨places, b', hrun, ?_⟩
  have hle : net.outputStart ≤ net.cells.toList.length := Nat.sub_le _ _
  rwa [List.length_take_of_le hle] at pasted

/-- A copy of a network with one output shows what the output does. -/
lemma exists_addInstance_pasted (terminals : PlainTerminals net) (hout : net.numOutputs = 1)
    (hlength : links.length = net.numInputs) (hlinks : ∀ l ∈ links, l.entry < links.length)
    (plain : b.Plain net.numInputs 0 0) : ∃ places l k b', addInstance net links b = .ok ([k], b') ∧
      Pasted net links net.outputStart places b' ∧ net.cells[net.outputStart]? = some (.output l) ∧
        k.entry = spot links l.entry := by
  obtain ⟨places, b', hrun, pasted⟩ := exists_pasted hlength hlinks plain
  obtain ⟨c, hc⟩ := Subnet.exists_cell_of_le (le_refl net.outputStart) (.inr (hout ▸ Nat.one_pos))
  have hisOut : c.isOutput = true := (net.obeys hc).isOutput_iff.2 (le_refl _)
  obtain ⟨l, rfl⟩ := terminals.output _ c hc hisOut
  obtain ⟨place, hplace, hspot⟩ := pasted.place l.entry ((net.obeys hc).lt_of_reads _ (by
    simp [Cell.drivers, Cell.output]))
  have hsize := net.outputStart_add_numOutputs
  have hlt : net.outputStart < net.cells.toList.length := Subnet.lt_size hc
  have hget : net.cells.toList[net.outputStart] = .output l := by
    rw [← Option.some_inj, ← List.getElem?_eq_getElem hlt, Array.getElem?_toList, hc]
  have hlast : net.cells.toList.drop (net.outputStart + 1) = [] :=
    List.drop_of_length_le (by rw [Array.length_toList, ← hout, hsize]; exact le_refl _)
  have hcells : net.cells.toList = net.cells.toList.take net.outputStart ++ [.output l] := by
    conv_lhs => rw [← List.take_append_drop net.outputStart net.cells.toList]
    rw [List.drop_eq_getElem_cons hlt, hget, hlast]
  have hshow : addInstanceCell links.toArray (places, []) (.output l) b' =
      .ok ((places.push (.of 0), [place.through l]), b') :=
    (addInstanceCell_output_iff hisOut).2
      ⟨l, [], _, rfl, relink_eq_ok_iff.2 ⟨place, hplace, rfl⟩, rfl⟩
  refine ⟨places, l, place.through l, b', ?_, pasted, hc, hspot⟩
  rw [addInstance, if_pos hlength, hcells, List.foldlM_append]
  exact build_bind_eq_ok_iff.2 ⟨_, b', build_bind_eq_ok_iff.2 ⟨_, b', hrun,
    build_bind_eq_ok_iff.2 ⟨_, b', hshow, rfl⟩⟩, rfl⟩

/-- The copy between inputs and an output has the cells of the network, apart from what they read. -/
lemma Pasted.getElem?_push (h : Pasted net links net.outputStart places b) (terminals : PlainTerminals net)
    {l k : Link} (hl : net.cells[net.outputStart]? = some (.output l)) (hk : k.entry = spot links l.entry)
    (hout : net.numOutputs = 1) {i : Nat} (hc : net.cells[i]? = some c) :
    ∃ c', (b.cells.push (.output k))[i]? = some c' ∧ c'.kind = c.kind ∧
      c'.drivers = c.drivers.map (spot links) := by
  have hstart := net.numInputs_le_outputStart
  have hsize : b.cells.size = net.outputStart := by
    have := h.plain.size_eq
    simp only [Builder.size] at this
    omega
  have hi := Subnet.lt_size hc
  have hend := net.outputStart_add_numOutputs
  rw [Array.getElem?_push, hsize]
  split
  · rename_i e
    subst e
    cases hl.symm.trans hc
    exact ⟨_, rfl, rfl, by simp [Cell.drivers, Cell.output, hk]⟩
  · rename_i hne
    by_cases hin : i < net.numInputs
    · obtain rfl := terminals.input i c hc ((net.obeys hc).isInput_iff.2 hin)
      exact ⟨_, h.plain.getElem?_input hin, rfl, rfl⟩
    · exact h.cell i (by omega) (Nat.not_lt.1 hin) c hc

end Builder

namespace Transform.Permutes

variable {t : Transform} {n : Nat} {inputs : List Link}

lemma length_wiring (inputs : List Link) : (t.wiring inputs).length = inputs.length := by
  rw [wiring, Array.length_toList]
  exact (size_foldl_wire _ _).trans (by simp)

/-- Wiring complements links and exchanges them. -/
lemma lt_of_mem_wiring (h : t.Permutes n) (hlength : inputs.length = n)
    (hinputs : ∀ l ∈ inputs, l.entry < n) : ∀ l ∈ t.wiring inputs, l.entry < n := by
  intro l hl
  obtain ⟨p, hp⟩ := List.mem_iff_getElem?.1 hl
  have hlt : p < n := by
    rw [← hlength, ← length_wiring inputs]
    exact (List.getElem?_eq_some_iff.1 hp).1
  obtain ⟨i, hi⟩ := h.exists_position hlt
  have hi' : i < inputs.length := hlength ▸ h.lt_of_getElem? hi
  have hk : inputs[i]? = some inputs[i] := List.getElem?_eq_getElem hi'
  rw [h.getElem?_wiring hlength hi hk] at hp
  cases hp
  exact hinputs inputs[i] (List.getElem_mem hi')

end Transform.Permutes

namespace Subnet

variable {net : Subnet} {t : Transform} {n : Nat}

/-- What a path leads to that is no input is not exchanged. -/
lemma Rewires.dependsOn {spot : Nat → Nat} {b : Builder} (h : Rewires spot net b.cells)
    (terminals : PlainTerminals net) {x i : Nat} (hi : net.numInputs ≤ i)
    (path : Relation.ReflTransGen (fun x y => y ∈ driversIn net.cells x) x i) :
    net.numInputs ≤ x ∧ b.DependsOn x i := by
  induction path using Relation.ReflTransGen.head_induction_on with
  | refl => exact ⟨hi, .refl⟩
  | @head x y hreads _ ih =>
      obtain ⟨hy, dep⟩ := ih
      cases hc : net.cells[x]? with
      | none =>
          rw [driversIn, hc] at hreads
          cases hreads
      | some c =>
          rw [driversIn_eq hc] at hreads
          obtain ⟨c', hc', -, hdrivers⟩ := h.cell x c hc
          refine ⟨Nat.not_lt.1 fun hlt => ?_, .head ?_ dep⟩
          · obtain rfl := terminals.input x c hc ((net.obeys hc).isInput_iff.2 hlt)
            cases hreads
          · rw [driversOf, hc', Option.elim_some, hdrivers, ← h.inner y hy]
            exact List.mem_map_of_mem hreads

/-- What is built for a transform of a network with one output has the cells of the network. -/
lemma exists_build (terminals : PlainTerminals net) (permutes : t.Permutes n) (hin : net.numInputs = n)
    (hout : net.numOutputs = 1) : ∃ spot b, t.build net (.empty {}) = .ok ((), b) ∧
      b.Plain net.numInputs (net.outputStart - net.numInputs) 1 ∧ Rewires spot net b.cells := by
  obtain ⟨b₁, hrun₁, plain₁⟩ := plain_empty.addInputs n
  rw [Nat.zero_add, ← hin] at plain₁
  have hinputs : ((List.range' 0 n).map Link.of).length = n := by simp
  have hlength : (t.wiring ((List.range' 0 n).map .of)).length = net.numInputs := by
    rw [Transform.Permutes.length_wiring, hinputs, hin]
  have hlinks : ∀ l ∈ t.wiring ((List.range' 0 n).map .of),
      l.entry < (t.wiring ((List.range' 0 n).map .of)).length := by
    rw [hlength, hin]
    refine permutes.lt_of_mem_wiring hinputs fun l hl => ?_
    obtain ⟨k, hk, rfl⟩ := List.mem_map.1 hl
    exact (List.mem_range'_1.1 hk).2.trans_eq (Nat.zero_add n)
  obtain ⟨places, l, k, b₂, hrun₂, pasted, hl, hk⟩ :=
    exists_addInstance_pasted terminals hout hlength hlinks plain₁
  have input : ∀ d < net.numInputs, spot (t.wiring ((List.range' 0 n).map .of)) d < net.numInputs :=
    fun d hd => (spot_input hlinks (hlength.symm ▸ hd)).trans_eq hlength
  have inner : ∀ d, net.numInputs ≤ d → spot (t.wiring ((List.range' 0 n).map .of)) d = d :=
    fun d hd => spot_inner (hlength ▸ hd)
  have hbelow : (k.invertIf t.negated).entry < net.numInputs + (net.outputStart - net.numInputs) := by
    show k.entry < _
    have hlt := (net.obeys hl).lt_of_reads l.entry (by simp [Cell.drivers, Cell.output])
    rw [hk, Nat.add_sub_cancel' net.numInputs_le_outputStart]
    by_cases hd : l.entry < net.numInputs
    · exact (input _ hd).trans_le net.numInputs_le_outputStart
    · rwa [inner _ (Nat.not_lt.1 hd)]
  obtain ⟨b₃, hrun₃, plain₃, hcells⟩ := pasted.plain.addOutput hbelow
  refine ⟨_, b₃, ?_, plain₃, fun i c hc => ?_, input, inner⟩
  · rw [Transform.build, hin]
    exact build_bind_eq_ok_iff.2 ⟨_, b₁, hrun₁, build_bind_eq_ok_iff.2
      ⟨[k], b₂, hrun₂, build_discard_eq_ok_iff.2 ⟨_, hrun₃⟩⟩⟩
  · rw [hcells]
    exact pasted.getElem?_push terminals hl (k := k.invertIf t.negated) hk hout hc

/-- A trim network with one output is transformed cell by cell. -/
theorem Trim.exists_onSubnet (h : net.Trim) (permutes : t.Permutes n) (hin : net.numInputs = n)
    (hout : net.numOutputs = 1) :
    ∃ spot net', t.onSubnet net = .ok net' ∧ Rewired spot net net' := by
  obtain ⟨spot, b, hbuild, plain, rewires⟩ := exists_build h.terminals permutes hin hout
  have hnumber : net.numInputs + (net.outputStart - net.numInputs) = net.outputStart :=
    Nat.add_sub_cancel' net.numInputs_le_outputStart
  obtain ⟨net', hfinish, hcells, hin', hout'⟩ := plain.exists_finish fun i hge hlt => by
    obtain ⟨o, ho, path⟩ := h.needed i hge (hnumber ▸ hlt)
    refine ⟨o, ?_, (rewires.dependsOn h.terminals hge path).2⟩
    rw [plain.outputs_eq, hnumber]
    rwa [Subnet.outputs, hout] at ho
  have hsize : net'.size = net.size := by
    have := plain.size_eq
    have := net.outputStart_add_numOutputs
    simp only [Subnet.size, Builder.size, hcells] at *
    omega
  refine ⟨spot, net', ?_, hcells ▸ rewires, hin', hout'.trans hout.symm, hsize⟩
  rw [Transform.onSubnet, if_neg (not_not.2 hout), if_neg, if_pos permutes.isInRange]
  · exact bind_eq_ok_iff.2 ⟨((), b), hbuild, hfinish⟩
  · rw [hin, Transform.numVars, permutes.length]
    exact not_not.2 rfl

end Subnet

end Gatework
