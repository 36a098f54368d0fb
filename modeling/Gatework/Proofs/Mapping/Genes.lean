import Gatework.Proofs.Drawing
import Gatework.Proofs.Mapping.Cover

/-!
# Completing genes

Completing genes explores what the outputs need and gives a gene to whatever it reaches.  An entry is reached
only once, so a gene that has been settled is never changed, and what the outputs need can only grow.

* `Valid`: every gene is the number of a candidate.  Setting genes, taking them away and crossing keep this.
* `Settled`: what has been reached is realised, and what its realisation reads has been reached or waits.
* `Exploring` is the invariant of the exploration, and `Explored` what it leads to: either everything that is
  needed has been reached, or an entry without candidates is needed.
* `Completed` is what is left of this when the genes that are not needed have been taken away.

**Main statement.** `Genes.exists_complete`.
-/

namespace Gatework

open MappedNetwork

namespace Genes

variable {p : Problem} {genes genes' : Genes} {marks : Array Bool} {stack : List Nat} {v : Nat}
  {r : Realization} {donor : Option Genes} {g g' : Pcg}

/-- What has been reached is realised by the genes, and so is what its realisation reads, unless it still
waits. -/
structure Settled (p : Problem) (marks : Array Bool) (stack : List Nat) (genes : Genes) : Prop where
  genes_size : genes.size = p.net.size
  marks_size : marks.size = p.net.size
  output : ∀ o ∈ p.net.outputs, marks[o]? = some true ∨ o ∈ stack
  realized : ∀ w, marks[w]? = some true → ∃ r, (genes.choice p).getD w .none = some r ∧
    ∀ leaf ∈ r.leaves, marks[leaf]? = some true ∨ leaf ∈ stack

lemma marked_set (hv : v < marks.size) {w : Nat} :
    (marks.set v true)[w]? = some true ↔ w = v ∨ marks[w]? = some true := by
  rw [Array.getElem?_set hv]
  split
  · rename_i heq
    simp [heq]
  · rename_i hne
    simp [Ne.symm hne]

/-- An entry that is reached for the first time. -/
lemma Settled.visit (h : Settled p marks (v :: stack) genes) (hv : v < marks.size)
    (unmarked : marks[v] = false) (hsize : genes'.size = genes.size)
    (same : ∀ w, w ≠ v → (genes'.choice p).getD w .none = (genes.choice p).getD w .none)
    (hr : (genes'.choice p).getD v .none = some r) :
    Settled p (marks.set v true) (r.leaves.reverse ++ stack) genes' := by
  have kept : ∀ w, marks[w]? = some true ∨ w ∈ v :: stack →
      (marks.set v true)[w]? = some true ∨ w ∈ r.leaves.reverse ++ stack := by
    rintro w (hw | hw)
    · exact .inl ((marked_set hv).2 (.inr hw))
    · rcases List.mem_cons.1 hw with rfl | hw
      · exact .inl ((marked_set hv).2 (.inl rfl))
      · exact .inr (List.mem_append_right _ hw)
  refine ⟨hsize.trans h.genes_size, by simpa using h.marks_size, fun o ho => kept o (h.output o ho),
    fun w hw => ?_⟩
  rcases (marked_set hv).1 hw with rfl | hmarked
  · exact ⟨r, hr, fun leaf hleaf => .inr (List.mem_append_left _ (List.mem_reverse.2 hleaf))⟩
  · have hne : w ≠ v := by
      rintro rfl
      rw [Array.getElem?_eq_getElem hv, unmarked] at hmarked
      cases hmarked
    obtain ⟨r', hr', leaves⟩ := h.realized w hmarked
    exact ⟨r', (same w hne).trans hr', fun leaf hleaf => kept leaf (leaves leaf hleaf)⟩

/-- An entry that was reached before. -/
lemma Settled.skip (h : Settled p marks (v :: stack) genes) (hv : marks[v]? = some true) :
    Settled p marks stack genes := by
  have waits : ∀ w, marks[w]? = some true ∨ w ∈ v :: stack → marks[w]? = some true ∨ w ∈ stack := by
    rintro w (hw | hw)
    · exact .inl hw
    · rcases List.mem_cons.1 hw with rfl | hw
      · exact .inl hv
      · exact .inr hw
  refine ⟨h.genes_size, h.marks_size, fun o ho => waits o (h.output o ho), fun w hw => ?_⟩
  obtain ⟨r, hr, leaves⟩ := h.realized w hw
  exact ⟨r, hr, fun leaf hleaf => waits leaf (leaves leaf hleaf)⟩

/-- Genes that agree on an entry realise it alike. -/
lemma getD_choice_congr {w : Nat} (h : genes'.getD w .none = genes.getD w .none) :
    (genes'.choice p).getD w .none = (genes.choice p).getD w .none := by
  by_cases hw : w < p.net.size
  · rw [getD_choice hw, getD_choice hw, h]
  · simp [choice, Array.getD_eq_getD_getElem?, hw]

/-- Everything that the genes of a settled exploration need has been reached. -/
lemma Settled.reached (h : Settled p marks [] genes)
    (same : ∀ w, marks[w]? = some true → (genes'.choice p).getD w .none = (genes.choice p).getD w .none)
    (needs : Needs p.net (genes'.choice p) v) : marks[v]? = some true := by
  induction needs with
  | output ho => exact (h.output _ ho).resolve_right List.not_mem_nil
  | @read e leaf r he hr hleaf ih =>
      obtain ⟨r', hr', leaves⟩ := h.realized e ih
      cases hr.symm.trans ((same e ih).trans hr')
      exact (leaves leaf hleaf).resolve_right List.not_mem_nil

/-! ## Genes that name candidates -/

/-- Every gene is the number of a candidate. -/
structure Valid (p : Problem) (genes : Genes) : Prop where
  size : genes.size = p.net.size
  lt : ∀ e gene, genes.getD e .none = some gene → gene < (p.candidatesAt e).length

/-- Whoever sets genes further keeps those that are set. -/
def Keeps (genes genes' : Genes) : Prop :=
  ∀ e gene, genes.getD e .none = some gene → genes'.getD e .none = some gene

lemma getD_setIfInBounds (hv : v < genes.size) (gene : Nat) (e : Nat) :
    (genes.setIfInBounds v (some gene)).getD e .none = if e = v then some gene else genes.getD e .none := by
  by_cases he : e = v
  · simp [he, Array.getD_eq_getD_getElem?, hv]
  · simp [he, Array.getD_eq_getD_getElem?, Ne.symm he]

lemma valid_none (p : Problem) : Valid p (none p) :=
  ⟨by simp [none], fun e gene h => by
    rw [none, Array.getD_eq_getD_getElem?, Array.getElem?_replicate] at h
    split at h <;> cases h⟩

lemma valid_ofSelection {s : Selection} (hsize : s.choice.size = p.net.size) :
    Valid p (ofSelection p s) := by
  refine ⟨by simpa [ofSelection] using hsize, fun e gene h => ?_⟩
  rw [ofSelection, Array.getD_eq_getD_getElem?, Array.getElem?_map] at h
  cases hc : s.choice.zipIdx[e]? with
  | none => simp [hc] at h
  | some x =>
      obtain ⟨choice, entry⟩ := x
      obtain rfl : e = entry := by
        have := Array.getElem?_zipIdx.symm.trans hc
        obtain ⟨_, -, hx⟩ := Option.map_eq_some_iff.1 this
        simpa using congrArg Prod.snd hx
      rw [hc] at h
      obtain ⟨r, -, hfound⟩ := Option.bind_eq_some_iff.1 h
      exact (List.findIdx?_eq_some_iff_findIdx_eq.1 hfound).1

lemma Valid.set (valid : Valid p genes) {gene : Nat} (hgene : gene < (p.candidatesAt v).length) :
    Valid p (genes.setIfInBounds v (some gene)) := by
  refine ⟨(Array.size_setIfInBounds ..).trans valid.size, fun e gene' h => ?_⟩
  by_cases hv : v < genes.size
  · rw [getD_setIfInBounds hv] at h
    split at h
    · rename_i he
      cases h
      exact he ▸ hgene
    · exact valid.lt e gene' h
  · rw [Array.setIfInBounds, dif_neg hv] at h
    exact valid.lt e gene' h

/-- Crossing takes every gene from one of the two, at the same entry. -/
lemma valid_cross {first second : Genes} (hfirst : Valid p first) (hsecond : Valid p second) (point : Nat) :
    Valid p (cross point first second) := by
  have hsize : (first.extract 0 point).size = min point p.net.size := by
    rw [Array.size_extract, hfirst.size, Nat.sub_zero]
  refine ⟨?_, fun e gene h => ?_⟩
  · rw [cross, Array.size_append, hsize, Array.size_extract, Nat.min_self, hsecond.size]
    omega
  · rw [cross, Array.getD_eq_getD_getElem?, Array.getElem?_append] at h
    split at h
    · rename_i hlt
      refine hfirst.lt e gene ?_
      rwa [Array.getElem?_extract, if_pos (by rw [hfirst.size]; omega), Nat.zero_add,
        ← Array.getD_eq_getD_getElem?] at h
    · rename_i hge
      refine hsecond.lt e gene ?_
      rw [Array.getElem?_extract] at h
      split at h
      · rename_i hlt
        rwa [hsize, show point + (e - min point p.net.size) = e by
          rw [hsecond.size] at hlt; omega, ← Array.getD_eq_getD_getElem?] at h
      · cases h

/-- The genes of what was reached stay, and the others are taken away. -/
lemma getD_restrict {reached : Array Bool} (hsize : reached.size = genes.size) (e : Nat) :
    (genes.restrict reached).getD e .none =
      if reached[e]? = some true then genes.getD e .none else .none := by
  rw [restrict, Array.getD_eq_getD_getElem?, Array.getElem?_zipWith, Array.getD_eq_getD_getElem?]
  by_cases he : e < genes.size
  · have hreached : e < reached.size := hsize ▸ he
    rw [Array.getElem?_eq_getElem he, Array.getElem?_eq_getElem hreached]
    cases reached[e] <;> rfl
  · simp [he, hsize]

lemma Valid.restrict (valid : Valid p genes) {reached : Array Bool} (hsize : reached.size = p.net.size) :
    Valid p (genes.restrict reached) := by
  refine ⟨by rw [Genes.restrict, Array.size_zipWith, valid.size, hsize, Nat.min_self], fun e gene h => ?_⟩
  rw [getD_restrict (hsize.trans valid.size.symm)] at h
  split at h
  · exact valid.lt e gene h
  · cases h

/-- A valid gene chooses its candidate. -/
lemma getD_choice_of_gene (valid : Valid p genes) (hfixed : p.fixed? v = .none) {gene : Nat}
    (h : genes.getD v .none = some gene) : ∃ c, (p.candidatesAt v)[gene]? = some c ∧
      (genes.choice p).getD v .none = some c.realization := by
  have hlt := valid.lt v gene h
  have hv : v < p.net.size := by
    by_contra hge
    simp [Array.getD_eq_getD_getElem?, valid.size, hge] at h
  refine ⟨_, List.getElem?_eq_getElem hlt, ?_⟩
  rw [getD_choice hv, hfixed, h]
  simp [List.getElem?_eq_getElem hlt]

/-- Where further genes are set the choice takes more. -/
lemma Keeps.getD_choice (keeps : Keeps genes genes') {e : Nat}
    (h : (genes.choice p).getD e .none = some r) : (genes'.choice p).getD e .none = some r := by
  have he : e < p.net.size := by
    by_contra hge
    simp [choice, Array.getD_eq_getD_getElem?, hge] at h
  rw [Genes.getD_choice he] at h ⊢
  cases hfixed : p.fixed? e with
  | some r' => rwa [hfixed] at h
  | none =>
      rw [hfixed] at h
      cases hgene : genes.getD e .none with
      | none => rw [hgene] at h; cases h
      | some gene =>
          rw [hgene] at h
          rwa [keeps e gene hgene]

/-! ## Completing -/

/-- The gene of an entry with candidates is the number of one of them, and the one that is set. -/
lemma exists_settle (valid : Valid p genes) (hdonor : ∀ d, donor = some d → Valid p d)
    (hne : p.candidatesAt v ≠ []) (g : Pcg) :
    ∃ gene g', settle donor genes v (p.candidatesAt v).length g = .ok (gene, g') ∧
      gene < (p.candidatesAt v).length ∧ ∀ gene', genes.getD v .none = some gene' → gene = gene' := by
  have hpos : 0 < (p.candidatesAt v).length := List.length_pos_iff.2 hne
  unfold settle
  cases hset : genes.getD v .none with
  | some gene => exact ⟨gene, g, rfl, valid.lt v gene hset, fun _ h => Option.some.inj h⟩
  | none =>
      rw [Option.none_or]
      cases hgiven : donor.bind (·.getD v .none) with
      | some gene =>
          obtain ⟨d, hd, hgene⟩ := Option.bind_eq_some_iff.1 hgiven
          exact ⟨gene, g, rfl, (hdonor d hd).lt v gene hgene, nofun⟩
      | none =>
          have hlt := Generator.below_lt hpos g
          cases hbelow : Generator.below (p.candidatesAt v).length g with
          | mk gene g' =>
              rw [hbelow] at hlt
              exact ⟨gene, g', (if_neg hpos.ne').trans (congrArg Except.ok hbelow), hlt, nofun⟩

/-- An exploration under way: the genes that were set are kept, and nothing is reached that the outputs do
not need. -/
structure Exploring (p : Problem) (start : Genes) (marks : Array Bool) (stack : List Nat)
    (genes : Genes) : Prop extends Settled p marks stack genes where
  valid : Valid p genes
  kept : Keeps start genes
  needed : ∀ w, marks[w]? = some true ∨ w ∈ stack → Needs p.net (genes.choice p) w

variable {start : Genes}

lemma Exploring.lt_size (h : Exploring p start marks (v :: stack) genes) (ordered : p.Ordered) :
    v < marks.size := by
  rw [h.marks_size]
  exact (h.needed v (.inr List.mem_cons_self)).lt_size (ordered.readsBelow (genes.admits_choice p))

/-- An entry is reached and gets a realisation. -/
lemma Exploring.visit (h : Exploring p start marks (v :: stack) genes) (hv : v < marks.size)
    (unmarked : marks[v] = false) (valid : Valid p genes') (keeps : Keeps genes genes')
    (same : ∀ w, w ≠ v → (genes'.choice p).getD w .none = (genes.choice p).getD w .none)
    (hr : (genes'.choice p).getD v .none = some r) :
    Exploring p start (marks.set v true) (r.leaves.reverse ++ stack) genes' := by
  have needed : ∀ w, marks[w]? = some true ∨ w ∈ v :: stack → Needs p.net (genes'.choice p) w :=
    fun w hw => (h.needed w hw).mono fun _ _ _ => keeps.getD_choice
  refine ⟨h.toSettled.visit hv unmarked (valid.size.trans h.genes_size.symm) same hr, valid,
    fun e gene hgene => keeps e gene (h.kept e gene hgene), ?_⟩
  rintro w (hw | hw)
  · rcases (marked_set hv).1 hw with rfl | hw
    · exact needed w (.inr List.mem_cons_self)
    · exact needed w (.inl hw)
  · rcases List.mem_append.1 hw with hw | hw
    · exact .read (needed v (.inr List.mem_cons_self)) hr (List.mem_reverse.1 hw)
    · exact needed w (.inr (List.mem_cons_of_mem _ hw))

/-- What an exploration leads to.  Either it has settled everything, or it needs an entry that has no
candidates. -/
structure Explored (p : Problem) (start : Genes) (c : Completion) : Prop where
  valid : Valid p c.genes
  kept : Keeps start c.genes
  settled : c.isComplete = true → Settled p c.reached [] c.genes
  needed : ∀ w, c.reached[w]? = some true → Needs p.net (c.genes.choice p) w
  missed : c.isComplete = false →
    ∃ e, Needs p.net (c.genes.choice p) e ∧ p.fixed? e = .none ∧ p.candidatesAt e = []

/-- Every exploration comes to its end. -/
lemma exists_extend (ordered : p.Ordered) (hdonor : ∀ d, donor = some d → Valid p d)
    (h : Exploring p start marks stack genes) (g : Pcg) :
    ∃ c, extend p donor marks stack genes g = .ok c ∧ Explored p start c := by
  fun_induction extend p donor marks stack genes g with
  | case1 marks genes g =>
      exact ⟨_, rfl, h.valid, h.kept, fun _ => h.toSettled, fun w hw => h.needed w (.inl hw), nofun⟩
  | case2 marks genes g v stack hv unmarked r hfixed ih =>
      refine ih (h.visit hv unmarked h.valid (fun _ _ => id) (fun _ _ => rfl) ?_)
      rw [getD_choice (h.marks_size ▸ hv), hfixed]
  | case3 marks genes g v stack hv unmarked hfixed candidates hempty =>
      have needs := h.needed v (.inr List.mem_cons_self)
      refine ⟨_, rfl, h.valid, h.kept, nofun, fun w hw => ?_, fun _ =>
        ⟨v, needs, hfixed, List.isEmpty_iff.1 hempty⟩⟩
      rcases (marked_set hv).1 hw with rfl | hw
      · exact needs
      · exact h.needed w (.inl hw)
  | case4 marks genes g v stack hv unmarked hfixed candidates hsome fault hsettle =>
      obtain ⟨gene, g', hgene, -⟩ := exists_settle h.valid hdonor (mt List.isEmpty_iff.2 hsome) g
      cases hsettle.symm.trans hgene
  | case5 marks genes g v stack hv unmarked hfixed candidates hsome gene g' hsettle c hc ih =>
      obtain ⟨_, _, hgene, hlt, same⟩ := exists_settle h.valid hdonor (mt List.isEmpty_iff.2 hsome) g
      cases hsettle.symm.trans hgene
      have hset := getD_setIfInBounds (h.genes_size ▸ h.marks_size ▸ hv : v < genes.size) gene
      have valid := h.valid.set hlt
      refine ih (h.visit hv unmarked valid (fun e gene' he => ?_) (fun w hw => ?_) ?_)
      · -- a gene that is set already is the one that is settled on
        rw [hset]
        split
        · rename_i heq
          rw [same gene' (heq ▸ he)]
        · exact he
      · exact getD_choice_congr ((hset w).trans (if_neg hw))
      · obtain ⟨c', hc', hchoice⟩ := getD_choice_of_gene valid hfixed ((hset v).trans (if_pos rfl))
        cases hc.symm.trans hc'
        exact hchoice
  | case6 marks genes g v stack hv unmarked hfixed candidates hsome gene g' hsettle hc =>
      obtain ⟨_, _, hgene, hlt, -⟩ := exists_settle h.valid hdonor (mt List.isEmpty_iff.2 hsome) g
      cases hsettle.symm.trans hgene
      exact absurd hlt (Nat.not_lt.2 (List.getElem?_eq_none_iff.1 hc))
  | case7 marks genes g v stack hv marked ih =>
      have marked : marks[v]? = some true := by
        rw [Array.getElem?_eq_getElem hv]
        simpa using marked
      refine ih ⟨h.toSettled.skip marked, h.valid, h.kept, fun w hw => h.needed w ?_⟩
      exact hw.imp_right (List.mem_cons_of_mem _)
  | case8 marks genes g v stack hv => exact absurd (h.lt_size ordered) hv

/-- What completing genes leads to: which genes are kept, when an entry was missed, and otherwise that
exactly what the outputs need has a gene, unless it is fixed. -/
structure Completed (p : Problem) (genes : Genes) (isComplete : Bool) (genes' : Genes) : Prop where
  valid : Valid p genes'
  kept : ∀ e gene, genes.getD e .none = some gene →
    (isComplete = true → Needs p.net (genes'.choice p) e) → genes'.getD e .none = some gene
  missed : isComplete = false ↔
    ∃ e, Needs p.net (genes'.choice p) e ∧ p.fixed? e = .none ∧ p.candidatesAt e = []
  covers : isComplete = true → Covers p.net (genes'.choice p)
  needed : isComplete = true → ∀ e gene, genes'.getD e .none = some gene → Needs p.net (genes'.choice p) e

/-- What is realised and not fixed has a gene. -/
lemma exists_gene_of_choice (hfixed : p.fixed? v = .none) (hr : (genes.choice p).getD v .none = some r) :
    ∃ gene, genes.getD v .none = some gene ∧
      ((p.candidatesAt v)[gene]?).map Candidate.realization = some r := by
  by_cases hv : v < p.net.size
  · rw [getD_choice hv, hfixed] at hr
    exact Option.bind_eq_some_iff.1 hr
  · simp [choice, Array.getD_eq_getD_getElem?, hv] at hr

/-- An entry without candidates is not realised. -/
lemma not_covers_of_missed (needs : Needs p.net (genes.choice p) v) (hfixed : p.fixed? v = .none)
    (hempty : p.candidatesAt v = []) : ¬Covers p.net (genes.choice p) := by
  intro covers
  obtain ⟨r, hr⟩ := covers v needs
  obtain ⟨gene, -, hc⟩ := exists_gene_of_choice hfixed hr
  rw [hempty] at hc
  cases hc

/-- Genes can always be completed as far as there are candidates. -/
theorem exists_complete (ordered : p.Ordered) (valid : Valid p genes)
    (hdonor : ∀ d, donor = some d → Valid p d) (g : Pcg) :
    ∃ isComplete genes' g', genes.complete p donor g = .ok ((isComplete, genes'), g') ∧
      Completed p genes isComplete genes' := by
  have start : Exploring p genes (Array.replicate p.net.size false) p.net.outputs.reverse genes := by
    have unmarked : ∀ w : Nat, (Array.replicate p.net.size false)[w]? ≠ some true := by
      simp [Array.getElem?_replicate]
    exact ⟨⟨valid.size, by simp, fun o ho => .inr (List.mem_reverse.2 ho),
      fun w hw => absurd hw (unmarked w)⟩, valid, fun _ _ => id,
      fun w hw => .output (List.mem_reverse.1 (hw.resolve_left (unmarked w)))⟩
  obtain ⟨⟨isComplete, genes', reached, g'⟩, hextend, explored⟩ := exists_extend ordered hdonor start g
  refine ⟨isComplete, if isComplete then genes'.restrict reached else genes', g',
    bind_eq_ok_iff.2 ⟨_, hextend, rfl⟩, ?_⟩
  cases isComplete with
  | false =>
      exact ⟨explored.valid, fun e gene he _ => explored.kept e gene he,
        iff_of_true rfl (explored.missed rfl), nofun, nofun⟩
  | true =>
      have settled : Settled p reached [] genes' := explored.settled rfl
      have hsize : reached.size = genes'.size := settled.marks_size.trans settled.genes_size.symm
      -- dropping the genes of what was not reached changes nothing for what was
      have same : ∀ w, reached[w]? = some true →
          ((genes'.restrict reached).choice p).getD w .none = (genes'.choice p).getD w .none :=
        fun w hw => getD_choice_congr ((getD_restrict hsize w).trans (if_pos hw))
      have found : ∀ w, Needs p.net ((genes'.restrict reached).choice p) w → reached[w]? = some true :=
        fun w hw => settled.reached same hw
      have covers : Covers p.net ((genes'.restrict reached).choice p) := fun e he => by
        obtain ⟨r, hr, -⟩ := settled.realized e (found e he)
        exact ⟨r, (same e (found e he)).trans hr⟩
      refine ⟨explored.valid.restrict settled.marks_size, fun e gene he needs => ?_,
        iff_of_false nofun fun ⟨e, needs, hfixed, hempty⟩ => not_covers_of_missed needs hfixed hempty covers,
        fun _ => covers, fun _ e gene he => ?_⟩
      · rw [if_pos rfl, getD_restrict hsize, if_pos (found e (needs rfl))]
        exact explored.kept e gene he
      · rw [if_pos rfl, getD_restrict hsize] at he
        split at he
        · rename_i hreached
          refine (explored.needed e hreached).mono fun w r hw hr => ?_
          exact (same w (settled.reached (fun _ _ => rfl) hw)).trans hr
        · cases he

end Genes

end Gatework
