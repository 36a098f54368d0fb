import Gatework.Mapping.Strategy
import Gatework.Proofs.Mapping.Candidates

/-!
# Strategies choose among the candidates

Whatever the costs are and whatever is drawn at random, a strategy takes what is fixed, and for the other
entries one of their candidates or nothing.  Costs only decide which member of a list is taken
(`Selection.firstBest?_mem`), and genes are numbers of candidates (`Genes.admits_choice`).

**Main statement.** `Strategy.admits_select`.
-/

namespace Gatework

namespace Selection

variable {p : Problem} {σ α β : Type}

/-- The best member of a list is a member. -/
lemma firstBest?_mem {cost : α → β} {better : β → β → Bool} {xs : List α} {x : α}
    (h : firstBest? cost better xs = some x) : x ∈ xs := by
  obtain ⟨⟨y, c⟩, hbest, rfl⟩ := Option.map_eq_some_iff.1 h
  refine List.foldlRecOn (motive := fun best => ∀ y c, best = some (y, c) → y ∈ xs) xs _
    nofun (fun best ih z hz y c hy => ?_) y c hbest
  split at hy
  · cases hy
    exact hz
  · split at hy
    · cases hy
      exact hz
    · exact ih y c hy

/-- The cost that is remembered is that of the best member so far. -/
lemma cost_of_foldl_firstBest {cost : α → β} {better : β → β → Bool} {xs : List α} {y : α} {c : β}
    (h : xs.foldl (fun best x =>
      match best with
      | none => some (x, cost x)
      | some (_, least) => if better (cost x) least then some (x, cost x) else best) none =
        some (y, c)) : c = cost y := by
  revert y c
  refine List.foldlRecOn (motive := fun best => ∀ {y c}, best = some (y, c) → c = cost y) xs _
    (by simp) (fun best ih x _ y c hy => ?_)
  split at hy
  · cases hy
    rfl
  · split at hy
    · cases hy
      rfl
    · exact ih hy

/-- One member more replaces the best one if it is better. -/
lemma firstBest?_concat (cost : α → β) (better : β → β → Bool) (xs : List α) (z : α) :
    firstBest? cost better (xs ++ [z]) = match firstBest? cost better xs with
      | none => some z
      | some x => if better (cost z) (cost x) then some z else some x := by
  simp only [firstBest?, List.foldl_append, List.foldl_cons, List.foldl_nil]
  cases hbest : xs.foldl _ none with
  | none => rfl
  | some best =>
      obtain ⟨x, c⟩ := best
      obtain rfl := cost_of_foldl_firstBest hbest
      simp only [Option.map_some]
      split <;> rfl

/-- Of a list that is not empty there is a best member. -/
lemma exists_firstBest? (cost : α → β) (better : β → β → Bool) {xs : List α} (h : xs ≠ []) :
    ∃ x, firstBest? cost better xs = some x := by
  obtain ⟨ys, z, rfl⟩ := (List.eq_nil_or_concat' xs).resolve_left h
  rw [firstBest?_concat]
  split
  · exact ⟨z, rfl⟩
  · split <;> exact ⟨_, rfl⟩

/-- A property of costs that always wins against costs without it is one of the best cost, if some cost has
it. -/
lemma firstBest?_prefers {cost : α → β} {better : β → β → Bool} {P : β → Prop} {xs : List α}
    (wins : ∀ a ∈ xs, ∀ b ∈ xs, P (cost a) → ¬P (cost b) → better (cost a) (cost b) = true)
    (loses : ∀ a ∈ xs, ∀ b ∈ xs, ¬P (cost a) → P (cost b) → better (cost a) (cost b) = false)
    {y : α} (hy : y ∈ xs) (hP : P (cost y)) :
    ∃ x, firstBest? cost better xs = some x ∧ P (cost x) := by
  induction xs using List.reverseRecOn with
  | nil => cases hy
  | append_singleton xs z ih =>
      rw [firstBest?_concat]
      rcases List.mem_append.1 hy with hy | hy
      · obtain ⟨x, hx, hPx⟩ := ih (fun a ha b hb => wins a (by simp [ha]) b (by simp [hb]))
          (fun a ha b hb => loses a (by simp [ha]) b (by simp [hb])) hy
        have hmem := firstBest?_mem hx
        by_cases hz : P (cost z)
        · rw [hx]
          dsimp only
          split
          · exact ⟨z, rfl, hz⟩
          · exact ⟨x, rfl, hPx⟩
        · rw [hx]
          dsimp only
          rw [loses z (by simp) x (by simp [hmem]) hz hPx]
          exact ⟨x, rfl, hPx⟩
      · obtain rfl := List.mem_singleton.1 hy
        cases hx : firstBest? cost better xs with
        | none => exact ⟨y, rfl, hP⟩
        | some x =>
            have hmem := firstBest?_mem hx
            by_cases hPx : P (cost x)
            · dsimp only
              split
              · exact ⟨y, rfl, hP⟩
              · exact ⟨x, rfl, hPx⟩
            · dsimp only
              rw [wins y (by simp) x (by simp [hmem]) hP hPx]
              exact ⟨y, rfl, hP⟩

/-! ## Passes over the entries -/

/-- A picker picks candidates of the entry. -/
def Picks (p : Problem) (pick : σ → Nat → Array Float32 → Option Candidate × σ) : Prop :=
  ∀ memory entry arrivals c, (pick memory entry arrivals).1 = some c → c ∈ p.candidatesAt entry

/-- What a pass takes for an entry. -/
def taken (p : Problem) (pick : σ → Nat → Array Float32 → Option Candidate × σ) (memory : σ)
    (entry : Nat) (arrivals : Array Float32) : Option Realization :=
  match p.fixed? entry with
  | some r => some r
  | none => (pick memory entry arrivals).1.map Candidate.realization

/-- What a pass over the first entries leads to: each of them takes what is fixed or picked for it, given
the arrivals of those in front of it, and arrives accordingly. -/
structure Passed (p : Problem) (pick : σ → Nat → Array Float32 → Option Candidate × σ) (k : Nat)
    (s : Selection) : Prop where
  choice_size : s.choice.size = k
  arrival_size : s.arrival.size = k
  entry : ∀ e < k, ∃ memory arrivals, (∀ d < e, arrivals.getD d 0 = s.arrival.getD d 0) ∧
    s.choice.getD e none = taken p pick memory e arrivals ∧
    s.arrival.getD e 0 = (s.choice.getD e none).elim Cost.infinite (p.arrival arrivals)

variable {pick : σ → Nat → Array Float32 → Option Candidate × σ} {memory : σ}

lemma getD_push_of_lt {τ : Type} {xs : Array τ} {i : Nat} (h : i < xs.size) (x y : τ) :
    (xs.push x).getD i y = xs.getD i y := by
  rw [Array.getD_eq_getD_getElem?, Array.getElem?_push_lt h, Array.getD_eq_getD_getElem?,
    Array.getElem?_eq_getElem h]

lemma getD_push_size {τ : Type} (xs : Array τ) (x y : τ) : (xs.push x).getD xs.size y = x := by
  simp [Array.getD_eq_getD_getElem?]

/-- One entry more. -/
lemma Passed.next {k : Nat} {s : Selection} (h : Passed p pick k s) (memory : σ) :
    Passed p pick (k + 1) (decideEntry p pick (s, memory) k).1 := by
  obtain ⟨t, hpush, ht⟩ : ∃ t, (decideEntry p pick (s, memory) k).1 =
      ⟨s.choice.push t, s.arrival.push (t.elim Cost.infinite (p.arrival s.arrival))⟩ ∧
        t = taken p pick memory k s.arrival := by
    unfold decideEntry taken
    cases p.fixed? k with
    | some r => exact ⟨some r, rfl, rfl⟩
    | none => exact ⟨_, rfl, rfl⟩
  rw [hpush]
  refine ⟨by simp [h.choice_size], by simp [h.arrival_size], fun e he => ?_⟩
  by_cases hek : e = k
  · subst hek
    refine ⟨memory, s.arrival, fun d hd => (getD_push_of_lt (h.arrival_size ▸ hd) _ _).symm, ?_⟩
    have hchoice : (s.choice.push t).getD e none = t := by
      rw [← h.choice_size, getD_push_size]
    refine ⟨hchoice.trans ht, ?_⟩
    dsimp only
    rw [hchoice]
    conv_lhs => rw [← h.arrival_size, getD_push_size]
  · have hlt : e < k := by omega
    obtain ⟨memory', arrivals, same, hchoice, harrival⟩ := h.entry e hlt
    dsimp only
    rw [getD_push_of_lt (h.choice_size ▸ hlt), getD_push_of_lt (h.arrival_size ▸ hlt)]
    exact ⟨memory', arrivals, fun d hd => (same d hd).trans
      (getD_push_of_lt (h.arrival_size ▸ hd.trans hlt) _ _).symm, hchoice, harrival⟩

/-- A pass over all entries. -/
lemma passed_forward (p : Problem) (pick : σ → Nat → Array Float32 → Option Candidate × σ) (memory : σ) :
    Passed p pick p.net.size (forward p pick memory) := by
  suffices ∀ k, Passed p pick k ((List.range k).foldl (decideEntry p pick) (⟨#[], #[]⟩, memory)).1 from
    this p.net.size
  intro k
  induction k with
  | zero => exact ⟨rfl, rfl, nofun⟩
  | succ k ih =>
      rw [List.range_succ, List.foldl_append, List.foldl_cons, List.foldl_nil]
      exact ih.next _

lemma admits_forward (picks : Picks p pick) (memory : σ) : p.Admits (forward p pick memory).choice := by
  intro entry hentry
  obtain ⟨memory', arrivals, -, hchoice, -⟩ := (passed_forward p pick memory).entry entry hentry
  rw [hchoice, taken, Problem.AdmitsAt]
  cases p.fixed? entry with
  | some r => rfl
  | none =>
      intro r hr
      obtain ⟨c, hc, rfl⟩ := Option.map_eq_some_iff.1 hr
      exact ⟨c, picks _ _ _ c hc, rfl⟩

lemma admits_withFlow {pick : σ → Array Float32 → Nat → Array Float32 → Option Candidate × σ}
    (picks : ∀ flow, Picks p fun memory => pick memory flow) (memory : σ) :
    p.Admits (withFlow p pick memory).choice := by
  refine admits_forward ?_ _
  rintro ⟨memory, flow⟩ entry arrivals c hc
  exact picks flow memory entry arrivals c hc

/-! ## Selections -/

lemma pickEarliest_mem {entry : Nat} {arrivals : Array Float32} {c : Candidate}
    (h : p.pickEarliest entry arrivals = some c) : c ∈ p.candidatesAt entry := by
  unfold Problem.pickEarliest at h
  exact (List.mem_filter.1 (firstBest?_mem h)).1

lemma admits_earliest (p : Problem) : p.Admits (earliest p).choice :=
  admits_forward (fun _ _ _ _ hc => pickEarliest_mem hc) ()

lemma admits_leastArea (p : Problem) : p.Admits (leastArea p).choice :=
  admits_withFlow (fun _ _ _ _ _ hc => firstBest?_mem hc) ()

lemma pickInTime_mem {entry : Nat} {arrivals : Array Float32} {required : Float32}
    {cost : Candidate → Float32} {c : Candidate}
    (h : pickInTime p entry arrivals required cost = some c) : c ∈ p.candidatesAt entry := by
  rcases Option.or_eq_some_iff.1 h with h | ⟨-, h⟩
  · exact (List.mem_filter.1 (firstBest?_mem h)).1
  · exact firstBest?_mem h

lemma admits_areaRecovery (p : Problem) : p.Admits (areaRecovery p).choice :=
  admits_withFlow (fun _ _ _ _ _ hc => pickInTime_mem hc) ()

lemma mem_of_mem_keepLeastPower {power : Candidate → Float32} {kept : List Candidate}
    {c d : Candidate} (h : d ∈ keepLeastPower power kept c) : d ∈ kept ∨ d = c := by
  unfold keepLeastPower at h
  split at h
  · exact .inr (List.mem_singleton.1 h)
  · split at h
    · split at h
      · exact (List.mem_cons.1 h).symm.imp_left (List.mem_cons_of_mem _)
      · exact .inl h
    · exact (List.mem_cons.1 h).symm

/-- What is kept for its power was in the list. -/
lemma mem_of_mem_foldl_keepLeastPower {power : Candidate → Float32} {cs : List Candidate}
    {d : Candidate} (h : d ∈ cs.foldl (keepLeastPower power) []) : d ∈ cs := by
  refine List.foldlRecOn (motive := fun kept => ∀ d ∈ kept, d ∈ cs) cs _ (by simp)
    (fun kept ih c hc d hd => ?_) d h
  rcases mem_of_mem_keepLeastPower hd with hd | rfl
  · exact ih d hd
  · exact hc

lemma pickLeastPower_mem {activity : Activity} {required switchFlows flow arrivals : Array Float32}
    {entry : Nat} {c : Candidate}
    (h : pickLeastPower p activity required switchFlows flow entry arrivals = some c) :
    c ∈ p.candidatesAt entry := by
  rcases Option.or_eq_some_iff.1 h with h | ⟨-, h⟩
  · have hmem := List.mem_reverse.1 (firstBest?_mem h)
    exact (List.mem_filter.1 (mem_of_mem_foldl_keepLeastPower hmem)).1
  · exact firstBest?_mem h

lemma admits_leastPower {s : Selection} (h : leastPower p = .ok s) : p.Admits s.choice := by
  obtain ⟨activity, -, h⟩ := bind_eq_ok_iff.1 h
  cases h
  exact admits_withFlow (fun _ _ _ _ _ hc => pickLeastPower_mem hc) _

end Selection

/-! ## Genes -/

/-- What genes choose for an entry. -/
lemma Genes.getD_choice {p : Problem} {genes : Genes} {entry : Nat} (hentry : entry < p.net.size) :
    (genes.choice p).getD entry .none = match p.fixed? entry with
      | some r => some r
      | .none => (genes.getD entry .none).bind fun gene =>
          ((p.candidatesAt entry)[gene]?).map Candidate.realization := by
  have hrange : (Array.range p.net.size)[entry]? = some entry := by simp [hentry]
  rw [Genes.choice, Array.getD_eq_getD_getElem?, Array.getElem?_map, hrange]
  rfl

/-- Genes choose candidates, whatever numbers they are. -/
lemma Genes.admits_choice (p : Problem) (genes : Genes) : p.Admits (genes.choice p) := by
  intro entry hentry
  rw [Genes.getD_choice hentry, Problem.AdmitsAt]
  cases p.fixed? entry with
  | some r => rfl
  | none =>
      intro r hr
      obtain ⟨gene, -, hcandidate⟩ := Option.bind_eq_some_iff.1 hr
      obtain ⟨candidate, hmem, rfl⟩ := Option.map_eq_some_iff.1 hcandidate
      exact ⟨candidate, List.mem_of_getElem? hmem, rfl⟩

/-- The search ends with the earliest selection or with one that genes choose. -/
lemma Selection.admits_evolved {p : Problem} {options : EvolutionOptions} {s : Selection}
    (h : evolved p options = .ok s) : p.Admits s.choice := by
  obtain ⟨⟨s', g⟩, hsearch, h⟩ := bind_eq_ok_iff.1 h
  cases h
  obtain ⟨first, g₁, -, hsearch⟩ := state_bind_eq_ok_iff.1 hsearch
  cases first with
  | none =>
      cases hsearch
      exact admits_earliest p
  | some first =>
      obtain ⟨second, g₂, -, hsearch⟩ := state_bind_eq_ok_iff.1 hsearch
      cases second with
      | none =>
          cases hsearch
          exact admits_earliest p
      | some second =>
          obtain ⟨others, g₃, -, hsearch⟩ := state_bind_eq_ok_iff.1 hsearch
          obtain ⟨best, g₄, -, hsearch⟩ := state_bind_eq_ok_iff.1 hsearch
          cases hsearch
          exact best.genes.admits_choice p

/-- Every strategy chooses among the candidates. -/
theorem Strategy.admits_select {strategy : Strategy} {p : Problem} {s : Selection}
    (h : strategy.select p = .ok s) : p.Admits s.choice := by
  cases strategy with
  | minDelay =>
      cases h
      exact Selection.admits_earliest p
  | simpleArea =>
      cases h
      exact Selection.admits_leastArea p
  | areaRecovery =>
      cases h
      exact Selection.admits_areaRecovery p
  | powerMap => exact Selection.admits_leastPower h
  | genetic options => exact Selection.admits_evolved h

end Gatework
