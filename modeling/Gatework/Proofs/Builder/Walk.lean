import Gatework.Builder.Cursor
import Gatework.Proofs.Builder.Continuation
import Gatework.Proofs.Builder.Request

/-!
# Walking through a builder that changes

A walk through a builder may be interrupted by changes of all kinds.  Its cursor stands somewhere in the
chronicle of the builder (`Visits`): what it has handed out lies in front, and in front there is no old
entry that is alive and was not handed out.  A change puts new entries in between and leaves the cursor
where it is; a step forward goes over entries that are dead or new.

**Main statement.** `walk_visits_living`: for all interleavings of changes and steps.
-/

namespace Gatework

namespace Cursor

/-- What the search for the next entry comes to, round by round, however many rounds it takes. -/
inductive Seeks (b : Builder) : Cursor → Option Nat → Cursor → Prop
  | stop {c : Cursor} (ended : c.next = none) : Seeks b c none c
  | found {c : Cursor} {id : Nat} (here : c.next = some id) (inside : id < b.size)
      (admitted : admits { c with next := b.next? id } b id = true) :
      Seeks b c (some id) { c with next := b.next? id }
  | pass {c c' : Cursor} {id : Nat} {next : Option Nat} (here : c.next = some id)
      (inside : id < b.size) (rejected : admits { c with next := b.next? id } b id = false)
      (rest : Seeks b { c with next := b.next? id } next c') : Seeks b c next c'

end Cursor

namespace Builder

/-- One change of a builder: a new input or output, a request that is met, or a replacement with its
leaves in front of its root. -/
inductive Change : Builder → Builder → Prop
  | addInput {b b' : Builder} {l : Link} (step : addInput b = .ok (l, b')) : Change b b'
  | addOutput {b b' : Builder} {l : Link} {id : Nat} (step : addOutput l b = .ok (id, b')) :
      Change b b'
  | add {b b' : Builder} {store : Store} {r : Request} {ls : List Link}
      (step : r.run store b = .ok (ls, b')) : Change b b'
  | replace {b b' : Builder} {r : Replacement}
      (leaves : ∀ leaf ∈ r.leaves, b.IsDriver leaf ∧ b.Precedes leaf r.root)
      (step : b.replace r = .ok b') : Change b b'

/-- A walk that began in the builder `b₀`, with changes and steps in any order: the builder and the
cursor that it has come to, and the entries that were handed out. -/
inductive Walk (b₀ : Builder) : Builder → Cursor → List Nat → Prop
  | start : Walk b₀ b₀ (.start b₀) []
  | change {b b' : Builder} {c : Cursor} {seen : List Nat} (h : Walk b₀ b c seen)
      (step : Change b b') : Walk b₀ b' c seen
  | advance {b : Builder} {c c' : Cursor} {seen : List Nat} {next : Option Nat}
      (h : Walk b₀ b c seen) (step : c.advance b = .ok (next, c')) :
      Walk b₀ b c' (seen ++ next.toList)

/-- A cursor hands out living entries only. -/
lemma isAlive_of_advance {b : Builder} {cursor cursor' : Cursor} {id : Nat}
    (h : cursor.advance b = .ok (some id, cursor')) :
    b.isAlive id = true := by
  rw [Cursor.advance] at h
  generalize b.size + 1 = fuel at h
  induction fuel generalizing cursor with
  | zero => cases h
  | succ fuel ih =>
      unfold Cursor.seek at h
      split at h
      · cases h
      · split at h
        · dsimp only at h
          split at h
          · rename_i admitted
            cases h
            simp only [Cursor.admits, Bool.and_eq_true] at admitted
            exact admitted.2
          · exact ih h
        · cases h

variable {b₀ b b' : Builder} {c c' : Cursor} {seen passed ahead : List Nat}

/-- Every change keeps a builder well-formed and continues it. -/
lemma Change.continues (h : Change b b') (wf : WellFormed b) : WellFormed b' ∧ Continues b b' := by
  cases h with
  | addInput step =>
      obtain ⟨b'', hb'', wf', -⟩ := wf.addInput
      cases step.symm.trans hb''
      exact ⟨wf', .addInput wf.layout step⟩
  | addOutput step =>
      obtain ⟨⟨⟩, hcheck, -⟩ := bind_eq_ok_iff.1 step
      obtain ⟨b'', hb'', wf', -⟩ := wf.addOutput (wf.readable_iff.1 hcheck)
      cases step.symm.trans hb''
      exact ⟨wf', .addOutput wf.layout step⟩
  | add step => exact Request.relates_run cellwise_continues _ _ _ _ _ step wf
  | replace leaves step => exact ⟨wf.replace leaves step, .replace step⟩

/-- Where a walk stands that has handed out the entries `seen`: the next entry is the first of `ahead`,
and in the rest of the chronicle there is no old entry that is alive and was not handed out. -/
structure Visits (b₀ b : Builder) (c : Cursor) (seen passed ahead : List Nat) : Prop where
  chronicle : Chronicle b (passed ++ ahead)
  bound : c.bound = b₀.size
  size_le : b₀.size ≤ b.size
  original : (passed ++ ahead).filter (· < b₀.size) = b₀.order
  next : c.next = ahead.head?
  sublist : seen.Sublist passed
  old : ∀ id ∈ seen, id < b₀.size
  complete : ∀ id ∈ passed, id < b₀.size → b.isAlive id = true → id ∈ seen

namespace Visits

/-- A walk begins in front of all entries. -/
lemma start (h : WellFormed b) : Visits b b (.start b) [] [] b.order where
  chronicle := .start h.arranged
  bound := rfl
  size_le := le_refl _
  original := List.filter_eq_self.2 fun id hid => decide_eq_true (h.arranged.lt_size hid)
  next := @Linked.succ_getLast? _ _ [] _ h.arranged.linked
  sublist := .slnil
  old := by simp
  complete := by simp

/-- A change leaves the walk where it is. -/
lemma continues (h : Visits b₀ b c seen passed ahead) (change : Continues b b') :
    ∃ passed' ahead', Visits b₀ b' c seen passed' ahead' := by
  obtain ⟨es, chronicle, size_le, old, alive⟩ := change _ h.chronicle
  have original : es.filter (· < b₀.size) = b₀.order := by
    rw [← h.original, ← old, List.filter_filter]
    refine List.filter_congr fun id _ => ?_
    rw [← Bool.decide_and, decide_eq_decide]
    exact (and_iff_left_of_imp fun hid => hid.trans_le h.size_le).symm
  -- new entries right in front of the next one count as passed, for they are not handed out
  obtain ⟨passed', ahead', rfl, hpassed, hahead⟩ : ∃ passed' ahead', es = passed' ++ ahead' ∧
      passed'.filter (· < b.size) = passed ∧ ahead.head? = ahead'.head? := by
    cases ahead with
    | nil =>
        rw [List.append_nil] at old
        exact ⟨es, [], (List.append_nil es).symm, old, rfl⟩
    | cons id ahead =>
        obtain ⟨front, rest, rfl, hfront, hrest⟩ := List.filter_eq_append_iff.1 old
        obtain ⟨new, ahead', rfl, hnew, -, -⟩ := List.filter_eq_cons_iff.1 hrest
        refine ⟨front ++ new, id :: ahead', (List.append_assoc ..).symm, ?_, rfl⟩
        rw [List.filter_append, hfront, List.filter_eq_nil_iff.2 hnew, List.append_nil]
  refine ⟨passed', ahead', chronicle, h.bound, h.size_le.trans size_le, original,
    h.next.trans hahead, ?_, h.old, fun id hid hlt living => ?_⟩
  · exact h.sublist.trans (hpassed ▸ List.filter_sublist)
  · have hlt' := hlt.trans_le h.size_le
    have hid' : id ∈ passed := by
      rw [← hpassed]
      exact List.mem_filter.2 ⟨hid, decide_eq_true hlt'⟩
    exact h.complete id hid' hlt (alive id hlt' living)

/-- One round of the search, which looks at an entry and goes on to where its pointer leads. -/
lemma round {id : Nat} (h : Visits b₀ b c seen passed (id :: ahead)) :
    id < b.size ∧ ∃ skipped ahead', ahead = skipped ++ ahead' ∧
      ∀ seen', seen'.Sublist (passed ++ id :: skipped) → (∀ x ∈ seen', x < b₀.size) →
        (∀ x ∈ seen, x ∈ seen') → (id < b₀.size → b.isAlive id = true → id ∈ seen') →
        Visits b₀ b { c with next := b.next? id } seen' (passed ++ id :: skipped) ahead' := by
  obtain ⟨⟨skipped, ahead', rfl, hnext, dead⟩, -⟩ := h.chronicle.resumes.drop
  refine ⟨h.chronicle.lt_size id (by simp), skipped, ahead', rfl, fun seen' sub old keep first => ?_⟩
  have hes : passed ++ id :: skipped ++ ahead' = passed ++ id :: (skipped ++ ahead') := by simp
  refine ⟨hes ▸ h.chronicle, h.bound, h.size_le, hes ▸ h.original, hnext, sub, old,
    fun x hx hlt living => ?_⟩
  rcases List.mem_append.1 hx with hx | hx
  · exact keep x (h.complete x hx hlt living)
  · rcases List.mem_cons.1 hx with rfl | hx
    · exact first hlt living
    · rw [dead x hx] at living
      cases living

/-- The search ends, with a living old entry or behind all entries. -/
lemma exists_seek (h : Visits b₀ b c seen passed ahead) {fuel : Nat} (enough : ahead.length < fuel) :
    ∃ next c' passed' ahead', Cursor.seek b fuel c = .ok (next, c') ∧ c.Seeks b next c' ∧
      Visits b₀ b c' (seen ++ next.toList) passed' ahead' ∧
      (∀ id ∈ next, b.isAlive id = true) ∧ (next = none → ahead' = []) := by
  induction fuel generalizing c passed ahead with
  | zero => cases enough
  | succ fuel ih =>
      cases ahead with
      | nil =>
          have ended : c.next = none := h.next
          refine ⟨none, c, passed, [], ?_, .stop ended, ?_, by simp, fun _ => rfl⟩
          · rw [Cursor.seek, ended]
          · simpa using h
      | cons id ahead =>
          have here : c.next = some id := h.next
          obtain ⟨inside, skipped, ahead', rfl, round⟩ := h.round
          have sub : seen.Sublist (passed ++ id :: skipped) :=
            h.sublist.trans (List.sublist_append_left ..)
          rw [Cursor.seek, here]
          simp only [if_pos inside]
          by_cases admitted : Cursor.admits { c with next := b.next? id } b id = true
          · rw [if_pos admitted]
            have both := admitted
            rw [Cursor.admits, Bool.and_eq_true, decide_eq_true_eq, h.bound] at both
            have found := round (seen ++ [id])
              (h.sublist.append ((List.nil_sublist skipped).cons_cons id)) (fun x hx => ?_)
              (fun x => List.mem_append_left _) fun _ _ => by simp
            · exact ⟨some id, _, _, ahead', rfl, .found here inside admitted, found,
                fun x hx => Option.some.inj hx ▸ both.2, fun e => nomatch e⟩
            · rcases List.mem_append.1 hx with hx | hx
              · exact h.old x hx
              · exact List.mem_singleton.1 hx ▸ both.1
          · rw [if_neg admitted]
            have rejected := Bool.eq_false_iff.2 admitted
            have next := round seen sub h.old (fun _ hx => hx) fun hlt living => by
              refine absurd ?_ admitted
              rw [Cursor.admits, Bool.and_eq_true, decide_eq_true_eq, h.bound]
              exact ⟨hlt, living⟩
            have less : ahead'.length < fuel := by
              simp only [List.length_cons, List.length_append] at enough
              omega
            obtain ⟨next, c', passed', ahead'', hrun, seeks, visits⟩ := ih next less
            exact ⟨next, c', passed', ahead'', hrun, .pass here inside rejected seeks, visits⟩

/-- The bound on the rounds is never met. -/
lemma exists_advance (h : Visits b₀ b c seen passed ahead) :
    ∃ next c' passed' ahead', c.advance b = .ok (next, c') ∧ c.Seeks b next c' ∧
      Visits b₀ b c' (seen ++ next.toList) passed' ahead' ∧
      (∀ id ∈ next, b.isAlive id = true) ∧ (next = none → ahead' = []) := by
  have hlength := h.chronicle.length_le_size
  rw [List.length_append] at hlength
  exact h.exists_seek (by omega)

/-- What was handed out are old entries in their order. -/
lemma sublist_order (h : Visits b₀ b c seen passed ahead) : seen.Sublist b₀.order := by
  have sub := (h.sublist.trans (List.sublist_append_left passed ahead)).filter (· < b₀.size)
  rwa [h.original, List.filter_eq_self.2 fun id hid => decide_eq_true (h.old id hid)] at sub

end Visits

/-- A walk always stands somewhere. -/
lemma Walk.exists_visits (walk : Walk b₀ b c seen) (h : WellFormed b₀) :
    WellFormed b ∧ ∃ passed ahead, Visits b₀ b c seen passed ahead := by
  induction walk with
  | start => exact ⟨h, [], b₀.order, .start h⟩
  | change _ step ih =>
      obtain ⟨wf, passed, ahead, visits⟩ := ih
      obtain ⟨wf', continues⟩ := step.continues wf
      exact ⟨wf', visits.continues continues⟩
  | advance _ step ih =>
      obtain ⟨wf, passed, ahead, visits⟩ := ih
      obtain ⟨next, c', passed', ahead', hrun, -, visits', -⟩ := visits.exists_advance
      cases step.symm.trans hrun
      exact ⟨wf, passed', ahead', visits'⟩

/-- In the order of a builder, earlier entries precede later ones. -/
lemma pairwise_precedes (b : Builder) : b.order.Pairwise b.Precedes := by
  suffices ∀ behind front, b.order = front ++ behind → behind.Pairwise b.Precedes from
    this b.order [] rfl
  intro behind
  induction behind with
  | nil => exact fun _ _ => .nil
  | cons x behind ih =>
      intro front hsplit
      refine List.pairwise_cons.2 ⟨fun y hy => ?_, ih (front ++ [x]) (by simp [hsplit])⟩
      obtain ⟨mid, rest, rfl⟩ := List.append_of_mem hy
      exact ⟨front ++ x :: mid, rest, by simp [hsplit], by simp⟩

/-- However changes of a builder and steps of a walk through it are interleaved: the entries that are
handed out are entries that the builder had when the walk began, in the order that it had then, and
none twice.  The next step ends; it hands out a living entry, behind all that came before, or it finds
that every old entry that is still alive was handed out. -/
theorem walk_visits_living (h : WellFormed b₀) (walk : Walk b₀ b c seen) :
    seen.Nodup ∧ seen.Pairwise b₀.Precedes ∧ (∀ id ∈ seen, id ∈ b₀.order) ∧
      ∃ next c', c.advance b = .ok (next, c') ∧ c.Seeks b next c' ∧
        (∀ id ∈ next, b.isAlive id = true ∧ id ∈ b₀.order ∧
          ∀ x ∈ seen, x ≠ id ∧ b₀.Precedes x id) ∧
        (next = none → ∀ id < b₀.size, b.isAlive id = true → id ∈ seen) := by
  obtain ⟨-, passed, ahead, visits⟩ := walk.exists_visits h
  obtain ⟨next, c', passed', ahead', hrun, seeks, visits', alive, ended⟩ := visits.exists_advance
  have sub := visits.sublist_order
  have sub' := visits'.sublist_order
  refine ⟨h.arranged.linked.nodup.sublist sub, b₀.pairwise_precedes.sublist sub,
    fun id hid => sub.subset hid, next, c', hrun, seeks, fun id hid => ?_, ?_⟩
  · obtain rfl : next = some id := hid
    have nodup := List.nodup_append.1 (h.arranged.linked.nodup.sublist sub')
    have precedes := List.pairwise_append.1 (b₀.pairwise_precedes.sublist sub')
    refine ⟨alive id rfl, sub'.subset (by simp), fun x hx => ?_⟩
    exact ⟨nodup.2.2 x hx id (by simp), precedes.2.2 x hx id (by simp)⟩
  · rintro rfl id hid living
    obtain rfl := ended rfl
    have hmem := visits'.chronicle.mem_of_isAlive id living
    rw [List.append_nil] at hmem
    simpa using visits'.complete id hmem hid living

/-- An exclusive disjunction behind two buffers. -/
def relayBuild : Build Unit := do
  let sum ← addCell (.gate .xor) (← addInputs 2)
  let relay ← addCell (.gate .buf) [sum]
  discard (addOutput (← addCell (.gate .buf) [relay]))

/-- The builder that `relayBuild` leads to. -/
def relayBuilder : Builder :=
  match relayBuild.run (.empty {}) with
  | .ok (_, b) => b
  | .error _ => .empty {}

/-- The exclusive disjunction in the place of the second buffer. -/
def relayReplacement : Replacement := ⟨exclusiveOr, [0, 1], 4⟩

lemma reachable_relayBuilder : Reachable relayBuilder := by
  have inputs := Reachable.addInput (.addInput (.empty {}) rfl) rfl
  have sum := @Reachable.addCell _ _ (.gate .xor) [.of 0, .of 1] _ inputs rfl
  have first := @Reachable.addCell _ _ (.gate .buf) [.of 2] _ sum rfl
  have second := @Reachable.addCell _ _ (.gate .buf) [.of 3] _ first rfl
  have output := Reachable.addOutput (l := .of 4) second rfl
  obtain ⟨b, hb, hrun⟩ : ∃ b, Reachable b ∧ relayBuild.run (.empty {}) = .ok ((), b) :=
    ⟨_, output, by cbv⟩
  rwa [relayBuilder, hrun]

/-- What the builder holds, where the first steps of a walk lead, and what the replacement leaves. -/
lemma relayBuilder_holds :
    relayBuilder.order = [0, 1, 2, 3] ++ 4 :: [5] ∧
      relayBuilder.cells[0]? = some .input ∧ relayBuilder.cells[1]? = some .input ∧
      (Cursor.start relayBuilder).advance relayBuilder = .ok (some 0, ⟨some 1, 6⟩) ∧
      Cursor.advance ⟨some 1, 6⟩ relayBuilder = .ok (some 1, ⟨some 2, 6⟩) ∧
      Cursor.advance ⟨some 2, 6⟩ relayBuilder = .ok (some 2, ⟨some 3, 6⟩) ∧
      (relayBuilder.replace relayReplacement).map Builder.order = .ok [0, 1, 4, 5] := by
  have holds : (relayBuilder.order, relayBuilder.cells[0]?, relayBuilder.cells[1]?,
      (Cursor.start relayBuilder).advance relayBuilder, Cursor.advance ⟨some 1, 6⟩ relayBuilder,
      Cursor.advance ⟨some 2, 6⟩ relayBuilder,
      (relayBuilder.replace relayReplacement).map Builder.order) =
    ([0, 1, 2, 3] ++ 4 :: [5], some .input, some .input, .ok (some 0, ⟨some 1, 6⟩),
      .ok (some 1, ⟨some 2, 6⟩), .ok (some 2, ⟨some 3, 6⟩), .ok [0, 1, 4, 5]) := by cbv
  simpa only [Prod.mk.injEq] using holds

lemma leaves_relayReplacement : ∀ leaf ∈ relayReplacement.leaves,
    relayBuilder.IsDriver leaf ∧ relayBuilder.Precedes leaf relayReplacement.root := by
  obtain ⟨order, first, second, -⟩ := relayBuilder_holds
  intro leaf hleaf
  have hmem : leaf = 0 ∨ leaf = 1 := by simpa [relayReplacement] using hleaf
  rcases hmem with rfl | rfl
  · exact ⟨⟨.input, first, rfl⟩, [0, 1, 2, 3], [5], order, by simp⟩
  · exact ⟨⟨.input, second, rfl⟩, [0, 1, 2, 3], [5], order, by simp⟩

/-- When the exclusive disjunction was handed out, the second buffer takes its place, and it and the
first buffer are taken out.  The walk goes on to the second buffer. -/
theorem walk_visits_living_relay : ∃ b c, Walk relayBuilder b c [0, 1, 2] ∧
    relayBuilder.replace relayReplacement = .ok b ∧ b.order = [0, 1, 4, 5] ∧
    ∃ next c', c.advance b = .ok (next, c') ∧ c.Seeks b next c' ∧
      ∀ id ∈ next, b.isAlive id = true ∧ id ∈ relayBuilder.order ∧
        ∀ x ∈ [0, 1, 2], x ≠ id ∧ relayBuilder.Precedes x id := by
  obtain ⟨-, -, -, first, second, third, replaced⟩ := relayBuilder_holds
  have begun : Walk relayBuilder relayBuilder (.start relayBuilder) [] := .start
  have handed := ((begun.advance first).advance second).advance third
  obtain ⟨b, hrun, order⟩ := map_eq_ok_iff.1 replaced
  have walk := handed.change (.replace leaves_relayReplacement hrun)
  obtain ⟨-, -, -, next, c', hadvance, seeks, living, -⟩ :=
    walk_visits_living reachable_relayBuilder.wellFormed walk
  exact ⟨b, _, walk, hrun, order, next, c', hadvance, seeks, living⟩

end Builder

end Gatework
