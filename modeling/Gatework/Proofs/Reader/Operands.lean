import Gatework.Proofs.Reader.Grammar

/-!
# Reading the operands of an entry

For every reader there are two lemmas.  What it takes off a text is a word of its language; and it takes
a word of its language off, if what stands behind the word does not go on with it.  The second one is
where the punctuation matters: what may stand behind a number, a name or a list of operands begins with
blanks or with one of the `marks` (`Reader.Goes`).  Every link takes a character, so a reader that starts
with as much fuel as there is text does not run out of it.

* `number_eq_ok_iff`, `name_eq_ok_iff`: numbers and names are longest runs.
* `strips_of_operands`, `operands_of_strips`: the operands of an entry.
-/

namespace Gatework

namespace Reader

open Grammar (Strips isSharp next? strips_mul_iff)

variable {cs rest : List Char} {t : String} {c d : Char} {ts : List Char} {n : Nat}

/-! ## Tokens -/

lemma after?_eq_some_iff : after? ts cs = some rest ↔ ts ++ rest = cs := by
  induction ts generalizing cs with
  | nil => simp [after?, eq_comm]
  | cons t ts ih =>
      cases cs with
      | nil => simp [after?]
      | cons c cs =>
          by_cases h : t = c
          · simp [after?, h, ih]
          · simp [after?, h]

lemma tryToken_eq_some_iff (sharp : isSharp t = true) :
    tryToken t cs = some rest ↔ Strips (Grammar.token t) cs rest := by
  rw [tryToken, after?_eq_some_iff, Grammar.strips_token_iff sharp]

lemma token_eq_ok_iff (sharp : isSharp t = true) :
    token t cs = .ok rest ↔ Strips (Grammar.token t) cs rest := by
  rw [← tryToken_eq_some_iff sharp, token]
  cases tryToken t cs <;> simp

/-- A token is not found where another character comes next. -/
lemma tryToken_eq_none (hnext : next? cs ≠ t.toList.head?) (sharp : isSharp t = true) :
    tryToken t cs = none := by
  cases h : tryToken t cs with
  | none => rfl
  | some rest =>
      exact absurd (Grammar.next?_of_token ((tryToken_eq_some_iff sharp).1 h) sharp) hnext

/-! ## Numbers and names -/

lemma stops_dropWhile (p : Char → Bool) (cs : List Char) : Stops p (cs.dropWhile p) := by
  intro d hd
  have hnot := List.head?_dropWhile_not p cs
  rwa [Option.mem_def.1 hd] at hnot

/-- A number is a longest run of digits. -/
lemma number_eq_ok_iff : number cs = .ok (n, rest) ↔
    n < entryLimit ∧ Strips (Grammar.numeral n) cs rest ∧ Stops Char.isDigit rest := by
  rw [Grammar.numeral, Grammar.strips_blanks_mul_iff]
  · constructor
    · intro h
      simp only [number] at h
      split at h
      · cases h
      rename_i hne
      split at h
      case isFalse => cases h
      rename_i hlt
      cases h
      have hne : (Text.skipBlanks cs).takeWhile Char.isDigit ≠ [] := fun h => hne (by rw [h]; rfl)
      exact ⟨hlt, ⟨_, ⟨hne, fun d hd => List.mem_takeWhile_imp hd, rfl⟩,
        List.takeWhile_append_dropWhile⟩, stops_dropWhile _ _⟩
    · rintro ⟨hlt, ⟨ds, ⟨hne, hdigits, rfl⟩, hds⟩, stops⟩
      obtain ⟨htake, hdrop⟩ := takeWhile_append hdigits stops
      simp only [number, ← hds, htake, hdrop, List.isEmpty_iff, hne, if_false, hlt, if_true]
  · rintro ds ⟨hne, hdigits, -⟩
    obtain ⟨d, ds, rfl⟩ := List.exists_cons_of_ne_nil hne
    exact ⟨d, ds, rfl, Text.isBlank_of_isDigit (hdigits d List.mem_cons_self)⟩

lemma strips_name_iff {s : String} : Strips (Grammar.name s) cs rest ↔
    IsName s ∧ s.toList ++ rest = Text.skipBlanks cs := by
  have sharp : IsName s → isSharp s = true := by
    rintro ⟨c, ts, hs, hstart, -⟩
    rw [isSharp, hs]
    exact congrArg (!·) (Text.isBlank_of_isNameStart hstart)
  constructor
  · rintro ⟨front, ⟨isName, hfront⟩, h⟩
    exact ⟨isName, (Grammar.strips_token_iff (sharp isName)).1 ⟨front, hfront, h⟩⟩
  · rintro ⟨isName, h⟩
    obtain ⟨front, hfront, h⟩ := (Grammar.strips_token_iff (sharp isName)).2 h
    exact ⟨front, ⟨isName, hfront⟩, h⟩

/-- A name is the longest run of characters that a name may have. -/
lemma name_eq_ok_iff {s : String} : name cs = .ok (s, rest) ↔
    Strips (Grammar.name s) cs rest ∧ Stops Text.isNamePart rest := by
  rw [strips_name_iff]
  constructor
  · intro h
    have isName := isName_of_name h
    rw [name] at h
    split at h
    · cases h
    rename_i c cs' hcs
    split at h
    case isFalse => cases h
    cases h
    refine ⟨⟨isName, ?_⟩, stops_dropWhile _ _⟩
    rw [hcs, String.toList_ofList, List.cons_append, List.takeWhile_append_dropWhile]
  · rintro ⟨⟨⟨c, ts, hs, hstart, hpart⟩, hcs⟩, stops⟩
    obtain ⟨htake, hdrop⟩ := takeWhile_append hpart stops
    rw [hs, List.cons_append] at hcs
    rw [name, ← hcs]
    simp only [hstart, if_true, htake, hdrop, ← hs, String.ofList_toList]

/-! ## What may stand behind -/

/-- The punctuation marks that may stand behind a number, a name or a list of operands. -/
def marks : List Char := ['(', ')', ',', '=', '%', '\x7d']

/-- A text that goes on with blanks or a mark, and has a mark behind the blanks. -/
def Goes (cs : List Char) : Prop := ∃ c ∈ marks, next? cs = some c

lemma Goes.stops (goes : Goes rest) {p : Char → Bool} (hblank : ∀ b, Text.isBlank b = true → p b = false)
    (hmarks : marks.any p = false) : Stops p rest := by
  obtain ⟨c, hc, hnext⟩ := goes
  refine Grammar.stops_of_next? hblank fun d hd => ?_
  cases hnext.symm.trans hd
  simpa using List.any_eq_false.1 hmarks c hc

lemma Goes.stops_isDigit (goes : Goes rest) : Stops Char.isDigit rest :=
  goes.stops (fun b hb => Bool.eq_false_iff.2 fun h => by
    rw [Text.isBlank_of_isDigit h] at hb
    cases hb) rfl

lemma Goes.stops_isNamePart (goes : Goes rest) : Stops Text.isNamePart rest := by
  have gap : marks.all (fun c => decide (c.toNat < 0x30 ∨ (0x3A ≤ c.toNat ∧ c.toNat < 0x41) ∨
      (0x7B ≤ c.toNat ∧ c.toNat < 0xA1))) = true := rfl
  refine goes.stops (fun b hb => Bool.eq_false_iff.2 fun h => ?_) (List.any_eq_false.2 fun c hc => ?_)
  · rw [Text.isBlank_of_isNamePart h] at hb
    cases hb
  · rw [Text.isNamePart_of_gap (of_decide_eq_true (List.all_eq_true.1 gap c hc))]
    exact Bool.false_ne_true

/-- No dot stands there. -/
lemma Goes.stops_dot (goes : Goes rest) : Stops (· == '.') rest :=
  goes.stops (fun b hb => by
    refine beq_eq_false_iff_ne.2 ?_
    rintro rfl
    cases hb) rfl

lemma goes_of_token (h : Strips (Grammar.token t) cs rest)
    (mark : t.toList.head?.any (fun c => decide (c ∈ marks)) = true) : Goes cs := by
  rw [Option.any_eq_true] at mark
  obtain ⟨c, hhead, hc⟩ := mark
  have sharp : marks.all (fun c => !Text.isBlank c) = true := rfl
  refine ⟨c, of_decide_eq_true hc, (Grammar.next?_of_token h ?_).trans hhead⟩
  rw [isSharp, hhead]
  exact List.all_eq_true.1 sharp c (of_decide_eq_true hc)

/-! ## Links -/

lemma port_eq_ok_iff {p : UInt16} : port cs = .ok (p, rest) ↔
    Strips (Grammar.numeral p.toNat) cs rest ∧ Stops Char.isDigit rest := by
  rw [port]
  constructor
  · intro h
    obtain ⟨⟨n, cs'⟩, hnumber, h⟩ := bind_eq_ok_iff.1 h
    dsimp only at h
    split at h
    case isFalse => cases h
    rename_i hlt
    cases h
    obtain ⟨-, strips, stops⟩ := number_eq_ok_iff.1 hnumber
    exact ⟨by rwa [UInt16.toNat_ofNat_of_lt' hlt], stops⟩
  · rintro ⟨strips, stops⟩
    have hlt : p.toNat < UInt16.size := p.toNat_lt
    have hnumber := number_eq_ok_iff.2 ⟨hlt.trans (by decide), strips, stops⟩
    rw [hnumber, ok_bind]
    simp only [hlt, if_true, UInt16.ofNat_toNat]

lemma strips_of_linkPort {p : UInt16} (h : linkPort cs = .ok (p, rest)) :
    Strips (Grammar.port p) cs rest := by
  rw [Grammar.port, Grammar.strips_add_iff, Grammar.strips_nothing_iff, strips_mul_iff]
  unfold linkPort at h
  split at h
  · rename_i cs'
    exact .inr ⟨cs', Grammar.strips_singleton_iff.2 rfl, (port_eq_ok_iff.1 h).1⟩
  · cases h
    exact .inl ⟨rfl, rfl⟩

lemma linkPort_of_strips {p : UInt16} (h : Strips (Grammar.port p) cs rest) (goes : Goes rest) :
    linkPort cs = .ok (p, rest) := by
  rw [Grammar.port, Grammar.strips_add_iff, Grammar.strips_nothing_iff, strips_mul_iff] at h
  rcases h with ⟨rfl, rfl⟩ | ⟨mid, hdot, hport⟩
  · have nodot : ∀ cs', cs ≠ '.' :: cs' := by
      rintro cs' rfl
      exact absurd (goes.stops_dot '.' rfl) (by decide)
    rw [linkPort]
    exact nodot
  · rw [Grammar.strips_singleton_iff] at hdot
    rw [← hdot]
    exact port_eq_ok_iff.2 ⟨hport, goes.stops_isDigit⟩

/-- The number of an entry ends with its port. -/
lemma stops_of_port {p : UInt16} (h : Strips (Grammar.port p) cs rest) (goes : Goes rest) :
    Stops Char.isDigit cs := by
  rw [Grammar.port, Grammar.strips_add_iff, Grammar.strips_nothing_iff, strips_mul_iff] at h
  rcases h with ⟨-, rfl⟩ | ⟨mid, hdot, -⟩
  · exact goes.stops_isDigit
  · rw [Grammar.strips_singleton_iff] at hdot
    rw [← hdot]
    rintro d ⟨⟩
    rfl

lemma strips_index_iff : Strips (Grammar.index n) cs rest ↔
    n < entryLimit ∧ ∃ mid, Strips (Grammar.token "%") cs mid ∧ Strips (Grammar.numeral n) mid rest := by
  rw [← strips_mul_iff]
  constructor
  · rintro ⟨front, ⟨hn, hfront⟩, h⟩
    exact ⟨hn, front, hfront, h⟩
  · rintro ⟨hn, front, hfront, h⟩
    exact ⟨front, ⟨hn, hfront⟩, h⟩

variable {l : Link} {ls : List Link}

/-- Reads a link behind its sign. -/
def linkTail (inverted : Bool) (cs : List Char) : Except Stop (Link × List Char) := do
  let cs ← token "%" cs
  let (entry, cs) ← number cs
  let (port, cs) ← linkPort cs
  .ok ({ entry, port, inverted }, cs)

lemma link_eq (cs : List Char) : link cs = match tryToken "~" cs with
    | some rest => linkTail true rest
    | none => linkTail false cs := by
  rw [link]
  cases tryToken "~" cs <;> rfl

lemma strips_of_link (h : link cs = .ok (l, rest)) : Strips (Grammar.link l) cs rest := by
  obtain ⟨inverted, start, hsign, h⟩ : ∃ (inverted : Bool) (start : List Char),
      Strips (if inverted then Grammar.token "~" else 1) cs start ∧
        linkTail inverted start = .ok (l, rest) := by
    rw [link_eq] at h
    cases hsign : tryToken "~" cs with
    | some start =>
        rw [hsign] at h
        exact ⟨true, start, (tryToken_eq_some_iff (by rfl)).1 hsign, h⟩
    | none =>
        rw [hsign] at h
        exact ⟨false, cs, Grammar.strips_one_iff.2 rfl, h⟩
  obtain ⟨cs₁, hpercent, h⟩ := bind_eq_ok_iff.1 h
  obtain ⟨⟨entry, cs₂⟩, hnumber, h⟩ := bind_eq_ok_iff.1 h
  obtain ⟨⟨port, cs₃⟩, hport, h⟩ := bind_eq_ok_iff.1 h
  cases h
  obtain ⟨hlt, hnumber, -⟩ := number_eq_ok_iff.1 hnumber
  have hindex := strips_index_iff.2 ⟨hlt, cs₁, (token_eq_ok_iff (by rfl)).1 hpercent, hnumber⟩
  exact (hsign.mul hindex).mul (strips_of_linkPort hport)

lemma link_of_strips (h : Strips (Grammar.link l) cs rest) (goes : Goes rest) :
    link cs = .ok (l, rest) := by
  obtain ⟨cs₂, h, hport⟩ := strips_mul_iff.1 h
  obtain ⟨start, hsign, hindex⟩ := strips_mul_iff.1 h
  obtain ⟨hlt, cs₁, hpercent, hnumber⟩ := strips_index_iff.1 hindex
  have hnumber := number_eq_ok_iff.2 ⟨hlt, hnumber, stops_of_port hport goes⟩
  have tail : linkTail l.inverted start = .ok (l, rest) := by
    rw [linkTail, (token_eq_ok_iff (by rfl)).2 hpercent, ok_bind, hnumber, ok_bind]
    dsimp only
    rw [linkPort_of_strips hport goes, ok_bind]
  rw [link_eq]
  cases hinverted : l.inverted with
  | true =>
      rw [hinverted] at hsign tail
      rw [(tryToken_eq_some_iff (by rfl)).2 hsign]
      exact tail
  | false =>
      rw [hinverted] at hsign tail
      obtain rfl := Grammar.strips_one_iff.1 hsign
      have hnext := Grammar.next?_of_token hpercent (by rfl)
      rw [tryToken_eq_none (by rw [hnext]; decide) (by rfl)]
      exact tail

/-! ## Operands -/

lemma links_of_strips {fuel : Nat} (hne : ls ≠ []) (hfuel : ls.length ≤ fuel)
    (h : Strips (Grammar.separated ls * Grammar.token ")") cs rest) :
    links fuel cs = .ok (ls, rest) := by
  induction fuel generalizing ls cs with
  | zero => exact absurd (List.length_eq_zero_iff.1 (Nat.le_zero.1 hfuel)) hne
  | succ fuel ih =>
      obtain ⟨mid, hlinks, hclose⟩ := strips_mul_iff.1 h
      match ls, hlinks with
      | [l], hlink =>
          have hlink := link_of_strips hlink (goes_of_token hclose (by rfl))
          rw [links, hlink, ok_bind]
          dsimp only
          rw [(tryToken_eq_some_iff (by rfl)).2 hclose]
      | l :: m :: ls, hlinks =>
          obtain ⟨cs₂, hlinks, hrest⟩ := strips_mul_iff.1 hlinks
          obtain ⟨cs₁, hlink, hcomma⟩ := strips_mul_iff.1 hlinks
          have hlink := link_of_strips hlink (goes_of_token hcomma (by rfl))
          have hnext := Grammar.next?_of_token hcomma (by rfl)
          have hrest := ih (by simp) (Nat.le_of_succ_le_succ hfuel) (hrest.mul hclose)
          rw [links, hlink, ok_bind]
          dsimp only
          rw [tryToken_eq_none (by rw [hnext]; decide) (by rfl)]
          dsimp only
          rw [(token_eq_ok_iff (by rfl)).2 hcomma, ok_bind, hrest, ok_bind]

lemma strips_of_links {fuel : Nat} (h : links fuel cs = .ok (ls, rest)) :
    ls ≠ [] ∧ Strips (Grammar.separated ls * Grammar.token ")") cs rest := by
  induction fuel generalizing ls cs with
  | zero => cases h
  | succ fuel ih =>
      rw [links] at h
      obtain ⟨⟨l, cs₁⟩, hlink, h⟩ := bind_eq_ok_iff.1 h
      have hlink := strips_of_link hlink
      dsimp only at h
      split at h
      · rename_i hclose
        cases h
        exact ⟨by simp, hlink.mul ((tryToken_eq_some_iff (by rfl)).1 hclose)⟩
      · obtain ⟨cs₂, hcomma, h⟩ := bind_eq_ok_iff.1 h
        obtain ⟨⟨ls', cs₃⟩, hlinks, h⟩ := bind_eq_ok_iff.1 h
        cases h
        have hcomma := (token_eq_ok_iff (by rfl)).1 hcomma
        obtain ⟨hne, hlinks⟩ := ih hlinks
        obtain ⟨m, ls', rfl⟩ := List.exists_cons_of_ne_nil hne
        obtain ⟨mid, hlinks, hclose⟩ := strips_mul_iff.1 hlinks
        exact ⟨by simp, ((hlink.mul hcomma).mul hlinks).mul hclose⟩

/-- A token takes a character. -/
lemma length_lt_of_token (h : Strips (Grammar.token t) cs rest) (sharp : isSharp t = true) :
    rest.length < cs.length := by
  have hlength := congrArg List.length ((Grammar.strips_token_iff sharp).1 h)
  have hle := (List.dropWhile_suffix (l := cs) Text.isBlank).length_le
  obtain ⟨c, ts, ht, -⟩ := Grammar.exists_of_isSharp sharp
  rw [ht, List.length_append, List.length_cons, Text.skipBlanks] at hlength
  omega

lemma length_lt_of_index (h : Strips (Grammar.index n) cs rest) : rest.length < cs.length := by
  obtain ⟨-, mid, hpercent, hnumber⟩ := strips_index_iff.1 h
  exact hnumber.suffix.length_le.trans_lt (length_lt_of_token hpercent (by rfl))

lemma length_lt_of_link (h : Strips (Grammar.link l) cs rest) : rest.length < cs.length := by
  obtain ⟨cs₂, h, hport⟩ := strips_mul_iff.1 h
  obtain ⟨cs₁, hsign, hindex⟩ := strips_mul_iff.1 h
  exact (hport.suffix.length_le.trans_lt (length_lt_of_index hindex)).trans_le hsign.suffix.length_le

lemma length_le_of_separated (h : Strips (Grammar.separated ls) cs rest) :
    ls.length + rest.length ≤ cs.length := by
  induction ls generalizing cs with
  | nil =>
      rw [Grammar.strips_one_iff.1 h]
      exact (Nat.zero_add _).le
  | cons l ls ih =>
      cases ls with
      | nil =>
          have hlt := length_lt_of_link h
          rw [List.length_singleton]
          omega
      | cons m ls =>
          obtain ⟨cs₂, h, hrest⟩ := strips_mul_iff.1 h
          obtain ⟨cs₁, hlink, hcomma⟩ := strips_mul_iff.1 h
          have hlt := length_lt_of_link hlink
          have hle := hcomma.suffix.length_le
          have := ih hrest
          rw [List.length_cons]
          omega

/-- A list of links begins with a tilde or a percent sign. -/
lemma next?_of_separated (hne : ls ≠ []) (h : Strips (Grammar.separated ls) cs rest) :
    next? cs = some '~' ∨ next? cs = some '%' := by
  obtain ⟨l, mid, hlink⟩ : ∃ l mid, Strips (Grammar.link l) cs mid := by
    match ls, h with
    | [l], h => exact ⟨l, rest, h⟩
    | l :: m :: ls, h =>
        obtain ⟨cs₂, h, -⟩ := strips_mul_iff.1 h
        obtain ⟨cs₁, hlink, -⟩ := strips_mul_iff.1 h
        exact ⟨l, cs₁, hlink⟩
  obtain ⟨cs₂, h, -⟩ := strips_mul_iff.1 hlink
  obtain ⟨cs₁, hsign, hindex⟩ := strips_mul_iff.1 h
  cases hinverted : l.inverted with
  | true =>
      rw [hinverted] at hsign
      exact .inl (Grammar.next?_of_token hsign (by rfl))
  | false =>
      rw [hinverted] at hsign
      obtain rfl := Grammar.strips_one_iff.1 hsign
      obtain ⟨-, mid, hpercent, -⟩ := strips_index_iff.1 hindex
      exact .inr (Grammar.next?_of_token hpercent (by rfl))

lemma strips_operands_iff : Strips (Grammar.operands ls) cs rest ↔ (ls = [] ∧ cs = rest) ∨
    ∃ cs₁, Strips (Grammar.token "(") cs cs₁ ∧
      Strips (Grammar.separated ls * Grammar.token ")") cs₁ rest := by
  rw [Grammar.operands, Grammar.strips_add_iff, Grammar.strips_nothing_iff, mul_assoc, strips_mul_iff]

lemma strips_of_operands (h : operands cs = .ok (ls, rest)) :
    Strips (Grammar.operands ls) cs rest := by
  rw [strips_operands_iff]
  unfold operands at h
  split at h
  · cases h
    exact .inl ⟨rfl, rfl⟩
  · rename_i cs₁ hopen
    refine .inr ⟨cs₁, (tryToken_eq_some_iff (by rfl)).1 hopen, ?_⟩
    split at h
    · rename_i hclose
      cases h
      have hclose := (tryToken_eq_some_iff (by rfl)).1 hclose
      exact (Grammar.strips_one_iff.2 rfl).mul hclose
    · exact (strips_of_links h).2

/-- Where there are no parentheses, none must follow. -/
lemma operands_of_strips (h : Strips (Grammar.operands ls) cs rest) (hopen : next? rest ≠ some '(') :
    operands cs = .ok (ls, rest) := by
  rcases strips_operands_iff.1 h with ⟨rfl, rfl⟩ | ⟨cs₁, hopen, hlinks⟩
  · rw [operands, tryToken_eq_none hopen (by rfl)]
  · rw [operands, (tryToken_eq_some_iff (by rfl)).2 hopen]
    dsimp only
    obtain ⟨mid, hlist, hclose⟩ := strips_mul_iff.1 hlinks
    by_cases hne : ls = []
    · rw [hne] at hlist ⊢
      obtain rfl := Grammar.strips_one_iff.1 hlist
      rw [(tryToken_eq_some_iff (by rfl)).2 hclose]
    · have hnext : next? cs₁ ≠ some ')' := by
        rcases next?_of_separated hne hlist with h | h <;> rw [h] <;> decide
      rw [tryToken_eq_none hnext (by rfl)]
      have hle := length_le_of_separated hlist
      exact links_of_strips hne (by omega) hlinks

/-- Operands begin with a parenthesis, or what follows begins. -/
lemma goes_of_operands (h : Strips (Grammar.operands ls) cs rest) (goes : Goes rest) : Goes cs := by
  rcases strips_operands_iff.1 h with ⟨-, rfl⟩ | ⟨cs₁, hopen, -⟩
  · exact goes
  · exact goes_of_token hopen (by rfl)

end Reader

end Gatework
