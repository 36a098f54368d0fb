import Gatework.Proofs.Reader.Operands
import Gatework.Proofs.Reader.Printed

/-!
# The reader accepts exactly the grammar

The two directions for entries and for lists of them give both together for whole texts, behind which
nothing is left to read (`Reader.cells_eq_ok_iff`).  Whatever is wrong with a text is found at a place of
the text: a reader gives back the rest of the text where it failed, and this is always an end of the text
(`Reader.FailsIn`).  So the line and the column of a failure are those of a place between two characters.

**Main statement.** `Store.loadText_grammatical`.
-/

namespace Gatework

namespace Reader

open Grammar (Strips isSharp next? strips_mul_iff)

variable {cs rest : List Char} {t : String} {n : Nat}

/-! ## Entries -/

variable {store : Store} {cell : Cell} {k : Nat}

lemma strips_entry_iff : Strips (Grammar.entry store k cell) cs rest ↔ ∃ s, Grammar.Calls store s cell ∧
    Strips (Grammar.index k * Grammar.token "=" * Grammar.name s * Grammar.operands cell.links)
      cs rest := by
  constructor
  · rintro ⟨front, ⟨s, calls, hfront⟩, h⟩
    exact ⟨s, calls, front, hfront, h⟩
  · rintro ⟨s, calls, front, hfront, h⟩
    exact ⟨front, ⟨s, calls, hfront⟩, h⟩

lemma strips_of_entry (h : entry store k cs = .ok (cell, rest)) :
    Strips (Grammar.entry store k cell) cs rest := by
  rw [entry] at h
  obtain ⟨cs₁, hpercent, h⟩ := bind_eq_ok_iff.1 h
  obtain ⟨⟨got, cs₂⟩, hnumber, h⟩ := bind_eq_ok_iff.1 h
  dsimp only at h
  split at h
  · cases h
  rename_i hgot
  obtain ⟨cs₃, hequals, h⟩ := bind_eq_ok_iff.1 h
  obtain ⟨⟨s, cs₄⟩, hname, h⟩ := bind_eq_ok_iff.1 h
  dsimp only at h
  split at h
  · cases h
  rename_i t hfound
  obtain ⟨⟨ls, cs₅⟩, hoperands, h⟩ := bind_eq_ok_iff.1 h
  dsimp only at h
  split at h
  · cases h
  rename_i type htype
  split at h
  case isFalse => cases h
  rename_i harity
  cases h
  obtain ⟨hlt, hnumber, -⟩ := number_eq_ok_iff.1 hnumber
  have hindex := strips_index_iff.2 ⟨hlt, cs₁, (token_eq_ok_iff (by rfl)).1 hpercent, hnumber⟩
  rw [not_ne_iff.1 hgot] at hindex
  have hequals := (token_eq_ok_iff (by rfl)).1 hequals
  exact strips_entry_iff.2 ⟨s, ⟨t, type, hfound, htype, harity, rfl⟩,
    ((hindex.mul hequals).mul (name_eq_ok_iff.1 hname).1).mul (strips_of_operands hoperands)⟩

lemma entry_of_strips (h : Strips (Grammar.entry store k cell) cs rest) (goes : Goes rest)
    (hopen : next? rest ≠ some '(') : entry store k cs = .ok (cell, rest) := by
  obtain ⟨s, ⟨t, type, hfound, htype, harity, hkind⟩, h⟩ := strips_entry_iff.1 h
  obtain ⟨cs₄, h, hoperands⟩ := strips_mul_iff.1 h
  obtain ⟨cs₃, h, hname⟩ := strips_mul_iff.1 h
  obtain ⟨cs₂, hindex, hequals⟩ := strips_mul_iff.1 h
  obtain ⟨hlt, cs₁, hpercent, hnumber⟩ := strips_index_iff.1 hindex
  have hequal : Goes cs₂ := goes_of_token hequals (by rfl)
  have hnumber := number_eq_ok_iff.2 ⟨hlt, hnumber, hequal.stops_isDigit⟩
  have hname := name_eq_ok_iff.2 ⟨hname, (goes_of_operands hoperands goes).stops_isNamePart⟩
  simp only [entry, (token_eq_ok_iff (by rfl)).2 hpercent, hnumber,
    (token_eq_ok_iff (by rfl)).2 hequals, hname, hfound, operands_of_strips hoperands hopen, htype,
    harity, hkind, ok_bind, ne_eq, not_true_eq_false, if_false, if_true]

lemma next?_of_entry (h : Strips (Grammar.entry store k cell) cs rest) : next? cs = some '%' := by
  obtain ⟨s, -, h⟩ := strips_entry_iff.1 h
  obtain ⟨cs₄, h, -⟩ := strips_mul_iff.1 h
  obtain ⟨cs₃, h, -⟩ := strips_mul_iff.1 h
  obtain ⟨cs₂, hindex, -⟩ := strips_mul_iff.1 h
  obtain ⟨-, cs₁, hpercent, -⟩ := strips_index_iff.1 hindex
  exact Grammar.next?_of_token hpercent (by rfl)

lemma length_lt_of_entry (h : Strips (Grammar.entry store k cell) cs rest) :
    rest.length < cs.length := by
  obtain ⟨s, -, h⟩ := strips_entry_iff.1 h
  obtain ⟨cs₄, h, hoperands⟩ := strips_mul_iff.1 h
  obtain ⟨cs₃, h, hname⟩ := strips_mul_iff.1 h
  obtain ⟨cs₂, hindex, hequals⟩ := strips_mul_iff.1 h
  have hlt := length_lt_of_index hindex
  have := hequals.suffix.length_le
  have := hname.suffix.length_le
  have := hoperands.suffix.length_le
  omega

variable {new : List Cell} {read : Array Cell}

lemma length_le_of_entries (h : Strips (Grammar.entries store k new) cs rest) :
    new.length + rest.length ≤ cs.length := by
  induction new generalizing cs k with
  | nil =>
      rw [Grammar.strips_one_iff.1 h]
      exact (Nat.zero_add _).le
  | cons cell new ih =>
      obtain ⟨mid, hentry, hrest⟩ := strips_mul_iff.1 h
      have hlt := length_lt_of_entry hentry
      have := ih hrest
      rw [List.length_cons]
      omega

/-- Behind an entry there is another one or the closing brace. -/
lemma next?_of_entries {mid : List Char} (h : Strips (Grammar.entries store k new) cs mid)
    (hbrace : Strips (Grammar.token "\x7d") mid rest) :
    next? cs = some '%' ∨ next? cs = some '\x7d' := by
  cases new with
  | nil =>
      rw [Grammar.strips_one_iff.1 h]
      exact .inr (Grammar.next?_of_token hbrace (by rfl))
  | cons cell new =>
      obtain ⟨_, hentry, -⟩ := strips_mul_iff.1 h
      exact .inl (next?_of_entry hentry)

lemma entries_of_strips {fuel : Nat} {mid : List Char} (hfuel : new.length < fuel)
    (h : Strips (Grammar.entries store read.size new) cs mid)
    (hbrace : Strips (Grammar.token "\x7d") mid rest) :
    entries store fuel read cs = .ok (read ++ new.toArray, rest) := by
  induction new generalizing read cs fuel with
  | nil =>
      obtain ⟨fuel, rfl⟩ : ∃ k, fuel = k + 1 := Nat.exists_eq_succ_of_ne_zero (Nat.ne_zero_of_lt hfuel)
      rw [Grammar.strips_one_iff.1 h, entries, (tryToken_eq_some_iff (by rfl)).2 hbrace,
        Array.append_empty]
  | cons cell new ih =>
      obtain ⟨fuel, rfl⟩ : ∃ k, fuel = k + 1 := Nat.exists_eq_succ_of_ne_zero (Nat.ne_zero_of_lt hfuel)
      obtain ⟨cs₁, hentry, hrest⟩ := strips_mul_iff.1 h
      have hnext := next?_of_entry hentry
      have goes : Goes cs₁ := by
        rcases next?_of_entries hrest hbrace with h | h
        · exact ⟨'%', by decide, h⟩
        · exact ⟨'\x7d', by decide, h⟩
      have hopen : next? cs₁ ≠ some '(' := by
        rcases next?_of_entries hrest hbrace with h | h <;> rw [h] <;> decide
      rw [entries, tryToken_eq_none (by rw [hnext]; decide) (by rfl)]
      dsimp only
      rw [entry_of_strips hentry goes hopen, ok_bind]
      dsimp only
      rw [ih (Nat.lt_of_succ_lt_succ hfuel) (by rwa [Array.size_push])]
      simp

lemma strips_of_entries {fuel : Nat} {cells : Array Cell}
    (h : entries store fuel read cs = .ok (cells, rest)) :
    ∃ new, cells = read ++ new.toArray ∧
      Strips (Grammar.entries store read.size new * Grammar.token "\x7d") cs rest := by
  induction fuel generalizing read cs with
  | zero => cases h
  | succ fuel ih =>
      rw [entries] at h
      split at h
      · rename_i hbrace
        cases h
        have hbrace := (tryToken_eq_some_iff (by rfl)).1 hbrace
        exact ⟨[], by simp, (Grammar.strips_one_iff.2 rfl).mul hbrace⟩
      · obtain ⟨⟨cell, cs₁⟩, hentry, h⟩ := bind_eq_ok_iff.1 h
        obtain ⟨new, hcells, hrest⟩ := ih h
        obtain ⟨mid, hrest, hbrace⟩ := strips_mul_iff.1 hrest
        rw [Array.size_push] at hrest
        exact ⟨cell :: new, by simp [hcells], ((strips_of_entry hentry).mul hrest).mul hbrace⟩

/-! ## Networks -/

/-- The cells that are read from a whole text are those that it is a text of. -/
theorem cells_eq_ok_iff {text : List Char} {cells : Array Cell} :
    Reader.cells store text = .ok cells ↔ text ∈ Grammar.network store cells.toList := by
  rw [← Grammar.strips_nil_right_iff]
  constructor
  · intro h
    rw [Reader.cells] at h
    obtain ⟨cs₁, hsubnet, h⟩ := bind_eq_ok_iff.1 h
    obtain ⟨cs₂, hbrace, h⟩ := bind_eq_ok_iff.1 h
    obtain ⟨⟨read, cs₃⟩, hentries, h⟩ := bind_eq_ok_iff.1 h
    dsimp only at h
    split at h
    case isFalse => cases h
    rename_i hblank
    cases h
    obtain ⟨new, hcells, hentries⟩ := strips_of_entries hentries
    obtain ⟨mid, hentries, hclose⟩ := strips_mul_iff.1 hentries
    have hend : Strips Grammar.blanks cs₃ [] := by
      rw [← List.isEmpty_iff.1 hblank]
      exact Grammar.strips_skipBlanks cs₃
    rw [hcells, Array.empty_append, List.toList_toArray]
    exact (((((token_eq_ok_iff (by rfl)).1 hsubnet).mul ((token_eq_ok_iff (by rfl)).1 hbrace)).mul
      hentries).mul hclose).mul hend
  · intro h
    obtain ⟨cs₄, h, hend⟩ := strips_mul_iff.1 h
    obtain ⟨cs₃, h, hclose⟩ := strips_mul_iff.1 h
    obtain ⟨cs₂, h, hentries⟩ := strips_mul_iff.1 h
    obtain ⟨cs₁, hsubnet, hbrace⟩ := strips_mul_iff.1 h
    have hle := length_le_of_entries hentries
    have hread : Reader.entries store (cs₂.length + 1) #[] cs₂ =
        .ok (#[] ++ cells.toList.toArray, cs₄) := entries_of_strips (by omega) hentries hclose
    have hend := Grammar.skipBlanks_of_strips hend
    simp only [Reader.cells, (token_eq_ok_iff (by rfl)).2 hsubnet, (token_eq_ok_iff (by rfl)).2 hbrace,
      hread, hend, ok_bind]
    simp [Text.skipBlanks]

/-! ## Places of failures -/

/-- If a reader of a text fails, it does so at a place of the text. -/
def FailsIn {α : Type} (cs : List Char) (x : Except Stop α) : Prop :=
  ∀ stop, x = .error stop → stop.rest <:+ cs

section Failures

variable {α β : Type} {x : Except Stop α} {f : α → Except Stop β} {cs' : List Char}

lemma failsIn_ok (a : α) : FailsIn cs (.ok a) := nofun

lemma failsIn_error {stop : Stop} (h : stop.rest <:+ cs) : FailsIn cs (.error stop : Except Stop α) := by
  rintro _ ⟨⟩
  exact h

lemma FailsIn.mono (h : FailsIn cs x) (hcs : cs <:+ cs') : FailsIn cs' x :=
  fun stop hstop => (h stop hstop).trans hcs

lemma FailsIn.bind (h : FailsIn cs x) (hf : ∀ a, x = .ok a → FailsIn cs (f a)) :
    FailsIn cs (x >>= f) := by
  intro stop hstop
  cases hx : x with
  | error stop' =>
      rw [hx] at hstop
      cases hstop
      exact h stop hx
  | ok a =>
      rw [hx] at hstop
      exact hf a hx stop hstop

lemma suffix_skipBlanks (cs : List Char) : Text.skipBlanks cs <:+ cs := List.dropWhile_suffix _

lemma failsIn_token (t : String) (cs : List Char) : FailsIn cs (token t cs) := by
  rw [token]
  split
  · exact failsIn_ok _
  · exact failsIn_error (suffix_skipBlanks cs)

lemma failsIn_name (cs : List Char) : FailsIn cs (name cs) := by
  rw [name]
  split
  · exact failsIn_error (List.nil_suffix)
  · rename_i c rest hcs
    split
    · exact failsIn_ok _
    · exact failsIn_error (hcs ▸ suffix_skipBlanks cs)

lemma failsIn_number (cs : List Char) : FailsIn cs (number cs) := by
  simp only [number]
  split
  · exact failsIn_error (suffix_skipBlanks cs)
  · split
    · exact failsIn_ok _
    · exact failsIn_error (suffix_skipBlanks cs)

lemma suffix_of_number (h : number cs = .ok (n, rest)) : rest <:+ cs :=
  (number_eq_ok_iff.1 h).2.1.suffix

lemma suffix_of_token (h : token t cs = .ok rest) (sharp : isSharp t = true) :
    rest <:+ cs :=
  ((token_eq_ok_iff sharp).1 h).suffix

lemma suffix_of_tryToken (h : tryToken t cs = some rest) (sharp : isSharp t = true) :
    rest <:+ cs :=
  ((tryToken_eq_some_iff sharp).1 h).suffix

lemma failsIn_linkPort (cs : List Char) : FailsIn cs (linkPort cs) := by
  unfold linkPort
  split
  · rename_i rest
    refine FailsIn.mono ?_ (List.suffix_cons '.' rest)
    refine (failsIn_number rest).bind ?_
    rintro ⟨n, rest'⟩ hnumber
    dsimp only
    split
    · exact failsIn_ok _
    · exact failsIn_error (suffix_of_number hnumber)
  · exact failsIn_ok _

lemma failsIn_link (cs : List Char) : FailsIn cs (link cs) := by
  have tail : ∀ (inverted : Bool) start, start <:+ cs → FailsIn cs (linkTail inverted start) := by
    intro inverted start hstart
    refine ((failsIn_token "%" start).mono hstart).bind fun cs₁ hpercent => ?_
    have hcs₁ := (suffix_of_token hpercent (by rfl)).trans hstart
    refine ((failsIn_number cs₁).mono hcs₁).bind ?_
    rintro ⟨n, cs₂⟩ hnumber
    have hcs₂ := (suffix_of_number hnumber).trans hcs₁
    exact ((failsIn_linkPort cs₂).mono hcs₂).bind fun _ _ => failsIn_ok _
  rw [link_eq]
  cases htilde : tryToken "~" cs with
  | some rest => exact tail true _ (suffix_of_tryToken htilde (by rfl))
  | none => exact tail false _ List.suffix_rfl

lemma failsIn_links (fuel : Nat) (cs : List Char) : FailsIn cs (links fuel cs) := by
  induction fuel generalizing cs with
  | zero => exact failsIn_error List.suffix_rfl
  | succ fuel ih =>
      rw [links]
      refine (failsIn_link cs).bind ?_
      rintro ⟨l, cs₁⟩ hlink
      have hcs₁ : cs₁ <:+ cs := (strips_of_link hlink).suffix
      dsimp only
      split
      · exact failsIn_ok _
      · refine ((failsIn_token "," cs₁).mono hcs₁).bind fun cs₂ hcomma => ?_
        have hcs₂ := (suffix_of_token hcomma (by rfl)).trans hcs₁
        exact ((ih cs₂).mono hcs₂).bind fun _ _ => failsIn_ok _

lemma failsIn_operands (cs : List Char) : FailsIn cs (operands cs) := by
  unfold operands
  split
  · exact failsIn_ok _
  · rename_i rest hopen
    split
    · exact failsIn_ok _
    · exact (failsIn_links _ rest).mono (suffix_of_tryToken hopen (by rfl))

lemma failsIn_entry (store : Store) (k : Nat) (cs : List Char) : FailsIn cs (entry store k cs) := by
  rw [entry]
  refine (failsIn_token "%" cs).bind fun cs₁ hpercent => ?_
  have hcs₁ := suffix_of_token hpercent (by rfl)
  refine ((failsIn_number cs₁).mono hcs₁).bind ?_
  rintro ⟨got, cs₂⟩ hnumber
  have hcs₂ := (suffix_of_number hnumber).trans hcs₁
  dsimp only
  split
  · exact failsIn_error (suffix_skipBlanks cs)
  refine ((failsIn_token "=" cs₂).mono hcs₂).bind fun cs₃ hequals => ?_
  have hcs₃ := (suffix_of_token hequals (by rfl)).trans hcs₂
  have hstart := (suffix_skipBlanks cs₃).trans hcs₃
  refine ((failsIn_name cs₃).mono hcs₃).bind ?_
  rintro ⟨s, cs₄⟩ hname
  have hcs₄ := (name_eq_ok_iff.1 hname).1.suffix.trans hcs₃
  dsimp only
  split
  · exact failsIn_error hstart
  refine ((failsIn_operands cs₄).mono hcs₄).bind ?_
  rintro ⟨ls, cs₅⟩ -
  dsimp only
  split
  · exact failsIn_error hstart
  · split
    · exact failsIn_ok _
    · exact failsIn_error hstart

lemma failsIn_entries (store : Store) (fuel : Nat) (read : Array Cell) (cs : List Char) :
    FailsIn cs (entries store fuel read cs) := by
  induction fuel generalizing read cs with
  | zero => exact failsIn_error List.suffix_rfl
  | succ fuel ih =>
      rw [entries]
      split
      · exact failsIn_ok _
      · refine (failsIn_entry store read.size cs).bind ?_
        rintro ⟨cell, cs₁⟩ hentry
        exact (ih _ cs₁).mono (strips_of_entry hentry).suffix

/-- Whatever is wrong with a text is found at a place of the text. -/
theorem failsIn_cells (store : Store) (text : List Char) : FailsIn text (Reader.cells store text) := by
  rw [Reader.cells]
  refine (failsIn_token "subnet" text).bind fun cs₁ hsubnet => ?_
  have hcs₁ := suffix_of_token hsubnet (by rfl)
  refine ((failsIn_token "\x7b" cs₁).mono hcs₁).bind fun cs₂ hbrace => ?_
  have hcs₂ := (suffix_of_token hbrace (by rfl)).trans hcs₁
  refine ((failsIn_entries store _ #[] cs₂).mono hcs₂).bind ?_
  rintro ⟨read, cs₃⟩ hentries
  obtain ⟨new, -, hentries⟩ := strips_of_entries hentries
  dsimp only
  split
  · exact failsIn_ok _
  · exact failsIn_error ((suffix_skipBlanks cs₃).trans (hentries.suffix.trans hcs₂))

end Failures

end Reader

namespace Store

variable {store : Store} {text : String} {net : Subnet}

/-- The network that is read is the one that the text is a text of. -/
lemma read_eq_ok_iff :
    store.read text = .ok net ↔ text.toList ∈ Grammar.network store net.cells.toList := by
  rw [← Reader.cells_eq_ok_iff]
  constructor
  · intro h
    unfold read at h
    split at h
    · cases h
    · rename_i cells hcells
      split at h
      · rename_i hnet
        cases h
        rwa [(Subnet.ofCells_eq_ok_iff.1 hnet).1]
      · cases h
  · intro h
    rw [read, h]
    dsimp only
    rw [net.ofCells_cells]

/-- Reading a text accepts exactly the grammar.  A text of cells that are in order is read as the network
of these cells, which is added to the store, and nothing else is.  Any other text leaves the store as it
is; and where the characters do not fit the grammar, the failure is reported with the line and the column
of a place in the text, the one where the reader stands. -/
theorem loadText_grammatical (store : Store) (text : String) :
    (∀ cells, text.toList ∈ Grammar.network store cells ∧ Grammar.Ordered cells ↔
      ∃ net : Subnet, net.cells.toList = cells ∧
        store.loadText text = ((store.addSubnet net).1, .ok net)) ∧
    ((∃ cells, text.toList ∈ Grammar.network store cells ∧ Grammar.Ordered cells) ∨
      ∃ e, store.loadText text = (store, .error e)) ∧
    ∀ stop, Reader.cells store text.toList = .error stop → ∃ front, front ++ stop.rest = text.toList ∧
      store.loadText text = (store, .error ⟨stop.failure, some (.after front)⟩) := by
  refine ⟨fun cells => ⟨?_, ?_⟩, ?_, fun stop hstop => ?_⟩
  · rintro ⟨htext, ordered⟩
    obtain ⟨net, rfl⟩ := Grammar.ordered_iff.1 ordered
    exact ⟨net, rfl, by rw [loadText, read_eq_ok_iff.2 htext]⟩
  · rintro ⟨net, rfl, h⟩
    cases hread : store.read text with
    | ok read =>
        rw [loadText, hread] at h
        cases (Prod.mk.inj h).2
        exact ⟨read_eq_ok_iff.1 hread, Grammar.ordered_iff.2 ⟨net, rfl⟩⟩
    | error e =>
        rw [loadText, hread] at h
        cases (Prod.mk.inj h).2
  · cases hread : store.read text with
    | ok net => exact .inl ⟨_, read_eq_ok_iff.1 hread, Grammar.ordered_iff.2 ⟨net, rfl⟩⟩
    | error e => exact .inr ⟨e, by rw [loadText, hread]⟩
  · obtain ⟨front, hfront⟩ := Reader.failsIn_cells store text.toList stop hstop
    have hread : store.read text = .error ⟨stop.failure, some (.after front)⟩ := by
      rw [read, hstop]
      simp [← hfront]
    exact ⟨front, hfront, by rw [loadText, hread]⟩

end Store

end Gatework
