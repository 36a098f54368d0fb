import Mathlib.Computability.Language
import Gatework.Proofs.Reader.Tokens
import Gatework.Proofs.Subnet

/-!
# The grammar of the text form

The text form of a network, given as languages over characters and without a reader in mind.  Blanks
belong to the token behind them; only the dot of a port has none in front of it.  Numbers may have
leading zeros.  That a name or a number ends where the next token begins needs no rule: no token that
may stand behind one goes on with a letter or a digit.

`Grammar.network store cells` has the texts of a list of cells, be they in order or not; whether they
make a network is said by `Grammar.Ordered`.

What is left when a word of a language is taken off the front of a text (`Grammar.Strips`) composes along
products, which is how the readers are compared with the grammar.
-/

namespace Gatework

namespace Grammar

open Reader (entryLimit IsName)

/-! ## Languages -/

/-- The empty text, under a condition. -/
def nothing (p : Prop) : Language Char := {cs | p ∧ cs = []}

/-- Any number of blanks. -/
def blanks : Language Char := {cs | ∀ c ∈ cs, Text.isBlank c = true}

/-- A token, which blanks may precede. -/
def token (t : String) : Language Char := blanks * {t.toList}

/-- Decimal digits. -/
def digits (n : Nat) : Language Char :=
  {ds | ds ≠ [] ∧ (∀ d ∈ ds, d.isDigit = true) ∧ Reader.decimal ds = n}

/-- A number, which blanks may precede. -/
def numeral (n : Nat) : Language Char := blanks * digits n

/-- The percent sign and the number of an entry, which has thirty-two bits. -/
def index (n : Nat) : Language Char := {cs | n < entryLimit ∧ cs ∈ token "%" * numeral n}

/-- A dot and the number of a port.  The first port need not be mentioned. -/
def port (p : UInt16) : Language Char := nothing (p = 0) + {['.']} * numeral p.toNat

/-- A link, with a tilde if it is complemented. -/
def link (l : Link) : Language Char :=
  (if l.inverted then token "~" else 1) * index l.entry * port l.port

/-- Links with commas between them. -/
def separated : List Link → Language Char
  | [] => 1
  | [l] => link l
  | l :: m :: ls => link l * token "," * separated (m :: ls)

/-- The operands of an entry, in parentheses.  Where there are none, the parentheses may be left out. -/
def operands (ls : List Link) : Language Char :=
  nothing (ls = []) + token "(" * separated ls * token ")"

/-- The name of a type of cells. -/
def name (s : String) : Language Char := {cs | IsName s ∧ cs ∈ token s}

/-- A name is that of the type of a cell, and the type takes as many operands as the cell has. -/
def Calls (store : Store) (s : String) (c : Cell) : Prop :=
  ∃ t type, store.findType? s = some t ∧ store.types[t]? = some type ∧
    type.accepts c.links.length = true ∧ type.kindAt t = c.kind

/-- Entry number `k`. -/
def entry (store : Store) (k : Nat) (c : Cell) : Language Char :=
  {cs | ∃ s, Calls store s c ∧ cs ∈ index k * token "=" * name s * operands c.links}

/-- Entries that are numbered from `k`. -/
def entries (store : Store) : (k : Nat) → List Cell → Language Char
  | _, [] => 1
  | k, c :: cs => entry store k c * entries store (k + 1) cs

/-- The whole text. -/
def network (store : Store) (cells : List Cell) : Language Char :=
  token "subnet" * token "\x7b" * entries store 0 cells * token "\x7d" * blanks

/-- Some entries at the front are the inputs, some at the back are the outputs, and every link names an
earlier entry that is not an output. -/
def Ordered (cells : List Cell) : Prop :=
  ∃ inputs outputs, inputs + outputs ≤ cells.length ∧ ∀ (i : Nat) c, cells[i]? = some c →
    (c.isInput = true ↔ i < inputs) ∧ (c.isOutput = true ↔ cells.length - outputs ≤ i) ∧
    ∀ l ∈ c.links, l.entry < i ∧ ∀ d, cells[l.entry]? = some d → d.isOutput = false

/-- The cells that are in order are those of networks. -/
lemma ordered_iff {cells : List Cell} : Ordered cells ↔ ∃ net : Subnet, net.cells.toList = cells := by
  constructor
  · rintro ⟨inputs, outputs, hle, obeys⟩
    refine ⟨⟨cells.toArray, inputs, outputs, Subnet.violation?_eq_none_iff.2 ⟨hle, fun i c hc => ?_⟩⟩, rfl⟩
    obtain ⟨hin, hout, hlinks⟩ := obeys i c (by simpa using hc)
    refine ⟨hin, hout, fun d hd => ?_, fun d hd e he => ?_⟩
    all_goals obtain ⟨l, hl, rfl⟩ := List.mem_map.1 hd
    · exact (hlinks l hl).1
    · exact (hlinks l hl).2 e (by simpa using he)
  · rintro ⟨net, rfl⟩
    refine ⟨net.numInputs, net.numOutputs, net.numInputs_add_numOutputs_le, fun i c hc => ?_⟩
    have obeys := net.obeys (show net.cells[i]? = some c by simpa using hc)
    refine ⟨obeys.isInput_iff, obeys.isOutput_iff, fun l hl => ?_⟩
    have hl : l.entry ∈ c.drivers := List.mem_map_of_mem hl
    exact ⟨obeys.lt_of_reads _ hl, fun d hd => obeys.isDriver_of_reads _ hl d (by simpa using hd)⟩

/-! ## Taking words off the front -/

/-- A word of a language stands at the front of a text, and `rest` is behind it. -/
def Strips (L : Language Char) (cs rest : List Char) : Prop := ∃ front ∈ L, front ++ rest = cs

variable {L M : Language Char} {cs rest : List Char} {t : String}

lemma strips_mul_iff : Strips (L * M) cs rest ↔ ∃ mid, Strips L cs mid ∧ Strips M mid rest := by
  constructor
  · rintro ⟨front, hfront, rfl⟩
    obtain ⟨a, ha, b, hb, rfl⟩ := Language.mem_mul.1 hfront
    exact ⟨b ++ rest, ⟨a, ha, (List.append_assoc ..).symm⟩, b, hb, rfl⟩
  · rintro ⟨mid, ⟨a, ha, rfl⟩, b, hb, rfl⟩
    exact ⟨a ++ b, Language.append_mem_mul ha hb, List.append_assoc ..⟩

lemma Strips.mul {mid : List Char} (h : Strips L cs mid) (h' : Strips M mid rest) :
    Strips (L * M) cs rest := strips_mul_iff.2 ⟨mid, h, h'⟩

lemma strips_add_iff : Strips (L + M) cs rest ↔ Strips L cs rest ∨ Strips M cs rest := by
  constructor
  · rintro ⟨front, hfront | hfront, h⟩
    · exact .inl ⟨front, hfront, h⟩
    · exact .inr ⟨front, hfront, h⟩
  · rintro (⟨front, hfront, h⟩ | ⟨front, hfront, h⟩)
    · exact ⟨front, .inl hfront, h⟩
    · exact ⟨front, .inr hfront, h⟩

/-- Nothing is taken off. -/
lemma strips_one_iff : Strips 1 cs rest ↔ cs = rest := by
  constructor
  · rintro ⟨front, rfl, rfl⟩
    rfl
  · rintro rfl
    exact ⟨[], rfl, rfl⟩

lemma strips_nothing_iff {p : Prop} : Strips (nothing p) cs rest ↔ p ∧ cs = rest := by
  constructor
  · rintro ⟨front, ⟨hp, rfl⟩, rfl⟩
    exact ⟨hp, rfl⟩
  · rintro ⟨hp, rfl⟩
    exact ⟨[], ⟨hp, rfl⟩, rfl⟩

/-- One word is taken off. -/
lemma strips_singleton_iff {w : List Char} : Strips {w} cs rest ↔ w ++ rest = cs := by
  constructor
  · rintro ⟨front, rfl, h⟩
    exact h
  · exact fun h => ⟨w, rfl, h⟩

/-- A word belongs to a language if nothing is left of it. -/
lemma strips_nil_right_iff : Strips L cs [] ↔ cs ∈ L := by
  constructor
  · rintro ⟨front, hfront, rfl⟩
    rwa [List.append_nil]
  · exact fun h => ⟨cs, h, List.append_nil cs⟩

lemma Strips.suffix (h : Strips L cs rest) : rest <:+ cs := by
  obtain ⟨front, -, rfl⟩ := h
  exact List.suffix_append front rest

/-! ## What comes next -/

/-- The first character that is not a blank. -/
def next? (cs : List Char) : Option Char := (Text.skipBlanks cs).head?

lemma skipBlanks_of_strips (h : Strips blanks cs rest) : Text.skipBlanks cs = Text.skipBlanks rest := by
  obtain ⟨bs, hbs, rfl⟩ := h
  rw [Text.skipBlanks, List.dropWhile_append_of_pos hbs, Text.skipBlanks]

lemma strips_skipBlanks (cs : List Char) : Strips blanks cs (Text.skipBlanks cs) :=
  ⟨cs.takeWhile Text.isBlank, fun _ hc => List.mem_takeWhile_imp hc, List.takeWhile_append_dropWhile⟩

/-- Blanks are skipped up to something that is not a blank. -/
lemma strips_blanks_mul_iff (hsharp : ∀ w ∈ L, ∃ c ts, w = c :: ts ∧ Text.isBlank c = false) :
    Strips (blanks * L) cs rest ↔ Strips L (Text.skipBlanks cs) rest := by
  rw [strips_mul_iff]
  constructor
  · rintro ⟨mid, hblanks, w, hw, rfl⟩
    refine ⟨w, hw, ?_⟩
    rw [skipBlanks_of_strips hblanks]
    obtain ⟨c, ts, rfl, hc⟩ := hsharp w hw
    exact (Text.skipBlanks_cons hc _).symm
  · exact fun h => ⟨_, strips_skipBlanks cs, h⟩

/-- A token has characters, and the first of them is no blank. -/
def isSharp (t : String) : Bool := t.toList.head?.any fun c => !Text.isBlank c

lemma exists_of_isSharp (sharp : isSharp t = true) :
    ∃ c ts, t.toList = c :: ts ∧ Text.isBlank c = false := by
  rw [isSharp, Option.any_eq_true] at sharp
  obtain ⟨c, hc, hblank⟩ := sharp
  exact ⟨c, _, List.eq_cons_of_mem_head? hc, by simpa using hblank⟩

lemma strips_token_iff (sharp : isSharp t = true) :
    Strips (token t) cs rest ↔ t.toList ++ rest = Text.skipBlanks cs := by
  rw [token, strips_blanks_mul_iff, strips_singleton_iff]
  rintro _ rfl
  exact exists_of_isSharp sharp

lemma next?_of_token (h : Strips (token t) cs rest) (sharp : isSharp t = true) :
    next? cs = t.toList.head? := by
  obtain ⟨c, ts, ht, -⟩ := exists_of_isSharp sharp
  rw [next?, ← (strips_token_iff sharp).1 h, ht]
  rfl

/-- Blanks and characters that are not of a kind end a run of this kind. -/
lemma stops_of_next? {p : Char → Bool} (hblank : ∀ b, Text.isBlank b = true → p b = false)
    (h : ∀ d ∈ next? cs, p d = false) : Reader.Stops p cs := by
  intro d hd
  by_cases hb : Text.isBlank d = true
  · exact hblank d hb
  · refine h d ?_
    obtain ⟨ds, rfl⟩ := List.head?_eq_some_iff.1 hd
    rw [next?, Text.skipBlanks_cons (Bool.eq_false_iff.2 hb)]
    rfl

end Grammar

end Gatework
