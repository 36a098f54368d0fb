import Mathlib.Algebra.Group.Nat.Defs
import Gatework.Proofs.Reader.Tokens
import Gatework.Proofs.Types

/-!
# Printed networks are read back

The printed form of a link, of the operands of a cell, of an entry and of all entries, each read back
by its reader with what stands behind it.  A line is taken together with the line break in front of it:
then an entry ends with a name or a parenthesis, and what stands behind it is either the next line or
the closing brace.

**Main statement.** `Store.read_render`.
-/

namespace Gatework

namespace Reader

variable {rest : List Char} {l : Link} {ls : List Link}

/-! ## Links -/

lemma linkPort_text {p : UInt16} (ends : Ends rest) :
    linkPort ((if p = 0 then [] else '.' :: Nat.toDigits 10 p.toNat) ++ rest) = .ok (p, rest) := by
  split
  · rename_i hp
    have nodot : ∀ cs, rest ≠ '.' :: cs := by
      rintro cs rfl
      exact absurd (ends '.' rfl) (by decide)
    rw [List.nil_append, linkPort, hp]
    exact nodot
  · rw [List.cons_append, linkPort, port_toDigits ends]

lemma toList_text (l : Link) : l.text.toList = (if l.inverted then ['~', '%'] else ['%']) ++
    (Nat.toDigits 10 l.entry ++
      if l.port = 0 then [] else '.' :: Nat.toDigits 10 l.port.toNat) := by
  rw [Link.text]
  split <;> split <;> simp

/-- The polarity of a link is told from what stands in front of the percent sign. -/
lemma link_sign (inverted : Bool) (cs : List Char) :
    link ((if inverted then ['~', '%'] else ['%']) ++ cs) = (do
      let (entry, cs) ← number cs
      let (port, cs) ← linkPort cs
      .ok ({ entry, port, inverted }, cs)) := by
  cases inverted <;> rfl

/-- A link is read back. -/
lemma link_text (hl : l.entry < entryLimit) (ends : Ends rest) :
    link (l.text.toList ++ rest) = .ok (l, rest) := by
  have stops : Stops Char.isDigit
      ((if l.port = 0 then [] else '.' :: Nat.toDigits 10 l.port.toNat) ++ rest) := by
    split
    · exact ends.stops rfl
    · rintro c ⟨⟩
      rfl
  rw [toList_text, List.append_assoc, List.append_assoc, link_sign, number_toDigits hl stops, ok_bind]
  dsimp only
  rw [linkPort_text ends, ok_bind]

lemma link_blank (cs : List Char) : link (' ' :: cs) = link cs := by
  have htilde : tryToken "~" (' ' :: cs) = tryToken "~" cs := rfl
  rw [link, link, htilde]
  cases tryToken "~" cs <;> rfl

/-! ## Operands -/

/-- The text of the links behind the first one. -/
def furtherLinks (ls : List Link) : List Char := ls.flatMap fun l => ',' :: ' ' :: l.text.toList

lemma toList_intercalate (l : Link) (ls : List Link) :
    (", ".intercalate ((l :: ls).map Link.text)).toList = l.text.toList ++ furtherLinks ls := by
  rw [String.toList_intercalate]
  induction ls generalizing l with
  | nil => simp [List.intercalate, furtherLinks]
  | cons m ls ih =>
      have hm := ih m
      simp only [List.intercalate, List.map_cons, List.intersperse_cons_cons, List.flatten_cons]
        at hm ⊢
      rw [hm]
      rfl

/-- Every link takes a character, so there is fuel for all of them. -/
lemma length_le_furtherLinks (ls : List Link) : ls.length ≤ (furtherLinks ls).length := by
  induction ls with
  | nil => exact le_refl 0
  | cons l ls ih =>
      rw [furtherLinks] at ih ⊢
      rw [List.flatMap_cons, List.length_append, List.length_cons, List.length_cons]
      omega

lemma links_blank (fuel : Nat) (cs : List Char) :
    links (fuel + 1) (' ' :: cs) = links (fuel + 1) cs := by
  rw [links, links, link_blank]

/-- The links of an operand list are read back. -/
lemma links_text {fuel : Nat} (hfuel : ls.length ≤ fuel) (h : ∀ m ∈ l :: ls, m.entry < entryLimit) :
    links (fuel + 1) (l.text.toList ++ (furtherLinks ls ++ ')' :: rest)) = .ok (l :: ls, rest) := by
  induction ls generalizing l fuel with
  | nil =>
      have ends : Ends (')' :: rest) := ends_cons (by decide) rest
      rw [links, furtherLinks, List.flatMap_nil, List.nil_append,
        link_text (h l List.mem_cons_self) ends, ok_bind]
      rfl
  | cons m ls ih =>
      obtain ⟨fuel, rfl⟩ : ∃ k, fuel = k + 1 := Nat.exists_eq_succ_of_ne_zero (Nat.ne_zero_of_lt hfuel)
      have further : furtherLinks (m :: ls) ++ ')' :: rest =
          ',' :: ' ' :: (m.text.toList ++ (furtherLinks ls ++ ')' :: rest)) := by
        simp [furtherLinks]
      have ends : Ends (',' :: ' ' :: (m.text.toList ++ (furtherLinks ls ++ ')' :: rest))) :=
        ends_cons (by decide) _
      have another : ∀ cs, tryToken ")" (',' :: cs) = none := fun _ => rfl
      have comma : ∀ cs, token "," (',' :: cs) = .ok cs := fun _ => rfl
      -- the blank behind the comma is left to the next link, which skips it
      have hrest := (links_blank fuel _).trans
        (ih (Nat.le_of_succ_le_succ hfuel) fun k hk => h k (List.mem_cons_of_mem l hk))
      rw [links, further, link_text (h l List.mem_cons_self) ends, ok_bind]
      dsimp only
      rw [another]
      dsimp only
      rw [comma, ok_bind, hrest, ok_bind]

lemma toList_operandsText (l : Link) (ls : List Link) :
    (Link.operandsText (l :: ls)).toList = '(' :: (l.text.toList ++ (furtherLinks ls ++ [')'])) := by
  rw [Link.operandsText, if_neg (by simp), String.toList_append, String.toList_append, toList_intercalate]
  simp

/-- The operands of a cell are read back.  Where there are none, the text must not go on with a
parenthesis. -/
lemma operands_text (h : ∀ l ∈ ls, l.entry < entryLimit) (closed : tryToken "(" rest = none) :
    operands ((Link.operandsText ls).toList ++ rest) = .ok (ls, rest) := by
  cases ls with
  | nil =>
      show operands rest = _
      rw [operands, closed]
  | cons l ls =>
      have hfuel : ls.length ≤ (l.text.toList ++ (furtherLinks ls ++ ')' :: rest)).length := by
        have hle := length_le_furtherLinks ls
        simp only [List.length_append]
        omega
      have nonempty : tryToken ")" (l.text.toList ++ (furtherLinks ls ++ ')' :: rest)) = none := by
        rw [toList_text]
        cases l.inverted <;> rfl
      have chars : (Link.operandsText (l :: ls)).toList ++ rest =
          '(' :: (l.text.toList ++ (furtherLinks ls ++ ')' :: rest)) := by
        rw [toList_operandsText]
        simp
      have opened : ∀ cs, tryToken "(" ('(' :: cs) = some cs := fun _ => rfl
      rw [chars, operands, opened]
      dsimp only
      rw [nonempty]
      exact links_text hfuel h

end Reader

namespace Store

/-- The kind of a cell is printed as a name under which the store finds its type. -/
structure Spells (store : Store) (kind : CellKind) : Prop where
  name : Reader.IsName (store.kindName kind)
  found : store.findType? (store.kindName kind) = some kind.type

/-- A cell that the store admits is printed so that it can be read. -/
structure Legible (store : Store) (c : Cell) : Prop where
  admits : ∃ type, store.Admits c type
  spells : store.Spells c.kind

end Store

namespace Reader

open Store

variable {store : Store} {c : Cell} {i : Nat}

/-! ## Entries -/

/-- The line of an entry with the line break in front of it. -/
def line (store : Store) (c : Cell) (i : Nat) : List Char :=
  ['\n', ' ', ' ', '%'] ++ (Nat.toDigits 10 i ++ ([' ', '=', ' '] ++
    ((store.kindName c.kind).toList ++ (Link.operandsText c.links).toList)))

/-- The text behind an entry: another line or the closing brace. -/
structure Follows (rest : List Char) : Prop where
  ends : Ends rest
  closed : tryToken "(" rest = none

/-- An entry is read back. -/
lemma entry_line (legible : store.Legible c) (hi : i < entryLimit)
    (hlinks : ∀ l ∈ c.links, l.entry < entryLimit) (follows : Follows rest) :
    entry store i (line store c i ++ rest) = .ok (c, rest) := by
  obtain ⟨type, admits⟩ := legible.admits
  have stops : Stops Char.isDigit ([' ', '=', ' '] ++ ((store.kindName c.kind).toList ++
      ((Link.operandsText c.links).toList ++ rest))) := by
    rintro d ⟨⟩
    rfl
  have ends : Ends ((Link.operandsText c.links).toList ++ rest) := by
    cases c.links with
    | nil => exact follows.ends
    | cons l ls =>
        rw [toList_operandsText]
        exact ends_cons (by decide) _
  have percent : ∀ cs, token "%" (['\n', ' ', ' ', '%'] ++ cs) = .ok cs := fun _ => rfl
  have equals : ∀ cs, token "=" ([' ', '=', ' '] ++ cs) = .ok (' ' :: cs) := fun _ => rfl
  have blank : ∀ cs, name (' ' :: cs) = name cs := fun _ => rfl
  simp only [line, List.append_assoc, entry, percent, number_toDigits hi stops, equals, blank,
    name_toList legible.spells.name ends, legible.spells.found,
    operands_text hlinks follows.closed, admits.listed, admits.arity, admits.kind, ok_bind, ne_eq,
    not_true_eq_false, if_false, if_true]

/-- The lines of entries that are numbered from `start`. -/
def lines (store : Store) (cells : List Cell) (start : Nat) : List Char :=
  (cells.zipIdx start).flatMap fun (c, i) => line store c i

/-- The text behind the last entry. -/
def closing : List Char := ['\n', '\x7d', '\n']

lemma lines_cons (store : Store) (c : Cell) (cells : List Cell) (start : Nat) :
    lines store (c :: cells) start = line store c start ++ lines store cells (start + 1) := by
  rw [lines, List.zipIdx_cons, List.flatMap_cons]
  rfl

lemma follows_lines (store : Store) (cells : List Cell) (start : Nat) :
    Follows (lines store cells start ++ closing) := by
  cases cells with
  | nil => exact ⟨ends_cons (by decide) _, rfl⟩
  | cons c cells =>
      rw [lines_cons]
      exact ⟨ends_cons (by decide) _, rfl⟩

/-- Every line takes a character, so there is fuel for all of them. -/
lemma length_le_lines (store : Store) (cells : List Cell) (start : Nat) :
    cells.length ≤ (lines store cells start).length := by
  induction cells generalizing start with
  | nil => exact Nat.zero_le _
  | cons c cells ih =>
      have := ih (start + 1)
      rw [lines_cons, List.length_append, List.length_cons, line, List.length_append]
      simp only [List.length_cons]
      omega

/-- All entries are read back. -/
lemma entries_lines {cells : List Cell} {read : Array Cell} {fuel : Nat} (hfuel : cells.length ≤ fuel)
    (legible : ∀ c ∈ cells, store.Legible c)
    (hlinks : ∀ c ∈ cells, ∀ l ∈ c.links, l.entry < entryLimit)
    (hsize : read.size + cells.length ≤ entryLimit) :
    entries store (fuel + 1) read (lines store cells read.size ++ closing) =
      .ok (read ++ cells.toArray, ['\n']) := by
  -- the next line has the number of the cells that are read so far
  induction cells generalizing read fuel with
  | nil =>
      rw [Array.append_empty]
      rfl
  | cons c cells ih =>
      obtain ⟨fuel, rfl⟩ : ∃ k, fuel = k + 1 := Nat.exists_eq_succ_of_ne_zero (Nat.ne_zero_of_lt hfuel)
      rw [List.length_cons] at hsize
      have hline := entry_line (legible c List.mem_cons_self) (i := read.size) (by omega)
        (hlinks c List.mem_cons_self) (follows_lines store cells (read.size + 1))
      have hpushed : (read.push c).size + cells.length ≤ entryLimit := by
        rw [Array.size_push]
        omega
      have hrest := ih (Nat.le_of_succ_le_succ hfuel)
        (fun d hd => legible d (List.mem_cons_of_mem c hd))
        (fun d hd => hlinks d (List.mem_cons_of_mem c hd)) hpushed
      have another : tryToken "\x7d" (line store c read.size ++
        (lines store cells (read.size + 1) ++ closing)) = none := rfl
      rw [Array.size_push] at hrest
      rw [lines_cons, List.append_assoc, entries, another]
      dsimp only
      rw [hline, ok_bind]
      dsimp only
      rw [hrest]
      simp

/-! ## Networks -/

lemma toList_renderCell (store : Store) (i : Nat) (c : Cell) :
    '\n' :: (store.renderCell i c).toList = line store c i ++ ['\n'] := by
  simp [Store.renderCell, line]

/-- The line break behind an entry belongs to the next line. -/
lemma toList_renderCells (store : Store) (cells : List Cell) (start : Nat) :
    '\n' :: ((cells.zipIdx start).flatMap fun (c, i) => (store.renderCell i c).toList) =
      lines store cells start ++ ['\n'] := by
  induction cells generalizing start with
  | nil => rfl
  | cons c cells ih =>
      have hrest := ih (start + 1)
      rw [lines_cons, List.append_assoc, ← hrest, List.zipIdx_cons, List.flatMap_cons,
        ← List.cons_append, toList_renderCell, List.append_assoc]
      rfl

lemma toList_render (store : Store) (net : Subnet) : (store.render net).toList =
    "subnet \x7b".toList ++ (lines store net.cells.toList 0 ++ closing) := by
  have hcells := toList_renderCells store net.cells.toList 0
  have hbody : (String.join (net.cells.toList.zipIdx.map fun (c, i) => store.renderCell i c)).toList =
      net.cells.toList.zipIdx.flatMap fun (c, i) => (store.renderCell i c).toList := by
    rw [String.toList_join, List.flatMap_map]
  have hclosing : lines store net.cells.toList 0 ++ closing =
      (lines store net.cells.toList 0 ++ ['\n']) ++ ['\x7d', '\n'] := by
    rw [List.append_assoc]
    rfl
  rw [hclosing, ← hcells, ← hbody, Store.render]
  simp

lemma cells_render {net : Subnet} (legible : ∀ c ∈ net.cells, store.Legible c)
    (hsize : net.size ≤ 2 ^ 32) : cells store (store.render net).toList = .ok net.cells := by
  have hlinks : ∀ c ∈ net.cells.toList, ∀ l ∈ c.links, l.entry < entryLimit := by
    intro c hc l hl
    obtain ⟨i, hi⟩ := Array.mem_iff_getElem?.1 (Array.mem_toList_iff.1 hc)
    have hlt := (net.obeys hi).lt_of_reads _ (List.mem_map_of_mem hl)
    exact (hlt.trans (Subnet.lt_size hi)).trans_le hsize
  have hfuel : net.cells.toList.length ≤ (lines store net.cells.toList 0 ++ closing).length := by
    have hle := length_le_lines store net.cells.toList 0
    rw [List.length_append]
    omega
  have hsize : (#[] : Array Cell).size + net.cells.toList.length ≤ entryLimit := by
    rw [Array.size_empty, Nat.zero_add, Array.length_toList]
    exact hsize
  have hentries := entries_lines hfuel (fun c hc => legible c (Array.mem_toList_iff.1 hc)) hlinks hsize
  have subnet : ∀ cs, token "subnet" ("subnet \x7b".toList ++ cs) = .ok (" \x7b".toList ++ cs) :=
    fun _ => rfl
  have brace : ∀ cs, token "\x7b" (" \x7b".toList ++ cs) = .ok cs := fun _ => rfl
  have blank : (Text.skipBlanks ['\n']).isEmpty = true := rfl
  rw [Array.size_empty] at hentries
  simp only [toList_render, cells, subnet, brace, hentries, blank, ok_bind, if_true]
  simp

end Reader

/-- The longest front of a list, where a property holds up to some place and not behind it. -/
lemma length_takeWhile {α : Type} {p : α → Bool} {xs : List α} {n : Nat} (hn : n ≤ xs.length)
    (h : ∀ (i : Nat) x, xs[i]? = some x → (p x = true ↔ i < n)) : (xs.takeWhile p).length = n := by
  induction xs generalizing n with
  | nil => exact (Nat.le_zero.1 hn).symm
  | cons x xs ih =>
      have hx := h 0 x rfl
      cases n with
      | zero =>
          have hx : p x = false := by simpa using hx
          simp [hx]
      | succ n =>
          have htail := ih (Nat.le_of_succ_le_succ hn) fun i y hy =>
            (h (i + 1) y (by simpa using hy)).trans Nat.succ_lt_succ_iff
          simp [hx.2 (Nat.succ_pos n), htail]

namespace Subnet

lemma leadingInputs_cells (net : Subnet) : leadingInputs net.cells = net.numInputs := by
  have hle := net.numInputs_le_outputStart
  have hsize := net.outputStart_add_numOutputs
  refine length_takeWhile ?_ fun i c hc => ?_
  · rw [Array.length_toList]
    exact hle.trans (Nat.le.intro hsize)
  · exact (net.obeys (by simpa using hc)).isInput_iff

lemma trailingOutputs_cells (net : Subnet) : trailingOutputs net.cells = net.numOutputs := by
  have hsize : net.outputStart + net.numOutputs = net.cells.size := net.outputStart_add_numOutputs
  refine length_takeWhile ?_ fun i c hc => ?_
  · rw [List.length_reverse, Array.length_toList]
    omega
  · have hi : i < net.cells.size := by simpa using (List.getElem?_eq_some_iff.1 hc).1
    rw [List.getElem?_reverse (by simpa using hi)] at hc
    rw [Array.getElem?_toList, Array.length_toList] at hc
    rw [(net.obeys hc).isOutput_iff]
    omega

/-- The cells of a network tell which of them are inputs and outputs. -/
lemma ofCells_cells (net : Subnet) :
    ofCells net.cells (leadingInputs net.cells) (trailingOutputs net.cells) = .ok net :=
  ofCells_eq_ok_iff.2 ⟨rfl, net.leadingInputs_cells.symm, net.trailingOutputs_cells.symm⟩

end Subnet

namespace Store

variable {store : Store} {net : Subnet}

/-- A printed network is read back. -/
theorem read_render (legible : ∀ c ∈ net.cells, store.Legible c) (hsize : net.size ≤ 2 ^ 32) :
    store.read (store.render net) = .ok net := by
  rw [read, Reader.cells_render legible hsize]
  dsimp only
  rw [net.ofCells_cells]

end Store

end Gatework
