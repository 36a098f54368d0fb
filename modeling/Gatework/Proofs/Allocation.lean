import Gatework.Proofs.Handle
import Gatework.Proofs.Meaning
import Gatework.Proofs.Runs
import Gatework.Proofs.Types

/-!
# What handles name

A store answers calls with handles.  A call puts its records behind those that are there
(`effect_of_call`), so a handle names the same record ever after (`Kept.call`), and two answers are the
same handle only if both calls interned the same text (`Kept.handle_eq_iff`).

**Main statement.** `Store.Logged.lasting`.
-/

namespace Gatework

namespace Store

variable {s s' store : Store} {c : Call} {h : Handle} {kind : RecordKind}

/-! ## Tables -/

/-- The records of a table in the order of their positions. -/
def records (s : Store) : RecordKind → List Record
  | .cellType => s.types.toList.map .cellType
  | .subnet => s.subnets.toList.map .subnet
  | .text => s.texts.toList.map .text

lemma record?_eq (s : Store) (kind : RecordKind) (i : Nat) : s.record? kind i = (s.records kind)[i]? := by
  cases kind <;> simp only [record?, records, List.getElem?_map, Arena.getElem?_toList]

lemma length_records (s : Store) (kind : RecordKind) : (s.records kind).length = s.count kind := by
  cases kind <;> simp [records, count]

/-- A record is fetched by the position of the handle, if the tag is that of the table. -/
lemma fetch_eq_ok_iff {α : Type} {table : Arena α} {x : α} :
    fetch kind table h = .ok x ↔ h.tag = kind.tag ∧ table[h.position]? = some x := by
  unfold fetch
  by_cases htag : h.tag = kind.tag
  · rw [Handle.isNull_eq_false htag, if_neg (by decide), if_neg (by simp [htag])]
    cases table[h.position]? <;> simp [htag]
  · have foreign : (h.tag != kind.tag) = true := bne_iff_ne.2 htag
    by_cases hnull : h.isNull = true <;> simp [hnull, foreign, htag]

lemma get_eq_ok_iff {r : Record} :
    s.get kind h = .ok r ↔ h.tag = kind.tag ∧ (s.records kind)[h.position]? = some r := by
  have fetched : ∀ {α : Type} (table : Arena α) (mk : α → Record),
      (fetch kind table h).map mk = .ok r ↔
        h.tag = kind.tag ∧ (table.toList.map mk)[h.position]? = some r := by
    intro α table mk
    simp only [map_eq_ok_iff, fetch_eq_ok_iff, List.getElem?_map, Arena.getElem?_toList,
      Option.map_eq_some_iff, and_assoc, exists_and_left]
  cases kind
  · exact fetched s.types .cellType
  · exact fetched s.subnets .subnet
  · exact fetched s.texts .text

lemma resolves_iff : s.resolves kind h = true ↔ h.tag = kind.tag ∧ h.position < s.count kind := by
  rw [resolves, Bool.and_eq_true, Handle.belongsTo_iff, record?_eq, isSome_getElem?, length_records]

/-! ## One call -/

/-- The records that interning a text adds to the texts. -/
def newTexts (s : Store) (text : String) : List Record :=
  if (s.textIndex.find? text).isSome then [] else [.text text]

namespace Call

/-- The text that a call interns. -/
def text? : Call → Option String
  | intern text => some text
  | composite name _ _ => some name
  | _ => none

/-- The type that a call registers. -/
def type? (s : Store) : Call → Option CellType
  | register name type => (s.texts[name.position]?).map fun text => { type with name := text }
  | composite name implementation costs =>
      (s.subnets[implementation.position]?).map fun net =>
        .ofSubnet name implementation.position net costs
  | _ => none

/-- The records that a call adds, to whichever table. -/
def added (s : Store) : Call → List Record
  | allocate record => [record]
  | intern text => s.newTexts text
  | c => c.text?.elim [] s.newTexts ++ ((c.type? s).map .cellType).toList

/-- The record that a call asks for. -/
def record? (s : Store) : Call → Option Record
  | allocate record => some record
  | intern text => some (.text text)
  | c => (c.type? s).map .cellType

/-- The position at which the record is that a call asks for. -/
def position (s : Store) : Call → Nat
  | intern text => (s.textIndex.find? text).getD s.texts.size
  | c => s.count c.kind

/-- Types are registered behind all others. -/
lemma position_of_type? {type : CellType} (htype : c.type? s = some type) :
    c.kind = .cellType ∧ c.position s = s.types.size := by
  cases c with
  | allocate => cases htype
  | intern => cases htype
  | register => exact ⟨rfl, rfl⟩
  | composite => exact ⟨rfl, rfl⟩

lemma record?_of_type? {type : CellType} (htype : c.type? s = some type) :
    c.record? s = some (.cellType type) := by
  cases c with
  | allocate => cases htype
  | intern => cases htype
  | register => exact congrArg (Option.map Record.cellType) htype
  | composite => exact congrArg (Option.map Record.cellType) htype

end Call

lemma withHandle_eq_ok_iff {placed : Store × Nat} :
    withHandle kind placed = .ok (s', h) ↔
      placed.2 < 2 ^ Handle.positionBits ∧ placed.1 = s' ∧ Handle.ofPosition kind placed.2 = h := by
  unfold withHandle handleAt
  split <;> simp [Except.map, *]

/-- The records of one table among those of all. -/
def ofKind (kind : RecordKind) (rs : List Record) : List Record := rs.filter (·.kind = kind)

@[simp] lemma ofKind_append (kind : RecordKind) (rs rs' : List Record) :
    ofKind kind (rs ++ rs') = ofKind kind rs ++ ofKind kind rs' :=
  List.filter_append ..

lemma records_add (s : Store) (r : Record) (kind : RecordKind) :
    (s.add r).1.records kind = s.records kind ++ ofKind kind [r] := by
  cases r <;> cases kind <;>
    simp [add, addUnnamed, addSubnet, addText, records, ofKind, Record.kind, Arena.toList_push]

lemma records_intern (s : Store) (text : String) (kind : RecordKind) :
    (s.intern text).1.records kind = s.records kind ++ ofKind kind (s.newTexts text) := by
  unfold intern newTexts
  split
  · simp [*, ofKind]
  · cases kind <;> simp [*, records, ofKind, Record.kind, Arena.toList_push]

lemma records_registerType (s : Store) (type : CellType) (kind : RecordKind) :
    (s.registerType type).1.records kind = s.records kind ++ ofKind kind [.cellType type] := by
  cases kind <;> simp [registerType, records, ofKind, Record.kind, Arena.toList_push]

lemma intern_position (s : Store) (text : String) :
    (s.intern text).2 = (s.textIndex.find? text).getD s.texts.size := by
  unfold intern
  split <;> simp [*]

/-- A text that was interned before keeps its position. -/
lemma find?_intern (s : Store) (text t : String) :
    (s.intern text).1.textIndex.find? t =
      (s.textIndex.find? t).or (if t = text then some s.texts.size else none) := by
  unfold intern
  split
  · by_cases ht : t = text <;> simp [*]
  · exact s.textIndex.find?_insert text t

lemma findType?_intern (s : Store) (text n : String) :
    (s.intern text).1.findType? n = s.findType? n := by
  unfold intern
  split <;> rfl

lemma findType?_registerType (s : Store) (type : CellType) (n : String) :
    (s.registerType type).1.findType? n =
      (s.findType? n).or (if n = type.name then some s.types.size else none) :=
  s.typeIndex.find?_insert type n

/-- An interned text is at the position that is the answer. -/
lemma getElem?_records_intern (s : Store) (text : String) :
    ((s.intern text).1.records .text)[(s.intern text).2]? = some (.text text) := by
  rw [records_intern, intern_position, newTexts]
  cases hfind : s.textIndex.find? text with
  | some i =>
      have listed : s.texts[i]? = some text := by simpa using NameIndex.name_of_find? hfind
      simp [records, Arena.getElem?_toList, listed, ofKind]
  | none =>
      have hlength : (s.records .text).length = s.texts.size := s.length_records .text
      simp [ofKind, Record.kind, ← hlength]

lemma getElem?_records_registerType (s : Store) (type : CellType) :
    ((s.registerType type).1.records .cellType)[s.types.size]? = some (.cellType type) := by
  have hlength : (s.records .cellType).length = s.types.size := s.length_records .cellType
  simp [records_registerType, ofKind, Record.kind, ← hlength]

/-- All that a call does: its answer is the handle of the record that it asks for, the tables grow, and so
do the indexes. -/
structure Effect (s : Store) (c : Call) (s' : Store) (h : Handle) : Prop where
  fits : c.position s < 2 ^ Handle.positionBits
  handle : Handle.ofPosition c.kind (c.position s) = h
  records : ∀ kind, s'.records kind = s.records kind ++ ofKind kind (c.added s)
  answer : ∃ r, c.record? s = some r ∧ (s'.records c.kind)[c.position s]? = some r
  texts : ∀ t, s'.textIndex.find? t =
    (s.textIndex.find? t).or (if c.text? = some t then some (s.count .text) else none)
  types : ∀ n, s'.findType? n =
    (s.findType? n).or (if (c.type? s).map (·.name) = some n then some (s.count .cellType) else none)

/-- A call that is answered has its effect. -/
lemma effect_of_call (hcall : s.call c = .ok (s', h)) : Effect s c s' h := by
  cases c with
  | allocate record =>
      obtain ⟨fits, rfl, rfl⟩ := withHandle_eq_ok_iff.1 hcall
      have hposition : (s.add record).2 = s.count record.kind := by cases record <;> rfl
      have hlength := s.length_records record.kind
      rw [hposition] at fits
      refine ⟨fits, by rw [hposition]; rfl, s.records_add record, ⟨record, rfl, ?_⟩,
        fun t => ?_, fun n => ?_⟩
      · show ((s.add record).1.records record.kind)[s.count record.kind]? = some record
        simp [records_add, ofKind, ← hlength]
      · cases record <;> exact (Option.or_none).symm
      · cases record <;> exact (Option.or_none).symm
  | intern text =>
      obtain ⟨fits, rfl, rfl⟩ := withHandle_eq_ok_iff.1 hcall
      rw [intern_position] at fits
      refine ⟨fits, by rw [intern_position]; rfl, s.records_intern text, ⟨_, rfl, ?_⟩,
        fun t => ?_, fun n => ?_⟩
      · have := s.getElem?_records_intern text
        rwa [intern_position] at this
      · rw [find?_intern]
        simp [Call.text?, count, eq_comm]
      · rw [findType?_intern]
        exact (Option.or_none).symm
  | register name type =>
      obtain ⟨text, htext, hcall⟩ := bind_eq_ok_iff.1 hcall
      obtain ⟨fits, rfl, rfl⟩ := withHandle_eq_ok_iff.1 hcall
      have htype : Call.type? s (.register name type) = some { type with name := text } := by
        rw [Call.type?, (fetch_eq_ok_iff.1 htext).2]
        rfl
      refine ⟨fits, rfl, fun kind => ?_, ⟨_, Call.record?_of_type? htype, s.getElem?_records_registerType _⟩,
        fun t => (Option.or_none).symm, fun n => ?_⟩
      · rw [records_registerType]
        show _ = _ ++ ofKind kind (((Call.type? s _).map .cellType).toList)
        rw [htype]
        rfl
      · rw [findType?_registerType, htype]
        simp [count, eq_comm]
  | composite name implementation costs =>
      obtain ⟨net, hnet, hcall⟩ := bind_eq_ok_iff.1 hcall
      obtain ⟨⟨named, nameHandle⟩, hnamed, hcall⟩ := bind_eq_ok_iff.1 hcall
      obtain ⟨-, rfl, -⟩ := withHandle_eq_ok_iff.1 hnamed
      obtain ⟨fits, rfl, rfl⟩ := withHandle_eq_ok_iff.1 hcall
      have htype : Call.type? s (.composite name implementation costs) =
          some (.ofSubnet name implementation.position net costs) := by
        rw [Call.type?, (fetch_eq_ok_iff.1 hnet).2]
        rfl
      have hposition : ((s.intern name).1.registerType
          (.ofSubnet name implementation.position net costs)).2 = s.types.size := by
        rw [registerType_position, types_intern]
      rw [hposition] at fits
      refine ⟨fits, by rw [hposition]; rfl, fun kind => ?_, ⟨_, Call.record?_of_type? htype, ?_⟩,
        fun t => ?_, fun n => ?_⟩
      · rw [records_registerType, records_intern, List.append_assoc]
        show _ = _ ++ ofKind kind (s.newTexts name ++ ((Call.type? s _).map .cellType).toList)
        rw [htype, ofKind_append]
        rfl
      · have := (s.intern name).1.getElem?_records_registerType
          (.ofSubnet name implementation.position net costs)
        rwa [types_intern] at this
      · refine (s.find?_intern name t).trans ?_
        simp [Call.text?, count, eq_comm]
      · rw [findType?_registerType, findType?_intern, types_intern, htype]
        simp [count, eq_comm, CellType.ofSubnet]

/-! ## Sequences of calls -/

/-- A call that was answered, with the store that it was made on. -/
structure Entry where
  before : Store
  call : Call
  handle : Handle

/-- The stores that calls lead to, with the calls in the order in which they were made. -/
inductive Logged : Store → List Entry → Prop where
  | empty : Logged .empty []
  | call {s s' : Store} {log : List Entry} {c : Call} {h : Handle} :
      Logged s log → s.call c = .ok (s', h) → Logged s' (log ++ [⟨s, c, h⟩])

/-- The records that the gates and then the calls added to a table, in order. -/
def history (log : List Entry) (kind : RecordKind) : List Record :=
  ofKind kind ((Gate.all.flatMap fun g => [.text g.name, .cellType (.ofGate g)]) ++
    log.flatMap fun e => e.call.added e.before)

/-- The names under which types were registered, the gates first, with the handles of the types. -/
def registrations (log : List Entry) : List (String × Handle) :=
  Gate.all.map (fun g => (g.name, .ofPosition .cellType g.position)) ++
    log.filterMap fun e => (e.call.type? e.before).map fun type => (type.name, e.handle)

variable {log : List Entry} {e : Entry}

lemma registrations_append (log : List Entry) (e : Entry) : registrations (log ++ [e]) =
    registrations log ++ ((e.call.type? e.before).map fun type => (type.name, e.handle)).toList := by
  rw [registrations, List.filterMap_append, ← List.append_assoc]
  cases htype : e.call.type? e.before <;> simp [htype, registrations]

/-- What was stored stays where it is. -/
lemma Effect.records_isPrefix (effect : Effect s c s' h) (kind : RecordKind) :
    s.records kind <+: s'.records kind := by
  rw [effect.records kind]
  exact List.prefix_append _ _

lemma getElem?_of_isPrefix {α : Type} {xs ys : List α} (grows : xs <+: ys) {i : Nat} {x : α}
    (hx : xs[i]? = some x) : ys[i]? = some x := by
  obtain ⟨rest, rfl⟩ := grows
  rwa [List.getElem?_append_left (List.getElem?_eq_some_iff.1 hx).1]

/-- What holds of a call that was answered and of its handle from then on. -/
structure Kept (store : Store) (e : Entry) : Prop where
  grows : ∀ kind, e.before.records kind <+: store.records kind
  tag : e.handle.tag = e.call.kind.tag
  position : e.handle.position = e.call.position e.before
  record : ∃ r, e.call.record? e.before = some r ∧
    (store.records e.call.kind)[e.handle.position]? = some r
  /-- The text that was interned is found. -/
  known : ∀ text, e.call = .intern text → store.textIndex.find? text = some e.handle.position
  /-- The text that was not interned is not found at its position. -/
  unknown : ∀ text, e.call = .allocate (.text text) →
    ∀ t, store.textIndex.find? t ≠ some e.handle.position

lemma find?_lt {t : String} {i : Nat} (hfind : s.textIndex.find? t = some i) : i < s.count .text := by
  obtain ⟨y, hy, -⟩ := Option.map_eq_some_iff.1 (NameIndex.name_of_find? hfind)
  exact Arena.lt_size_of_getElem? hy

lemma Effect.kept (effect : Effect s c s' h) : Kept s' ⟨s, c, h⟩ := by
  have hposition : h.position = c.position s := by
    rw [← effect.handle, Handle.position_ofPosition effect.fits]
  refine ⟨effect.records_isPrefix, ?_, hposition, ?_, ?_, ?_⟩
  · show h.tag = c.kind.tag
    rw [← effect.handle, Handle.tag_ofPosition effect.fits]
  · show ∃ r, c.record? s = some r ∧ (s'.records c.kind)[h.position]? = some r
    rw [hposition]
    exact effect.answer
  · rintro text rfl
    rw [effect.texts, hposition]
    show (s.textIndex.find? text).or _ = some ((s.textIndex.find? text).getD s.texts.size)
    cases s.textIndex.find? text <;> simp [Call.text?, count]
  · rintro text rfl t hfind
    have hfind : s.textIndex.find? t = some h.position := by
      simpa [Call.text?] using (effect.texts t).symm.trans hfind
    exact Nat.ne_of_lt (find?_lt hfind) hposition

lemma Kept.position_lt (kept : Kept s e) : e.handle.position < s.count e.call.kind := by
  obtain ⟨r, -, hrecord⟩ := kept.record
  rw [← length_records]
  exact (List.getElem?_eq_some_iff.1 hrecord).1

lemma Kept.call (kept : Kept s e) (effect : Effect s c s' h) : Kept s' e where
  grows kind := (kept.grows kind).trans (effect.records_isPrefix kind)
  tag := kept.tag
  position := kept.position
  record := by
    obtain ⟨r, hr, hrecord⟩ := kept.record
    exact ⟨r, hr, getElem?_of_isPrefix (effect.records_isPrefix _) hrecord⟩
  known text htext := by
    rw [effect.texts, kept.known text htext]
    rfl
  unknown text htext t hfind := by
    rw [effect.texts t, Option.or_eq_some_iff] at hfind
    rcases hfind with hfind | ⟨-, hfind⟩
    · exact kept.unknown text htext t hfind
    · -- a text that is found from now on is behind all others
      have hlt := kept.position_lt
      split at hfind
      · rw [htext, ← Option.some.inj hfind] at hlt
        exact Nat.lt_irrefl _ hlt
      · cases hfind

lemma eq_of_find? {t t' : String} {i : Nat} (ht : s.textIndex.find? t = some i)
    (ht' : s.textIndex.find? t' = some i) : t = t' := by
  have := (NameIndex.name_of_find? ht).symm.trans (NameIndex.name_of_find? ht')
  exact Option.some.inj this

/-- Only a text that is found is not put behind the others. -/
lemma Call.intern_of_position_lt (hlt : c.position s < s.count c.kind) :
    ∃ text, c = .intern text ∧ s.textIndex.find? text = some (c.position s) := by
  cases c with
  | intern text =>
      have hlt : (s.textIndex.find? text).getD s.texts.size < s.texts.size := hlt
      cases hfind : s.textIndex.find? text with
      | some i => exact ⟨text, rfl, by rw [hfind, position, hfind, Option.getD_some]⟩
      | none =>
          rw [hfind] at hlt
          exact absurd hlt (Nat.lt_irrefl _)
  | allocate | register | composite => exact absurd hlt (Nat.lt_irrefl _)

/-- A text is found only where it was interned. -/
lemma Kept.intern_of_find? {text : String} (kept : Kept s e) (hkind : e.call.kind = .text)
    (hfind : s.textIndex.find? text = some e.handle.position) : e.call = .intern text := by
  obtain ⟨before, call, handle⟩ := e
  cases call with
  | allocate record =>
      cases record with
      | text t => exact absurd hfind (kept.unknown t rfl text)
      | cellType | subnet => cases hkind
  | intern t => rw [eq_of_find? hfind (kept.known t rfl)]
  | register | composite => cases hkind

/-- A handle that was returned before is returned again for the same text only. -/
lemma Kept.handle_eq_iff (kept : Kept s e) (effect : Effect s c s' h) :
    e.handle = h ↔ ∃ text, e.call = .intern text ∧ c = .intern text := by
  have latest := effect.kept
  constructor
  · rintro rfl
    have hkind : e.call.kind = c.kind := Handle.tag_injective (kept.tag.symm.trans latest.tag)
    have hposition : e.handle.position = c.position s := latest.position
    obtain ⟨text, rfl, hfind⟩ : ∃ text, c = .intern text ∧ s.textIndex.find? text = some (c.position s) :=
      Call.intern_of_position_lt (by rw [← hkind, ← hposition]; exact kept.position_lt)
    exact ⟨text, kept.intern_of_find? hkind (by rw [hfind, hposition]), rfl⟩
  · rintro ⟨text, hcall, rfl⟩
    have hposition : h.position = e.handle.position := by
      rw [latest.position]
      show (s.textIndex.find? text).getD s.texts.size = _
      rw [kept.known text hcall]
      rfl
    have htag : h.tag = e.handle.tag := by
      rw [kept.tag, latest.tag, hcall]
    exact Handle.ext_parts htag.symm hposition.symm

/-! ## What a sequence of calls leaves behind -/

lemma toList_types_empty : empty.types.toList = Gate.all.map .ofGate :=
  Arena.toList_ofPage (by decide)

lemma toList_texts_empty : empty.texts.toList = Gate.all.map Gate.name :=
  Arena.toList_ofPage (by decide)

lemma records_empty (kind : RecordKind) : empty.records kind = history [] kind := by
  cases kind
  · rw [records, toList_types_empty]
    rfl
  · rfl
  · rw [records, toList_texts_empty]
    rfl

lemma lookup_map {α β : Type} (f : α → β) (entries : List (String × α)) (n : String) :
    (entries.lookup n).map f = (entries.map fun (m, x) => (m, f x)).lookup n := by
  induction entries with
  | nil => rfl
  | cons entry entries ih =>
      rw [List.lookup_cons, List.map_cons, List.lookup_cons]
      cases n == entry.1
      · exact ih
      · rfl

lemma findType?_empty (n : String) :
    (empty.findType? n).map (.ofPosition .cellType) = (registrations []).lookup n := by
  have hentries : empty.typeIndex.entries = Gate.all.map fun g => (g.name, g.position) := by
    show (empty.types.toList.map CellType.name).zipIdx = _
    rw [toList_types_empty]
    rfl
  rw [findType?, NameIndex.find?, hentries, lookup_map, List.map_map]
  rfl

lemma interned_empty (t : String) :
    (empty.textIndex.find? t).isSome = true ↔ t ∈ Gate.all.map Gate.name := by
  have hentries : empty.textIndex.entries = (Gate.all.map Gate.name).zipIdx := by
    show (empty.texts.toList.map id).zipIdx = _
    rw [toList_texts_empty, List.map_id]
  rw [NameIndex.find?, hentries, List.lookup_isSome_iff, List.mem_iff_getElem?]
  constructor
  · rintro ⟨⟨n, i⟩, hmem, heq⟩
    rw [eq_of_beq heq]
    exact ⟨i, List.mem_zipIdx_iff_getElem?.1 hmem⟩
  · rintro ⟨i, ht⟩
    exact ⟨(t, i), List.mem_zipIdx_iff_getElem?.2 ht, BEq.rfl⟩

namespace Logged

/-- Every handle of a log is still what it was when it was returned. -/
lemma kept (logged : Logged store log) : ∀ e ∈ log, Kept store e := by
  induction logged with
  | empty => simp
  | call _ hcall ih =>
      have effect := effect_of_call hcall
      intro e he
      rcases List.mem_append.1 he with he | he
      · exact (ih e he).call effect
      · rw [List.mem_singleton.1 he]
        exact effect.kept

/-- The answers to two calls are equal if both interned one text, and only then. -/
lemma distinct (logged : Logged store log) : log.Pairwise fun e e' =>
    (e.handle = e'.handle ↔ ∃ text, e.call = .intern text ∧ e'.call = .intern text) := by
  induction logged with
  | empty => exact .nil
  | call logged hcall ih =>
      refine List.pairwise_append.2 ⟨ih, List.pairwise_singleton .., fun e he e' he' => ?_⟩
      rw [List.mem_singleton.1 he']
      exact (logged.kept e he).handle_eq_iff (effect_of_call hcall)

/-- The tables hold what was added to them, in order. -/
lemma records_eq (logged : Logged store log) (kind : RecordKind) :
    store.records kind = history log kind := by
  induction logged with
  | empty => exact records_empty kind
  | call _ hcall ih =>
      rw [(effect_of_call hcall).records, ih]
      simp [history]

/-- The index of the types leads to the first registration. -/
lemma findType?_eq (logged : Logged store log) (n : String) :
    (store.findType? n).map (.ofPosition .cellType) = (registrations log).lookup n := by
  induction logged with
  | empty => exact findType?_empty n
  | @call s s' log c h _ hcall ih =>
      have effect := effect_of_call hcall
      rw [effect.types, Option.map_or, ih, registrations_append, List.lookup_append]
      congr 1
      cases htype : c.type? s with
      | none => rfl
      | some type =>
          obtain ⟨hkind, hposition⟩ := Call.position_of_type? htype
          rw [← effect.handle, hkind, hposition, Option.map_some, Option.map_some, Option.toList_some]
          by_cases hn : n = type.name
          · simp [hn, count]
          · simp [Ne.symm hn, List.lookup_cons, beq_eq_false_iff_ne.2 hn]

/-- The index of the texts knows what was interned. -/
lemma interned (logged : Logged store log) (t : String) :
    (store.textIndex.find? t).isSome = true ↔
      t ∈ Gate.all.map Gate.name ++ log.filterMap (·.call.text?) := by
  induction logged with
  | empty => simpa using interned_empty t
  | @call s s' log c h _ hcall ih =>
      rw [(effect_of_call hcall).texts, Option.isSome_or, Bool.or_eq_true, ih]
      by_cases htext : c.text? = some t <;> simp [htext]

/-- The gates stay the first types. -/
lemma gate_type (logged : Logged store log) (g : Gate) :
    (store.records .cellType)[g.position]? = some (.cellType (.ofGate g)) := by
  induction logged with
  | empty =>
      rw [records, toList_types_empty, List.getElem?_map, List.getElem?_map, Gate.all_getElem?_position]
      rfl
  | call _ hcall ih => exact getElem?_of_isPrefix ((effect_of_call hcall).records_isPrefix _) ih

end Logged

/-- A store can answer a call: there is room in the tables, and what the call builds on is there. -/
structure Serves (s : Store) (c : Call) : Prop where
  room : ∀ kind, s.count kind < 2 ^ Handle.positionBits
  named : ∀ name type, c = .register name type → s.resolves .text name = true
  implemented : ∀ name implementation costs, c = .composite name implementation costs →
    s.resolves .subnet implementation = true

lemma exists_fetch {α : Type} {table : Arena α} (htag : h.tag = kind.tag) (hlt : h.position < table.size) :
    ∃ x, fetch kind table h = .ok x :=
  ⟨table[h.position], fetch_eq_ok_iff.2 ⟨htag, Arena.getElem?_eq_getElem hlt⟩⟩

lemma withHandle_eq_ok {placed : Store × Nat} (fits : placed.2 < 2 ^ Handle.positionBits) :
    withHandle kind placed = .ok (placed.1, .ofPosition kind placed.2) :=
  withHandle_eq_ok_iff.2 ⟨fits, rfl, rfl⟩

lemma Serves.intern_fits (serves : Serves s c) (text : String) :
    (s.intern text).2 < 2 ^ Handle.positionBits := by
  have room := serves.room .text
  rw [intern_position]
  cases hfind : s.textIndex.find? text with
  | none => exact room
  | some i => exact Nat.lt_trans (find?_lt hfind) room

/-- What can be answered is answered. -/
lemma Serves.exists_call (serves : Serves s c) : ∃ s' h, s.call c = .ok (s', h) := by
  cases c with
  | allocate record =>
      refine ⟨_, _, withHandle_eq_ok ?_⟩
      cases record
      · exact serves.room .cellType
      · exact serves.room .subnet
      · exact serves.room .text
  | intern text => exact ⟨_, _, withHandle_eq_ok (serves.intern_fits text)⟩
  | register name type =>
      obtain ⟨htag, hlt⟩ := resolves_iff.1 (serves.named name type rfl)
      obtain ⟨text, htext⟩ := exists_fetch htag hlt
      exact ⟨_, _, bind_eq_ok_iff.2 ⟨text, htext, withHandle_eq_ok (serves.room .cellType)⟩⟩
  | composite name implementation costs =>
      obtain ⟨htag, hlt⟩ := resolves_iff.1 (serves.implemented name implementation costs rfl)
      obtain ⟨net, hnet⟩ := exists_fetch htag hlt
      have fits : (s.intern name).1.types.size < 2 ^ Handle.positionBits := by
        rw [types_intern]
        exact serves.room .cellType
      exact ⟨_, _, bind_eq_ok_iff.2 ⟨net, hnet, bind_eq_ok_iff.2
        ⟨_, withHandle_eq_ok (serves.intern_fits name), withHandle_eq_ok fits⟩⟩⟩

/-- What the handles stand for in the store that a sequence of calls leads to. -/
structure Lasting (store : Store) (log : List Entry) : Prop where
  /-- The handle that a call returned leads to the record that the call asked for. -/
  kept : ∀ e ∈ log, ∃ r, e.call.record? e.before = some r ∧
    store.resolves e.call.kind e.handle = true ∧ store.get e.call.kind e.handle = .ok r
  /-- Whatever a handle named before a call, it names that after it. -/
  stable : ∀ e ∈ log, ∀ kind h r, e.before.get kind h = .ok r → store.get kind h = .ok r
  distinct : log.Pairwise fun e e' =>
    (e.handle = e'.handle ↔ ∃ text, e.call = .intern text ∧ e'.call = .intern text)
  /-- A handle is new unless a text is interned. -/
  fresh : ∀ e ∈ log, (∀ text, e.call ≠ .intern text) → e.before.resolves e.call.kind e.handle = false
  tags : ∀ e ∈ log, ∀ e' ∈ log, (e.handle.tag = e'.handle.tag ↔ e.call.kind = e'.call.kind)
  /-- The numbers that are handles. -/
  resolves : ∀ (raw : UInt64) kind, store.resolves kind ⟨raw⟩ = true ↔
    raw.toNat / 2 ^ 56 = kind.tag ∧ raw.toNat % 2 ^ 56 < store.count kind
  counts : ∀ kind, store.count kind = (history log kind).length
  get : ∀ (raw : UInt64) kind, store.resolves kind ⟨raw⟩ = true →
    ∃ r, (history log kind)[raw.toNat % 2 ^ 56]? = some r ∧ store.get kind ⟨raw⟩ = .ok r
  /-- A text is added when it is interned for the first time. -/
  interned : ∀ t, (store.textIndex.find? t).isSome = true ↔
    t ∈ Gate.all.map Gate.name ++ log.filterMap (·.call.text?)
  types : ∀ n, (store.findType? n).map (.ofPosition .cellType) = (registrations log).lookup n
  gates : ∀ g, ∃ h, gateHandle (.gate g) = .ok h ∧ store.resolves .cellType h = true ∧
    store.get .cellType h = .ok (.cellType (.ofGate g))
  answers : ∀ c, store.Serves c → ∃ store' h, store.call c = .ok (store', h)

/-- Handles are stable and typed, whatever calls a store is given. -/
theorem Logged.lasting (logged : Logged store log) : Lasting store log where
  kept e he := by
    have kept := logged.kept e he
    obtain ⟨r, hr, hrecord⟩ := kept.record
    exact ⟨r, hr, resolves_iff.2 ⟨kept.tag, kept.position_lt⟩, get_eq_ok_iff.2 ⟨kept.tag, hrecord⟩⟩
  stable e he kind h r hget := by
    obtain ⟨htag, hrecord⟩ := get_eq_ok_iff.1 hget
    exact get_eq_ok_iff.2 ⟨htag, getElem?_of_isPrefix ((logged.kept e he).grows kind) hrecord⟩
  distinct := logged.distinct
  fresh e he hcall := by
    rw [← Bool.not_eq_true, resolves_iff, (logged.kept e he).position]
    rintro ⟨-, hlt⟩
    obtain ⟨text, htext, -⟩ := Call.intern_of_position_lt hlt
    exact hcall text htext
  tags e he e' he' := by
    rw [(logged.kept e he).tag, (logged.kept e' he').tag]
    exact ⟨Handle.tag_injective, congrArg RecordKind.tag⟩
  resolves raw kind := by
    rw [resolves_iff, Handle.tag_eq, Handle.position_eq]
    rfl
  counts kind := by rw [← logged.records_eq, length_records]
  get raw kind hresolves := by
    obtain ⟨htag, hlt⟩ := resolves_iff.1 hresolves
    rw [← length_records] at hlt
    have hrecord := List.getElem?_eq_getElem hlt
    refine ⟨_, ?_, get_eq_ok_iff.2 ⟨htag, hrecord⟩⟩
    rw [← logged.records_eq, ← hrecord, Handle.position_eq]
    rfl
  interned := logged.interned
  types := logged.findType?_eq
  gates g := by
    have fits : g.position < 2 ^ Handle.positionBits :=
      Nat.lt_trans g.position_lt (by decide)
    have htag : (Handle.ofPosition .cellType g.position).tag = RecordKind.cellType.tag :=
      Handle.tag_ofPosition fits
    have hrecord : (store.records .cellType)[(Handle.ofPosition .cellType g.position).position]? =
        some (.cellType (.ofGate g)) := by
      rw [Handle.position_ofPosition fits]
      exact logged.gate_type g
    refine ⟨.ofPosition .cellType g.position, if_pos fits, resolves_iff.2 ⟨htag, ?_⟩,
      get_eq_ok_iff.2 ⟨htag, hrecord⟩⟩
    rw [← length_records]
    exact (List.getElem?_eq_some_iff.1 hrecord).1
  answers c serves := serves.exists_call

/-- A crossing is stored and registered under a text that was interned, and so is a second kind of cells:
the text keeps its handle, and the kinds get one each. -/
theorem lasting_crossing : ∃ store log, Logged store log ∧
    log.map (·.handle.raw) =
      [0x080000000000000d, 0x0700000000000000, 0x020000000000000d, 0x080000000000000d, 0x020000000000000e] ∧
    Lasting store log := by
  have logged := Logged.empty.call (c := .intern "cross") rfl
  have logged := logged.call (c := .allocate (.subnet crossing)) rfl
  have logged := logged.call (c := .composite "cross" ⟨0x0700000000000000⟩ none) rfl
  have logged := logged.call (c := .intern "cross") rfl
  have logged := logged.call (c := .register ⟨0x080000000000000d⟩ (.ofGate .buf)) rfl
  exact ⟨_, _, logged, rfl, logged.lasting⟩

end Store

end Gatework
