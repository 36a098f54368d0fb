/-!
# Append-only storage in pages

An arena keeps its records in pages of a fixed capacity.  A record goes to the end of the last page, or of
a new one if that is full, so no page is ever copied to make room and the record at a position stays there
for good.  The number of records is counted beside the pages; that the two agree is part of the type.
-/

namespace Gatework

/-- The number of records of a full page. -/
def pageCapacity : Nat := 1024

/-- The records stored so far, by position. -/
structure Arena (α : Type) where
  pages : Array (Array α)
  size : Nat
  /-- A page is there if a record belongs to it. -/
  paged : ∀ k, k < pages.size ↔ pageCapacity * k < size
  /-- A page holds as many of the records as fit. -/
  filled : ∀ (k : Nat) page, pages[k]? = some page → page.size = min pageCapacity (size - pageCapacity * k)

namespace Arena

variable {α : Type}

/-- The arena without records. -/
def empty : Arena α := ⟨#[], 0, by simp, by simp⟩

instance : Inhabited (Arena α) := ⟨empty⟩

/-! ## Adding a record -/

/-- Whether the next record needs a new page. -/
def isFull (a : Arena α) : Bool := a.pages.back?.all (·.size == pageCapacity)

/-- A new page is needed where the capacity divides the number of records. -/
theorem pages_size (a : Arena α) :
    a.pages.size = if a.isFull then a.size / pageCapacity else a.size / pageCapacity + 1 := by
  have here := a.paged a.pages.size
  have last := a.paged (a.pages.size - 1)
  unfold isFull
  rw [Array.back?_eq_getElem?]
  cases hpage : a.pages[a.pages.size - 1]? with
  | none =>
      have hnone := Array.getElem?_eq_none_iff.1 hpage
      rw [show pageCapacity = 1024 from rfl] at *
      simp
      omega
  | some page =>
      have hlt := (Array.getElem?_eq_some_iff.1 hpage).1
      have hsize := a.filled _ page hpage
      rw [show pageCapacity = 1024 from rfl] at *
      by_cases hfull : page.size = 1024
      · simp [hfull]
        omega
      · simp [hfull]
        omega

/-- The pages with room for one more record in the last one. -/
def pagesWithRoom (a : Arena α) : Array (Array α) :=
  if a.isFull then a.pages.push (Array.emptyWithCapacity pageCapacity) else a.pages

theorem size_pagesWithRoom (a : Arena α) : a.pagesWithRoom.size = a.size / pageCapacity + 1 := by
  have := a.pages_size
  unfold pagesWithRoom
  split <;> simp_all

/-- A page to which the next record may be added; a new one is empty. -/
theorem filled_pagesWithRoom (a : Arena α) {k : Nat} {page : Array α}
    (h : a.pagesWithRoom[k]? = some page) : page.size = min pageCapacity (a.size - pageCapacity * k) := by
  unfold pagesWithRoom at h
  split at h
  · rw [Array.getElem?_push] at h
    split at h
    · rename_i hk
      have hlast := a.paged k
      cases h
      show 0 = _
      omega
    · exact a.filled k page h
  · exact a.filled k page h

/-- Puts a record behind all others. -/
def push (a : Arena α) (x : α) : Arena α where
  pages := a.pagesWithRoom.modify (a.pagesWithRoom.size - 1) (·.push x)
  size := a.size + 1
  paged k := by
    rw [Array.size_modify, size_pagesWithRoom, show pageCapacity = 1024 from rfl]
    omega
  filled k page h := by
    rw [Array.getElem?_modify, size_pagesWithRoom, Nat.add_sub_cancel] at h
    split at h
    · rename_i hk
      obtain ⟨old, hold, rfl⟩ := Option.map_eq_some_iff.1 h
      have hsize := a.filled_pagesWithRoom hold
      rw [Array.size_push, hsize, ← hk, show pageCapacity = 1024 from rfl]
      omega
    · rename_i hk
      have hsize := a.filled_pagesWithRoom h
      have hlt := (Array.getElem?_eq_some_iff.1 h).1
      rw [size_pagesWithRoom] at hlt
      rw [hsize]
      rw [show pageCapacity = 1024 from rfl] at *
      omega

@[simp] theorem size_empty : (empty : Arena α).size = 0 := rfl

@[simp] theorem size_push (a : Arena α) (x : α) : (a.push x).size = a.size + 1 := rfl

/-- The arena whose records fill a page or a part of it. -/
def ofPage (page : Array α) (h : 0 < page.size ∧ page.size ≤ pageCapacity) : Arena α where
  pages := #[page]
  size := page.size
  paged k := by
    rw [show pageCapacity = 1024 from rfl] at *
    simp
    omega
  filled k other hk := by
    obtain ⟨hlt, rfl⟩ := Array.getElem?_eq_some_iff.1 hk
    obtain rfl : k = 0 := by simpa using hlt
    rw [show pageCapacity = 1024 from rfl] at *
    simp
    omega

/-! ## Looking up a record -/

/-- The record at a position: the page first, then the place in it. -/
def get? (a : Arena α) (i : Nat) : Option α :=
  a.pages[i / pageCapacity]?.bind (·[i % pageCapacity]?)

/-- The positions of the records are the numbers below the size. -/
theorem isSome_get? (a : Arena α) (i : Nat) : (a.get? i).isSome ↔ i < a.size := by
  have hpaged := a.paged (i / pageCapacity)
  unfold get?
  cases hpage : a.pages[i / pageCapacity]? with
  | none =>
      have hnone := Array.getElem?_eq_none_iff.1 hpage
      rw [show pageCapacity = 1024 from rfl] at *
      simp
      omega
  | some page =>
      have hlt := (Array.getElem?_eq_some_iff.1 hpage).1
      have hsize := a.filled _ page hpage
      rw [Option.bind_some, isSome_getElem?]
      rw [show pageCapacity = 1024 from rfl] at *
      omega

instance : GetElem? (Arena α) Nat α fun a i => i < a.size where
  getElem a i h := (a.get? i).get ((a.isSome_get? i).2 h)
  getElem? := get?

instance : LawfulGetElem (Arena α) Nat α fun a i => i < a.size where
  getElem?_def a i _ := by
    split
    · exact (Option.some_get _).symm
    · rename_i h
      exact Option.not_isSome_iff_eq_none.1 (mt (a.isSome_get? i).1 h)

instance : Membership α (Arena α) := ⟨fun a x => ∃ i : Nat, a[i]? = some x⟩

section Lookup

variable {a : Arena α} {i : Nat} {x y : α}

theorem getElem?_eq_getElem (h : i < a.size) : a[i]? = some a[i] := getElem?_pos a i h

theorem getElem?_eq_none (h : a.size ≤ i) : a[i]? = none := getElem?_neg a i (Nat.not_lt.2 h)

theorem getElem?_eq_some_iff : a[i]? = some x ↔ ∃ h : i < a.size, a[i] = x := by
  by_cases h : i < a.size
  · simp [h]
  · simp [h]

theorem lt_size_of_getElem? (h : a[i]? = some x) : i < a.size := (getElem?_eq_some_iff.1 h).1

theorem mem_iff_getElem? : x ∈ a ↔ ∃ i : Nat, a[i]? = some x := Iff.rfl

theorem mem_of_getElem? (h : a[i]? = some x) : x ∈ a := ⟨i, h⟩

@[simp] theorem not_mem_empty : x ∉ (empty : Arena α) := fun ⟨i, h⟩ => by simp at h

/-- The pages with room hold the same records. -/
theorem getElem?_pagesWithRoom (a : Arena α) (k j : Nat) :
    a.pagesWithRoom[k]?.bind (·[j]?) = a.pages[k]?.bind (·[j]?) := by
  unfold pagesWithRoom
  split
  · rw [Array.getElem?_push]
    split
    · rename_i hk
      rw [hk, Array.getElem?_eq_none (Nat.le_refl _)]
      exact Array.getElem?_eq_none (Nat.zero_le j)
    · rfl
  · rfl

/-- Adding a record puts it behind the others and moves none of them. -/
theorem getElem?_push (a : Arena α) (x : α) (i : Nat) :
    (a.push x)[i]? = if i = a.size then some x else a[i]? := by
  have old := a.getElem?_pagesWithRoom (i / pageCapacity) (i % pageCapacity)
  show (a.pagesWithRoom.modify (a.pagesWithRoom.size - 1) (·.push x))[i / pageCapacity]?.bind
    (·[i % pageCapacity]?) = if i = a.size then some x else
      a.pages[i / pageCapacity]?.bind (·[i % pageCapacity]?)
  rw [← old, Array.getElem?_modify, size_pagesWithRoom, Nat.add_sub_cancel]
  by_cases hk : a.size / pageCapacity = i / pageCapacity
  · rw [if_pos hk]
    have hroom := a.size_pagesWithRoom
    cases hpage : a.pagesWithRoom[i / pageCapacity]? with
    | none =>
        have := Array.getElem?_eq_none_iff.1 hpage
        omega
    | some page =>
        -- the record goes to the place that its position has in the page
        have hsize := a.filled_pagesWithRoom hpage
        rw [Option.map_some, Option.bind_some, Option.bind_some, Array.getElem?_push, hsize]
        rw [show pageCapacity = 1024 from rfl] at *
        have : i % 1024 = min 1024 (a.size - 1024 * (i / 1024)) ↔ i = a.size := by omega
        simp only [this]
  · rw [if_neg hk, if_neg fun h => hk (by rw [h])]

theorem getElem?_push_lt (h : i < a.size) : (a.push x)[i]? = a[i]? := by
  rw [getElem?_push, if_neg (Nat.ne_of_lt h)]

@[simp] theorem getElem?_push_size : (a.push x)[a.size]? = some x := by
  rw [getElem?_push, if_pos rfl]

theorem eq_of_push_eq (h : a.push x = a.push y) : x = y := by
  have last := congrArg (fun b : Arena α => b[a.size]?) h
  simpa using last

@[simp] theorem mem_push : y ∈ a.push x ↔ y ∈ a ∨ y = x := by
  simp only [mem_iff_getElem?, getElem?_push]
  constructor
  · rintro ⟨i, h⟩
    split at h
    · exact .inr (Option.some.inj h).symm
    · exact .inl ⟨i, h⟩
  · rintro (⟨i, h⟩ | rfl)
    · exact ⟨i, by rw [if_neg (Nat.ne_of_lt (lt_size_of_getElem? h)), h]⟩
    · exact ⟨a.size, if_pos rfl⟩

/-- The records in order. -/
def toList (a : Arena α) : List α := List.ofFn fun i : Fin a.size => a[i]

@[simp] theorem length_toList : a.toList.length = a.size := List.length_ofFn

theorem getElem?_toList (a : Arena α) (i : Nat) : a.toList[i]? = a[i]? := by
  by_cases h : i < a.size
  · simp [toList, h]
  · simp [toList, h]

theorem mem_toList : x ∈ a.toList ↔ x ∈ a := by
  rw [List.mem_iff_getElem?, mem_iff_getElem?]
  simp only [getElem?_toList]

/-- Arenas with the same records in order look up the same. -/
theorem toList_push (a : Arena α) (x : α) : (a.push x).toList = a.toList ++ [x] := by
  refine List.ext_getElem? fun i => ?_
  rw [getElem?_toList, getElem?_push]
  by_cases h : i < a.size
  · rw [if_neg (Nat.ne_of_lt h), List.getElem?_append_left (by simpa using h), getElem?_toList]
  · rw [List.getElem?_append_right (by simpa using h), length_toList]
    split
    · rename_i h
      simp [h]
    · rw [getElem?_eq_none (Nat.not_lt.1 h), List.getElem?_eq_none]
      simp
      omega

@[simp] theorem getElem?_ofPage {page : Array α} (h : 0 < page.size ∧ page.size ≤ pageCapacity) (i : Nat) :
    (ofPage page h)[i]? = page[i]? := by
  show (#[page] : Array (Array α))[i / pageCapacity]?.bind (·[i % pageCapacity]?) = page[i]?
  by_cases hi : i < pageCapacity
  · rw [Nat.div_eq_of_lt hi, Nat.mod_eq_of_lt hi]
    rfl
  · have hdiv : 0 < i / pageCapacity := Nat.div_pos (Nat.not_lt.1 hi) (by decide)
    rw [Array.getElem?_eq_none (show 1 ≤ i / pageCapacity from hdiv), Array.getElem?_eq_none (by omega)]
    rfl

theorem toList_ofPage {page : Array α} (h : 0 < page.size ∧ page.size ≤ pageCapacity) :
    (ofPage page h).toList = page.toList := by
  refine List.ext_getElem? fun i => ?_
  rw [getElem?_toList, getElem?_ofPage, Array.getElem?_toList]

end Lookup

end Arena

end Gatework
