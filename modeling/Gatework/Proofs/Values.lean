import Mathlib.Data.List.Basic
import Mathlib.Data.List.Induction
import Mathlib.Logic.Function.Basic
import Mathlib.Order.Nat
import Gatework.Builder.Basic

/-!
# The values of a network

What a network computes, said without its evaluators: one Boolean per output port of every entry,
cell by cell.  A gate combines the values of its operands; what a composite makes of its operands is
left open as a `Meaning`.

* `Topological` says that a list of entries is in an order in which values can be computed.
* `Solves` says that a valuation obeys the cells of some entries.  The entries that are `given` a
  value, be it inputs or the leaves of a cut, need not obey their cells.
* `Solves.agree`: on entries that read only each other, from the bottom up, there is one solution.
* `solves_valuesAlong`: in topological order the solution is found by one run.
* `agree_of_local` and `along_eq`: the same for anything else that is determined entry by entry, such as the
  cuts, where what an entry gets depends on what its drivers get.
-/

namespace Gatework

/-! ## Topological order -/

/-- No element of a list reads itself or one behind it. -/
structure Topological (drivers : Nat → List Nat) (xs : List Nat) : Prop where
  apart : ∀ x ∈ xs, x ∉ drivers x
  ahead : xs.Pairwise fun x y => y ∉ drivers x

namespace Topological

variable {drivers drivers' : Nat → List Nat} {xs ys : List Nat} {id : Nat}

lemma congr (h : Topological drivers xs) (same : ∀ x ∈ xs, drivers' x = drivers x) :
    Topological drivers' xs where
  apart x hx := by rw [same x hx]; exact h.apart x hx
  ahead := h.ahead.imp_of_mem fun hx _ hxy => by rwa [same _ hx]

lemma sublist (h : Topological drivers xs) (sub : ys.Sublist xs) : Topological drivers ys where
  apart x hx := h.apart x (sub.subset hx)
  ahead := h.ahead.sublist sub

/-- An element that reads only the first part of a list, and that nothing reads. -/
lemma insert (h : Topological drivers (xs ++ ys)) (apart : id ∉ drivers id)
    (unread : ∀ x ∈ xs, id ∉ drivers x) (above : ∀ y ∈ ys, y ∉ drivers id) :
    Topological drivers (xs ++ id :: ys) where
  apart x hx := by
    rcases List.mem_append.1 hx with hx | hx
    · exact h.apart x (List.mem_append_left _ hx)
    · rcases List.mem_cons.1 hx with rfl | hx
      · exact apart
      · exact h.apart x (List.mem_append_right _ hx)
  ahead := by
    have := List.pairwise_append.1 h.ahead
    refine List.pairwise_append.2 ⟨this.1, List.pairwise_cons.2 ⟨above, this.2.1⟩, ?_⟩
    intro x hx y hy
    rcases List.mem_cons.1 hy with rfl | hy
    · exact unread x hx
    · exact this.2.2 x hx y hy

/-- What an element reads, if it is in the list, is in front of the element. -/
lemma mem_front (h : Topological drivers (xs ++ id :: ys)) {d : Nat} (hd : d ∈ drivers id)
    (hmem : d ∈ xs ++ id :: ys) : d ∈ xs := by
  rcases List.mem_append.1 hmem with hx | hx
  · exact hx
  · rcases List.mem_cons.1 hx with rfl | hy
    · exact absurd hd (h.apart d hmem)
    · exact absurd hd ((List.pairwise_cons.1 (List.pairwise_append.1 h.ahead).2.1).1 d hy)

/-- What the elements of the first part of a list read is in the first part. -/
lemma mem_left (h : Topological drivers (xs ++ ys)) {x d : Nat} (hx : x ∈ xs) (hd : d ∈ drivers x)
    (hmem : d ∈ xs ++ ys) : d ∈ xs := by
  obtain ⟨front, behind, rfl⟩ := List.append_of_mem hx
  rw [List.append_assoc] at h hmem
  exact List.mem_append_left _ (h.mem_front hd hmem)

/-- Nothing reads the last element. -/
lemma ne_last {x y d : Nat} (h : Topological drivers (xs ++ [x])) (hy : y ∈ xs ++ [x])
    (hd : d ∈ drivers y) : d ≠ x := by
  rintro rfl
  rcases List.mem_append.1 hy with hmem | hmem
  · exact (List.pairwise_append.1 h.ahead).2.2 y hmem d (by simp) hd
  · exact h.apart y hy (List.mem_singleton.1 hmem ▸ hd)

/-- What an element reads comes earlier in the list. -/
lemma idxOf_lt (h : Topological drivers xs) {x d : Nat} (hx : x ∈ xs) (hd : d ∈ drivers x)
    (hmem : d ∈ xs) (nodup : xs.Nodup) : xs.idxOf d < xs.idxOf x := by
  obtain ⟨front, behind, rfl⟩ := List.append_of_mem hx
  have hfront := h.mem_front hd hmem
  have apart : x ∉ front := fun hin => (List.nodup_append.1 nodup).2.2 x hin x (by simp) rfl
  rw [List.idxOf_append_of_mem hfront, List.idxOf_append_of_notMem apart]
  exact (List.idxOf_lt_length_iff.2 hfront).trans_le (Nat.le_add_right _ _)

end Topological

/-! ## Values -/

/-- The value of a gate. -/
def Gate.value (operands : List Bool) : Gate → Bool
  | .input | .zero => false
  | .one => true
  | .buf | .output => operands.headD false
  | .not => !operands.headD false
  | .and => operands.all id
  | .nand => !operands.all id
  | .or => operands.any id
  | .nor => !operands.any id
  | .xor => operands.foldl Bool.xor false
  | .xnor => !operands.foldl Bool.xor false
  | .maj => decide (operands.length < 2 * operands.count true)

/-- What the composites compute: the values on the ports of a cell type for given operands. -/
abbrev Meaning := (type : Nat) → List Bool → List Bool

/-- A value for every port of every entry. -/
abbrev Valuation := (entry : Nat) → List Bool

/-- The value that a link reads. -/
def Link.read (v : Valuation) (l : Link) : Bool :=
  (v l.entry).getD l.port.toNat false ^^ l.inverted

/-- The values on the ports of a cell for given operands. -/
def Cell.ports (m : Meaning) (c : Cell) (operands : List Bool) : List Bool :=
  match c.kind.symbol with
  | .gate g => [g.value operands]
  | .cell => m c.kind.type operands

/-- The values on the ports of a cell inside of a network. -/
def Cell.portsIn (m : Meaning) (v : Valuation) (c : Cell) : List Bool :=
  c.ports m (c.links.map (Link.read v))

/-- The values on the ports of an entry: the one that is given to it, or those of its cell. -/
def entryPorts (m : Meaning) (given : Nat → Option Bool) (v : Valuation) (id : Nat) (c : Cell) :
    List Bool :=
  match given id with
  | some value => [value]
  | none => c.portsIn m v

/-- The entries that an entry reads, one for each link. -/
def driversIn (cells : Array Cell) (id : Nat) : List Nat := (cells[id]?).elim [] Cell.drivers

lemma driversIn_eq {cells : Array Cell} {id : Nat} {c : Cell} (h : cells[id]? = some c) :
    driversIn cells id = c.drivers := by
  simp [driversIn, h]

/-- A valuation obeys the cells of some entries. -/
def Solves (m : Meaning) (cells : Array Cell) (given : Nat → Option Bool) (v : Valuation)
    (S : Nat → Prop) : Prop :=
  ∀ id, S id → ∀ c, cells[id]? = some c → v id = entryPorts m given v id c

/-- The valuation of a network whose entries are listed in topological order. -/
def valuesAlong (m : Meaning) (cells : Array Cell) (given : Nat → Option Bool) (xs : List Nat) :
    Valuation :=
  xs.foldl (fun v id =>
    match cells[id]? with
    | some c => Function.update v id (entryPorts m given v id c)
    | none => v) fun _ => []

/-! ## Locality -/

section Locality

variable {m : Meaning} {given : Nat → Option Bool} {v w : Valuation} {cells : Array Cell}

/-- The value of a cell depends only on what its links read. -/
lemma Cell.portsIn_congr_read {c : Cell} (h : ∀ l ∈ c.links, l.read v = l.read w) :
    c.portsIn m v = c.portsIn m w := by
  rw [Cell.portsIn, Cell.portsIn, List.map_congr_left h]

/-- The value of a cell depends only on the values of its drivers. -/
lemma Cell.portsIn_congr {c : Cell} (h : ∀ d ∈ c.drivers, v d = w d) :
    c.portsIn m v = c.portsIn m w :=
  Cell.portsIn_congr_read fun l hl => by
    rw [Link.read, Link.read, h l.entry (List.mem_map_of_mem hl)]

/-- The value of an entry depends only on the values of its drivers. -/
lemma entryPorts_congr {id : Nat} {c : Cell} (h : ∀ d ∈ c.drivers, v d = w d) :
    entryPorts m given v id c = entryPorts m given w id c := by
  unfold entryPorts
  split
  · rfl
  · exact Cell.portsIn_congr h

/-- The link that reads the same port in another place. -/
def Link.rename (place : Nat → Nat) (l : Link) : Link := { l with entry := place l.entry }

/-- The cell that reads the same ports in other places. -/
def Cell.rename (place : Nat → Nat) (c : Cell) : Cell :=
  { c with links := c.links.map (Link.rename place) }

lemma Cell.drivers_rename (place : Nat → Nat) (c : Cell) :
    (c.rename place).drivers = c.drivers.map place := by
  simp [Cell.drivers, Cell.rename, Link.rename]

@[simp] lemma Cell.isTerminal_rename (place : Nat → Nat) (c : Cell) :
    (c.rename place).isTerminal = c.isTerminal := rfl

/-- A copy of a cell has the same value, if its links read the same values. -/
lemma Cell.portsIn_rename {place : Nat → Nat} {c : Cell}
    (h : ∀ l ∈ c.links, (l.rename place).read v = l.read w) :
    (c.rename place).portsIn m v = c.portsIn m w := by
  have : (c.links.map (Link.rename place)).map (Link.read v) = c.links.map (Link.read w) := by
    rw [List.map_map]
    exact List.map_congr_left h
  rw [Cell.portsIn, Cell.portsIn, Cell.rename, this]
  rfl

/-- The values depend only on what the cells of the network compute. -/
lemma valuesAlong_meaning {m' : Meaning} {xs : List Nat} (h : ∀ id ∈ xs, ∀ c,
      cells[id]? = some c → ∀ operands, c.ports m operands = c.ports m' operands) :
    valuesAlong m cells given xs = valuesAlong m' cells given xs := by
  refine List.foldl_ext _ _ _ fun v id hid => ?_
  cases hc : cells[id]? with
  | none => rfl
  | some c =>
      have : c.portsIn m v = c.portsIn m' v := h id hid c hc _
      simp only [entryPorts, this]

lemma Solves.mono {S T : Nat → Prop} (h : Solves m cells given v S) (sub : ∀ id, T id → S id) :
    Solves m cells given v T := fun id hid => h id (sub id hid)

/-- Only the cells of the entries matter, and what is given to them. -/
lemma Solves.congr {S : Nat → Prop} {cells' : Array Cell} {given' : Nat → Option Bool}
    (h : Solves m cells given v S) (same : ∀ id, S id → cells'[id]? = cells[id]?)
    (sameGiven : ∀ id, S id → given' id = given id) : Solves m cells' given' v S := by
  intro id hid c hc
  rw [h id hid c (by rw [← same id hid, hc]), entryPorts, entryPorts, sameGiven id hid]

/-- Entries that read only each other, each only such of lower rank, have one solution. -/
theorem Solves.agree {S : Nat → Prop} (hv : Solves m cells given v S)
    (hw : Solves m cells given w S) (exist : ∀ id, S id → (cells[id]?).isSome)
    (rank : Nat → Nat)
    (reads : ∀ id, S id → given id = none → ∀ c, cells[id]? = some c →
      ∀ d ∈ c.drivers, S d ∧ rank d < rank id) :
    ∀ id, S id → v id = w id := by
  intro id hid
  induction hr : rank id using Nat.strong_induction_on generalizing id with
  | _ n ih =>
      obtain ⟨c, hc⟩ := Option.isSome_iff_exists.1 (exist id hid)
      rw [hv id hid c hc, hw id hid c hc, entryPorts, entryPorts]
      cases hgiven : given id with
      | some value => rfl
      | none =>
          refine Cell.portsIn_congr fun d hd => ?_
          obtain ⟨hmem, hlt⟩ := reads id hid hgiven c hc d hd
          exact ih (rank d) (hr ▸ hlt) d hmem rfl

/-- One run in topological order finds a solution: when an entry is computed its drivers have their
values, and it drives none of the entries before. -/
theorem solves_valuesAlong {xs : List Nat} (nodup : xs.Nodup)
    (topological : Topological (driversIn cells) xs) :
    Solves m cells given (valuesAlong m cells given xs) (· ∈ xs) := by
  induction xs using List.reverseRecOn with
  | nil => exact fun id hid => absurd hid (by simp)
  | append_singleton xs x ih =>
      have hnodup := List.nodup_append.1 nodup
      have solved := ih hnodup.1 (topological.sublist (List.sublist_append_left xs [x]))
      have hstep : valuesAlong m cells given (xs ++ [x]) =
          match cells[x]? with
          | some c => Function.update (valuesAlong m cells given xs) x
              (entryPorts m given (valuesAlong m cells given xs) x c)
          | none => valuesAlong m cells given xs := by
        unfold valuesAlong
        rw [List.foldl_append]
        rfl
      intro id hid c hc
      cases he : cells[x]? with
      | none =>
          rw [hstep, he]
          rcases List.mem_append.1 hid with hid | hid
          · exact solved id hid c hc
          · rw [List.mem_singleton.1 hid, he] at hc
            cases hc
      | some e =>
          have same : ∀ ports, entryPorts m given (valuesAlong m cells given xs) id c =
              entryPorts m given (Function.update (valuesAlong m cells given xs) x ports) id c :=
            fun ports => entryPorts_congr fun d hd => (Function.update_of_ne
              (topological.ne_last hid (by rwa [driversIn_eq hc])) ..).symm
          rw [hstep, he]
          dsimp only
          rw [← same]
          rcases List.mem_append.1 hid with hmem | hmem
          · have hne : id ≠ x := hnodup.2.2 id hmem x (by simp)
            rw [Function.update_of_ne hne, solved id hmem c hc]
          · obtain rfl := List.mem_singleton.1 hmem
            rw [he] at hc
            cases hc
            rw [Function.update_self]

end Locality

/-! ## Other solutions along the order -/

section Along

/-- What an entry gets depends only on what its drivers get. -/
def Local {β : Type} (drivers : Nat → List Nat) (step : Nat → (Nat → β) → β) : Prop :=
  ∀ id f g, (∀ d ∈ drivers id, f d = g d) → step id f = step id g

/-- What the listed entries get, computed one after the other. -/
def along {β : Type} (step : Nat → (Nat → β) → β) (default : β) (xs : List Nat) : Nat → β :=
  xs.foldl (fun f id => Function.update f id (step id f)) fun _ => default

variable {β : Type} {drivers : Nat → List Nat} {step : Nat → (Nat → β) → β} {default : β}

/-- Entries that read only each other, each only such of lower rank, have one solution. -/
theorem agree_of_local {f g : Nat → β} {S : Nat → Prop} (hlocal : Local drivers step)
    (hf : ∀ id, S id → f id = step id f) (hg : ∀ id, S id → g id = step id g) (rank : Nat → Nat)
    (reads : ∀ id, S id → ∀ d ∈ drivers id, S d ∧ rank d < rank id) :
    ∀ id, S id → f id = g id := by
  intro id hid
  induction hr : rank id using Nat.strong_induction_on generalizing id with
  | _ n ih =>
      rw [hf id hid, hg id hid]
      refine hlocal id f g fun d hd => ?_
      obtain ⟨hmem, hlt⟩ := reads id hid d hd
      exact ih (rank d) (hr ▸ hlt) d hmem rfl

/-- One run in topological order finds the solution: when an entry is computed its drivers have their
results, and it drives none of the entries before. -/
theorem along_eq {xs : List Nat} (hlocal : Local drivers step) (nodup : xs.Nodup)
    (topological : Topological drivers xs) :
    ∀ id ∈ xs, along step default xs id = step id (along step default xs) := by
  induction xs using List.reverseRecOn with
  | nil => exact fun id hid => absurd hid (by simp)
  | append_singleton xs x ih =>
      have apart := List.nodup_append.1 nodup
      have solved := ih apart.1 (topological.sublist (List.sublist_append_left xs [x]))
      have hstep : along step default (xs ++ [x]) =
          Function.update (along step default xs) x (step x (along step default xs)) := by
        rw [along, List.foldl_append]
        rfl
      have same : ∀ id ∈ xs ++ [x], step id (along step default (xs ++ [x])) =
          step id (along step default xs) := by
        intro id hid
        refine hlocal id _ _ fun d hd => ?_
        rw [hstep]
        exact Function.update_of_ne (topological.ne_last hid hd) ..
      intro id hid
      rw [same id hid, hstep]
      rcases List.mem_append.1 hid with hmem | hmem
      · rw [Function.update_of_ne (apart.2.2 id hmem x (by simp)), solved id hmem]
      · rw [List.mem_singleton.1 hmem, Function.update_self]

end Along

end Gatework
