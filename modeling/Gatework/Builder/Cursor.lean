import Gatework.Builder.Basic

/-!
# Walking through a builder that changes

A cursor visits the entries that exist when it is opened, in topological order, while the builder
is being changed.  The follower of an entry is looked up before the entry is handed out; entries
created later and entries that were taken out are stepped past.
-/

namespace Gatework

/-- A walk through the entries of a builder. -/
structure Cursor where
  next : Option Nat
  /-- Entries from this number on did not exist when the walk began. -/
  bound : Nat
deriving DecidableEq, Repr

namespace Cursor

/-- A walk from the first entry. -/
def start (b : Builder) : Cursor := ⟨b.first?, b.size⟩

/-- Whether the walk hands out an entry. -/
def admits (c : Cursor) (b : Builder) (id : Nat) : Bool := decide (id < c.bound) && b.isAlive id

/-- Steps to the next entry that the walk hands out.  The walk has to be one through this builder,
so that the entry it comes to exists.  No chain of followers meets an entry twice: `fuel` has to
exceed the number of entries, and a search that uses it up is a fault. -/
def seek (b : Builder) : (fuel : Nat) → Cursor → Except Fault (Option Nat × Cursor)
  | 0, _ => .error .endless
  | fuel + 1, c =>
      match c.next with
      | none => .ok (none, c)
      | some id =>
          if id < b.size then
            let c := { c with next := b.next? id }
            if c.admits b id then .ok (some id, c) else seek b fuel c
          else .error .internal

/-- The next entry, or none at the end of the walk. -/
def advance (c : Cursor) (b : Builder) : Except Fault (Option Nat × Cursor) := seek b (b.size + 1) c

end Cursor

end Gatework
