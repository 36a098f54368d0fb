import Gatework.TruthTable.Words

/-!
# Tables of any number of variables

`TruthTable n` fixes the number of variables in its type.  Where it is known only when the program
runs, a table travels with its number as an `AnyTable`.  What works on it checks what the types of the
indexed tables guarantee: that a table has the expected variables, that two tables range over the same
ones.
-/

namespace Gatework

/-- A truth table together with its number of variables. -/
structure AnyTable where
  numVars : Nat
  table : TruthTable numVars
deriving DecidableEq, Repr

/-- Forgets the number of variables in the type. -/
def TruthTable.any {n : Nat} (t : TruthTable n) : AnyTable := ⟨n, t⟩

namespace AnyTable

/-- The table over `n` variables, where the two numbers are known to agree. -/
def as? (t : AnyTable) (n : Nat) : Option (TruthTable n) :=
  if h : t.numVars = n then some (h ▸ t.table) else none

/-- The table of `n` variables that a text denotes. -/
def ofHex? (n : Nat) (text : String) : Option AnyTable :=
  (TruthTable.ofHex? n text).map TruthTable.any

/-- Runs an operation on two tables over the same variables. -/
def both {α : Type} (s t : AnyTable) (f : {n : Nat} → TruthTable n → TruthTable n → α) :
    Except Fault α :=
  match t.as? s.numVars with
  | some u => .ok (f s.table u)
  | none => .error .differentVariables

end AnyTable

end Gatework
