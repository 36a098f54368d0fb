import Gatework.Activity.Basic
import Gatework.Decimal.Binary
import Gatework.Store

/-!
# Activity reports

A report has one line for every entry, with fields divided by semicolons, below a line that names the
fields.  The counted changes appear only if the activity was simulated.
-/

namespace Gatework

namespace Activity

/-- Probabilities are written with this many places. -/
def reportPlaces : Nat := 6

/-- The line that names the fields. -/
def reportHeader (a : Activity) : String :=
  "index;type;arity;switching;on_state" ++
    (if a.counts.isSome then ";switches_on;switches_off" else "") ++ "\n"

/-- The line of one entry. -/
def reportLine (a : Activity) (store : Store) (i : Nat) (c : Cell) : String :=
  let number (xs : Array Float32) := Fixed.text reportPlaces (xs.getD i 0)
  let fields := [toString i, store.kindName c.kind, toString c.links.length,
    number a.switching, number a.onState]
  let counted := a.counts.elim [] fun t => [toString (t.rises.getD i 0), toString (t.falls.getD i 0)]
  ";".intercalate (fields ++ counted) ++ "\n"

/-- The report on the activity of a network. -/
def report (a : Activity) (store : Store) (net : Subnet) : Except Fault String :=
  if a.size = net.size then
    .ok (a.reportHeader ++
      String.join (net.cells.toList.zipIdx.map fun (c, i) => a.reportLine store i c))
  else .error (.wrongReport a.size net.size)

end Activity

end Gatework
