import Gatework.Builder.Cursor
import Gatework.Builder.Replacement
import Gatework.Cut.Enumeration
import Gatework.Cut.Reconvergence
import Gatework.Synthesis.Method

/-!
# Rewriting

A pass visits every inner cell that exists when it starts, in topological order.  Each cut of the
cell is tabulated and synthesised anew, the effect of putting the result in the place of the cone is
predicted, and the best acceptable replacement is carried out.

The pass takes any way to synthesise functions, right or wrong.  After every replacement the function
of the cone is compared with what it was, unless the options say otherwise; a difference ends the pass
with an error.

The cuts are enumerated once and brought up to date after every replacement, or, by choice, one
reconvergence cut is computed for each cell when it is visited.
-/

namespace Gatework

/-- Where the cuts of a cell come from. -/
inductive CutSource where
  | enumerated
  | reconvergence
deriving DecidableEq, Repr

/-- What a pass tries and accepts. -/
structure RewriteOptions where
  cuts : CutOptions := {}
  source : CutSource := .enumerated
  /-- The widest cells that synthesis may use. -/
  maxArity : Nat := 2
  /-- Accept replacements that keep the number of cells. -/
  zeroCost : Bool := false
  /-- Refuse replacements that make the root deeper. -/
  depthAware : Bool := true
  /-- Compare the function of every replaced cone with what it was. -/
  validate : Bool := true

/-- What a pass did. -/
structure RewriteStats where
  visited : Nat := 0
  /-- The number of cuts for which synthesis found a network. -/
  resynthesized : Nat := 0
  rewritten : Nat := 0
  cellsBefore : Nat := 0
  cellsAfter : Nat := 0
  depthBefore : Nat := 0
  depthAfter : Nat := 0
deriving DecidableEq, Repr

/-- A replacement at `entry` changed the function of its cone. -/
structure FunctionalMismatch where
  entry : Nat
deriving DecidableEq, Repr

/-- The wording of a mismatch. -/
def FunctionalMismatch.message (m : FunctionalMismatch) : String :=
  s!"rewrite of entry {m.entry} changed the function of its cone"

namespace Rewrite

/-- The state of a pass. -/
structure State where
  store : Store
  builder : Builder
  /-- The cuts of all entries, if they are enumerated. -/
  cuts : Option CutSets
  stats : RewriteStats

/-- A network for the function of a cut, and what putting it in place would change. -/
structure Candidate where
  cut : Cut
  table : TruthTable cut.leaves.length
  net : Subnet
  effect : Effect

/-- The replacement of a candidate. -/
def Candidate.replacement (c : Candidate) : Replacement := ⟨c.net, c.cut.leaves, c.cut.root⟩

/-- Whether an effect is good enough. -/
def accepts (options : RewriteOptions) (e : Effect) : Bool :=
  (decide (e.size < 0) || (options.zeroCost && e.size == 0)) &&
    (!options.depthAware || decide (e.depth ≤ 0))

/-- Fewer cells first, then less depth. -/
def betterEffect (a b : Effect) : Bool :=
  decide (a.size < b.size) || (a.size == b.size && decide (a.depth < b.depth))

/-- Synthesises the function of a cut and predicts the effect of the result. -/
def tryCut (m : Resynthesizer) (options : RewriteOptions) (s : State) (cut : Cut) :
    Except Fault (State × Option Candidate) := do
  let table ← s.store.tabulateCone s.builder.cells cut.root cut.leaves
  match ← m.resynthesize s.store table none options.maxArity with
  | (store, none) => return ({ s with store }, none)
  | (store, some net) =>
      if net.numInputs ≠ cut.size then .error (.wrongSynthesis m.name net.numInputs cut.size)
      else
        let effect ← s.builder.predict ⟨net, cut.leaves, cut.root⟩
        let stats := { s.stats with resynthesized := s.stats.resynthesized + 1 }
        return ({ s with store, stats }, some { cut, table, net, effect })

/-- Tries a cut and keeps the better of its candidate and the best one so far. -/
def considerCut (m : Resynthesizer) (options : RewriteOptions) (state : State × Option Candidate)
    (cut : Cut) : Except Fault (State × Option Candidate) := do
  let (s, best) := state
  match ← tryCut m options s cut with
  | (s, none) => return (s, best)
  | (s, some c) =>
      let better := accepts options c.effect && best.all fun b => betterEffect c.effect b.effect
      return (s, if better then some c else best)

/-- The cuts to try at an entry. -/
def cutsAt (options : RewriteOptions) (s : State) (entry : Nat) : Except Fault (List Cut) :=
  match s.cuts with
  | some sets => sets.get entry
  | none => (reconvergenceCut s.builder.cells entry options.cuts.size).map ([·])

/-- The living entries behind an entry in topological order. -/
def entriesAfter (b : Builder) (entry : Nat) : List Nat :=
  (b.order.dropWhile (· ≠ entry)).drop 1

/-- Brings the cuts up to date after a replacement at `root` that created the entries from
`firstNew` on: those, the root, and everything above the root in topological order. -/
def refreshCuts (sets : CutSets) (b : Builder) (root firstNew : Nat) : Except Fault CutSets := do
  let created := (List.range' firstNew (b.size - firstNew)).filter b.isAlive
  let above := reachable b.fanouts b.size (b.fanouts root)
  let stale := created ++ root :: (entriesAfter b root).filter above.contains
  stale.foldlM (fun sets id => sets.recompute b.cells id) sets

/-- The cuts after a replacement, if they are enumerated. -/
def refreshed (cuts : Option CutSets) (b : Builder) (root firstNew : Nat) :
    Except Fault (Option CutSets) :=
  match cuts with
  | some sets => (refreshCuts sets b root firstNew).map some
  | none => .ok none

/-- Compares the function of the cone that a candidate has replaced with what it was. -/
def checkCone (options : RewriteOptions) (s : State) (c : Candidate) :
    Except Fault (Option FunctionalMismatch) :=
  if options.validate then do
    let table ← s.store.tabulateCone s.builder.cells c.cut.root c.cut.leaves
    return if table = c.table then none else some ⟨c.cut.root⟩
  else .ok none

/-- Carries out a replacement and checks that the cone computes what it did. -/
def apply (options : RewriteOptions) (s : State) (c : Candidate) :
    Except Fault (State × Option FunctionalMismatch) := do
  let builder ← s.builder.replace c.replacement
  let cuts ← refreshed s.cuts builder c.cut.root s.builder.size
  let stats := { s.stats with rewritten := s.stats.rewritten + 1 }
  let s := { s with builder, cuts, stats }
  return (s, ← checkCone options s c)

/-- Tries the cuts of an entry and carries out the best acceptable replacement. -/
def visit (m : Resynthesizer) (options : RewriteOptions) (s : State) (entry : Nat) :
    Except Fault (State × Option FunctionalMismatch) :=
  match s.builder.cells[entry]? with
  | none => .error .internal
  | some c =>
      if c.isTerminal || c.isConst then .ok (s, none)
      else do
        let s := { s with stats := { s.stats with visited := s.stats.visited + 1 } }
        let cuts ← cutsAt options s entry
        let (s, best) ← (cuts.filter (!·.isTrivial)).foldlM (considerCut m options) (s, none)
        match best with
        | none => return (s, none)
        | some c => apply options s c

/-- Visits the remaining entries of a walk.  A walk hands out every entry at most once: `fuel` has to
exceed the number of entries at its start, and a walk that uses it up is a fault. -/
def walk (m : Resynthesizer) (options : RewriteOptions) :
    (fuel : Nat) → Cursor → State → Except Fault (State × Option FunctionalMismatch)
  | 0, _, _ => .error .endless
  | fuel + 1, cursor, s => do
      match ← cursor.advance s.builder with
      | (none, _) => return (s, none)
      | (some entry, cursor) =>
          match ← visit m options s entry with
          | (s, some mismatch) => return (s, some mismatch)
          | (s, none) => walk m options fuel cursor s

/-- The cuts with which a pass begins. -/
def initialCuts (options : RewriteOptions) (b : Builder) : Except Fault (Option CutSets) :=
  match options.source with
  | .enumerated => (CutSets.enumerate options.cuts b.cells b.order).map some
  | .reconvergence => .ok none

/-- The state in which a pass begins. -/
def start (store : Store) (b : Builder) (cuts : Option CutSets) : State :=
  ⟨store, b, cuts, { cellsBefore := b.cellCount, depthBefore := b.maxDepth }⟩

end Rewrite

/-- One pass over a builder.  The store keeps every network that synthesis made, the builder keeps
the state it has when the pass ends. -/
def Builder.rewrite (b : Builder) (store : Store) (m : Resynthesizer) (options : RewriteOptions) :
    Except Fault (Store × Builder × Except FunctionalMismatch RewriteStats) := do
  if options.cuts.size = 0 then .error .cutSizeZero
  else
    let cuts ← Rewrite.initialCuts options b
    let (s, mismatch) ← Rewrite.walk m options (b.size + 1) (.start b) (Rewrite.start store b cuts)
    match mismatch with
    | some mismatch => return (s.store, s.builder, .error mismatch)
    | none =>
        return (s.store, s.builder, .ok { s.stats with
          cellsAfter := s.builder.cellCount
          depthAfter := s.builder.maxDepth })

end Gatework
