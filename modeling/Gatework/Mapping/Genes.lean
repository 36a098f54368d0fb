import Gatework.Mapping.Selection
import Gatework.Random.Generator
import Gatework.Reach

/-!
# Genes

Genes give every entry that the outputs need the number of one of its candidates, and no other entry
has a gene.  After a change the genes are completed: starting from the outputs, every entry that is
reached and has no gene gets one, from a donor or at random, and entries that are not reached lose
theirs.
-/

namespace Gatework

/-- The number of a candidate for every entry that has one. -/
abbrev Genes := Array (Option Nat)

/-- Steps of a random search. -/
abbrev Search := StateT Pcg (Except Fault)

/-- A random number below a bound.  There has to be one. -/
def Search.below (n : Nat) : Search Nat := fun g =>
  if n = 0 then .error .emptyRange else .ok (Generator.below n g)

/-- True with a given probability. -/
def Search.chance (p : Float) : Search Bool := fun g => Generator.chance p g

namespace Genes

/-- The genes of a problem before any is chosen. -/
def none (p : Problem) : Genes := Array.replicate p.net.size .none

/-- The gene of an entry, which is taken from the genes, from the donor, or at random from
`count` candidates. -/
def settle (donor : Option Genes) (genes : Genes) (entry count : Nat) : Search Nat :=
  match (genes.getD entry .none).or (donor.bind (·.getD entry .none)) with
  | some gene => pure gene
  | .none => Search.below count

/-- What completing genes leads to. -/
structure Completion where
  /-- Whether every entry that was reached has a candidate. -/
  isComplete : Bool
  genes : Genes
  /-- The entries that were reached. -/
  reached : Array Bool
  generator : Pcg

/-- Gives a gene to every entry reachable from the stack that is not marked yet.  It stops at an entry
without candidates.  A gene has to be the number of a candidate. -/
def extend (p : Problem) (donor : Option Genes) (marks : Array Bool) (stack : List Nat)
    (genes : Genes) (g : Pcg) : Except Fault Completion :=
  match stack with
  | [] => .ok ⟨true, genes, marks, g⟩
  | v :: stack =>
      if h : v < marks.size then
        if unmarked : marks[v] = false then
          match p.fixed? v with
          | some r => extend p donor (marks.set v true) (r.leaves.reverse ++ stack) genes g
          | .none =>
              let candidates := p.candidatesAt v
              if candidates.isEmpty then .ok ⟨false, genes, marks.set v true, g⟩
              else
                match settle donor genes v candidates.length g with
                | .error fault => .error fault
                | .ok (gene, g) =>
                    match candidates[gene]? with
                    | some c =>
                        extend p donor (marks.set v true) (c.realization.leaves.reverse ++ stack)
                          (genes.setIfInBounds v (some gene)) g
                    | .none => .error .internal
        else extend p donor marks stack genes g
      else .error .internal
termination_by (marks.count false, stack.length)
decreasing_by
  · exact Prod.Lex.left _ _ (Reach.count_false_set_lt marks v h unmarked)
  · exact Prod.Lex.left _ _ (Reach.count_false_set_lt marks v h unmarked)
  · exact Prod.Lex.right _ (Nat.lt_succ_self _)

/-- The genes of the entries that were reached. -/
def restrict (genes : Genes) (reached : Array Bool) : Genes :=
  genes.zipWith (fun gene reached => if reached then gene else .none) reached

/-- Completes genes; returns whether this was possible.  If it was not, the genes chosen so far stay
and none is taken away. -/
def complete (p : Problem) (genes : Genes) (donor : Option Genes) : Search (Bool × Genes) :=
  fun g => do
    let c ← extend p donor (Array.replicate p.net.size false) p.net.outputs.reverse genes g
    return ((c.isComplete, if c.isComplete then c.genes.restrict c.reached else c.genes), c.generator)

/-- The genes of a selection. -/
def ofSelection (p : Problem) (s : Selection) : Genes :=
  s.choice.zipIdx.map fun (choice, entry) =>
    choice.bind fun r => (p.candidatesAt entry).findIdx? (·.realization == r)

/-- The realisations that genes choose. -/
def choice (p : Problem) (genes : Genes) : Array (Option Realization) :=
  (Array.range p.net.size).map fun entry =>
    match p.fixed? entry with
    | some r => some r
    | .none =>
        (genes.getD entry .none).bind fun gene =>
          ((p.candidatesAt entry)[gene]?).map Candidate.realization

/-- Draws each gene anew with probability `rate`. -/
def mutate (p : Problem) (rate : Float) (genes : Genes) : Search Genes :=
  genes.zipIdx.mapM fun (gene, entry) => do
    if gene.isNone then return gene
    else if ← Search.chance rate then
      return some (← Search.below (p.candidatesAt entry).length)
    else return gene

/-- The genes of the first up to a point, and those of the second from there on. -/
def cross (point : Nat) (first second : Genes) : Genes :=
  first.extract 0 point ++ second.extract point second.size

end Genes

end Gatework
