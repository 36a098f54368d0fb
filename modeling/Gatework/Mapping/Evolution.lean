import Gatework.Mapping.Genes

/-!
# Searching by evolution

A population of genes starts from the selections for delay and for area and from random ones.  In
each generation pairs are drawn in proportion to their fitness, crossed at a random point, mutated
and completed; the fittest genes seen so far always survive.  Fitness is the inverse of area times
delay.
-/

namespace Gatework

/-- How long and how widely to search. -/
structure EvolutionOptions where
  population : Nat := 32
  generations : Nat := 40
  /-- The probability that a gene is drawn anew after crossing. -/
  mutationRate : Float := 0.05
  seed : UInt64 := 0
  /-- Genes beyond a bound do not reproduce, unless all are. -/
  maxArea : Option Float32 := none
  maxDelay : Option Float32 := none

/-- Genes with what they cost. -/
structure Individual where
  genes : Genes
  area : Float32
  arrival : Array Float32
  delay : Float32
  fitness : Float

namespace Evolution

/-- Products of area and delay below this size count as this size. -/
def leastCost : Float := 1e-9

/-- The fitness of an area and a delay; what does not arrive has none.  The product has a finite value
exactly if both factors do, because it is formed in double precision. -/
def fitness (area delay : Float32) : Float :=
  let cost := area.toFloat * delay.toFloat
  if area.isFinite && delay.isFinite then 1 / (if cost < leastCost then leastCost else cost) else 0

/-- Adds the arrival and the area of the next entry. -/
def addCosts (p : Problem) (state : Array Float32 × Float32) (choice : Option Realization) :
    Array Float32 × Float32 :=
  let (arrival, area) := state
  match choice with
  | some r => (arrival.push (p.arrival arrival r), area + p.area r)
  | none => (arrival.push Cost.infinite, area)

/-- The costs of genes. -/
def evaluate (p : Problem) (genes : Genes) : Individual :=
  let (arrival, area) := (genes.choice p).foldl (addCosts p) (#[], 0)
  let delay := Cost.maximum (p.net.outputs.map fun o => arrival.getD o 0)
  { genes, area, arrival, delay, fitness := fitness area delay }

/-- Whether genes respect the bounds. -/
def isWithin (options : EvolutionOptions) (i : Individual) : Bool :=
  (options.maxArea.all fun a => decide (i.area ≤ a)) &&
    (options.maxDelay.all fun d => decide (i.delay ≤ d))

/-- The first of the fittest. -/
def fittest (first : Individual) (others : List Individual) : Individual :=
  others.foldl (fun best i => if best.fitness < i.fitness then i else best) first

/-- Those of a population that reproduce. -/
def survivors (options : EvolutionOptions) (population : List Individual) : List Individual :=
  let within := population.filter (isWithin options)
  if within.isEmpty then population else within

/-- Draws the genes of a parent. -/
def drawParent (parents : Array Individual) (roulette : Option Generator.Roulette) : Search Genes := do
  let i ← match roulette with
    | some r => fun g => .ok (r.spin g)
    | none => Search.below parents.size
  match parents[i]? with
  | some parent => return parent.genes
  | none => throw .internal

/-- Completes, mutates and completes a child; what the first completion misses comes from the
donor. -/
def raise (p : Problem) (rate : Float) (child donor : Genes) : Search Individual := do
  let (_, child) ← child.complete p (some donor)
  let child ← child.mutate p rate
  let (_, child) ← child.complete p none
  return evaluate p child

/-- Breeds pairs of children. -/
def breed (p : Problem) (rate : Float) (parents : Array Individual)
    (roulette : Option Generator.Roulette) : (pairs : Nat) → Search (List Individual)
  | 0 => return []
  | pairs + 1 => do
      let a ← drawParent parents roulette
      let b ← drawParent parents roulette
      let point ← Search.below (p.net.size + 1)
      let first := Genes.cross point a b
      let second := Genes.cross point b a
      let i ← raise p rate first second
      let j ← raise p rate second first
      return i :: j :: (← breed p rate parents roulette pairs)

/-- The number of pairs that fill a population of at least two behind its first member. -/
def pairsFor (population : Nat) : Nat := max population 2 / 2

/-- Runs the generations; `best` is the fittest so far. -/
def run (p : Problem) (options : EvolutionOptions) (rate : Float) :
    (generations : Nat) → (best : Individual) → (population : List Individual) → Search Individual
  | 0, best, _ => return best
  | generations + 1, best, population => do
      let parents := survivors options population
      let roulette := Generator.Roulette.of? (parents.map (·.fitness))
      let children ← breed p rate parents.toArray roulette (pairsFor options.population)
      run p options rate generations (fittest best children) (best :: children)

/-- Genes that reproduce a selection, completed, or nothing if they cannot be completed. -/
def seedFrom (p : Problem) (s : Selection) : Search (Option Individual) := do
  let (isComplete, genes) ← (Genes.ofSelection p s).complete p none
  return if isComplete then some (evaluate p genes) else none

/-- Random genes. -/
def drawIndividuals (p : Problem) : (count : Nat) → Search (List Individual)
  | 0 => return []
  | count + 1 => do
      let (_, genes) ← (Genes.none p).complete p none
      return evaluate p genes :: (← drawIndividuals p count)

/-- A number between zero and one. -/
def clampRate (rate : Float) : Float := if rate < 0 then 0 else if 1 < rate then 1 else rate

/-- The search.  Without a complete selection to start from, the earliest one is the result. -/
def search (p : Problem) (options : EvolutionOptions) : Search Selection := do
  let earliest := Selection.earliest p
  match ← seedFrom p earliest with
  | none => return earliest
  | some first =>
      match ← seedFrom p (Selection.leastArea p) with
      | none => return earliest
      | some second => do
          let others ← drawIndividuals p (options.population - 2)
          let population := first :: second :: others
          let best ← run p options (clampRate options.mutationRate) options.generations
            (fittest first (second :: others)) population
          return { choice := best.genes.choice p, arrival := best.arrival }

end Evolution

/-- The selection found by evolution. -/
def Selection.evolved (p : Problem) (options : EvolutionOptions) : Except Fault Selection := do
  let (s, _) ← (Evolution.search p options).run (.ofSeed options.seed)
  return s

end Gatework
