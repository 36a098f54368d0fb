import Gatework.Mapping.Evolution
import Gatework.Mapping.LeastPower
import Gatework.Mapping.Network

/-!
# Strategies of mapping

A strategy decides which candidates are chosen.  The mapped network is built from the choice in the
same way for all of them.
-/

namespace Gatework

/-- How candidates are chosen. -/
inductive Strategy where
  | minDelay
  | simpleArea
  | areaRecovery
  | powerMap
  | genetic (options : EvolutionOptions)

namespace Strategy

/-- The name of a strategy. -/
def name : Strategy → String
  | minDelay => "min-delay"
  | simpleArea => "simple-area"
  | areaRecovery => "area-recovery"
  | powerMap => "power-map"
  | genetic _ => "genetic"

/-- The selection that a strategy makes. -/
def select (s : Strategy) (p : Problem) : Except Fault Selection :=
  match s with
  | minDelay => .ok (Selection.earliest p)
  | simpleArea => .ok (Selection.leastArea p)
  | areaRecovery => .ok (Selection.areaRecovery p)
  | powerMap => Selection.leastPower p
  | genetic options => Selection.evolved p options

end Strategy

/-- The network that a strategy makes of a network with the cells of a library. -/
def Store.map (store : Store) (net : Subnet) (library : Library) (strategy : Strategy)
    (options : MapOptions) : Except Fault (Except MapError Subnet) := do
  let p ← Problem.of store net library options
  let s ← strategy.select p
  MappedNetwork.ofChoice store net library s.choice

/-- Maps a network onto a library and adds the mapped network to the store, which stays as it is if
there is none. -/
def Store.addMapped (store : Store) (net : Subnet) (library : Library) (strategy : Strategy)
    (options : MapOptions) : Except Fault (Store × Except MapError Nat) := do
  match ← store.map net library strategy options with
  | .error e => return (store, .error e)
  | .ok mapped =>
      let (store, position) := store.addSubnet mapped
      return (store, .ok position)

end Gatework
