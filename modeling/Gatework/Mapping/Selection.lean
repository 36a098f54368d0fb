import Gatework.Mapping.Problem

/-!
# Selections

A selection chooses a realisation for every entry, in topological order, so that the arrivals of
everything below are known when an entry is decided.  Walking back from the outputs gives the time by
which every entry has to arrive so that the slowest output does not get slower.

Of the candidates of an entry the selection for delay takes the earliest, and the selection for area the
one with the least area flow, of nearly equal ones the earlier.  Area recovery does so only among the
candidates that meet the required times of the selection for delay.
-/

namespace Gatework

/-- A choice for every entry, where there is one, and the arrivals that result from it. -/
structure Selection where
  choice : Array (Option Realization)
  arrival : Array Float32

namespace Selection

/-- The latest arrival of an output. -/
def delay (s : Selection) (p : Problem) : Float32 :=
  Cost.maximum (p.net.outputs.map fun o => s.arrival.getD o 0)

/-- Decides one entry: what is fixed stays, everything else is picked.  An entry without choice never
arrives. -/
def decideEntry {σ : Type} (p : Problem)
    (pick : σ → Nat → Array Float32 → Option Candidate × σ)
    (state : Selection × σ) (entry : Nat) : Selection × σ :=
  let (s, memory) := state
  let (choice, memory) := match p.fixed? entry with
    | some r => (some r, memory)
    | none =>
        let (picked, memory) := pick memory entry s.arrival
        (picked.map Candidate.realization, memory)
  let arrival := choice.elim Cost.infinite (p.arrival s.arrival)
  ({ choice := s.choice.push choice, arrival := s.arrival.push arrival }, memory)

/-- Decides all entries in order.  `pick` sees the arrivals of the entries before and what it
remembered about them. -/
def forward {σ : Type} (p : Problem) (pick : σ → Nat → Array Float32 → Option Candidate × σ)
    (memory : σ) : Selection :=
  ((List.range p.net.size).foldl (decideEntry p pick) (⟨#[], #[]⟩, memory)).1

/-- The first member of a list that no other one is better than, as far as the comparisons go: the
list is run through once, and a member replaces the best so far if it is better. -/
def firstBest? {α β : Type} (cost : α → β) (better : β → β → Bool) (xs : List α) : Option α :=
  (xs.foldl (fun best x =>
    match best with
    | none => some (x, cost x)
    | some (_, least) => if better (cost x) least then some (x, cost x) else best) none).map (·.1)

/-- Picks by area flow: `pick` is given the area flow of the entries before, and the flow of what it
picks is remembered. -/
def withFlow {σ : Type} (p : Problem)
    (pick : σ → Array Float32 → Nat → Array Float32 → Option Candidate × σ) (memory : σ) :
    Selection :=
  forward p (fun (memory, flow) entry arrivals =>
    let (picked, memory) := pick memory flow entry arrivals
    let flow := picked.elim flow fun c => flow.setIfInBounds entry (p.areaFlow flow c.realization)
    (picked, memory, flow)) (memory, Array.replicate p.net.size 0)

/-! ## Required times -/

/-- Lowers the required time of an entry. -/
def tighten (required : Array Float32) (entry : Nat) (time : Float32) : Array Float32 :=
  required.modify entry (Cost.min · time)

/-- Passes the required time of an entry on to what its realisation reads. -/
def passBack (p : Problem) (target : Float32) (required : Array Float32) (entry : Nat)
    (r : Realization) : Array Float32 :=
  let own := match r with
    | .output _ => target
    | _ => required.getD entry Cost.infinite
  let inverter (l : Link) : Float32 := if l.inverted then p.inverterDelay else 0
  if own.isFinite then
    match r with
    | .output l => tighten required l.entry (own - inverter l)
    | .wire leaf => tighten required leaf own
    | .cell c pins =>
        (pins.zip (p.costsOf c).delay).foldl
          (fun required (pin, delay) => tighten required pin.entry (own - delay - inverter pin))
          required
    | _ => required
  else required

/-- The time by which every entry has to arrive; entries that the outputs do not need may take any
time. -/
def requiredTimes (s : Selection) (p : Problem) : Array Float32 :=
  let target := s.delay p
  (List.range p.net.size).reverse.foldl
    (fun required entry =>
      match s.choice.getD entry none with
      | some r => passBack p target required entry r
      | none => required)
    (Array.replicate p.net.size Cost.infinite)

end Selection

/-! ## Selecting for delay -/

/-- The first candidate with the earliest arrival, among those that arrive at all. -/
def Problem.pickEarliest (p : Problem) (entry : Nat) (arrivals : Array Float32) :
    Option Candidate :=
  let time (c : Candidate) : Float32 := p.arrival arrivals c.realization
  Selection.firstBest? time (fun a b => decide (a < b))
    ((p.candidatesAt entry).filter fun c => decide (time c < Cost.infinite))

/-- The selection with the earliest arrivals. -/
def Selection.earliest (p : Problem) : Selection :=
  forward p (fun _ entry arrivals => (p.pickEarliest entry arrivals, ())) ()

/-! ## Selecting for area -/

namespace Selection

/-- The selection with the least area flow. -/
def leastArea (p : Problem) : Selection :=
  withFlow p (fun _ flow entry arrivals =>
    (firstBest? (fun c => (p.areaFlow flow c.realization, p.arrival arrivals c.realization)) Cost.better
      (p.candidatesAt entry), ())) ()

/-- The candidate with the least cost among those that arrive in time; if there is none, the
earliest. -/
def pickInTime (p : Problem) (entry : Nat) (arrivals : Array Float32) (required : Float32)
    (cost : Candidate → Float32) : Option Candidate :=
  let time (c : Candidate) : Float32 := p.arrival arrivals c.realization
  let candidates := p.candidatesAt entry
  let inTime := candidates.filter fun c => !decide (required + Cost.slack < time c)
  (firstBest? (fun c => (cost c, time c)) Cost.better inTime).or
    (firstBest? time (fun a b => decide (a < b)) candidates)

/-- The selection with the least area flow that does not delay the slowest output. -/
def areaRecovery (p : Problem) : Selection :=
  let required := (earliest p).requiredTimes p
  withFlow p (fun _ flow entry arrivals =>
    (pickInTime p entry arrivals (required.getD entry Cost.infinite)
      (fun c => p.areaFlow flow c.realization), ())) ()

end Selection

end Gatework
