import Gatework.Synthesis.Method

/-!
# Filling a catalogue

Every class of functions of a few variables is synthesised by each of a list of methods, and the
results are stored.
-/

namespace Gatework

namespace Catalogue

/-- The widest cells that are synthesised for a catalogue. -/
def populationArity : Nat := 2

/-- Makes a network for a function and stores it under its class. -/
def learn {n : Nat} (f : TruthTable n) (state : Store × Catalogue) (m : Resynthesizer) :
    Except Fault (Store × Catalogue) := do
  let (store, c) := state
  match ← m.resynthesize store f none populationArity with
  | (store, none) => return (store, c)
  | (store, some net) =>
      let (_, store, c) ← c.insert store net
      return (store, c)

/-- Stores every class of functions of `n` variables. -/
def learnClasses (methods : List Resynthesizer) (state : Store × Catalogue) (n : Nat) :
    Except Fault (Store × Catalogue) := do
  (← canonicalForms n).foldlM (fun state f => methods.foldlM (learn f) state) state

/-- Stores every class of functions of one to `maxVariables` variables, and returns the number of
networks that were new. -/
def populate (c : Catalogue) (store : Store) (maxVariables : Nat) (methods : List Resynthesizer) :
    Except Fault (Nat × Store × Catalogue) := do
  let (store, filled) ← (List.range' 1 maxVariables).foldlM (learnClasses methods) (store, c)
  return (filled.networkCount - c.networkCount, store, filled)

end Catalogue

end Gatework
