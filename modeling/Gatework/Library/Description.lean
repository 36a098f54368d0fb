import Gatework.Json.Record
import Gatework.LoadError
import Gatework.Store

/-!
# Descriptions of libraries

A library is described by a JSON file that lists its cells.  Each cell has a name, the names of its
inputs, its function as hexadecimal text and its costs; the powers may be left out.
-/

namespace Gatework

/-- One cell as a library file describes it. -/
structure CellDescription where
  name : String
  inputs : List String
  /-- The hexadecimal digits of the function; the first input is the least significant selector. -/
  table : String
  costs : CellCosts

namespace CellDescription

/-- What was read of a description. -/
structure Draft where
  name : Option String := none
  inputs : Option (List String) := none
  table : Option String := none
  area : Option Float32 := none
  delay : Option (List Float32) := none
  risePower : Option (List Float32) := none
  fallPower : Option (List Float32) := none

/-- The members of a description, in the order of their array form. -/
def members : List (JsonReader.Member Draft) := [
  ⟨"name", (·.name.isSome), fun d => return { d with name := ← JsonReader.text }⟩,
  ⟨"inputs", (·.inputs.isSome), fun d =>
    return { d with inputs := ← JsonReader.list JsonReader.text }⟩,
  ⟨"truth_table", (·.table.isSome), fun d => return { d with table := ← JsonReader.text }⟩,
  ⟨"area", (·.area.isSome), fun d => return { d with area := ← JsonReader.number }⟩,
  ⟨"delay", (·.delay.isSome), fun d =>
    return { d with delay := ← JsonReader.list JsonReader.number }⟩,
  ⟨"rise_power", (·.risePower.isSome), fun d =>
    return { d with risePower := ← JsonReader.list JsonReader.number }⟩,
  ⟨"fall_power", (·.fallPower.isSome), fun d =>
    return { d with fallPower := ← JsonReader.list JsonReader.number }⟩]

/-- The description that a draft amounts to; the powers may be missing. -/
def Draft.finish (d : Draft) : Except String CellDescription := do
  let need {α : Type} (name : String) (x : Option α) : Except String α :=
    x.elim (.error name) .ok
  let name ← need "name" d.name
  let inputs ← need "inputs" d.inputs
  let table ← need "truth_table" d.table
  let area ← need "area" d.area
  let delay ← need "delay" d.delay
  let risePower := d.risePower.getD []
  let fallPower := d.fallPower.getD []
  return { name, inputs, table, costs := { area, delay, risePower, fallPower } }

/-- The form of a description. -/
def form : JsonReader.RecordForm Draft CellDescription where
  title := "struct CellDesc"
  members := members
  start := {}
  finish := Draft.finish

/-- The form of a library file: a record with the list of the cells. -/
def listForm : JsonReader.RecordForm (Option (List CellDescription)) (List CellDescription) where
  title := "struct LibraryDesc"
  members := [⟨"cells", Option.isSome, fun _ => some <$> JsonReader.list (JsonReader.record form)⟩]
  start := none
  finish := fun cells => cells.elim (.error "cells") .ok

/-- The cells that a library file describes. -/
def listOfBytes (bytes : List UInt8) : Except JsonError (List CellDescription) :=
  (JsonReader.record listForm).run bytes

/-- The first thing that is wrong with a description by itself, in the order of the checks: the
number of inputs, the function, and the number of values per pin. -/
def flaw? (d : CellDescription) (maxInputs : Nat) : Option CellFlaw :=
  let pins := d.inputs.length
  let wrong (what : String) (values : List Float32) : Option CellFlaw :=
    if values.length = pins then none else some (.wrongCount what values.length pins)
  let wrongIfAny (what : String) (values : List Float32) : Option CellFlaw :=
    if values.isEmpty then none else wrong what values
  if maxInputs < pins then some (.tooManyInputs pins maxInputs)
  else if (TruthTable.ofHex? pins d.table).isNone then some (.badTable d.table)
  else (wrong "delay" d.costs.delay).or <|
    (wrongIfAny "rise_power" d.costs.risePower).or (wrongIfAny "fall_power" d.costs.fallPower)

end CellDescription

end Gatework
