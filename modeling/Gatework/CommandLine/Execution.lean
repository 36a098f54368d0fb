import Gatework.Activity.Report
import Gatework.CommandLine.Command
import Gatework.CommandLine.Script
import Gatework.Decimal.Shortest
import Gatework.Mapping.Network
import Gatework.Npn.Archive
import Gatework.Npn.Population
import Gatework.Subnet.Reader

/-!
# Carrying out commands

A command is a script that ends in one of four ways: with output, with an error in what it was given,
with refused arguments, or with a broken contract.  Files are read in the order in which they are
needed, and a result file is written before anything is printed.
-/

namespace Gatework

/-- What a command prints. -/
inductive Output where
  | text (s : String)
  | stats (s : RewriteStats)
  | summary (s : MapSummary)

namespace Output

/-- Named values as a JSON object, one to a line. -/
def jsonObject (fields : List (String × String)) : String :=
  let lines := fields.map fun (name, value) => "  \"" ++ name ++ "\": " ++ value
  "\x7b\n" ++ ",\n".intercalate lines ++ "\n\x7d\n"

/-- A number as JSON has it, which knows no infinite ones. -/
def jsonNumber (x : Float32) : String := if x.isFinite then Shortest.text x else "null"

/-- The text that is printed. -/
def render : Output → String
  | text s => s
  | stats s => jsonObject [("visited", toString s.visited),
      ("resynthesized", toString s.resynthesized), ("rewritten", toString s.rewritten),
      ("cells_before", toString s.cellsBefore), ("cells_after", toString s.cellsAfter),
      ("depth_before", toString s.depthBefore), ("depth_after", toString s.depthAfter)]
  | summary s => jsonObject [("cells", toString s.cells), ("area", jsonNumber s.area),
      ("delay", jsonNumber s.delay)]

end Output

/-- How a program ends. -/
inductive Ending where
  | success (output : Output)
  | failure (message : String)
  | usage (e : UsageError)
  | broken (f : Fault)

/-- The code that a program ends with. -/
def Ending.code : Ending → Nat
  | success _ => 0
  | failure _ => 1
  | usage .help => 0
  | usage _ => 2
  | broken _ => 101

/-- Scripts that may end early. -/
abbrev Task := ExceptT Ending Script

namespace Task

/-- Ends with an error. -/
def fail {α : Type} (message : String) : Task α := throw (.failure message)

/-- Goes on unless a contract is broken. -/
def ofFault {α : Type} : Except Fault α → Task α
  | .ok a => pure a
  | .error f => throw (.broken f)

/-- Goes on unless data could not be loaded. -/
def ofLoad {α : Type} : Except LoadError α → Task α
  | .ok a => pure a
  | .error e => fail e.message

/-- The bytes of a file that has to be opened; `unreadable` is the wording if it is a directory. -/
def readFile (path doing unreadable : String) : Task (List UInt8) := do
  match ← (Script.readFile path : Script Contents) with
  | .bytes bytes => return bytes
  | .missing => fail (doing ++ " " ++ path)
  | .directory => fail unreadable

/-- The bytes of a text file. -/
def readText (path : String) : Task (List UInt8) := readFile path "reading" ("reading " ++ path)

/-- The bytes of a network in binary form. -/
def readBinary (path : String) : Task (List UInt8) :=
  readFile path "opening" ("decode error: io error: " ++ FileError.isDirectory.numbered)

/-- The bytes of a library or a catalogue. -/
def readCollection (path : String) : Task (List UInt8) :=
  readFile path "opening" ("I/O error: " ++ FileError.isDirectory.numbered)

/-- Writes a file; `failing` is the wording of an error. -/
def writeFile (path : String) (bytes : List UInt8) (failing : FileError → String) : Task Unit := do
  match ← (Script.writeFile path bytes : Script (Except FileError Unit)) with
  | .ok () => return ()
  | .error e => fail (failing e)

/-! ## Networks in files -/

/-- The network in a file, which is added to the store. -/
def load (store : Store) (path : String) : Task (Store × Subnet) := do
  if Path.isBinary path then do
    let (store, net) := store.loadBytes (← readBinary path)
    return (store, ← ofLoad net)
  else do
    let bytes ← readText path
    match String.fromUTF8? (ByteArray.mk bytes.toArray) with
    | none => fail ("reading " ++ path)
    | some text =>
        match store.loadText text with
        | (store, .ok net) => return (store, net)
        | (_, .error e) => fail e.message

/-- Writes a network to a file. -/
def save (store : Store) (net : Subnet) (path : String) : Task Unit :=
  writeFile path
    (if Path.isBinary path then net.toBytes else (store.render net).toUTF8.toList)
    fun _ => "creating " ++ path

/-- Writes a network to a file if there is one to write to. -/
def saveTo (store : Store) (net : Subnet) : Option String → Task Unit
  | some path => save store net path
  | none => pure ()

/-! ## Commands -/

/-- The method that a command names, with the catalogue that it may need. -/
def methodOf (store : Store) (name : MethodName) (catalogue : Option String) :
    Task (Store × Method) := do
  match name, catalogue with
  | .sumOfProducts, _ => return (store, .sumOfProducts)
  | .biDecomposition, _ => return (store, .biDecomposition)
  | .catalogue, none => fail "--resynth npn needs --npn-db"
  | .catalogue, some path => do
      let bytes ← readCollection path
      let (store, c) := Catalogue.ofBytes store bytes
      return (store, .catalogue (← ofLoad c))

/-- Rewrites a network. -/
def rewrite (input : String) (name : MethodName) (catalogue : Option String)
    (options : RewriteOptions) (out : Option String) : Task Output := do
  let (store, net) ← load .empty input
  let (store, m) ← methodOf store name catalogue
  let b ← ofFault (Builder.ofSubnet net)
  let (store, b, result) ← ofFault (b.rewrite store m options)
  match result with
  | .error mismatch => fail mismatch.message
  | .ok stats => do
      let rewritten ← ofFault b.finish
      saveTo store rewritten out
      return .stats stats

/-- Maps a network. -/
def map (input library : String) (strategy : Strategy) (options : MapOptions)
    (out : Option String) : Task Output := do
  let (store, net) ← load .empty input
  let bytes ← readCollection library
  let (store, l) ← ofFault (Library.ofBytes store bytes)
  let l ← ofLoad l
  let (store, result) ← ofFault (store.addMapped net l strategy options)
  match result.map (store.subnets[·]?) with
  | .error e => fail e.message
  | .ok none => ofFault (.error .internal)
  | .ok (some mapped) => do
      saveTo store mapped out
      return .summary (store.summarize mapped)

/-- Reports the activity of a network. -/
def activity (input : String) (ticks : Nat) (seed : UInt64) : Task Output := do
  let (store, net) ← load .empty input
  if ticks < 2 then fail "--ticks must be at least 2"
  else
    let a ← ofFault (store.simulatedActivity net ticks seed [])
    return .text (← ofFault (a.report store net))

/-- Fills a catalogue. -/
def fillCatalogue (out : String) (numVars : Nat) : Task Output := do
  let (_, store, c) ← ofFault
    (Catalogue.empty.populate .empty numVars [Method.sumOfProducts, Method.biDecomposition])
  writeFile out (c.toBytes store) FileError.record
  return .text ""

end Task

/-- The task of a command. -/
def Command.task : Command → Task Output
  | print input => do
      let (store, net) ← Task.load .empty input
      return .text (store.render net)
  | rewrite input method catalogue options out => Task.rewrite input method catalogue options out
  | map input library strategy options out => Task.map input library strategy options out
  | activity input ticks seed => Task.activity input ticks seed
  | fillCatalogue out numVars => Task.fillCatalogue out numVars

/-- What a program does with its arguments. -/
def Program.script (p : Program) (arguments : List String) : Script Ending :=
  match Command.parse p arguments with
  | .error e => .done (.usage e)
  | .ok command => do
      match ← command.task.run with
      | .ok output => return .success output
      | .error ending => return ending

end Gatework
