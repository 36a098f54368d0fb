import Gatework.CommandLine.Arguments
import Gatework.Mapping.Strategy
import Gatework.Rewrite

/-!
# Commands

The two programs and their commands, as arguments describe them.  One program prints, rewrites, maps
or analyses a network; the other fills a catalogue.
-/

namespace Gatework

/-- The programs. -/
inductive Program where
  /-- Works on one network. -/
  | workbench
  /-- Fills a catalogue of implementations. -/
  | cataloguer
deriving DecidableEq, Repr

/-- The methods of synthesis that a command can name. -/
inductive MethodName where
  | sumOfProducts
  | biDecomposition
  | catalogue
deriving DecidableEq, Repr

/-- What a program is asked to do. -/
inductive Command where
  /-- Prints a network as text. -/
  | print (input : String)
  /-- Rewrites a network once. -/
  | rewrite (input : String) (method : MethodName) (catalogue : Option String)
      (options : RewriteOptions) (out : Option String)
  /-- Maps a network onto a library. -/
  | map (input library : String) (strategy : Strategy) (options : MapOptions)
      (out : Option String)
  /-- Reports the simulated activity of a network. -/
  | activity (input : String) (ticks : Nat) (seed : UInt64)
  /-- Writes a catalogue of all functions of up to some number of variables. -/
  | fillCatalogue (out : String) (numVars : Nat)

namespace Command

/-- The words for methods. -/
def methods : List (String × MethodName) :=
  [("isop", .sumOfProducts), ("bidecomp", .biDecomposition), ("npn", .catalogue)]

/-- The words for sources of cuts. -/
def cutSources : List (String × CutSource) :=
  [("enumerated", .enumerated), ("reconvergence", .reconvergence)]

/-- The words for strategies, of which one depends on a seed. -/
def strategies : List (String × (UInt64 → Strategy)) :=
  let all : List (UInt64 → Strategy) := [fun _ => .minDelay, fun _ => .simpleArea,
    fun _ => .areaRecovery, fun _ => .powerMap, fun seed => .genetic { seed }]
  all.map fun s => ((s 0).name, s)

/-- The ticks of a simulation when none are given. -/
def defaultTicks : Nat := 4096

/-! ## Options -/

/-- The largest cuts. -/
def cutSizeOption : ValuedOption Nat := ⟨"cut-size", Arguments.number?⟩

/-- The method of synthesis. -/
def methodOption : ValuedOption MethodName := ⟨"resynth", Arguments.choice? methods⟩

/-- The source of cuts. -/
def cutSourceOption : ValuedOption CutSource := ⟨"cut-source", Arguments.choice? cutSources⟩

/-- The file of a catalogue. -/
def catalogueOption : ValuedOption String := ⟨"npn-db", Arguments.path?⟩

/-- The file of a result. -/
def outOption : ValuedOption String := ⟨"out", Arguments.path?⟩

/-- The file of a library. -/
def libraryOption : ValuedOption String := ⟨"library", Arguments.path?⟩

/-- The strategy, once a seed is known. -/
def strategyOption : ValuedOption (UInt64 → Strategy) := ⟨"strategy", Arguments.choice? strategies⟩

/-- The seed of whatever is random. -/
def seedOption : ValuedOption UInt64 :=
  ⟨"seed", fun text => (Arguments.number? text).map UInt64.ofNat⟩

/-- The ticks of a simulation. -/
def ticksOption : ValuedOption Nat := ⟨"ticks", Arguments.number?⟩

/-- The sizes of functions that a catalogue can be filled with. -/
def sizeOption : ValuedOption Nat :=
  ⟨"vars", fun text => (Arguments.number? text).bind fun n =>
    if 1 ≤ n ∧ n ≤ 4 then some n else none⟩

/-! ## Commands -/

/-- The command that prints. -/
def parsePrint (arguments : List String) : Except UsageError Command := do
  let a ← Arguments.scan { operands := 1 } {} arguments
  return .print (← a.operand)

/-- The command that rewrites. -/
def parseRewrite (arguments : List String) : Except UsageError Command := do
  let usage : Usage := {
    valued := [cutSizeOption.rule, methodOption.rule, cutSourceOption.rule, catalogueOption.rule,
      outOption.rule]
    plain := ["zero-cost"]
    operands := 1 }
  let a ← Arguments.scan usage {} arguments
  let options : RewriteOptions := {
    cuts := { size := a.valueOr cutSizeOption 4 }
    source := a.valueOr cutSourceOption .enumerated
    zeroCost := a.has "zero-cost" }
  return .rewrite (← a.operand) (a.valueOr methodOption .sumOfProducts) (a.value? catalogueOption)
    options (a.value? outOption)

/-- The command that maps. -/
def parseMap (arguments : List String) : Except UsageError Command := do
  let usage : Usage := {
    valued := [libraryOption.rule, strategyOption.rule, cutSizeOption.rule, seedOption.rule,
      outOption.rule]
    operands := 1 }
  let a ← Arguments.scan usage {} arguments
  let seed := a.valueOr seedOption 0
  let strategy := a.valueOr strategyOption fun _ => .areaRecovery
  let options : MapOptions := { cuts := { size := a.valueOr cutSizeOption 4 }, seed }
  return .map (← a.operand) (← a.required libraryOption) (strategy seed) options
    (a.value? outOption)

/-- The command that reports activity. -/
def parseActivity (arguments : List String) : Except UsageError Command := do
  let usage : Usage := { valued := [ticksOption.rule, seedOption.rule], operands := 1 }
  let a ← Arguments.scan usage {} arguments
  return .activity (← a.operand) (a.valueOr ticksOption defaultTicks) (a.valueOr seedOption 0)

/-- The command that fills a catalogue. -/
def parseFill (arguments : List String) : Except UsageError Command := do
  let a ← Arguments.scan { valued := [outOption.rule, sizeOption.rule] } {} arguments
  return .fillCatalogue (← a.required outOption) (a.valueOr sizeOption 4)

/-- The words that an explanation can be asked for. -/
def explained : List String := ["print", "rewrite", "map", "activity", "help"]

/-- What comes of asking for an explanation, which can be of one word. -/
def explain : List String → UsageError
  | [] => .help
  | [word] => if explained.contains word then .help else .unexpected word
  | _ :: word :: _ => .unexpected word

/-- The command that the arguments of a program describe. -/
def parse : Program → List String → Except UsageError Command
  | .cataloguer, arguments => parseFill arguments
  | .workbench, [] => .error (.missing "command")
  | .workbench, word :: arguments =>
      match word with
      | "print" => parsePrint arguments
      | "rewrite" => parseRewrite arguments
      | "map" => parseMap arguments
      | "activity" => parseActivity arguments
      | "help" => .error (explain arguments)
      | _ => .error (if Arguments.asksForHelp word then .help else .unexpected word)

end Command

end Gatework
