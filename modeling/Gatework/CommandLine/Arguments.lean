import Gatework.Power

/-!
# Command-line arguments

Arguments are options, which start with two dashes and may have a value, and operands.  A value
follows its option as the next argument or behind an equals sign.  No option may be given twice, and
behind a lone pair of dashes everything is an operand.

Arguments are looked at one after the other.  Whatever is wrong with one of them stops there, and so
does the wish for an explanation; what is missing shows at the end.
-/

namespace Gatework

/-- Why arguments are refused. -/
inductive UsageError where
  /-- An explanation was asked for. -/
  | help
  | unexpected (argument : String)
  | missingValue (option : String)
  | repeated (option : String)
  | badValue (option value : String)
  | missing (what : String)
deriving DecidableEq, Repr

/-- The wording of a refusal. -/
def UsageError.message : UsageError → String
  | help => "usage: print | rewrite | map | activity INPUT [OPTIONS]"
  | unexpected argument => s!"unexpected argument '{argument}'"
  | missingValue option => s!"a value is required for '--{option}'"
  | repeated option => s!"'--{option}' cannot be used multiple times"
  | badValue option value => s!"invalid value '{value}' for '--{option}'"
  | missing what => s!"missing {what}"

/-- An option with a value: its name, and how its value is read. -/
structure ValuedOption (α : Type) where
  name : String
  read? : String → Option α

/-- The name of an option and the texts that it takes. -/
def ValuedOption.rule {α : Type} (o : ValuedOption α) : String × (String → Bool) :=
  (o.name, fun text => (o.read? text).isSome)

/-- What a command can be given. -/
structure Usage where
  /-- The options with a value, and which values they take. -/
  valued : List (String × (String → Bool)) := []
  /-- The options without value. -/
  plain : List String := []
  /-- The most operands, which are paths. -/
  operands : Nat := 0

/-- Arguments taken apart. -/
structure Arguments where
  options : List (String × String) := []
  operands : List String := []

namespace Arguments

/-! ## Values -/

/-- The number that decimal digits denote, behind an optional plus sign, if it fits into 64 bits. -/
def number? (text : String) : Option Nat :=
  let digits := match text.toList with
    | '+' :: cs => cs
    | cs => cs
  if digits.isEmpty || !digits.all Char.isDigit then none
  else
    let n := digits.foldl (fun n c => 10 * n + (c.toNat - '0'.toNat)) 0
    if n < valuesOf 64 then some n else none

/-- A path, which is not empty. -/
def path? (text : String) : Option String := if text.isEmpty then none else some text

/-- The member of a list that a word names. -/
def choice? {α : Type} (choices : List (String × α)) (text : String) : Option α :=
  choices.lookup text

/-! ## Taking arguments apart -/

/-- Whether an argument is taken for an option. -/
def looksLikeOption (argument : String) : Bool :=
  argument != "-" && argument.toList.head? == some '-'

/-- Whether an argument asks for an explanation.  Behind a single dash one letter is enough. -/
def asksForHelp (argument : String) : Bool :=
  argument == "--help" || argument.toList.take 2 == ['-', 'h']

/-- The name of an option and the value behind an equals sign, if there is one. -/
def splitOption (argument : String) : String × Option String :=
  let cs := argument.toList.drop 2
  let name := String.ofList (cs.takeWhile (· ≠ '='))
  match cs.dropWhile (· ≠ '=') with
  | [] => (name, none)
  | _ :: value => (name, some (String.ofList value))

/-- The arguments with one more option. -/
def addOption (a : Arguments) (name value : String) : Except UsageError Arguments :=
  if (a.options.lookup name).isSome then .error (.repeated name)
  else .ok { a with options := a.options ++ [(name, value)] }

/-- The arguments with one more option, which takes some values only. -/
def addValued (a : Arguments) (name : String) (takes : String → Bool) (value : String) :
    Except UsageError Arguments :=
  if takes value then a.addOption name value else .error (.badValue name value)

/-- The arguments with one more operand. -/
def addOperand (usage : Usage) (a : Arguments) (operand : String) :
    Except UsageError Arguments :=
  if usage.operands ≤ a.operands.length then .error (.unexpected operand)
  else if (path? operand).isNone then .error (.badValue "INPUT" operand)
  else .ok { a with operands := a.operands ++ [operand] }

/-- Takes arguments apart; `found` is what was found before. -/
def scan (usage : Usage) : (found : Arguments) → List String → Except UsageError Arguments
  | found, [] => .ok found
  | found, argument :: rest =>
      if argument = "--" then rest.foldlM (addOperand usage) found
      else if asksForHelp argument then .error .help
      else if !looksLikeOption argument then do
        scan usage (← addOperand usage found argument) rest
      else if argument.toList.take 2 ≠ ['-', '-'] then .error (.unexpected argument)
      else
        let (name, value) := splitOption argument
        match usage.valued.lookup name, value, rest with
        | some takes, some value, rest => do
            scan usage (← found.addValued name takes value) rest
        | some takes, none, value :: rest =>
            if looksLikeOption value then .error (.missingValue name)
            else do scan usage (← found.addValued name takes value) rest
        | some _, none, [] => .error (.missingValue name)
        | none, none, rest =>
            if usage.plain.contains name then do scan usage (← found.addOption name "") rest
            else .error (.unexpected argument)
        | none, some _, _ => .error (.unexpected argument)
termination_by _ arguments => arguments.length

/-! ## Looking up -/

/-- The operand, which has to be given. -/
def operand (a : Arguments) : Except UsageError String :=
  a.operands.head?.elim (.error (.missing "INPUT")) .ok

/-- Whether an option without value was given. -/
def has (a : Arguments) (option : String) : Bool := (a.options.lookup option).isSome

/-- The value of an option, if it is given. -/
def value? {α : Type} (a : Arguments) (o : ValuedOption α) : Option α :=
  (a.options.lookup o.name).bind o.read?

/-- The value of an option that need not be given. -/
def valueOr {α : Type} (a : Arguments) (o : ValuedOption α) (otherwise : α) : α :=
  (a.value? o).getD otherwise

/-- The value of an option that has to be given. -/
def required {α : Type} (a : Arguments) (o : ValuedOption α) : Except UsageError α :=
  (a.value? o).elim (.error (.missing ("--" ++ o.name))) .ok

end Arguments

end Gatework
