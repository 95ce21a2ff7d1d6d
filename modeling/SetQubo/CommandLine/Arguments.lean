import SetQubo.Decimal.Nearest
import SetQubo.Solver.Config
/-!
# Command line arguments

A call names one of the commands `embed`, `verify` and `solve`, with one operand and the command's
options in any order. The flag for verbose output may stand in front of the command as well.

An option's value follows it as the next argument, or in the same argument behind an equals sign.
An argument that starts with a minus sign is never a value or an operand, unless it is a minus
sign alone; behind the argument `--` everything is an operand. No option may be given twice.
-/

namespace SetQubo.CommandLine

/-- The options of the commands that solve. -/
structure SolveOptions where
  /-- The most variables that a model may have. -/
  maxVariables : UInt64
  /-- Whether the enumeration is shared out. -/
  parallel : Bool
  deriving Repr

/-- The solver settings for the options. -/
def SolveOptions.config (o : SolveOptions) : SolverConfig Float :=
  { SolverConfig.default with maxVariables := o.maxVariables, parallel := o.parallel }

/-- What a call asks for. -/
inductive Command where
  /-- Print the embedded model of a set. -/
  | embed (set : String) (basePenalty : Float) (compact : Bool)
  /-- Verify the embedding of a set. -/
  | verify (set : String) (basePenalty : Float) (options : SolveOptions) (json : Bool)
  /-- Solve the model in a file. -/
  | solve (path : String) (options : SolveOptions)
  deriving Repr

/-! ## Scanning -/

/-- The arguments of a command, by their kinds. -/
structure Scanned where
  /-- The arguments that are no options. -/
  operands : List String
  /-- The flags that are given. -/
  flags : List String
  /-- The options that are given, with their values. -/
  values : List (String × String)

/-- The options that a command knows. -/
structure Grammar where
  /-- The options without a value. -/
  flags : List String
  /-- The options with a value. -/
  options : List String

/-- The flag for verbose output, which every command has. -/
def verbose : String := "verbose"

namespace Scanned

/-- Puts an operand in front. -/
def addOperand (operand : String) (s : Scanned) : Scanned :=
  { s with operands := operand :: s.operands }

/-- Adds a flag, unless it is there already. -/
def addFlag? (name : String) (s : Scanned) : Option Scanned :=
  if s.flags.contains name then none else some { s with flags := name :: s.flags }

/-- Adds an option with its value, unless it is there already. -/
def addValue? (name value : String) (s : Scanned) : Option Scanned :=
  if (s.values.lookup name).isSome then none
  else some { s with values := (name, value) :: s.values }

end Scanned

/-- Whether an argument is an option by its form. -/
def looksLikeOption (arg : String) : Bool := arg.startsWith "-" && arg ≠ "-"

/-- A long option's name, and its value if there is an equals sign. -/
def splitOption? (arg : String) : Option (String × Option String) :=
  match arg.toList with
  | '-' :: '-' :: cs =>
    let name := String.ofList (cs.takeWhile (· ≠ '='))
    match cs.dropWhile (· ≠ '=') with
    | _ :: value => some (name, some (String.ofList value))
    | [] => some (name, none)
  | _ => none

/-- Sorts the arguments of a command by their kinds. -/
def scan? (g : Grammar) : List String → Option Scanned
  | [] => some ⟨[], [], []⟩
  | arg :: rest =>
    if arg = "--" then some ⟨rest, [], []⟩
    else if !looksLikeOption arg then (scan? g rest).map (·.addOperand arg)
    else if arg = "-v" then (scan? g rest).bind (·.addFlag? verbose)
    else
      match splitOption? arg with
      | none => none
      | some (name, some value) =>
        if g.options.contains name then (scan? g rest).bind (·.addValue? name value) else none
      | some (name, none) =>
        if g.flags.contains name then (scan? g rest).bind (·.addFlag? name)
        else if g.options.contains name then
          match rest with
          | [] => none
          | value :: rest =>
            if looksLikeOption value then none
            else (scan? g rest).bind (·.addValue? name value)
        else none

/-! ## Values -/

/-- An unsigned number that fits in sixty-four bits, with an optional plus sign. -/
def word? (text : String) : Option UInt64 :=
  let digits := match text.toList with
    | '+' :: cs => cs
    | cs => cs
  if digits ≠ [] ∧ digits.all Char.isDigit then
    let n := Nat.ofDigitChars 10 digits 0
    if n < UInt64.size then some (UInt64.ofNat n) else none
  else none

namespace Scanned

/-- The value of an option, read by `read?`, or the default if the option is not given. -/
def value? {α : Type} (s : Scanned) (name : String) (read? : String → Option α) (default : α) :
    Option α :=
  match s.values.lookup name with
  | some text => read? text
  | none => some default

/-- The only operand. -/
def operand? (s : Scanned) : Option String :=
  match s.operands with
  | [operand] => some operand
  | _ => none

/-- The base penalty. -/
def basePenalty? (s : Scanned) : Option Float := s.value? "base-penalty" Decimal.ofText? 10

/-- The options for solving. -/
def solveOptions? (s : Scanned) : Option SolveOptions :=
  (s.value? "max-variables" word? 16).map fun n => ⟨n, s.flags.contains "parallel"⟩

end Scanned

/-! ## Commands -/

/-- Reads the arguments of the command with a name. -/
def command? (name : String) (args : List String) : Option Command :=
  match name with
  | "embed" => do
    let s ← scan? ⟨[verbose, "compact"], ["base-penalty"]⟩ args
    return .embed (← s.operand?) (← s.basePenalty?) (s.flags.contains "compact")
  | "verify" => do
    let s ← scan? ⟨[verbose, "json", "parallel"], ["base-penalty", "max-variables"]⟩ args
    return .verify (← s.operand?) (← s.basePenalty?) (← s.solveOptions?) (s.flags.contains "json")
  | "solve" => do
    let s ← scan? ⟨[verbose, "parallel"], ["max-variables"]⟩ args
    let path ← s.operand?
    if path = "" then none else return .solve path (← s.solveOptions?)
  | _ => none

/-- Reads the arguments of a call; there is no command if they break a rule. -/
def parse? : List String → Option Command
  | [] => none
  | first :: rest =>
    if first = "-v" ∨ first = "--verbose" then
      match rest with
      | name :: args => command? name args
      | [] => none
    else command? first rest

end SetQubo.CommandLine
