import SetQubo.CommandLine.Arguments
import SetQubo.Directory
import SetQubo.Model.Json
import SetQubo.Verification.Check
import SetQubo.Verification.Json
/-!
# Running a command

A command is a program that prints as it goes, and may fail with one message. Everything that can
fail is done before the first line is printed. A verification that found violations is not a
failure, but it has an exit status of its own.

* 0: the command did what it was asked for, and a verification passed.
* 1: a verification found violations.
* 2: the command failed, or the arguments broke a rule.
-/

namespace SetQubo.CommandLine

/-- Why a command fails. -/
inductive RunError where
  /-- The set could not be read. -/
  | set (error : SetError)
  /-- The set could not be embedded. -/
  | embed (error : EmbedError Float)
  /-- The verification could not be carried out. -/
  | verify (error : VerifyError Float)
  /-- The model could not be solved. -/
  | solver (error : SolverError)
  /-- The text of a file is no model. -/
  | model (fault : Json.Fault)
  /-- A file could not be read. -/
  | file (path : String) (error : FileError)

/-- The message for an error. For a text that is no model it ends where an account of the fault would
follow: what the fault is, and the line and the column where it stands, are left out. -/
def RunError.message : RunError → String
  | set error => error.message
  | embed error => error.message
  | verify error => error.message
  | solver error => error.message
  | model _ => "JSON serialization error:"
  | file path error => "cannot read " ++ path ++ ": " ++ error.message

/-! ## Programs -/

/-- A program prints as it goes, and may fail. What it has printed by then stays printed. -/
abbrev Program := ExceptT RunError (StateM String)

/-- Prints a line. -/
def printLine (line : String) : Program Unit := modify (· ++ line ++ "\n")

/-- Goes on with a result, or fails with the error that belongs to it. -/
def attempt {ε α : Type} (toError : ε → RunError) : Except ε α → Program α
  | .ok a => pure a
  | .error e => throw (toError e)

/-- What a program leaves that starts with nothing printed: its result or an error, and the text
that it has printed. -/
def Program.start {α : Type} (program : Program α) : Except RunError α × String := program.run ""

/-! ## The commands -/

/-- Prints the embedded model of a set, with display names. -/
def embedProgram (set : String) (basePenalty : Float) (compact : Bool) : Program Bool := do
  let set ← attempt .set (SetSpec.parse set)
  let model ← attempt .embed (Embedding.embed ⟨basePenalty⟩ set)
  let named := Embedding.named model
  printLine (if compact then named.toCompactText else named.toText)
  return true

/-- The last line of a verification. -/
def verdictLine (report : Report Float) : String :=
  if report.passed then
    "PASSED: every optimal assignment decodes, every element recovered once"
  else
    "FAILED: " ++ toString report.violations.length ++ " violation(s)"

/-- Prints the report on the embedding of a set, where a parallel run is shared out as given. -/
def verifyProgram (first second : Schedule) (set : String) (basePenalty : Float)
    (options : SolveOptions) (json : Bool) : Program Bool := do
  let set ← attempt .set (SetSpec.parse set)
  let report ← attempt .verify (Verification.verifyBy (Solver.solveScheduled · first second) set
    ⟨basePenalty⟩ options.config)
  if json then
    printLine report.toText
  else
    printLine report.text
    printLine ""
    printLine (verdictLine report)
  return report.passed

/-- Prints the variables and the two lowest levels of the model in a file, where a parallel run is
shared out as given. -/
def solveProgram (first second : Schedule) (read : String → Except FileError String)
    (path : String) (options : SolveOptions) : Program Bool := do
  let text ← attempt (.file path) (read path)
  let model : Model String Float ← attempt .model (Model.ofText text)
  let solver ← attempt .solver (Solver.prepare model options.config)
  let result := solver.solveScheduled first second
  printLine ("variables: " ++ String.intercalate " " solver.labels)
  printLine result.text
  printLine ("gap: " ++ Decimal.display result.gap)
  return true

/-- The program of a command, given what the files hold. It returns whether no violation was
found. -/
def Command.program (first second : Schedule) (read : String → Except FileError String) :
    Command → Program Bool
  | .embed set basePenalty compact => embedProgram set basePenalty compact
  | .verify set basePenalty options json => verifyProgram first second set basePenalty options json
  | .solve path options => solveProgram first second read path options

/-- The file that a command reads. -/
def Command.file? : Command → Option String
  | .solve path _ => some path
  | _ => none

/-- What a command has printed when it succeeds, and whether it found everything in order. -/
structure Success where
  /-- The text for standard output. -/
  output : String
  /-- Whether no violation was found. -/
  passed : Bool

/-- What the embedding of a set prints when it succeeds. -/
def runEmbed (set : String) (basePenalty : Float) (compact : Bool) : Except RunError Success :=
  let (result, output) := (embedProgram set basePenalty compact).start
  result.map fun passed => ⟨output, passed⟩

/-! ## Exit status -/

/-- What a run leaves behind. -/
structure Outcome where
  /-- The exit status. -/
  status : UInt8
  /-- The text on standard output. -/
  output : String
  /-- The text on standard error, lines of the log apart. -/
  errors : String

/-- The exit status and the texts that belong to a program. -/
def Outcome.ofProgram (program : Program Bool) : Outcome :=
  match program.start with
  | (.ok passed, output) => ⟨if passed then 0 else 1, output, ""⟩
  | (.error error, output) => ⟨2, output, "error: " ++ error.message ++ "\n"⟩

/-- Runs a command, where a parallel run is shared out as given. -/
def Command.run (first second : Schedule) (read : String → Except FileError String)
    (command : Command) : Outcome :=
  .ofProgram (command.program first second read)

/-- Runs a call, where a parallel run is shared out as given; there is no outcome if its arguments
break a rule. -/
def runScheduled? (first second : Schedule) (args : List String)
    (read : String → Except FileError String) : Option Outcome :=
  (parse? args).map fun command => command.run first second read

/-- Runs a call. -/
def run? (args : List String) (read : String → Except FileError String) : Option Outcome :=
  runScheduled? .halving .halving args read

end SetQubo.CommandLine
