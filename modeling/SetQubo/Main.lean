import SetQubo.CommandLine.Run
/-!
# The program

Reads the file that the command asks for, runs the command, and prints what it leaves behind.
-/

namespace SetQubo.CommandLine

/-- The number of a system error. Some calls report it with its sign reversed. -/
def errorNumber (code : UInt32) : Nat := code.toInt32.toInt.natAbs

/-- The error of the library for an error of the file system. -/
def FileError.ofIO : IO.Error → FileError
  | .noFileOrDirectory .. => .notFound
  | .inappropriateType _ code _ => if errorNumber code = 21 then .isDirectory else .notDirectory
  | .invalidArgument _ code _ => if errorNumber code = 36 then .nameTooLong else .nulInName
  | .permissionDenied .. => .denied
  | .userError _ => .notText
  | error => .other (toString error)

/-- The text of a file. -/
def readText (path : String) : IO (Except FileError String) := do
  try
    return .ok (← IO.FS.readFile path)
  catch error =>
    return .error (FileError.ofIO error)

end SetQubo.CommandLine

open SetQubo SetQubo.CommandLine in
/-- Runs the program. -/
def main (args : List String) : IO UInt32 := do
  match parse? args with
  | none =>
    IO.eprintln "error: the arguments name no command; use embed, verify or solve"
    return 2
  | some command =>
    let text ← match command.file? with
      | some path => readText path
      | none => pure (.error .notFound)
    let outcome := command.run .halving .halving fun _ => text
    IO.print outcome.output
    IO.eprint outcome.errors
    return outcome.status.toUInt32
