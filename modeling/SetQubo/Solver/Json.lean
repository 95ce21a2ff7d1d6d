import SetQubo.Json.Reader
import SetQubo.Json.Printer
import SetQubo.Solver.Config
import SetQubo.Solver.Result
/-!
# The JSON form of settings and results

Both are records. Energies that are infinite or not a number are written as `null`, and a text
that holds one does not read back.
-/

namespace SetQubo

open Json (Reader Fault Record)

namespace SolverConfig

/-- The record of the settings. -/
def toJson (c : SolverConfig Float) : Json :=
  .record [
    ("max_variables", .ofNat c.maxVariables.toNat),
    ("rel_tol", .ofFloat c.relativeTolerance),
    ("abs_tol", .ofFloat c.absoluteTolerance),
    ("parallel", .bool c.parallel)]

/-- The fields of the settings. -/
def record : Record (SolverConfig Float) :=
  SolverConfig.mk <$> .field "max_variables" Json.toWord <*> .field "rel_tol" Json.toFloat <*>
    .field "abs_tol" Json.toFloat <*> .field "parallel" Json.toBool

end SolverConfig

namespace SolveResult

/-- The record of a result. -/
def toJson (r : SolveResult Float) : Json :=
  .record [
    ("solutions", .ofList (.ofList fun x => .ofNat x.toNat) r.solutions),
    ("best_obj", .ofFloat r.best),
    ("second_best_obj", .ofFloat r.secondBest),
    ("gap", .ofFloat r.gap),
    ("assignments_evaluated", .ofNat r.evaluated.toNat)]

/-- The fields of a result. -/
def record : Record (SolveResult Float) :=
  SolveResult.mk <$> .field "solutions" (Json.toList (Json.toList Json.toByte)) <*>
    .field "best_obj" Json.toFloat <*> .field "second_best_obj" Json.toFloat <*>
    .field "gap" Json.toFloat <*> .field "assignments_evaluated" Json.toWord

/-- The indented text of a result. -/
def toText (r : SolveResult Float) : String := r.toJson.indented

end SolveResult

end SetQubo
