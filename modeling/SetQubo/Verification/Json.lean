import SetQubo.Solver.Json
import SetQubo.Verification.Report
/-!
# The JSON form of reports

A report is a record. A violation is an object whose member `kind` names the broken law, next to
what belongs to it. The member may stand anywhere, so all of the object is held in memory before
the kind is known; in the array form the kind stands first.
-/

namespace SetQubo

open Json (Reader Fault Record)

namespace EmbeddingConfig

/-- The record of the settings. -/
def toJson (c : EmbeddingConfig Float) : Json :=
  .record [("base_penalty", .ofFloat c.basePenalty)]

/-- The fields of the settings. -/
def record : Record (EmbeddingConfig Float) :=
  EmbeddingConfig.mk <$> .field "base_penalty" Json.toFloat

end EmbeddingConfig

namespace Violation

/-- The word for the broken law. -/
def kind {S : Type} : Violation S → String
  | optimalNotDecoded .. => "optimal_not_decoded"
  | decodedNotOptimal .. => "decoded_not_optimal"
  | missingElement .. => "missing_element"
  | duplicateElement .. => "duplicate_element"

/-- The members of a violation after its kind. -/
def members : Violation Float → List (String × Json)
  | optimalNotDecoded assignment energy reason =>
    [("assignment", .ofString assignment), ("energy", .ofFloat energy),
      ("reason", .ofString reason)]
  | decodedNotOptimal assignment energy element =>
    [("assignment", .ofString assignment), ("energy", .ofFloat energy),
      ("element", .ofString element)]
  | missingElement element => [("element", .ofString element)]
  | duplicateElement element count =>
    [("element", .ofString element), ("count", .ofNat count.toNat)]

/-- The object for a violation. -/
def toJson (v : Violation Float) : Json :=
  .record (("kind", .ofString v.kind) :: v.members)

/-- The fields of the violations of a kind. -/
def record? : String → Option (Record (Violation Float))
  | "optimal_not_decoded" =>
    some (optimalNotDecoded <$> .field "assignment" Json.toText <*>
      .field "energy" Json.toFloat <*> .field "reason" Json.toText)
  | "decoded_not_optimal" =>
    some (decodedNotOptimal <$> .field "assignment" Json.toText <*>
      .field "energy" Json.toFloat <*> .field "element" Json.toText)
  | "missing_element" => some (missingElement <$> .field "element" Json.toText)
  | "duplicate_element" =>
    some (duplicateElement <$> .field "element" Json.toText <*> .field "count" Json.toWord)
  | _ => none

/-- Parts a violation into its kind and the rest. -/
def untag : Json → Except Fault (String × Json)
  | .object members => do
    let kind ← (Record.field "kind" Json.toText).decode (.object members)
    return (kind, .object (members.filter fun (name, _) => name ≠ some "kind"))
  | .array (kind :: fields) => do return (← Json.toText kind, .array fields)
  | other => throw (Json.faultOf other)

/-- Reads a violation that may be nested as deep as `depth`. -/
def ofJson (depth : Nat) : Reader (Violation Float) := fun json => do
  if json.storable depth then
    let (kind, body) ← untag json
    match record? kind with
    | some record => record.decode body
    | none => throw .unexpected
  else throw .malformed

end Violation

namespace Report

/-- The record of a report. -/
def toJson (r : Report Float) : Json :=
  .record [
    ("set", .ofString r.set),
    ("embedding", r.embedding.toJson),
    ("solver", r.solver.toJson),
    ("variables", .ofList .ofString r.variableNames),
    ("best_obj", .ofFloat r.best),
    ("second_best_obj", .ofFloat r.secondBest),
    ("gap", .ofFloat r.gap),
    ("assignments_checked", .ofNat r.checked.toNat),
    ("recovered", .ofList .ofString r.recovered),
    ("violations", .ofList Violation.toJson r.violations)]

/-- The fields of a report. Its violations stand two levels inside it. -/
def record : Record (Report Float) :=
  Report.mk <$> .field "set" Json.toText <*>
    .field "embedding" EmbeddingConfig.record.decode <*>
    .field "solver" SolverConfig.record.decode <*>
    .field "variables" (Json.toList Json.toText) <*>
    .field "best_obj" Json.toFloat <*> .field "second_best_obj" Json.toFloat <*>
    .field "gap" Json.toFloat <*> .field "assignments_checked" Json.toWord <*>
    .field "recovered" (Json.toList Json.toText) <*>
    .field "violations" (Json.toList (Violation.ofJson (Json.nestingLimit - 2)))

/-- The indented text of a report. -/
def toText (r : Report Float) : String := r.toJson.indented

end Report

end SetQubo
