import SetQubo.Embedding.Basic
import SetQubo.Solver.Config
import SetQubo.Verification.Violation
/-!
# Verification reports

A report holds what was verified, under which settings, the levels that were found, the elements
that were recovered, and every violation. A verification has passed if there is no violation.
-/

namespace SetQubo

/-- The outcome of a verification. -/
structure Report (S : Type) where
  /-- The written form of the set. -/
  set : String
  /-- The settings of the embedding. -/
  embedding : EmbeddingConfig S
  /-- The settings of the solver. -/
  solver : SolverConfig S
  /-- The display names of the variables, in the order of their numbers. -/
  variableNames : List String
  /-- The optimal energy. -/
  best : S
  /-- The lowest energy that is not optimal. -/
  secondBest : S
  /-- The second energy less the first. -/
  gap : S
  /-- How many assignments were checked. -/
  checked : UInt64
  /-- The elements recovered from optimal assignments, ascending by encoding. -/
  recovered : List String
  /-- The broken laws. -/
  violations : List (Violation S)
  deriving Repr, BEq

namespace Report

/-- Whether no law is broken. -/
def passed {S : Type} (r : Report S) : Bool := r.violations.isEmpty

/-- The summary of a report, with a line for each violation. -/
def text (r : Report Float) : String :=
  "set:         " ++ r.set ++
  "\nvariables:   " ++ toString r.variableNames.length ++
  "\nassignments: " ++ toString r.checked.toNat ++
  "\nenergies:    best " ++ Decimal.display r.best ++ " / second " ++
    Decimal.display r.secondBest ++ " (gap " ++ Decimal.display r.gap ++ ")" ++
  "\nrecovered:   " ++ String.intercalate "|" r.recovered ++
  String.join (r.violations.map fun v => "\n  violation: " ++ v.text)

instance : ToString (Report Float) := ⟨text⟩

end Report

end SetQubo
