import SetQubo.Decimal.Notation
import SetQubo.Solver.Assignment
/-!
# What solving finds

The result of a run holds the optimal assignments as rows of values, the optimal energy, the
lowest energy that is not optimal, and the gap between the two. If every assignment is optimal,
the second energy is the optimal one and the gap is zero.
-/

namespace SetQubo

/-- Why a model cannot be solved. -/
inductive SolverError where
  /-- There are more variables than allowed. -/
  | tooManyVariables (found max : Nat)
  deriving DecidableEq, Repr

/-- The message for an error. -/
def SolverError.message : SolverError → String
  | tooManyVariables found max =>
    "too many variables: " ++ toString found ++ " variables found, max is " ++ toString max

/-- The optimal assignments of a model, and its two lowest levels. -/
structure SolveResult (S : Type) where
  /-- The optimal rows, ascending. -/
  solutions : List (List UInt8)
  /-- The optimal energy. -/
  best : S
  /-- The lowest energy that is not optimal. -/
  secondBest : S
  /-- The second energy less the first. -/
  gap : S
  /-- How many assignments were looked at. -/
  evaluated : UInt64
  deriving Repr, BEq

namespace SolveResult

/-- The optimal rows with bars between them. -/
def solutionsText {S : Type} (r : SolveResult S) : String :=
  String.intercalate "|" (r.solutions.map Assignment.rowText)

/-- Both energies as whole numbers, and the optimal rows. -/
def text (r : SolveResult Float) : String :=
  Decimal.displayWhole r.best ++ "/" ++ Decimal.displayWhole r.secondBest ++ " " ++
    r.solutionsText

instance : ToString (SolveResult Float) := ⟨text⟩

end SolveResult

end SetQubo
