import SetQubo.Decimal.Notation
/-!
# Violations

A verified embedding obeys two laws: an assignment is optimal exactly when it decodes, and every
element of the set is decoded from exactly one optimal assignment. A violation is one way in which
a law is broken, with what is needed to see it.
-/

namespace SetQubo

/-- A broken law. -/
inductive Violation (S : Type) where
  /-- An optimal assignment does not decode. -/
  | optimalNotDecoded (assignment : String) (energy : S) (reason : String)
  /-- An assignment decodes although it is not optimal. -/
  | decodedNotOptimal (assignment : String) (energy : S) (element : String)
  /-- No optimal assignment decodes to an element. -/
  | missingElement (element : String)
  /-- More than one optimal assignment decodes to an element. -/
  | duplicateElement (element : String) (count : UInt64)
  deriving Repr, BEq

namespace Violation

/-- The sentence that reports a violation. -/
def text : Violation Float → String
  | optimalNotDecoded assignment energy reason =>
    "optimal assignment " ++ assignment ++ " (energy " ++ Decimal.display energy ++
      ") does not decode: " ++ reason
  | decodedNotOptimal assignment energy element =>
    "assignment " ++ assignment ++ " (energy " ++ Decimal.display energy ++
      ") decodes to " ++ element ++ " but is not optimal"
  | missingElement element =>
    "element " ++ element ++ " is not recovered by any optimal assignment"
  | duplicateElement element count =>
    "element " ++ element ++ " is recovered by " ++ toString count.toNat ++
      " optimal assignments"

instance : ToString (Violation Float) := ⟨text⟩

end Violation

end SetQubo
