import SetQubo.Embedding.Decoding
import SetQubo.SetSpec.Syntax
import SetQubo.Solver.Search
import SetQubo.Verification.Report
/-!
# Verifying an embedding

A set is embedded, its model is solved, and then every assignment is judged: whether its energy is
close to the optimal one, and whether it decodes. The report lists the assignments on which the
two disagree, in ascending order, and after them the elements that the optimal assignments do not
recover exactly once, ascending by encoding.
-/

namespace SetQubo

/-- Why a verification could not be carried out. -/
inductive VerifyError (S : Type) where
  /-- The set could not be read. -/
  | set (error : SetError)
  /-- The set could not be embedded. -/
  | embed (error : EmbedError S)
  /-- The model could not be solved. -/
  | solver (error : SolverError)
  deriving Repr

/-- The message for an error. -/
def VerifyError.message : VerifyError Float → String
  | set error => error.message
  | embed error => error.message
  | solver error => error.message

/-- What is found out about one assignment. -/
structure Verdict (S : Type) where
  /-- The assignment. -/
  assignment : Assignment Variable
  /-- Its energy. -/
  energy : S
  /-- Whether the energy is close to the optimal one. -/
  optimal : Bool
  /-- The element for which it stands, or the reason why it stands for none. -/
  decoded : Except DecodeError BitVector

namespace Verdict

variable {S : Type}

/-- The violation, if optimality and decoding disagree. -/
def violation? (v : Verdict S) : Option (Violation S) :=
  match v.optimal, v.decoded with
  | true, .error e => some (.optimalNotDecoded v.assignment.text v.energy e.message)
  | false, .ok x => some (.decodedNotOptimal v.assignment.text v.energy x.text)
  | true, .ok _ => none
  | false, .error _ => none

/-- The encoding of the element that an optimal assignment recovers. -/
def recovered? (v : Verdict S) : Option UInt64 :=
  match v.optimal, v.decoded with
  | true, .ok x => some x.encode
  | _, _ => none

end Verdict

namespace Verification

variable {S : Type} [Scalar S]

/-- The verdicts on all assignments, ascending. -/
def verdicts (d : Decoder) (s : Solver Variable S) (best : S) : List (Verdict S) :=
  s.levels.map fun (n, energy) =>
    let a := s.assignment n
    ⟨a, energy, s.config.isClose energy best, d.decode a.value⟩

/-- The violation, if an element is not recovered exactly once. -/
def elementViolation? (width : Nat) (recovered : List UInt64) (n : UInt64) :
    Option (Violation S) :=
  match recovered.count n with
  | 0 => some (.missingElement (BitVector.decode n width).text)
  | 1 => none
  | count => some (.duplicateElement (BitVector.decode n width).text (UInt64.ofNat count))

/-- Verifies a set, given how a model is solved. -/
def verifyBy (solve : Solver Variable S → SolveResult S) (set : SetSpec)
    (embedding : EmbeddingConfig S) (config : SolverConfig S) :
    Except (VerifyError S) (Report S) := do
  let model ← (Embedding.embed embedding set).mapError .embed
  let solver ← (Solver.prepare model config).mapError .solver
  let result := solve solver
  let verdicts := verdicts (.ofSet set) solver result.best
  let recovered := verdicts.filterMap Verdict.recovered?
  return {
    set := set.text
    embedding
    solver := config
    variableNames := solver.labels.map Variable.name
    best := result.best
    secondBest := result.secondBest
    gap := result.gap
    checked := result.evaluated
    recovered := (ascending recovered).map fun n => (BitVector.decode n set.width).text
    violations := verdicts.filterMap Verdict.violation? ++
      set.encodings.filterMap (elementViolation? set.width recovered) }

/-- Verifies a set. -/
def verify (set : SetSpec) (embedding : EmbeddingConfig S) (config : SolverConfig S) :
    Except (VerifyError S) (Report S) :=
  verifyBy Solver.solve set embedding config

/-- Reads a set and verifies it. -/
def verifyText (text : String) (embedding : EmbeddingConfig S) (config : SolverConfig S) :
    Except (VerifyError S) (Report S) := do
  let set ← (SetSpec.parse text).mapError .set
  verify set embedding config

end Verification

end SetQubo
