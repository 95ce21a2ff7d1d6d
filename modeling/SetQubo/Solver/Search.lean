import SetQubo.Model.Basic
import SetQubo.Solver.Config
import SetQubo.Solver.Result
import SetQubo.Solver.Schedule
/-!
# Exhaustive search

The solver looks at every assignment of a model. It numbers the variables once and turns each term
into the set of binary digits that must be on, so that an energy is a sum over bit tests. The sum
runs over the same terms in the same order as `Model.energy`.

A first pass finds the least energy. A second one parts the assignments into those close to it,
which are the solutions, and the others, the least energy of which is the second level.
-/

namespace SetQubo

/-- A model prepared for enumeration. -/
structure Solver (V S : Type) [Label V] where
  /-- The settings. -/
  config : SolverConfig S
  /-- The variables with their numbers. -/
  numbering : Numbering V
  /-- The digit and the coefficient of each linear term. -/
  linear : List (UInt64 × S)
  /-- The digits and the coefficient of each quadratic term. -/
  quadratic : List (UInt64 × S)

namespace Solver

variable {V S : Type} [Label V]

/-- Numbers the variables of a model and prepares its terms, if it has no more variables than
allowed. -/
def prepare (m : Model V S) (config : SolverConfig S) : Except SolverError (Solver V S) :=
  let numbering := Numbering.ofList m.occurrences
  if numbering.size > config.cap then
    .error (.tooManyVariables numbering.size config.cap)
  else
    .ok {
      config
      numbering
      linear := m.linear.toList.map fun (v, c) => (numbering.maskOf v, c)
      quadratic := m.quadratic.toList.map fun (p, c) =>
        (numbering.maskOf p.first ||| numbering.maskOf p.second, c) }

/-- The variables in the order of their numbers. -/
def labels (s : Solver V S) : List V := s.numbering.labels.toList

/-- How many assignments there are. -/
def assignmentCount (s : Solver V S) : UInt64 := 1 <<< UInt64.ofNat s.numbering.size

/-- The encodings of all assignments, ascending. -/
def encodings (s : Solver V S) : List UInt64 :=
  (List.range s.assignmentCount.toNat).map UInt64.ofNat

/-- The assignment with an encoding. -/
def assignment (s : Solver V S) (n : UInt64) : Assignment V := ⟨s.numbering, n⟩

variable [Scalar S]

/-- The energy of the assignment with an encoding. Digits that belong to no variable do not
count. -/
@[specialize] def energy (s : Solver V S) (n : UInt64) : S :=
  let linear := s.linear.foldl (fun e (mask, c) => if n &&& mask ≠ 0 then e + c else e) 0
  s.quadratic.foldl (fun e (mask, c) => if n &&& mask = mask then e + c else e) linear

/-- Every assignment with its energy, in ascending order. -/
@[specialize] def levels (s : Solver V S) : List (UInt64 × S) :=
  s.encodings.map fun n => (n, s.energy n)

/-- The result of a run, given how each of its passes reduces energies and how solutions are
brought together. -/
@[specialize] def solveBy (s : Solver V S) (first second : List S → Option S)
    (collect : List UInt64 → List UInt64) : SolveResult S :=
  let levels := s.levels
  let best := (first (levels.map Prod.snd)).getD 0
  let (optimal, others) := levels.partition fun (_, e) => s.config.isClose e best
  let secondBest := (second (others.map Prod.snd)).getD best
  { solutions := (collect (optimal.map Prod.fst)).map fun n => (s.assignment n).values
    best
    secondBest
    gap := secondBest - best
    evaluated := s.assignmentCount }

/-- The result of a run from the first assignment to the last. -/
def solveInOrder (s : Solver V S) : SolveResult S :=
  s.solveBy (reduceLeft? Scalar.least) (reduceLeft? Scalar.least) id

/-- The result of a run whose passes are shared out, each in its own way. -/
def solveShared (s : Solver V S) (first second : Schedule) : SolveResult S :=
  s.solveBy (first.reduce? Scalar.least) (second.reduce? Scalar.least)
    (fun ns => (second.gather ns).mergeSort (· ≤ ·))

/-- The optimal assignments and the two lowest levels, where a parallel run is shared out as
given. -/
def solveScheduled (s : Solver V S) (first second : Schedule) : SolveResult S :=
  if s.config.parallel then s.solveShared first second else s.solveInOrder

/-- The optimal assignments and the two lowest levels. -/
def solve (s : Solver V S) : SolveResult S := s.solveScheduled .halving .halving

end Solver

end SetQubo
