import SetQubo.Proofs.Double.Scalar
import SetQubo.Proofs.Solver.Sharing
import SetQubo.Verification.Check
/-!
# Verifications that are shared out

The settings say whether runs are shared out. Nothing but the copy of the settings in a report tells
what they said: the same set is refused for the same reason, or the two reports hold the same
levels, recovered elements and violations. In doubles this needs no exception for energies that are
infinite or no numbers.
-/

namespace SetQubo

/-! ## Whether to share out -/

/-- The settings, but sharing runs out or not as given. -/
def SolverConfig.withParallel {S : Type} (parallel : Bool) (c : SolverConfig S) : SolverConfig S :=
  { c with parallel }

/-- The report, but saying that runs were shared out or not as given. -/
def Report.withParallel {S : Type} (parallel : Bool) (r : Report S) : Report S :=
  { r with solver := r.solver.withParallel parallel }

namespace Solver

variable {V S : Type} [Label V]

/-- The solver, but sharing its run out or not as given. -/
def withParallel (parallel : Bool) (s : Solver V S) : Solver V S :=
  { s with config := s.config.withParallel parallel }

/-- What is prepared depends on the settings only in that it holds them. -/
theorem prepare_withParallel (m : Model V S) (config : SolverConfig S) (parallel : Bool) :
    prepare m (config.withParallel parallel) = (prepare m config).map (withParallel parallel) := by
  unfold prepare
  by_cases hcap : (Numbering.ofList m.occurrences).size > config.cap
  · rw [if_pos hcap]
    exact if_pos hcap
  · rw [if_neg hcap]
    exact if_neg hcap

variable [Scalar S] [Scalar.Ordered S]

/-- A run gives what the run in order gives, whatever the settings say of sharing. -/
theorem solveScheduled_withParallel (s : Solver V S) (parallel : Bool) (first second : Schedule) :
    (s.withParallel parallel).solveScheduled first second = s.solveInOrder :=
  (s.withParallel parallel).solveScheduled_eq_solveInOrder first second

theorem solve_withParallel (s : Solver V S) (parallel : Bool) :
    (s.withParallel parallel).solve = s.solveInOrder :=
  (s.withParallel parallel).solve_eq_solveInOrder

end Solver

namespace Verification

variable {S : Type} [Scalar S]

/-- If two ways to solve agree wherever the settings differ in sharing only, then so do the
verifications. -/
theorem verifyBy_withParallel {solve solve' : Solver Variable S → SolveResult S}
    {parallel parallel' : Bool}
    (hsolve : ∀ s : Solver Variable S,
      solve (s.withParallel parallel) = solve' (s.withParallel parallel'))
    (set : SetSpec) (embedding : EmbeddingConfig S) (config : SolverConfig S) :
    verifyBy solve set embedding (config.withParallel parallel) =
      (verifyBy solve' set embedding (config.withParallel parallel')).map
        (Report.withParallel parallel) := by
  unfold verifyBy
  cases Embedding.embed embedding set with
  | error e => rfl
  | ok m =>
    simp only [Except.mapError, bind, Except.bind, Solver.prepare_withParallel]
    cases Solver.prepare m config with
    | error e => rfl
    | ok s =>
      -- Closeness does not depend on sharing, so the verdicts are the same as well.
      simp only [Except.map, hsolve]
      rfl

/-- **Sharing out does not show.** However the two passes of a run are shared out, along any trees
and with the solutions gathered in any order, the result is that of the run which is not shared out;
and a verification which runs in this way is the one which does not, but for the settings that its
report names. Energies may be infinite or no numbers. -/
theorem sharing_does_not_show (first second : Schedule) :
    (∀ {V : Type} [Label V] (s : Solver V Float),
      (s.withParallel true).solveScheduled first second = (s.withParallel false).solve) ∧
    ∀ (set : SetSpec) (embedding : EmbeddingConfig Float) (config : SolverConfig Float),
      verifyBy (Solver.solveScheduled · first second) set embedding (config.withParallel true) =
        (verify set embedding (config.withParallel false)).map (Report.withParallel true) := by
  have hsolve : ∀ {V : Type} [Label V] (s : Solver V Float),
      (s.withParallel true).solveScheduled first second = (s.withParallel false).solve := by
    intro V _ s
    rw [s.solveScheduled_withParallel, s.solve_withParallel]
  exact ⟨hsolve, verifyBy_withParallel hsolve⟩

end Verification

end SetQubo
