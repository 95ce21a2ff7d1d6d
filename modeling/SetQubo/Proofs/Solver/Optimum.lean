import Mathlib
import SetQubo.Proofs.Solver.Closeness
import SetQubo.Proofs.Solver.Levels
import SetQubo.Proofs.Table.Rebuild
/-!
# The optimum and the level above it

In exact arithmetic a run finds the least energy of the model over all valuations. Its solutions
are the binary rows with an energy close to that one; closeness skips no energy, so they lie below
all other rows, and the second energy is the least of those.
-/

namespace SetQubo

namespace Solver

variable {V : Type} [Label V]

section anyArithmetic
variable {S : Type} {m : Model V S} {config : SolverConfig S} {s : Solver V S}

/-- The row of a binary valuation is the row of the assignment that encodes it. -/
theorem Prepares.values_encodingOf (h : Prepares m config s) {x : Valuation V}
    (hx : m.IsBinary x) : (s.assignment (s.encodingOf x)).values = m.labels.map x := by
  rw [h.values_eq]
  exact List.map_congr_left fun v hv => h.value_encodingOf hx hv

theorem isBinary_value (m : Model V S) (s : Solver V S) (n : UInt64) :
    m.IsBinary (s.assignment n).value :=
  fun v _ => Assignment.value_eq_zero_or_one _ v

variable [Scalar S]

/-- The solutions are the rows of the binary valuations whose energy is close to the best. -/
theorem Prepares.mem_solutions_solve (h : Prepares m config s) {row : List UInt8} :
    row ∈ s.solve.solutions ↔
      ∃ x, m.IsBinary x ∧ m.labels.map x = row ∧
        config.isClose (m.energy x) s.solve.best = true := by
  rw [s.solutions_solve, List.mem_map, ← h.config_eq]
  constructor
  · intro hsolution
    obtain ⟨n, hn, rfl⟩ := hsolution
    have hclose := (mem_optimal.mp hn).2
    rw [h.energy_eq] at hclose
    exact ⟨(s.assignment n).value, isBinary_value m s n, (h.values_eq n).symm, hclose⟩
  · intro hsolution
    obtain ⟨x, hx, rfl, hclose⟩ := hsolution
    rw [← h.energy_encodingOf] at hclose
    exact ⟨s.encodingOf x, mem_optimal.mpr ⟨h.encodingOf_mem x, hclose⟩, h.values_encodingOf hx⟩

/-- No solution comes twice, and they ascend. -/
theorem Prepares.pairwise_solutions_solve (h : Prepares m config s) :
    s.solve.solutions.Pairwise (· < ·) := by
  rw [s.solutions_solve, List.pairwise_map]
  apply List.Pairwise.imp_of_mem _ s.pairwise_optimal
  intro n n' hn hn' hlt
  exact (h.values_lt_values_iff (mem_optimal.mp hn).1 (mem_optimal.mp hn').1).mpr hlt

/-- As many assignments are looked at as there are binary valuations. -/
theorem Prepares.toNat_evaluated_solve (h : Prepares m config s) :
    s.solve.evaluated.toNat = 2 ^ m.labels.length := by
  have hcount : s.solve.evaluated = s.assignmentCount := by
    unfold solve solveScheduled solveShared solveInOrder solveBy
    split <;> rfl
  rw [hcount, h.toNat_assignmentCount, ← s.length_labels, h.labels_eq]

end anyArithmetic

/-! ## Exact arithmetic -/

/-- What a run says about a model: its least energy, the rows that reach it up to the tolerances,
and the least energy of the others. -/
structure IsOptimum (m : Model V Rat) (config : SolverConfig Rat) (r : SolveResult Rat) :
    Prop where
  /-- The best energy is the least one of all valuations. -/
  best_isLeast : IsLeast (Set.range m.energy) r.best
  /-- There is a solution. -/
  solutions_ne_nil : r.solutions ≠ []
  /-- The solutions ascend, so none comes twice. -/
  solutions_ascending : r.solutions.Pairwise (· < ·)
  /-- The solutions are the rows whose energy is close to the best one. -/
  mem_solutions : ∀ row, row ∈ r.solutions ↔
    ∃ x, m.IsBinary x ∧ m.labels.map x = row ∧ config.isClose (m.energy x) r.best = true
  /-- If every energy is close to the best one, there is no second level. -/
  of_forall_close : (∀ x, config.isClose (m.energy x) r.best = true) →
    r.secondBest = r.best ∧ r.gap = 0
  /-- Otherwise the second energy is the least one that is not close. -/
  secondBest_isLeast : (∃ x, config.isClose (m.energy x) r.best = false) →
    IsLeast {e | ∃ x, m.energy x = e ∧ config.isClose e r.best = false} r.secondBest
  /-- The levels are apart. -/
  gap_pos : (∃ x, config.isClose (m.energy x) r.best = false) →
    r.gap = r.secondBest - r.best ∧ 0 < r.gap
  /-- The solutions are what lies below the second energy. -/
  isClose_iff_lt : (∃ x, config.isClose (m.energy x) r.best = false) →
    ∀ x, config.isClose (m.energy x) r.best = true ↔ m.energy x < r.secondBest
  /-- Every assignment was looked at. -/
  evaluated_eq : r.evaluated.toNat = 2 ^ m.labels.length

section levels
variable {m : Model V Rat} {config : SolverConfig Rat} {s : Solver V Rat}
  (h : Prepares m config s)
include h

theorem Prepares.best_isLeast : IsLeast (Set.range m.energy) s.solve.best := by
  obtain ⟨⟨n, -, hn⟩, hleast⟩ := h.best_solve fun _ _ => le_rfl
  constructor
  · exact ⟨(s.assignment n).value, by rw [← h.energy_eq, hn]⟩
  · rintro e ⟨x, rfl⟩
    rw [← h.energy_encodingOf x]
    exact hleast _ (h.encodingOf_mem x)

/-- The second energy in terms of valuations. -/
theorem Prepares.secondBest_cases :
    ((∀ x, config.isClose (m.energy x) s.solve.best = true) ∧
        s.solve.secondBest = s.solve.best) ∨
      IsLeast {e | ∃ x, m.energy x = e ∧ config.isClose e s.solve.best = false}
        s.solve.secondBest := by
  have hcases := secondBest_solve s fun _ _ => le_rfl
  rw [h.config_eq] at hcases
  rcases hcases with ⟨hall, hsecond⟩ | ⟨⟨n, hn, hfar, hsecond⟩, hleast⟩
  · left
    refine ⟨fun x => ?_, hsecond⟩
    rw [← h.energy_encodingOf x]
    exact hall _ (h.encodingOf_mem x)
  · right
    constructor
    · refine ⟨(s.assignment n).value, ?_, ?_⟩
      · rw [← h.energy_eq, hsecond]
      · rw [← hsecond]
        exact hfar
    · rintro e ⟨x, rfl, hx⟩
      rw [← h.energy_encodingOf x] at hx ⊢
      exact hleast _ (h.encodingOf_mem x) hx

/-- With tolerances in proportion the two levels are apart: what is close to the best energy is
what lies below the second one. -/
theorem Prepares.isClose_iff_lt_secondBest (hconfig : config.Proportionate)
    (hsecond : IsLeast {e | ∃ x, m.energy x = e ∧ config.isClose e s.solve.best = false}
      s.solve.secondBest) (x : Valuation V) :
    config.isClose (m.energy x) s.solve.best = true ↔ m.energy x < s.solve.secondBest := by
  obtain ⟨⟨y, hy, hfar⟩, hleast⟩ := hsecond
  constructor
  · intro hclose
    by_contra hle
    rw [not_lt] at hle
    -- A solution at or above the second energy would make that one close as well.
    have hbest : s.solve.best ≤ s.solve.secondBest := hy ▸ h.best_isLeast.2 ⟨y, rfl⟩
    rw [hconfig.isClose_of_le hbest hle hclose] at hfar
    cases hfar
  · intro hlt
    by_contra hclose
    rw [Bool.not_eq_true] at hclose
    exact absurd (hleast ⟨x, rfl, hclose⟩) (not_le.mpr hlt)

end levels

/-- **A run finds the optimum.** With tolerances in proportion, the run over a model that the cap
admits gives the least energy over all valuations, the rows close to it in ascending order, and the
least energy above them, which all solutions stay below. -/
theorem solve_isOptimum {m : Model V Rat} {config : SolverConfig Rat} {s : Solver V Rat}
    (hconfig : config.Proportionate) (hprepare : prepare m config = .ok s) :
    IsOptimum m config s.solve := by
  have h := prepares_of_prepare hprepare
  obtain ⟨⟨x, hx⟩, hbest⟩ := h.best_isLeast
  have hsecond : (∃ x, config.isClose (m.energy x) s.solve.best = false) →
      IsLeast {e | ∃ x, m.energy x = e ∧ config.isClose e s.solve.best = false}
        s.solve.secondBest := by
    rintro ⟨y, hy⟩
    rcases h.secondBest_cases with ⟨hall, -⟩ | hleast
    · rw [hall y] at hy
      cases hy
    · exact hleast
  refine
    { best_isLeast := h.best_isLeast
      solutions_ne_nil := ?nonempty
      solutions_ascending := h.pairwise_solutions_solve
      mem_solutions := fun row => h.mem_solutions_solve
      of_forall_close := ?single
      secondBest_isLeast := hsecond
      gap_pos := ?gap
      isClose_iff_lt := fun hother => h.isClose_iff_lt_secondBest hconfig (hsecond hother)
      evaluated_eq := h.toNat_evaluated_solve }
  case nonempty =>
    -- The assignment that attains the best energy is a solution.
    have hmem : s.encodingOf x ∈ s.optimal := by
      rw [mem_optimal, h.config_eq, h.energy_encodingOf, hx]
      exact ⟨h.encodingOf_mem x, hconfig.isClose_self _⟩
    rw [s.solutions_solve]
    exact List.ne_nil_of_mem (List.mem_map_of_mem hmem)
  case single =>
    intro hall
    have hsame : s.solve.secondBest = s.solve.best := by
      rcases h.secondBest_cases with ⟨-, hsame⟩ | ⟨⟨y, hy, hfar⟩, -⟩
      · exact hsame
      · rw [← hy, hall y] at hfar
        cases hfar
    exact ⟨hsame, by rw [gap_solve, hsame, sub_self]⟩
  case gap =>
    intro hother
    have hlt : s.solve.best < s.solve.secondBest := by
      rw [← hx, ← h.isClose_iff_lt_secondBest hconfig (hsecond hother), hx]
      exact hconfig.isClose_self _
    exact ⟨gap_solve s, by rw [gap_solve]; linarith⟩

/-- Two variables, one of which only pays together with the other. -/
def cooperation : Model String Rat :=
  .ofTerms [("a", -1), ("b", 2)] [(⟨"a", "b"⟩, -4)]

theorem toList_cooperation :
    cooperation.linear.toList = [("a", -1), ("b", 2)] ∧
      cooperation.quadratic.toList = [(⟨"a", "b"⟩, -4)] :=
  ⟨Table.toList_ofList (by simp), Table.toList_ofList (by simp)⟩

/-- Both variables on give the least energy of the four, which is less by two than the next. -/
theorem cooperation_isOptimum :
    (⟨16, 1 / 1000, 1 / 1000, false⟩ : SolverConfig Rat).Proportionate ∧
      ∃ s, prepare cooperation ⟨16, 1 / 1000, 1 / 1000, false⟩ = .ok s ∧
        IsOptimum cooperation ⟨16, 1 / 1000, 1 / 1000, false⟩ s.solve ∧ s.solve.best = -3 := by
  have hconfig : (⟨16, 1 / 1000, 1 / 1000, false⟩ : SolverConfig Rat).Proportionate := by
    refine ⟨?_, ?_, ?_⟩ <;> norm_num
  have hlabels : cooperation.labels = ["a", "b"] := by
    simp only [Model.labels, Model.occurrences, Table.keys, toList_cooperation]
    decide
  obtain ⟨s, hprepare⟩ : ∃ s, prepare cooperation
      (⟨16, 1 / 1000, 1 / 1000, false⟩ : SolverConfig Rat) = .ok s :=
    exists_prepare_eq_ok (by rw [hlabels]; decide)
  have hoptimum := solve_isOptimum hconfig hprepare
  have hleast : IsLeast (Set.range cooperation.energy) (-3) := by
    constructor
    · refine ⟨fun _ => 1, ?_⟩
      simp [Model.energy_eq_foldl, toList_cooperation, Pair.isOn]
      norm_num
    · rintro e ⟨x, rfl⟩
      rw [Model.energy_eq_foldl, toList_cooperation.1, toList_cooperation.2]
      by_cases ha : x "a" = 1 <;> by_cases hb : x "b" = 1 <;>
        simp [Pair.isOn, ha, hb] <;> norm_num
  exact ⟨hconfig, s, hprepare, hoptimum, hoptimum.best_isLeast.unique hleast⟩

end Solver

end SetQubo
