import Mathlib
import SetQubo.Proofs.Double.Closeness
import SetQubo.Proofs.Model.Consistency
import SetQubo.Proofs.Solver.Levels
/-!
# What a run in doubles finds

The energies of a model with finite coefficients are numbers: a sum that leaves the range becomes an
infinity and stays one. So with the settings that are used unless others are given a run finds a
least energy. It is not positive, since the assignment with everything off has energy zero.
-/

namespace SetQubo

/-! ## Energies -/

namespace Double

/-- Adding something finite to a number gives a number. -/
theorem isNumber_add {e c : Float} (he : IsNumber e) (hc : c.isFinite = true) :
    IsNumber (e + c) := by
  cases hfinite : e.isFinite with
  | false => rwa [add_of_infinite he hfinite hc]
  | true => exact (rounds_add hfinite hc).isNumber

theorem isNumber_zero : IsNumber (0 : Float) := isNumber_of_isFinite isFinite_zero

/-- A sum of finite terms is a number, whichever of them count. -/
theorem isNumber_foldl {K : Type} (on : K → Bool) (ts : List (K × Float))
    (hts : ∀ t ∈ ts, t.2.isFinite = true) {e : Float} (he : IsNumber e) :
    IsNumber (ts.foldl (fun e t => if on t.1 then e + t.2 else e) e) := by
  refine List.foldlRecOn ts _ he fun e he t ht => ?_
  split
  · exact isNumber_add he (hts t ht)
  · exact he

end Double

namespace Model

variable {V : Type} [Label V] {m : Model V Float}

/-- **Energies are numbers**, though maybe infinite ones. -/
theorem FiniteCoefficients.isNumber_energy (h : m.FiniteCoefficients) (x : Valuation V) :
    Double.IsNumber (m.energy x) := by
  have hlinear := Double.isNumber_foldl (fun v => decide (x v = 1)) m.linear.toList h.linear
    Double.isNumber_zero
  have henergy := Double.isNumber_foldl (fun p : Pair V => p.isOn x) m.quadratic.toList
    h.quadratic hlinear
  rw [energy_eq_foldl]
  simpa only [decide_eq_true_iff] using henergy

/-- With everything off the energy is zero. -/
theorem energy_of_forall_off {S : Type} [Scalar S] (m : Model V S) {x : Valuation V}
    (hx : ∀ v, x v = 0) : m.energy x = 0 := by
  have hpair : ∀ p : Pair V, p.isOn x = false := by
    intro p
    simp [Pair.isOn, hx]
  rw [energy_eq_foldl]
  simp only [hx, hpair, Bool.false_eq_true, if_false, show ((0 : UInt8) = 1) = False by decide]
  rw [List.foldl_fixed, List.foldl_fixed]

end Model

/-! ## The least energy -/

namespace Solver

open Double

variable {V : Type} [Label V] {m : Model V Float} {s : Solver V Float}

namespace Prepares

variable (h : Prepares m .default s)
include h

theorem isNumber_energy (hm : m.FiniteCoefficients) (n : UInt64) : IsNumber (s.energy n) := by
  rw [h.energy_eq]
  exact hm.isNumber_energy _

/-- **The best energy is a least one**: some assignment has it, and none has a lower one. -/
theorem best_solve_of_finite (hm : m.FiniteCoefficients) :
    (∃ n ∈ s.encodings, s.energy n = s.solve.best) ∧
      ∀ n ∈ s.encodings, value s.solve.best ≤ value (s.energy n) := by
  have hnumber := h.isNumber_energy hm
  obtain ⟨hattained, hleast⟩ := h.best_solve fun n _ => (le_iff (hnumber n) (hnumber n)).mpr le_rfl
  refine ⟨hattained, fun n hn => ?_⟩
  -- The best energy is one of the energies, so it is a number as well.
  obtain ⟨best, -, hbest⟩ := hattained
  exact (le_iff (hbest ▸ hnumber best) (hnumber n)).mp (hleast n hn)

theorem isNumber_best (hm : m.FiniteCoefficients) : IsNumber s.solve.best := by
  obtain ⟨n, -, hn⟩ := (h.best_solve_of_finite hm).1
  rw [← hn]
  exact h.isNumber_energy hm n

/-- The best energy is not positive: with everything off the energy is zero. -/
theorem value_best_nonpos (hm : m.FiniteCoefficients) : value s.solve.best ≤ 0 := by
  have hoff : ∀ v, (s.assignment 0).value v = 0 := by
    intro v
    unfold Assignment.value
    split
    · unfold Assignment.valueAt
      rw [if_neg]
      show ¬((0 : UInt64) &&& _ ≠ 0)
      rw [UInt64.zero_and]
      simp
    · rfl
  have hle := (h.best_solve_of_finite hm).2 0 (h.mem_encodings.mpr (Nat.two_pow_pos _))
  rw [h.energy_eq, Model.energy_of_forall_off m hoff] at hle
  exact hle.trans_eq value_zero

/-- The row of an assignment is a solution exactly when its energy is close to the best one. -/
theorem values_mem_solutions_iff {n : UInt64} (hn : n ∈ s.encodings) :
    (s.assignment n).values ∈ s.solve.solutions ↔
      SolverConfig.default.isClose (s.energy n) s.solve.best = true := by
  rw [s.solutions_solve, List.mem_map]
  constructor
  · intro hlisted
    obtain ⟨n', hn', hrow⟩ := hlisted
    obtain ⟨hmem, hclose⟩ := mem_optimal.mp hn'
    rw [h.config_eq] at hclose
    -- Different assignments have different rows.
    rw [h.values_eq, h.values_eq] at hrow
    have hsame : n' = n := h.encoding_inj hmem hn (List.map_inj_left.mp hrow)
    rwa [hsame] at hclose
  · intro hclose
    rw [← h.config_eq] at hclose
    exact ⟨n, mem_optimal.mpr ⟨hn, hclose⟩, rfl⟩

end Prepares

end Solver

end SetQubo
