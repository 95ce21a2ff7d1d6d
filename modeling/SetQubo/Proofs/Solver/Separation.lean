import Mathlib
import SetQubo.Proofs.Solver.Doubles
import SetQubo.Proofs.Solver.Optimum
import SetQubo.Proofs.Table.Rebuild
/-!
# When the levels are kept apart in doubles

The solutions should be the lowest assignments: all those with the best energy, and none above an
assignment that is no solution. In doubles that holds as long as no energy leaves the range.

* An energy of minus infinity is the best one, but its distance to itself is no number. So the
  assignments that have it are left out.
* An energy of plus infinity is close to any finite best energy, since the share of an infinity is
  an infinity. So the assignments that have it are solutions, whatever stands below them.

Apart from the case that every assignment is a solution, these are the only exceptions.
-/

namespace SetQubo

namespace Solver

open Double

variable {V : Type} [Label V] {m : Model V Float} {s : Solver V Float}

/-- The solutions are the lowest assignments. -/
structure Separates (s : Solver V Float) : Prop where
  /-- Every assignment with the best energy is a solution. -/
  listed : ∀ n ∈ s.encodings, (s.energy n == s.solve.best) = true →
    (s.assignment n).values ∈ s.solve.solutions
  /-- No solution is above an assignment that is none. -/
  lowest : ∀ n ∈ s.encodings, ∀ n' ∈ s.encodings,
    (s.assignment n).values ∈ s.solve.solutions →
      (s.assignment n').values ∉ s.solve.solutions → ¬s.energy n' < s.energy n

section prepared
variable (h : Prepares m .default s) (hm : m.FiniteCoefficients)
include h hm

/-- Where no energy leaves the range, the levels are kept apart. -/
theorem separates_of_finite (hfinite : ∀ n ∈ s.encodings, (s.energy n).isFinite = true) :
    Separates s := by
  obtain ⟨⟨b, hb, hbest⟩, hleast⟩ := h.best_solve_of_finite hm
  have hbestFinite : s.solve.best.isFinite = true := hbest ▸ hfinite b hb
  constructor
  · intro n hn heq
    rw [beq_iff (h.isNumber_energy hm n) (h.isNumber_best hm)] at heq
    rw [h.values_mem_solutions_iff hn]
    exact isClose_of_value_eq (hfinite n hn) hbestFinite heq
  · intro n hn n' hn' hlisted hunlisted hlt
    rw [lt_iff (h.isNumber_energy hm n') (h.isNumber_energy hm n)] at hlt
    rw [h.values_mem_solutions_iff hn] at hlisted
    rw [h.values_mem_solutions_iff hn'] at hunlisted
    exact hunlisted (isClose_of_lt (hfinite n hn) (hfinite n' hn') hbestFinite
      (h.value_best_nonpos hm) (hleast n' hn') hlt hlisted)

/-- An assignment whose energy is minus infinity has the best energy, but is no solution. -/
theorem not_listed_of_negative_infinity {n : UInt64} (hn : n ∈ s.encodings)
    (hinf : (s.energy n).isFinite = false) (hneg : value (s.energy n) < 0) :
    s.energy n = s.solve.best ∧ (s.assignment n).values ∉ s.solve.solutions := by
  have hlimit := abs_value_eq_limit (h.isNumber_energy hm n) hinf
  rw [abs_of_neg hneg] at hlimit
  have hbest := (h.best_solve_of_finite hm).2 n hn
  have hbound := (abs_le.mp (representable_value s.solve.best).abs_le_limit).1
  have hsame : s.energy n = s.solve.best :=
    eq_of_value_eq (h.isNumber_energy hm n) (h.isNumber_best hm) (by linarith) hneg.ne
  refine ⟨hsame, ?_⟩
  rw [h.values_mem_solutions_iff hn, ← hsame,
    isClose_self_of_infinite (h.isNumber_energy hm n) hinf]
  exact Bool.false_ne_true

/-- An assignment whose energy is plus infinity is a solution, if the best energy is finite. -/
theorem listed_of_infinite {n : UInt64} (hn : n ∈ s.encodings)
    (hinf : (s.energy n).isFinite = false) (hbest : s.solve.best.isFinite = true) :
    (s.assignment n).values ∈ s.solve.solutions := by
  rw [h.values_mem_solutions_iff hn]
  exact isClose_of_infinite (h.isNumber_energy hm n) hinf hbest

end prepared

/-- **When the levels are kept apart.** For a model with finite coefficients and the settings that
are used unless others are given, energies are numbers, and the solutions are the lowest assignments
exactly when no energy is infinite or every assignment is a solution. -/
theorem separates_iff (hm : m.FiniteCoefficients) (hprepare : prepare m .default = .ok s) :
    (∀ n ∈ s.encodings, (s.energy n).isNaN = false) ∧
      (Separates s ↔ (∀ n ∈ s.encodings, (s.energy n).isFinite = true) ∨
        ∀ n ∈ s.encodings, (s.assignment n).values ∈ s.solve.solutions) := by
  have h := prepares_of_prepare hprepare
  refine ⟨fun n _ => (isNumber_iff _).mp (h.isNumber_energy hm n), ?_⟩
  constructor
  · intro hseparates
    by_contra hnot
    rw [not_or, not_forall] at hnot
    obtain ⟨⟨n, hn⟩, hunlisted⟩ := hnot
    rw [Classical.not_imp, Bool.not_eq_true] at hn
    obtain ⟨hn, hinf⟩ := hn
    -- No energy is minus infinity, for it would be the best one and not be listed.
    have hnonneg : ∀ k ∈ s.encodings, (s.energy k).isFinite = false → 0 ≤ value (s.energy k) := by
      intro k hk hkinf
      by_contra hneg
      obtain ⟨hsame, hnotListed⟩ :=
        not_listed_of_negative_infinity h hm hk hkinf (not_le.mp hneg)
      refine hnotListed (hseparates.listed k hk ?_)
      rw [beq_iff (h.isNumber_energy hm k) (h.isNumber_best hm), hsame]
    have hbest : s.solve.best.isFinite = true := by
      obtain ⟨b, hb, heq⟩ := (h.best_solve_of_finite hm).1
      by_contra hbinf
      rw [Bool.not_eq_true, ← heq] at hbinf
      have hlimit := abs_value_eq_limit (h.isNumber_energy hm b) hbinf
      have hnonpos := h.value_best_nonpos hm
      rw [← heq] at hnonpos
      have hzero := le_antisymm hnonpos (hnonneg b hb hbinf)
      rw [hzero, abs_zero] at hlimit
      exact limit_pos.ne hlimit
    -- So the infinite energy is listed, and everything that is not is below it.
    apply hunlisted
    intro n' hn'
    by_contra hnotListed
    have hfinite : (s.energy n').isFinite = true := by
      by_contra hinf'
      rw [Bool.not_eq_true] at hinf'
      exact hnotListed (listed_of_infinite h hm hn' hinf' hbest)
    refine hseparates.lowest n hn n' hn' (listed_of_infinite h hm hn hinf hbest) hnotListed ?_
    rw [lt_iff (h.isNumber_energy hm n') (h.isNumber_energy hm n)]
    have hlimit := abs_value_eq_limit (h.isNumber_energy hm n) hinf
    rw [abs_of_nonneg (hnonneg n hn hinf)] at hlimit
    rw [hlimit]
    exact (abs_lt.mp ((isFinite_iff (h.isNumber_energy hm n')).mp hfinite)).2
  · intro hcases
    rcases hcases with hfinite | hall
    · exact separates_of_finite h hm hfinite
    · exact ⟨fun n hn _ => hall n hn, fun n _ n' hn' _ hnot => absurd (hall n' hn') hnot⟩

/-! ## Two variables -/

/-- Two variables with a coefficient each. -/
def twoVariables (c c' : Float) : Model String Float := .ofTerms [("a", c), ("b", c')] []

theorem toList_twoVariables (c c' : Float) :
    (twoVariables c c').linear.toList = [("a", c), ("b", c')] ∧
      (twoVariables c c').quadratic.toList = [] :=
  ⟨Table.toList_ofList (by simp), rfl⟩

theorem finiteCoefficients_twoVariables (c c' : Float) (hc : c.isFinite = true)
    (hc' : c'.isFinite = true) : (twoVariables c c').FiniteCoefficients := by
  constructor
  · simp [toList_twoVariables, hc, hc']
  · simp [toList_twoVariables]

theorem exists_prepare_twoVariables (c c' : Float) :
    ∃ s, prepare (twoVariables c c') .default = .ok s := by
  have hlabels : (twoVariables c c').labels = ["a", "b"] := by
    simp only [Model.labels, Model.occurrences, Table.keys, toList_twoVariables]
    show ["a", "b"].eraseDups = ["a", "b"]
    decide
  apply exists_prepare_eq_ok
  rw [hlabels]
  decide

theorem energy_twoVariables (c c' : Float) (x : Valuation String) :
    (twoVariables c c').energy x =
      if x "b" = 1 then (if x "a" = 1 then 0 + c else 0) + c' else if x "a" = 1 then 0 + c else 0 := by
  simp only [Model.energy_eq_foldl, toList_twoVariables, List.foldl_cons, List.foldl_nil]

/-- Two coefficients near the end of the range add up to minus infinity. That is the best energy,
but the assignment that has it is no solution. -/
theorem not_separates_of_overflow :
    (twoVariables (-1e308) (-1e308)).FiniteCoefficients ∧
      ∃ s, prepare (twoVariables (-1e308) (-1e308)) .default = .ok s ∧ ¬Separates s := by
  have hm := finiteCoefficients_twoVariables (-1e308) (-1e308) (by decide +kernel)
    (by decide +kernel)
  obtain ⟨s, hprepare⟩ := exists_prepare_twoVariables (-1e308) (-1e308)
  refine ⟨hm, s, hprepare, fun hseparates => ?_⟩
  have h := prepares_of_prepare hprepare
  have hn := h.encodingOf_mem fun _ => 1
  have henergy : s.energy (s.encodingOf fun _ => 1) = 0 + -1e308 + -1e308 := by
    rw [h.energy_encodingOf, energy_twoVariables]
    rfl
  have hinf : (s.energy (s.encodingOf fun _ => 1)).isFinite = false := by
    rw [henergy]
    decide +kernel
  have hneg : value (s.energy (s.encodingOf fun _ => 1)) < 0 := by
    rw [← value_zero, ← lt_iff (h.isNumber_energy hm _) isNumber_zero, henergy]
    decide +kernel
  obtain ⟨hsame, hnotListed⟩ := not_listed_of_negative_infinity h hm hn hinf hneg
  refine hnotListed (hseparates.listed _ hn ?_)
  rw [beq_iff (h.isNumber_energy hm _) (h.isNumber_best hm), hsame]

/-- Small coefficients leave all energies finite. -/
theorem separates_small :
    ∃ s, prepare (twoVariables (-1) 2) .default = .ok s ∧ Separates s := by
  obtain ⟨s, hprepare⟩ := exists_prepare_twoVariables (-1) 2
  have hm := finiteCoefficients_twoVariables (-1) 2 (by decide +kernel) (by decide +kernel)
  refine ⟨s, hprepare, (separates_iff hm hprepare).2.mpr (Or.inl fun n _ => ?_)⟩
  rw [(prepares_of_prepare hprepare).energy_eq, energy_twoVariables]
  split <;> split <;> decide +kernel

end Solver

end SetQubo
