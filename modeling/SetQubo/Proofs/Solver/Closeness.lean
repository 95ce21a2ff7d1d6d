import Mathlib
import SetQubo.Solver.Config
/-!
# Closeness in exact arithmetic

Two energies count as equal when they differ by a share of the larger magnitude, or by an absolute
bound. That is no equivalence: the share depends on both energies. But among the energies above a
given one, those that are close to it come first: no energy in between is skipped. The share
must not be more than the whole for that.
-/

namespace SetQubo

/-! ## Comparisons -/

theorem Scalar.magnitude_eq_abs (a : Rat) : Scalar.magnitude a = |a| := by
  unfold Scalar.magnitude
  by_cases ha : a < 0
  · rw [if_pos ha, abs_of_neg ha]
  · rw [if_neg ha, abs_of_nonneg (not_lt.mp ha)]

theorem Scalar.greatest_eq_max (a b : Rat) : Scalar.greatest a b = max a b := by
  unfold Scalar.greatest
  by_cases hba : b ≤ a
  · rw [if_pos hba, max_eq_left hba]
  · have hab : a ≤ b := le_of_not_ge hba
    rw [if_neg hba, if_pos (le_refl b), max_eq_right hab]

namespace SolverConfig

variable {config : SolverConfig Rat}

/-- Two energies are close when a share of the larger one or the absolute bound covers their
distance. -/
theorem isClose_iff (a b : Rat) :
    config.isClose a b = true ↔
      |a - b| ≤ config.relativeTolerance * max |a| |b| ∨ |a - b| ≤ config.absoluteTolerance := by
  unfold isClose
  rw [decide_eq_true_iff]
  simp only [Scalar.magnitude_eq_abs, Scalar.greatest_eq_max]
  exact le_max_iff

/-! ## Tolerances -/

/-- The tolerances are not negative, and the relative one admits no more than the whole. -/
structure Proportionate (config : SolverConfig Rat) : Prop where
  /-- The relative tolerance is not negative. -/
  relative_nonneg : 0 ≤ config.relativeTolerance
  /-- The relative tolerance is at most one. -/
  relative_le_one : config.relativeTolerance ≤ 1
  /-- The absolute tolerance is not negative. -/
  absolute_nonneg : 0 ≤ config.absoluteTolerance

namespace Proportionate

variable (h : config.Proportionate)
include h

theorem isClose_self (a : Rat) : config.isClose a a = true := by
  rw [isClose_iff, sub_self, abs_zero]
  exact Or.inr h.absolute_nonneg

/-- **No energy in between is skipped**: what lies between an energy and a close one above it is
close to it as well. -/
theorem isClose_of_le {b e e' : Rat} (hb : b ≤ e') (he : e' ≤ e)
    (hclose : config.isClose e b = true) : config.isClose e' b = true := by
  have hr := h.relative_nonneg
  have hr1 := h.relative_le_one
  rw [isClose_iff, abs_of_nonneg (by linarith : 0 ≤ e - b)] at hclose
  rw [isClose_iff, abs_of_nonneg (by linarith : 0 ≤ e' - b)]
  rcases hclose with hshare | habsolute
  · left
    by_cases hlarger : |e| ≤ |b|
    · -- The share is taken of the lower energy, and that one stays.
      rw [max_eq_right hlarger] at hshare
      have hstays : config.relativeTolerance * |b| ≤
          config.relativeTolerance * max |e'| |b| :=
        mul_le_mul_of_nonneg_left (le_max_right _ _) hr
      linarith
    · -- The share is taken of the upper energy. Then both are not negative, and what the share
      -- leaves of an energy grows with it.
      rw [not_le] at hlarger
      have hnonneg : 0 ≤ e := by
        by_contra hneg
        rw [not_le] at hneg
        rw [abs_of_neg hneg, abs_of_neg (by linarith : b < 0)] at hlarger
        linarith
      rw [abs_of_nonneg hnonneg] at hlarger hshare
      rw [max_eq_left hlarger.le] at hshare
      have hbound : config.relativeTolerance * e ≤ 1 * e := mul_le_mul_of_nonneg_right hr1 hnonneg
      have hrest : (1 - config.relativeTolerance) * e' ≤ (1 - config.relativeTolerance) * e :=
        mul_le_mul_of_nonneg_left he (by linarith)
      have hreached : config.relativeTolerance * e' ≤
          config.relativeTolerance * max |e'| |b| :=
        mul_le_mul_of_nonneg_left ((le_abs_self e').trans (le_max_left _ _)) hr
      linarith
  · exact Or.inr (by linarith)

end Proportionate

end SolverConfig

end SetQubo
