import Mathlib
import SetQubo.Proofs.Double.Approximation
import SetQubo.Proofs.Embedding.Spectrum
/-!
# The coefficients of an embedded set in doubles

In doubles the reward of an indicator is rounded twice, and its deterrent three times. As long as
the penalty is **moderate**, so that nothing overflows and nothing falls below the normal range,
both are within a few rounding units of what they are in exact arithmetic.
-/

namespace SetQubo

namespace Embedding

open Double

/-- The penalty leaves room for the sums on one side, and for a quotient on the other. -/
structure Moderate (penalty : Float) : Prop where
  /-- The penalty is finite. -/
  isFinite : penalty.isFinite = true
  /-- It is well above the least normal double. -/
  low : 2 ^ (-900 : ℤ) ≤ value penalty
  /-- Sums of millions of penalties do not overflow. -/
  high : 2 ^ 24 * value penalty ≤ limit

namespace Moderate

variable {penalty : Float} {x : BitVector}

theorem of_bounds (hfinite : penalty.isFinite = true) (hlow : 2 ^ (-900 : ℤ) ≤ value penalty)
    (hhigh : value penalty ≤ 2 ^ 1000) : Moderate penalty := by
  refine ⟨hfinite, hlow, ?_⟩
  unfold limit
  calc 2 ^ 24 * value penalty ≤ 2 ^ 24 * 2 ^ 1000 := by gcongr
    _ = 2 ^ 1024 := by rw [← pow_add]

variable (h : Moderate penalty)
include h

theorem pos : 0 < value penalty := (two_zpow_pos _).trans_le h.low

theorem approximates : Approximates (value penalty) 1 0 penalty (value penalty) := by
  refine ⟨h.isFinite, by rw [abs_of_pos h.pos]; simp, by simp⟩

/-- What is at least a share of the penalty is in the normal range. -/
theorem least_normal_le {y : Rat} (hy : value penalty / 2 ^ 8 ≤ y) : 2 ^ (-1022 : ℤ) ≤ |y| := by
  have hpenalty := h.low
  calc (2 : Rat) ^ (-1022 : ℤ) ≤ 2 ^ (-908 : ℤ) := two_zpow_le (by norm_num)
    _ = 2 ^ (-900 : ℤ) / 2 ^ 8 := by
      rw [show (-908 : ℤ) = -900 + -8 by norm_num, two_zpow_add,
        show (2 : Rat) ^ (-8 : ℤ) = 1 / 2 ^ 8 by norm_num, mul_one_div]
    _ ≤ value penalty / 2 ^ 8 := by gcongr
    _ ≤ y := hy
    _ ≤ |y| := le_abs_self y

/-- What is at most some thousand penalties does not overflow. -/
theorem abs_le_half_limit {y : Rat} (hy : |y| ≤ 2 ^ 20 * value penalty) : |y| ≤ limit / 2 := by
  have hpos := h.pos
  have hhigh := h.high
  linarith

omit h in
/-- The number of ones plus one is exact. -/
theorem value_ones (hones : x.onesCount ≤ 64) :
    (Float.ofNat x.onesCount + Float.ofNat 1).isFinite = true ∧
      value (Float.ofNat x.onesCount + Float.ofNat 1) = x.onesCount + 1 := by
  obtain ⟨hfinite, hvalue⟩ := rounds_ofNat (n := x.onesCount) (by omega)
  obtain ⟨hfiniteOne, hvalueOne⟩ := rounds_ofNat (n := 1) (by norm_num)
  have hsum := rounds_add hfinite hfiniteOne
  rw [hvalue, hvalueOne, Nat.cast_one] at hsum
  have hgrid : Representable (x.onesCount + 1) := by
    have hint := representable_intCast (m := (x.onesCount + 1 : ℕ)) (by
      rw [Nat.abs_cast]
      exact_mod_cast (by omega : x.onesCount + 1 ≤ 2 ^ 53))
    simpa using hint
  have hexact := hsum.nearest.eq_of_representable hgrid
  refine ⟨?_, hexact⟩
  rw [isFinite_iff hsum.isNumber, hexact]
  have hsmall : |(x.onesCount + 1 : Rat)| ≤ 65 := by
    rw [abs_of_nonneg (by positivity)]
    exact_mod_cast (by omega : x.onesCount + 1 ≤ 65)
  have hlimit : (65 : Rat) < limit := by
    unfold limit
    calc (65 : Rat) < 2 ^ 7 := by norm_num
      _ ≤ _ := pow_le_pow_right₀ (by norm_num) (by norm_num)
  exact hsmall.trans_lt hlimit

omit h in
/-- A reward is at least the penalty, and at most twice as much. -/
theorem reward_bounds (hpenalty : 0 < value penalty) (hpos : 0 < x.onesCount) :
    value penalty ≤ reward (value penalty) x ∧ reward (value penalty) x ≤ 2 * value penalty := by
  have hn : (1 : Rat) ≤ x.onesCount := by exact_mod_cast hpos
  rw [reward_eq, le_div_iff₀ (by linarith), div_le_iff₀ (by linarith)]
  constructor
  · linarith
  · calc (x.onesCount + 1) * value penalty ≤ (x.onesCount + x.onesCount) * value penalty := by
          gcongr
      _ = 2 * value penalty * x.onesCount := by ring

/-- **The reward is rounded twice**: once when the penalty is multiplied, once when it is divided. -/
theorem value_reward (hpos : 0 < x.onesCount) (hones : x.onesCount ≤ 64) :
    (reward penalty x).isFinite = true ∧
      |value (reward penalty x) - reward (value penalty) x| ≤
        reward (value penalty) x * (1 + 1 / 2 ^ 54) / 2 ^ 52 := by
  obtain ⟨hfinite, hvalue⟩ := value_ones hones
  obtain ⟨hfiniteOnes, hvalueOnes⟩ := rounds_ofNat (n := x.onesCount) (by omega)
  have hp := h.pos
  have hn : (1 : Rat) ≤ x.onesCount := by exact_mod_cast hpos
  have hn' : (x.onesCount : Rat) ≤ 64 := by exact_mod_cast hones
  -- The product of the penalty and one more than the number of ones.
  have hproduct := rounds_mul hfinite h.isFinite
  rw [hvalue] at hproduct
  have hpaid : 0 < (x.onesCount + 1 : Rat) * value penalty := by positivity
  have hpaid' : |(x.onesCount + 1 : Rat) * value penalty| ≤ 2 ^ 7 * value penalty := by
    rw [abs_of_pos hpaid]
    gcongr
    linarith
  have hpaidLow : value penalty ≤ (x.onesCount + 1) * value penalty :=
    le_mul_of_one_le_left hp.le (by linarith)
  have hproductError := hproduct.abs_sub_le
    (h.least_normal_le (by linarith)) (h.abs_le_half_limit (by linarith))
  have hproductFinite := hproduct.isFinite (h.abs_le_half_limit (by linarith))
  rw [abs_of_pos hpaid] at hproductError
  generalize hy : value ((Float.ofNat x.onesCount + Float.ofNat 1) * penalty) = y at hproductError
  -- The quotient by the number of ones.
  have hexact : reward (value penalty) x = (x.onesCount + 1) * value penalty / x.onesCount :=
    reward_eq _ _
  obtain ⟨hqlow, hqhigh⟩ := reward_bounds hp hpos
  generalize hq : reward (value penalty) x = q at hexact hqlow hqhigh
  have hshare : |y / x.onesCount - q| ≤ q / 2 ^ 53 := by
    rw [hexact, ← sub_div, abs_div, Nat.abs_cast, div_right_comm]
    exact div_le_div_of_nonneg_right hproductError (by linarith)
  have hquotientBounds := abs_le.mp hshare
  have hquotientPos : value penalty / 2 ^ 8 ≤ y / x.onesCount := by linarith
  have habs : |y / x.onesCount| ≤ q + q / 2 ^ 53 := by
    rw [abs_of_nonneg (by linarith)]
    linarith
  have hquotient := rounds_div hproductFinite hfiniteOnes (by rw [hvalueOnes]; linarith)
  rw [hy, hvalueOnes] at hquotient
  have hrange := h.abs_le_half_limit (y := y / x.onesCount) (by linarith)
  have hquotientError := hquotient.abs_sub_le (h.least_normal_le hquotientPos) hrange
  refine ⟨hquotient.isFinite hrange, ?_⟩
  have hsplit := abs_sub_le (value (reward penalty x)) (y / x.onesCount) q
  have hrounded : |value (reward penalty x) - y / x.onesCount| ≤ (q + q / 2 ^ 53) / 2 ^ 53 :=
    hquotientError.trans (by gcongr)
  calc |value (reward penalty x) - q| ≤ (q + q / 2 ^ 53) / 2 ^ 53 + q / 2 ^ 53 := by linarith
    _ = q * (1 + 1 / 2 ^ 54) / 2 ^ 52 := by ring

theorem approximates_reward (hpos : 0 < x.onesCount) (hones : x.onesCount ≤ 64) :
    Approximates (value penalty) 2 2 (reward penalty x) (reward (value penalty) x) := by
  obtain ⟨hfinite, herror⟩ := h.value_reward hpos hones
  obtain ⟨hlow, hhigh⟩ := reward_bounds h.pos hpos
  have hp := h.pos
  refine ⟨hfinite, by rw [abs_of_pos (by linarith)]; exact_mod_cast hhigh, herror.trans ?_⟩
  push_cast
  linarith

/-- **The deterrent** is the reward times the width, rounded once more. -/
theorem approximates_deterrent (hpos : 0 < x.onesCount) (hones : x.onesCount ≤ 64) {width : ℕ}
    (hwidth : 0 < width) (hwidth' : width ≤ 64) :
    Approximates (value penalty) (2 * width) 2 (deterrent penalty width x)
      (deterrent (value penalty) width x) := by
  obtain ⟨hfinite, herror⟩ := h.value_reward hpos hones
  obtain ⟨hqlow, hqhigh⟩ := reward_bounds h.pos hpos
  obtain ⟨hfiniteWidth, hvalueWidth⟩ := rounds_ofNat (n := width) (by omega)
  have hp := h.pos
  have hw : (1 : Rat) ≤ width := by exact_mod_cast hwidth
  have hw' : (width : Rat) ≤ 64 := by exact_mod_cast hwidth'
  have hproduct := rounds_mul hfinite hfiniteWidth
  rw [hvalueWidth] at hproduct
  have hexact : deterrent (value penalty) width x = reward (value penalty) x * width := rfl
  generalize reward (value penalty) x = q at *
  generalize hr : value (reward penalty x) = r at *
  have herror' : |r - q| ≤ q * (5 / 4) / 2 ^ 52 := by linarith
  have hr := abs_le.mp herror'
  have hrLow : value penalty / 2 ≤ r := by linarith
  have hrHigh : r ≤ q * (5 / 4) := by linarith
  -- The product with the width is as large as that of the exact reward, a little enlarged.
  have hwhole : r ≤ r * width := le_mul_of_one_le_right (by linarith) hw
  have habs : |r * width| ≤ q * width * (5 / 4) := by
    rw [abs_of_nonneg (by linarith)]
    calc r * width ≤ q * (5 / 4) * width := by gcongr
      _ = q * width * (5 / 4) := by ring
  have hscale : q * width ≤ 2 * value penalty * width := by gcongr
  have hscale' : q * width ≤ 2 ^ 7 * value penalty :=
    calc q * width ≤ 2 * value penalty * width := hscale
      _ ≤ 2 * value penalty * 64 := by gcongr
      _ = 2 ^ 7 * value penalty := by ring
  have hrange := h.abs_le_half_limit (y := r * width) (by linarith)
  have hrounded := hproduct.abs_sub_le (h.least_normal_le (by linarith)) hrange
  have hshare : |r * width - q * width| ≤ q * width * (5 / 4) / 2 ^ 52 := by
    rw [← sub_mul, abs_mul, Nat.abs_cast]
    calc |r - q| * width ≤ q * (5 / 4) / 2 ^ 52 * width := by gcongr
      _ = _ := by ring
  have hsplit := abs_sub_le (value (deterrent penalty width x)) (r * width) (q * width)
  have hdeterrent : |value (deterrent penalty width x) - r * width| ≤
      q * width * (5 / 4) / 2 ^ 53 := hrounded.trans (by gcongr)
  have hnonneg : 0 ≤ q * width := mul_nonneg (by linarith) (by linarith)
  rw [hexact]
  refine ⟨hproduct.isFinite hrange, ?_, ?_⟩
  · rw [abs_of_nonneg hnonneg]
    push_cast
    linarith
  · push_cast
    calc |value (deterrent penalty width x) - q * width|
        ≤ q * width * (5 / 4) / 2 ^ 53 + q * width * (5 / 4) / 2 ^ 52 := by linarith
      _ ≤ q * width * 2 / 2 ^ 52 := by linarith
      _ ≤ 2 * value penalty * width * 2 / 2 ^ 52 := by gcongr
      _ = 2 * width * value penalty * 2 / 2 ^ 52 := by ring

end Moderate

end Embedding

end SetQubo
