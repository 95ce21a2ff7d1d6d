import Mathlib
import SetQubo.Proofs.Double.Scalar
import SetQubo.Solver.Config
/-!
# Closeness in doubles

With the settings that are used unless others are given, two finite doubles are close when the
rounded distance is at most the absolute tolerance, or at most the rounded share of the larger
magnitude. As in exact arithmetic no double in between is skipped, as long as the lower one is not
positive. With an infinity on the upper side everything is close, since the share of it is an
infinity again; two infinities on one side are not, since their distance is no number.
-/

namespace SetQubo

namespace Double

open Float.Model Float.Model.UnpackedFloat

/-! ## The tolerances -/

/-- The value of the relative tolerance. -/
def relative : Rat := 4722366482869645 / 2 ^ 72

/-- The value of the absolute tolerance. -/
def absolute : Rat := 4835703278458517 / 2 ^ 82

theorem relativeTolerance_default :
    SolverConfig.default.relativeTolerance.isFinite = true ∧
      value SolverConfig.default.relativeTolerance = relative := by
  have hbits : SolverConfig.default.relativeTolerance = Float.ofBits 4517329193108106637 := by
    decide +kernel
  have hunpack : (Float.ofBits 4517329193108106637).toModel.unpack =
      .finite .positive 4722366482869645 (-72) (by norm_num) := rfl
  rw [hbits]
  refine ⟨by decide +kernel, ?_⟩
  unfold value
  rw [hunpack, unpackedValue, factor, relative]
  norm_num

theorem absoluteTolerance_default :
    SolverConfig.default.absoluteTolerance.isFinite = true ∧
      value SolverConfig.default.absoluteTolerance = absolute := by
  have hbits : SolverConfig.default.absoluteTolerance = Float.ofBits 4472406533629990549 := by
    decide +kernel
  have hunpack : (Float.ofBits 4472406533629990549).toModel.unpack =
      .finite .positive 4835703278458517 (-82) (by norm_num) := rfl
  rw [hbits]
  refine ⟨by decide +kernel, ?_⟩
  unfold value
  rw [hunpack, unpackedValue, factor, absolute]
  norm_num

variable {a a' b : Float}

/-- The rounded share of the larger magnitude. -/
def share (a b : Float) : Float :=
  SolverConfig.default.relativeTolerance *
    Scalar.greatest (Scalar.magnitude a) (Scalar.magnitude b)

theorem isClose_eq (a b : Float) :
    SolverConfig.default.isClose a b = true ↔
      Scalar.magnitude (a - b) ≤
        Scalar.greatest (share a b) SolverConfig.default.absoluteTolerance :=
  decide_eq_true_iff

/-! ## Finite doubles -/

/-- The larger magnitude of two finite doubles. -/
theorem greatest_magnitude (ha : a.isFinite = true) (hb : b.isFinite = true) :
    (Scalar.greatest (Scalar.magnitude a) (Scalar.magnitude b)).isFinite = true ∧
      value (Scalar.greatest (Scalar.magnitude a) (Scalar.magnitude b)) =
        max |value a| |value b| := by
  obtain ⟨hna, hva⟩ := magnitude_of_isNumber (isNumber_of_isFinite ha)
  obtain ⟨hnb, hvb⟩ := magnitude_of_isNumber (isNumber_of_isFinite hb)
  obtain ⟨hnumber, hvalue⟩ := greatest_of_isNumber hna hnb
  rw [hva, hvb] at hvalue
  have hla := (isFinite_iff (isNumber_of_isFinite ha)).mp ha
  have hlb := (isFinite_iff (isNumber_of_isFinite hb)).mp hb
  refine ⟨?_, hvalue⟩
  rw [isFinite_iff hnumber, hvalue, abs_of_nonneg (le_max_of_le_left (abs_nonneg _))]
  exact max_lt hla hlb

theorem rounds_share (ha : a.isFinite = true) (hb : b.isFinite = true) :
    Rounds (relative * max |value a| |value b|) (share a b) := by
  obtain ⟨hfinite, hvalue⟩ := greatest_magnitude ha hb
  have hproduct := rounds_mul relativeTolerance_default.1 hfinite
  rw [relativeTolerance_default.2, hvalue] at hproduct
  exact hproduct

/-- Two finite doubles are close when the share or the absolute tolerance covers the rounded
distance. -/
theorem isClose_iff (ha : a.isFinite = true) (hb : b.isFinite = true) :
    SolverConfig.default.isClose a b = true ↔
      |value (a - b)| ≤ value (share a b) ∨ |value (a - b)| ≤ absolute := by
  obtain ⟨hdistance, hvalue⟩ := magnitude_of_isNumber (rounds_sub ha hb).isNumber
  obtain ⟨hgreatest, hmax⟩ := greatest_of_isNumber (rounds_share ha hb).isNumber
    (isNumber_of_isFinite absoluteTolerance_default.1)
  rw [isClose_eq, le_iff hdistance hgreatest, hvalue, hmax, absoluteTolerance_default.2]
  exact le_max_iff

/-- Equal values are close. -/
theorem isClose_of_value_eq (ha : a.isFinite = true) (hb : b.isFinite = true)
    (h : value a = value b) : SolverConfig.default.isClose a b = true := by
  have hzero := (rounds_sub ha hb).nearest
  rw [h, sub_self] at hzero
  rw [isClose_iff ha hb, hzero.eq_of_representable representable_zero, abs_zero]
  right
  unfold absolute
  norm_num

/-- Values within the absolute tolerance are close, for it is on the grid. -/
theorem isClose_of_abs_sub_le (ha : a.isFinite = true) (hb : b.isFinite = true)
    (h : |value a - value b| ≤ absolute) : SolverConfig.default.isClose a b = true := by
  have hgrid : Representable absolute :=
    absoluteTolerance_default.2 ▸ representable_value SolverConfig.default.absoluteTolerance
  rw [isClose_iff ha hb]
  exact Or.inr ((rounds_sub ha hb).nearest.abs_le_of_abs_le hgrid h)

/-- Half of a grid point that is not among the least ones is on the grid. -/
theorem Representable.half {q : Rat} (h : Representable q) (hlarge : 2 ^ (-1021 : ℤ) < |q|) :
    Representable (q / 2) := by
  obtain ⟨m, e, hm, he, he', rfl⟩ := h
  refine ⟨m, e - 1, hm, ?_, by omega, ?_⟩
  · -- At the least exponent the point would be too small.
    by_contra hleast
    obtain rfl : e = -1074 := by omega
    have hm' : |(m : Rat)| ≤ 2 ^ 53 := by exact_mod_cast hm
    have hbound : |(m : Rat) * 2 ^ (-1074 : ℤ)| ≤ 2 ^ (-1021 : ℤ) := by
      rw [abs_mul, abs_of_pos (two_zpow_pos _), show (-1021 : ℤ) = 53 + -1074 by norm_num,
        two_zpow_add]
      exact mul_le_mul_of_nonneg_right (by exact_mod_cast hm') (two_zpow_pos _).le
    exact absurd hbound (not_le.mpr hlarge)
  · rw [show e - 1 = e + -1 by ring, two_zpow_add]
    norm_num
    ring

theorem relative_pos : 0 < relative := by unfold relative; norm_num

theorem relative_lt_half : relative < 1 / 2 := by unfold relative; norm_num

theorem least_normal_le_absolute : (2 : Rat) ^ (-1021 : ℤ) ≤ absolute := by
  calc (2 : Rat) ^ (-1021 : ℤ) ≤ 2 ^ (-82 : ℤ) := two_zpow_le (by norm_num)
    _ ≤ absolute := by unfold absolute; norm_num

/-- A double that is larger than the magnitude of what it is close to is within the absolute
tolerance of it: no share of the double covers the distance. -/
theorem le_absolute_of_isClose (ha : a.isFinite = true) (hb : b.isFinite = true)
    (hneg : value b ≤ 0) (hlarger : |value b| < value a)
    (hclose : SolverConfig.default.isClose a b = true) : |value (a - b)| ≤ absolute := by
  rw [isClose_iff ha hb] at hclose
  rcases hclose with hshare | habsolute
  · have hpos : 0 < value a := (abs_nonneg _).trans_lt hlarger
    have hdistance : value a ≤ value (a - b) :=
      (rounds_sub ha hb).nearest.ge_of_ge (representable_value a) (by linarith)
    have hrounded := (rounds_share ha hb).nearest
    rw [abs_of_pos hpos, max_eq_left hlarger.le] at hrounded
    rcases le_or_gt (value a) (2 ^ (-1021 : ℤ)) with hsmall | hlarge
    · -- The share is at most the double, which is within the tolerance itself.
      have hwhole : relative * value a ≤ value a :=
        mul_le_of_le_one_left hpos.le (by linarith [relative_lt_half])
      have hbound := hrounded.le_of_le (representable_value a) hwhole
      linarith [least_normal_le_absolute]
    · -- The share is at most half of the double, and the distance is at least all of it.
      have hhalf : relative * value a ≤ value a / 2 := by
        have := mul_le_mul_of_nonneg_right relative_lt_half.le hpos.le
        linarith
      have hgrid := (representable_value a).half (by rwa [abs_of_pos hpos])
      have hbound := hrounded.le_of_le hgrid hhalf
      rw [abs_of_nonneg (by linarith)] at hshare
      linarith
  · exact habsolute

/-- The share depends on the larger magnitude only. -/
theorem value_share_congr (ha : a.isFinite = true) (ha' : a'.isFinite = true)
    (hb : b.isFinite = true) (h : max |value a| |value b| = max |value a'| |value b|) :
    value (share a b) = value (share a' b) := by
  obtain ⟨hfinite, hvalue⟩ := greatest_magnitude ha hb
  obtain ⟨hfinite', hvalue'⟩ := greatest_magnitude ha' hb
  rcases eq_or_ne (max |value a| |value b|) 0 with hzero | hne
  · have hrounded := (rounds_share ha hb).nearest
    have hrounded' := (rounds_share ha' hb).nearest
    rw [hzero, mul_zero] at hrounded
    rw [← h, hzero, mul_zero] at hrounded'
    rw [hrounded.eq_of_representable representable_zero,
      hrounded'.eq_of_representable representable_zero]
  · unfold share
    rw [eq_of_value_eq (isNumber_of_isFinite hfinite) (isNumber_of_isFinite hfinite')
      (by rw [hvalue, hvalue', h]) (by rw [hvalue]; exact hne)]

/-- **No double in between is skipped**: what lies between a double that is not positive and a
close one above it is close to it as well. -/
theorem isClose_of_lt (ha : a.isFinite = true) (ha' : a'.isFinite = true)
    (hb : b.isFinite = true) (hneg : value b ≤ 0) (hbelow : value b ≤ value a')
    (hlt : value a' < value a) (hclose : SolverConfig.default.isClose a b = true) :
    SolverConfig.default.isClose a' b = true := by
  have hdistance : |value (a' - b)| ≤ |value (a - b)| := by
    have hnonneg := (rounds_sub ha' hb).nearest.nonneg (by linarith)
    have hle := (rounds_sub ha' hb).nearest.le_of_lt (rounds_sub ha hb).nearest (by linarith)
    rw [abs_of_nonneg hnonneg, abs_of_nonneg (hnonneg.trans hle)]
    exact hle
  rw [isClose_iff ha' hb]
  rcases le_or_gt |value a| |value b| with hsmaller | hlarger
  · -- Both are within the magnitude of the lower one, so the share is the same.
    have hsmaller' : |value a'| ≤ |value b| := by
      rw [abs_of_nonpos hneg] at hsmaller ⊢
      obtain ⟨-, hupper⟩ := abs_le.mp hsmaller
      exact abs_le.mpr ⟨by linarith, by linarith⟩
    have hshare := value_share_congr ha ha' hb
      ((max_eq_right hsmaller).trans (max_eq_right hsmaller').symm)
    rw [isClose_iff ha hb, hshare] at hclose
    exact hclose.imp hdistance.trans hdistance.trans
  · have hpos : |value b| < value a := by
      rcases abs_cases (value a) with ⟨heq, -⟩ | ⟨heq, -⟩
      · rwa [heq] at hlarger
      · rw [heq, abs_of_nonpos hneg] at hlarger
        linarith
    exact Or.inr (hdistance.trans (le_absolute_of_isClose ha hb hneg hpos hclose))

/-! ## Infinities -/

/-- With an infinity on one side and something finite on the other, everything is close. -/
theorem isClose_of_infinite (ha : IsNumber a) (hinf : a.isFinite = false)
    (hb : b.isFinite = true) : SolverConfig.default.isClose a b = true := by
  have hlimit := abs_value_eq_limit ha hinf
  obtain ⟨hna, hva⟩ := magnitude_of_isNumber ha
  obtain ⟨hnb, hvb⟩ := magnitude_of_isNumber (isNumber_of_isFinite hb)
  obtain ⟨hng, hvg⟩ := greatest_of_isNumber hna hnb
  rw [hva, hvb, hlimit, max_eq_left (representable_value b).abs_le_limit] at hvg
  have hginf : (Scalar.greatest (Scalar.magnitude a) (Scalar.magnitude b)).isFinite = false := by
    rw [← Bool.not_eq_true, isFinite_iff hng, hvg, abs_of_pos limit_pos]
    exact lt_irrefl _
  have hshare : share a b = Scalar.greatest (Scalar.magnitude a) (Scalar.magnitude b) :=
    mul_of_infinite relativeTolerance_default.1
      (by rw [relativeTolerance_default.2]; exact relative_pos) hng hginf
  rw [isClose_eq, sub_of_infinite ha hinf hb, hshare]
  obtain ⟨hnumber, hmax⟩ := greatest_of_isNumber hng
    (isNumber_of_isFinite absoluteTolerance_default.1)
  rw [le_iff hna hnumber, hva, hlimit, hmax, hvg]
  exact le_max_left _ _

/-- Two infinities on one side are not close. -/
theorem isClose_self_of_infinite (ha : IsNumber a) (hinf : a.isFinite = false) :
    SolverConfig.default.isClose a a = false := by
  rw [← Bool.not_eq_true, isClose_eq]
  exact not_le_of_not_isNumber (not_isNumber_magnitude (not_isNumber_sub_self ha hinf))

end Double

end SetQubo
