import Mathlib
import SetQubo.Proofs.Double.Grid
import SetQubo.Proofs.Double.Packing
import SetQubo.Scalar
/-!
# The values of doubles

A double that is a number has a value on the grid; an infinity counts as the limit on its side. So
comparisons of numbers are comparisons of values, and a number is finite exactly when its value is
within the limit. A double is taken apart into sign, mantissa and exponent here and where results
are rounded; elsewhere only its value is spoken of.
-/

namespace SetQubo

namespace Double

open Float.Model Float.Model.UnpackedFloat

/-! ## Values -/

/-- A sign as a factor. -/
def factor : Sign → Rat
  | .negative => -1
  | .positive => 1

theorem cast_apply (s : Sign) (m : ℤ) : ((s.apply m : ℤ) : Rat) = factor s * m := by
  cases s <;> simp [Sign.apply, factor]

theorem factor_neg (s : Sign) : factor (-s) = -factor s := by
  cases s
  · exact (neg_neg (1 : Rat)).symm
  · rfl

theorem factor_mul (s t : Sign) : factor (s * t) = factor s * factor t := by
  cases s <;> cases t
  · show (1 : Rat) = -1 * -1; norm_num
  · show (-1 : Rat) = -1 * 1; norm_num
  · show (-1 : Rat) = 1 * -1; norm_num
  · show (1 : Rat) = 1 * 1; norm_num

theorem abs_factor (s : Sign) : |factor s| = 1 := by
  cases s <;> simp [factor]

/-- The value of an unpacked double. A NaN has none, and zero stands in. -/
def unpackedValue : UnpackedFloat → Rat
  | .notANumber => 0
  | .infinity s => factor s * limit
  | .zero _ => 0
  | .finite s m e _ => factor s * (m * 2 ^ e)

/-- The value of a double. -/
def value (a : Float) : Rat := unpackedValue a.toModel.unpack

/-! ## Numbers and their order -/

/-- The double is a number or an infinity. -/
def IsNumber (a : Float) : Prop := a.toModel.unpack ≠ .notANumber

theorem isNumber_iff (a : Float) : IsNumber a ↔ a.isNaN = false := by
  show a.toModel.unpack ≠ .notANumber ↔ a.toModel.unpack.isNaN = false
  cases a.toModel.unpack <;> simp [UnpackedFloat.isNaN]

theorem magnitude_pos {m : ℕ} (h : 0 < m) (e : ℤ) : (0 : Rat) < m * 2 ^ e :=
  mul_pos (by exact_mod_cast h) (two_zpow_pos e)

/-- A larger exponent means a larger magnitude. -/
theorem Canonical.magnitude_lt {m m' : ℕ} {e e' : ℤ} (h : Canonical m e) (h' : Canonical m' e')
    (he : e < e') : (m * 2 ^ e : Rat) < m' * 2 ^ e' := by
  have hm : (m : Rat) < 2 ^ 53 := by exact_mod_cast h.lt
  have hm' : (2 ^ 52 : Rat) ≤ m' := by
    have hlow := h.low
    exact_mod_cast h'.normal_or.resolve_right (by omega)
  calc (m * 2 ^ e : Rat) < 2 ^ 53 * 2 ^ e := mul_lt_mul_of_pos_right hm (two_zpow_pos e)
    _ = 2 ^ 52 * 2 ^ (e + 1) := by rw [two_zpow_add]; ring
    _ ≤ m' * 2 ^ e' :=
      mul_le_mul hm' (two_zpow_le (by omega)) (two_zpow_pos _).le (Nat.cast_nonneg _)

/-- Every magnitude is within the limit. -/
theorem Canonical.magnitude_lt_limit {m : ℕ} {e : ℤ} (h : Canonical m e) :
    (m * 2 ^ e : Rat) < limit := by
  have hm : (m : Rat) < 2 ^ 53 := by exact_mod_cast h.lt
  rw [limit_eq]
  exact mul_lt_mul hm (two_zpow_le h.high) (two_zpow_pos e) (by norm_num)

theorem Canonical.representable {m : ℕ} {e : ℤ} (h : Canonical m e) (s : Sign) :
    Representable (factor s * (m * 2 ^ e)) := by
  have hgrid : Representable (m * 2 ^ e) := by
    refine ⟨m, e, ?_, h.low, h.high, by simp⟩
    rw [Nat.abs_cast]
    exact_mod_cast h.lt.le
  cases s
  · simpa [factor] using hgrid.neg
  · simpa [factor] using hgrid

/-- Exponents first, then mantissas: that is the order of magnitudes. -/
theorem Canonical.compare_then {m m' : ℕ} {e e' : ℤ} (h : Canonical m e) (h' : Canonical m' e') :
    (compare e e').then (compare m m') = compare (m * 2 ^ e : Rat) (m' * 2 ^ e') := by
  rcases lt_trichotomy e e' with he | rfl | he
  · rw [compare_lt_iff_lt.mpr he, compare_lt_iff_lt.mpr (h.magnitude_lt h' he)]
    rfl
  · have hsame : compare (m * 2 ^ e : Rat) (m' * 2 ^ e) = compare m m' := by
      rcases lt_trichotomy m m' with hm | rfl | hm
      · have hcast : (m : Rat) < m' := by exact_mod_cast hm
        rw [compare_lt_iff_lt.mpr hm,
          compare_lt_iff_lt.mpr (mul_lt_mul_of_pos_right hcast (two_zpow_pos e))]
      · rw [compare_eq_iff_eq.mpr rfl, compare_eq_iff_eq.mpr rfl]
      · have hcast : (m' : Rat) < m := by exact_mod_cast hm
        rw [compare_gt_iff_gt.mpr hm,
          compare_gt_iff_gt.mpr (mul_lt_mul_of_pos_right hcast (two_zpow_pos e))]
    rw [compare_eq_iff_eq.mpr rfl, hsame]
    rfl
  · rw [compare_gt_iff_gt.mpr he, compare_gt_iff_gt.mpr (h'.magnitude_lt h he)]
    rfl

theorem swap_compare (a b : Rat) : (compare a b).swap = compare (-a) (-b) := by
  rcases lt_trichotomy a b with h | rfl | h
  · rw [compare_lt_iff_lt.mpr h, compare_gt_iff_gt.mpr (neg_lt_neg h)]
    rfl
  · rw [compare_eq_iff_eq.mpr rfl, compare_eq_iff_eq.mpr rfl]
    rfl
  · rw [compare_gt_iff_gt.mpr h, compare_lt_iff_lt.mpr (neg_lt_neg h)]
    rfl

/-- **Numbers compare as their values do.** -/
theorem compare_unpack {a b : Float.Model} (ha : a.unpack ≠ .notANumber)
    (hb : b.unpack ≠ .notANumber) :
    a.unpack.compare b.unpack =
      some (compare (unpackedValue a.unpack) (unpackedValue b.unpack)) := by
  have hlimit := limit_pos
  -- Each side is an infinity, a zero or a finite number, and only the last case is not immediate.
  cases hua : a.unpack with
  | notANumber => exact absurd hua ha
  | infinity s =>
    cases hub : b.unpack with
    | notANumber => exact absurd hub hb
    | infinity t =>
      cases s <;> cases t <;> simp only [unpackedValue, factor, UnpackedFloat.compare]
      · rw [compare_eq_iff_eq.mpr rfl]; rfl
      · rw [compare_lt_iff_lt.mpr (by linarith : -1 * limit < 1 * limit)]; rfl
      · rw [compare_gt_iff_gt.mpr (by linarith : -1 * limit < 1 * limit)]; rfl
      · rw [compare_eq_iff_eq.mpr rfl]; rfl
    | zero t =>
      cases s <;> simp only [unpackedValue, factor, UnpackedFloat.compare]
      · rw [compare_lt_iff_lt.mpr (by linarith : -1 * limit < 0)]
      · rw [compare_gt_iff_gt.mpr (by linarith : 0 < 1 * limit)]
    | finite t m e h =>
      have hm := magnitude_pos h e
      have hl := (canonical_of_unpack hub).magnitude_lt_limit
      cases s <;> cases t <;> simp only [unpackedValue, factor, UnpackedFloat.compare]
      · rw [compare_lt_iff_lt.mpr (by linarith)]
      · rw [compare_lt_iff_lt.mpr (by linarith)]
      · rw [compare_gt_iff_gt.mpr (by linarith)]
      · rw [compare_gt_iff_gt.mpr (by linarith)]
  | zero s =>
    cases hub : b.unpack with
    | notANumber => exact absurd hub hb
    | infinity t =>
      cases t <;> simp only [unpackedValue, factor, UnpackedFloat.compare]
      · rw [compare_gt_iff_gt.mpr (by linarith : -1 * limit < 0)]
      · rw [compare_lt_iff_lt.mpr (by linarith : 0 < 1 * limit)]
    | zero t => simp [unpackedValue, UnpackedFloat.compare]
    | finite t m e h =>
      have hm := magnitude_pos h e
      cases t <;> simp only [unpackedValue, factor, UnpackedFloat.compare]
      · rw [compare_gt_iff_gt.mpr (by linarith)]
      · rw [compare_lt_iff_lt.mpr (by linarith)]
  | finite s m e h =>
    have hm := magnitude_pos h e
    have hc := canonical_of_unpack hua
    have hl := hc.magnitude_lt_limit
    cases hub : b.unpack with
    | notANumber => exact absurd hub hb
    | infinity t =>
      cases s <;> cases t <;> simp only [unpackedValue, factor, UnpackedFloat.compare]
      · rw [compare_gt_iff_gt.mpr (by linarith)]
      · rw [compare_lt_iff_lt.mpr (by linarith)]
      · rw [compare_gt_iff_gt.mpr (by linarith)]
      · rw [compare_lt_iff_lt.mpr (by linarith)]
    | zero t =>
      cases s <;> simp only [unpackedValue, factor, UnpackedFloat.compare]
      · rw [compare_lt_iff_lt.mpr (by linarith)]
      · rw [compare_gt_iff_gt.mpr (by linarith)]
    | finite t m' e' h' =>
      have hm' := magnitude_pos h' e'
      have hc' := canonical_of_unpack hub
      cases s <;> cases t <;> simp only [unpackedValue, factor, UnpackedFloat.compare]
      · rw [hc.compare_then hc', swap_compare, neg_one_mul, neg_one_mul]
      · rw [compare_lt_iff_lt.mpr (by linarith)]
      · rw [compare_gt_iff_gt.mpr (by linarith)]
      · rw [hc.compare_then hc', one_mul, one_mul]

section order
variable {a b : Float}

theorem le_iff_unpack_le : a ≤ b ↔ a.toModel.unpack.le b.toModel.unpack = true := by
  show decide (a.toModel.unpack.le b.toModel.unpack = true) = true ↔ _
  exact decide_eq_true_iff

theorem lt_iff_unpack_lt : a < b ↔ a.toModel.unpack.lt b.toModel.unpack = true := by
  show decide (a.toModel.unpack.lt b.toModel.unpack = true) = true ↔ _
  exact decide_eq_true_iff

theorem le_iff (ha : IsNumber a) (hb : IsNumber b) : a ≤ b ↔ value a ≤ value b := by
  rw [le_iff_unpack_le]
  unfold UnpackedFloat.le
  rw [compare_unpack ha hb]
  show (compare (value a) (value b)).isLE = true ↔ value a ≤ value b
  rw [← not_lt, ← compare_gt_iff_gt]
  cases compare (value a) (value b) <;> simp

theorem lt_iff (ha : IsNumber a) (hb : IsNumber b) : a < b ↔ value a < value b := by
  rw [lt_iff_unpack_lt]
  unfold UnpackedFloat.lt
  rw [compare_unpack ha hb, beq_iff_eq, Option.some_inj]
  exact compare_lt_iff_lt

/-- Nothing is above or below what is no number. -/
theorem not_le_of_not_isNumber (ha : ¬IsNumber a) : ¬a ≤ b := by
  have hnan : a.toModel.unpack = .notANumber := not_not.mp ha
  rw [le_iff_unpack_le, hnan]
  simp [UnpackedFloat.le, UnpackedFloat.compare]

theorem not_lt_of_not_isNumber (ha : ¬IsNumber a) : ¬a < b := by
  have hnan : a.toModel.unpack = .notANumber := not_not.mp ha
  rw [lt_iff_unpack_lt, hnan]
  simp [UnpackedFloat.lt, UnpackedFloat.compare]

theorem isNumber_of_le (h : a ≤ b) : IsNumber a ∧ IsNumber b := by
  refine ⟨not_not.mp fun ha => not_le_of_not_isNumber ha h, not_not.mp fun hb => ?_⟩
  have hnan : b.toModel.unpack = .notANumber := not_not.mp hb
  rw [le_iff_unpack_le, hnan] at h
  cases ha : a.toModel.unpack <;> simp [ha, UnpackedFloat.le, UnpackedFloat.compare] at h

end order

/-! ## Finite doubles -/

theorem representable_value (a : Float) : Representable (value a) := by
  unfold value
  cases ha : a.toModel.unpack with
  | notANumber => exact representable_zero
  | infinity s =>
    cases s
    · simpa [unpackedValue, factor] using representable_limit.neg
    · simpa [unpackedValue, factor] using representable_limit
  | zero s => exact representable_zero
  | finite s m e h => exact (canonical_of_unpack ha).representable s

theorem isNumber_of_isFinite {a : Float} (h : a.isFinite = true) : IsNumber a := by
  intro hnan
  have hfinite : a.toModel.unpack.isFinite = true := h
  rw [hnan] at hfinite
  cases hfinite

/-- **A number is finite when its value is within the limit.** -/
theorem isFinite_iff {a : Float} (ha : IsNumber a) : a.isFinite = true ↔ |value a| < limit := by
  show a.toModel.unpack.isFinite = true ↔ |unpackedValue a.toModel.unpack| < limit
  cases hua : a.toModel.unpack with
  | notANumber => exact absurd hua ha
  | infinity s =>
    simp [UnpackedFloat.isFinite, unpackedValue, abs_mul, abs_factor, abs_of_pos limit_pos]
  | zero s => simp [UnpackedFloat.isFinite, unpackedValue, limit_pos]
  | finite s m e h =>
    have hl := (canonical_of_unpack hua).magnitude_lt_limit
    simp only [UnpackedFloat.isFinite, unpackedValue, abs_mul _ (_ * _), abs_factor, one_mul,
      abs_of_pos (magnitude_pos h e), hl]

/-- A double is finite, an infinity, or no number. -/
theorem abs_value_eq_limit {a : Float} (ha : IsNumber a) (h : a.isFinite = false) :
    |value a| = limit := by
  have hnot : ¬|value a| < limit := by rw [← isFinite_iff ha, h]; simp
  exact le_antisymm (representable_value a).abs_le_limit (not_lt.mp hnot)

section cases
variable {a b : Float}

theorem cases_of_isFinite (h : a.isFinite = true) :
    (∃ s, a.toModel.unpack = .zero s) ∨
      ∃ s m e hm, a.toModel.unpack = .finite s m e hm ∧ Canonical m e := by
  have hfinite : a.toModel.unpack.isFinite = true := h
  cases ha : a.toModel.unpack with
  | notANumber => rw [ha] at hfinite; cases hfinite
  | infinity s => rw [ha] at hfinite; cases hfinite
  | zero s => exact Or.inl ⟨s, rfl⟩
  | finite s m e hm => exact Or.inr ⟨s, m, e, hm, rfl, canonical_of_unpack ha⟩

theorem cases_of_not_isFinite (ha : IsNumber a) (h : a.isFinite = false) :
    ∃ s, a.toModel.unpack = .infinity s := by
  have hinfinite : a.toModel.unpack.isFinite = false := h
  cases hua : a.toModel.unpack with
  | notANumber => exact absurd hua ha
  | infinity s => exact ⟨s, rfl⟩
  | zero s => rw [hua] at hinfinite; cases hinfinite
  | finite s m e hm => rw [hua] at hinfinite; cases hinfinite

end cases

/-! ## Doubles with the same value -/

theorem Canonical.inj {m m' : ℕ} {e e' : ℤ} (h : Canonical m e) (h' : Canonical m' e')
    (heq : (m * 2 ^ e : Rat) = m' * 2 ^ e') : m = m' ∧ e = e' := by
  rcases lt_trichotomy e e' with he | rfl | he
  · exact absurd heq (h.magnitude_lt h' he).ne
  · have hm := mul_right_cancel₀ (two_zpow_pos e).ne' heq
    exact ⟨by exact_mod_cast hm, rfl⟩
  · exact absurd heq (h'.magnitude_lt h he).ne'

/-- **Only zero is two doubles.** -/
theorem eq_of_value_eq {a b : Float} (ha : IsNumber a) (hb : IsNumber b)
    (h : value a = value b) (hzero : value a ≠ 0) : a = b := by
  have hpositive : ∀ {s t : Sign} {x y : Rat}, 0 < x → 0 < y → factor s * x = factor t * y →
      s = t ∧ x = y := by
    intro s t x y hx hy heq
    cases s <;> cases t <;> simp only [factor] at heq
    · exact ⟨rfl, by linarith⟩
    · linarith
    · linarith
    · exact ⟨rfl, by linarith⟩
  have hsame : a.isFinite = b.isFinite := by
    rw [Bool.eq_iff_iff, isFinite_iff ha, isFinite_iff hb, h]
  suffices hunpack : a.toModel.unpack = b.toModel.unpack by
    rw [← ofModel_pack_eq hunpack, ofModel_pack_eq rfl]
  unfold value at h hzero
  cases hfinite : a.isFinite with
  | false =>
    obtain ⟨s, hua⟩ := cases_of_not_isFinite ha hfinite
    obtain ⟨t, hub⟩ := cases_of_not_isFinite hb (hsame ▸ hfinite)
    rw [hua, hub] at h
    rw [hua, hub, (hpositive limit_pos limit_pos h).1]
  | true =>
    rcases cases_of_isFinite hfinite with ⟨s, hua⟩ | ⟨s, m, e, hm, hua, hc⟩
    · rw [hua] at hzero
      exact absurd rfl hzero
    · rcases cases_of_isFinite (hsame ▸ hfinite) with ⟨t, hub⟩ | ⟨t, m', e', hm', hub, hc'⟩
      · rw [h, hub] at hzero
        exact absurd rfl hzero
      · rw [hua, hub] at h
        obtain ⟨rfl, heq⟩ := hpositive (magnitude_pos hm e) (magnitude_pos hm' e') h
        obtain ⟨rfl, rfl⟩ := hc.inj hc' heq
        rw [hua, hub]

/-- The comparison for equality compares the values. -/
theorem beq_iff {a b : Float} (ha : IsNumber a) (hb : IsNumber b) :
    (a == b) = true ↔ value a = value b := by
  show a.toModel.unpack.beq b.toModel.unpack = true ↔ _
  unfold UnpackedFloat.beq
  rw [compare_unpack ha hb, beq_iff_eq, Option.some_inj]
  exact compare_eq_iff_eq

end Double

end SetQubo
