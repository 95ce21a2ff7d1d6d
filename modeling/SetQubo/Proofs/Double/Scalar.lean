import Mathlib
import SetQubo.Proofs.Scalar
import SetQubo.Proofs.Double.Arithmetic
/-!
# Doubles as scalars

What the comparisons of a scalar come to for doubles: the magnitude of a number has the absolute
value, the greater of two numbers has the maximum, and whatever is a number compares with itself.
Small natural numbers are doubles themselves.
-/

namespace SetQubo

namespace Double

open Float.Model Float.Model.UnpackedFloat

/-! ## Small integers -/

theorem unpack_zero : (0 : Float).toModel.unpack = .zero .positive := rfl

theorem value_zero : value (0 : Float) = 0 := by
  unfold value
  rw [unpack_zero]
  rfl

theorem isFinite_zero : (0 : Float).isFinite = true := rfl

theorem value_one : value (1 : Float) = 1 := by
  have hunpack : (1 : Float).toModel.unpack = .finite .positive (2 ^ 52) (-52) (by norm_num) := rfl
  unfold value
  rw [hunpack, unpackedValue, factor]
  norm_num

theorem isFinite_one : (1 : Float).isFinite = true := rfl

theorem ofNat_eq {n : ℕ} (h : n < 2 ^ 53) : Float.ofNat n = n.toUInt64.toFloat * 1 := by
  show Float.ofScientific n false 0 = _
  unfold Float.ofScientific
  rw [dif_pos ⟨h, by norm_num⟩]
  rfl

/-- **Natural numbers of at most fifty-three bits are doubles.** -/
theorem rounds_ofNat {n : ℕ} (h : n < 2 ^ 53) :
    (Float.ofNat n).isFinite = true ∧ value (Float.ofNat n) = n := by
  have hgrid : Representable n := by
    have hint := representable_intCast (m := n) (by rw [Nat.abs_cast]; exact_mod_cast h.le)
    simpa using hint
  have hlimit : (n : Rat) < limit := by
    have hcast : (n : Rat) < 2 ^ 53 := by exact_mod_cast h
    unfold limit
    exact hcast.trans_le (pow_le_pow_right₀ (by norm_num) (by norm_num))
  have hinteger : Rounds n n.toUInt64.toFloat := by
    have hnormal := nearest_normalize n 0 .positive
    rw [zpow_zero, mul_one, Int.cast_natCast] at hnormal
    have hsame : (n.toUInt64.toNat : ℤ) = n := by
      have := Nat.mod_eq_of_lt (h.trans (by norm_num) : n < 2 ^ 64)
      show ((n % 2 ^ 64 : ℕ) : ℤ) = n
      rw [this]
    apply rounds_of_pack
    show (Float.Model.pack (UnpackedFloat.normalize _ (n.toUInt64.toNat : ℤ) 0 .positive)).unpack
      ≠ _ ∧ Nearest _ (unpackedValue (Float.Model.pack
        (UnpackedFloat.normalize _ (n.toUInt64.toNat : ℤ) 0 .positive)).unpack)
    rw [hsame]
    exact hnormal
  have hvalue := hinteger.nearest.eq_of_representable hgrid
  have hfinite : n.toUInt64.toFloat.isFinite = true := by
    rw [isFinite_iff hinteger.isNumber, hvalue, Nat.abs_cast]
    exact hlimit
  have hproduct := rounds_mul hfinite isFinite_one
  rw [hvalue, value_one, mul_one, ← ofNat_eq h] at hproduct
  have hvalue' := hproduct.nearest.eq_of_representable hgrid
  refine ⟨?_, hvalue'⟩
  rw [isFinite_iff hproduct.isNumber, hvalue', Nat.abs_cast]
  exact hlimit

/-! ## Magnitudes and maxima -/

variable {a b : Float}

theorem magnitude_of_isNumber (ha : IsNumber a) :
    IsNumber (Scalar.magnitude a) ∧ value (Scalar.magnitude a) = |value a| := by
  have hlt : a < 0 ↔ value a < 0 := by
    rw [lt_iff ha (isNumber_of_isFinite isFinite_zero), value_zero]
  show IsNumber (if a < 0 then -a else a) ∧ value (if a < 0 then -a else a) = _
  by_cases hneg : value a < 0
  · rw [if_pos (hlt.mpr hneg), value_neg, abs_of_neg hneg]
    exact ⟨isNumber_neg_iff.mpr ha, rfl⟩
  · rw [if_neg (mt hlt.mp hneg), abs_of_nonneg (not_lt.mp hneg)]
    exact ⟨ha, rfl⟩

/-- The magnitude of what is no number is none either. -/
theorem not_isNumber_magnitude (ha : ¬IsNumber a) : ¬IsNumber (Scalar.magnitude a) := by
  show ¬IsNumber (if a < 0 then -a else a)
  rw [if_neg (not_lt_of_not_isNumber ha)]
  exact ha

theorem greatest_of_isNumber (ha : IsNumber a) (hb : IsNumber b) :
    IsNumber (Scalar.greatest a b) ∧ value (Scalar.greatest a b) = max (value a) (value b) := by
  unfold Scalar.greatest
  by_cases hle : b ≤ a
  · rw [if_pos hle, max_eq_left ((le_iff hb ha).mp hle)]
    exact ⟨ha, rfl⟩
  · have hless : value a < value b := not_le.mp (mt (le_iff hb ha).mpr hle)
    rw [if_neg hle, if_pos ((le_iff hb hb).mpr le_rfl), max_eq_right hless.le]
    exact ⟨hb, rfl⟩

/-- What is no number compares with nothing, and numbers compare by their values. -/
instance : Scalar.Ordered Float where
  le_self_of_le {a b} hab := by
    obtain ⟨ha, hb⟩ := isNumber_of_le hab
    exact ⟨(le_iff ha ha).mpr le_rfl, (le_iff hb hb).mpr le_rfl⟩
  le_trans {a b c} hab hbc := by
    obtain ⟨ha, hb⟩ := isNumber_of_le hab
    obtain ⟨-, hc⟩ := isNumber_of_le hbc
    exact (le_iff ha hc).mpr (((le_iff ha hb).mp hab).trans ((le_iff hb hc).mp hbc))
  le_total {a b} haa hbb := by
    obtain ⟨ha, -⟩ := isNumber_of_le haa
    obtain ⟨hb, -⟩ := isNumber_of_le hbb
    rw [le_iff ha hb, le_iff hb ha]
    exact le_total _ _

end Double

end SetQubo
