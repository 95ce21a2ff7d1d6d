import Mathlib
import SetQubo.Proofs.Double.Rounding
/-!
# Arithmetic on doubles

Each operation on finite doubles gives a number whose value is a grid point nearest to the exact
result: sums, differences, products and quotients. With an infinity among the operands the result
is that infinity, except where two of them cancel.
-/

namespace SetQubo

namespace Double

open Float.Model Float.Model.UnpackedFloat

/-! ## Normalization -/

theorem log2_shiftLeft {m : ℕ} (h : 0 < m) (k : ℕ) : (m <<< k).log2 = m.log2 + k := by
  have hlow := Nat.log2_self_le h.ne'
  have hhigh := Nat.lt_log2_self (n := m)
  rw [Nat.shiftLeft_eq, Nat.log2_eq_iff (by positivity)]
  constructor
  · rw [Nat.pow_add]
    exact Nat.mul_le_mul_right _ hlow
  · rw [show m.log2 + k + 1 = m.log2 + 1 + k by ring, Nat.pow_add]
    exact Nat.mul_lt_mul_of_pos_right hhigh (by positivity)

/-- Lowering the exponent keeps the value. -/
theorem shiftLeft_mul_zpow (m k : ℕ) (e : ℤ) :
    ((m <<< k : ℕ) : Rat) * 2 ^ (e - k) = m * 2 ^ e := by
  have hsplit : (2 : Rat) ^ e = 2 ^ k * 2 ^ (e - k) := by
    rw [← zpow_natCast, ← two_zpow_add, add_sub_cancel]
  rw [Nat.shiftLeft_eq, hsplit]
  push_cast
  ring

/-- Rounding a positive mantissa, at whatever exponent it stands. -/
theorem nearest_round (s : Sign) {m : ℕ} (hm : 0 < m) (e : ℤ) :
    (Float.Model.pack (round Format.binary64 s m e)).unpack ≠ .notANumber ∧
      Nearest (factor s * (m * 2 ^ e))
        (unpackedValue (Float.Model.pack (round Format.binary64 s m e)).unpack) := by
  let k := (e - exponentOf m e).toNat
  have hexponent : exponentOf (m <<< k) (e - k) = exponentOf m e := by
    unfold exponentOf
    rw [log2_shiftLeft hm]
    push_cast
    ring_nf
  have hrounded := nearest_roundWithAccuracy s (represents_exact (m <<< k)) (e := e - k)
    (by rw [hexponent]; omega)
  rw [shiftLeft_mul_zpow] at hrounded
  exact hrounded

/-- Rounding an integer mantissa of either sign. -/
theorem nearest_normalize (m e : ℤ) (zero : Sign) :
    (Float.Model.pack (UnpackedFloat.normalize Format.binary64 m e zero)).unpack ≠ .notANumber ∧
      Nearest (m * 2 ^ e)
        (unpackedValue (Float.Model.pack (UnpackedFloat.normalize Format.binary64 m e zero)).unpack) := by
  unfold UnpackedFloat.normalize
  rcases lt_trichotomy m 0 with hm | rfl | hm
  · rw [compare_lt_iff_lt.mpr hm]
    have hrounded := nearest_round .negative (m := (-m).toNat) (by omega) e
    have hcast : (((-m).toNat : ℕ) : Rat) = -m := by
      have hint : (((-m).toNat : ℕ) : ℤ) = -m := by omega
      exact_mod_cast hint
    rw [hcast, factor] at hrounded
    simpa using hrounded
  · rw [compare_eq_iff_eq.mpr rfl]
    simp only [unpack_pack_zero, unpackedValue, Int.cast_zero, zero_mul]
    exact ⟨by simp, .of_representable representable_zero⟩
  · rw [compare_gt_iff_gt.mpr hm]
    have hrounded := nearest_round .positive (m := m.toNat) (by omega) e
    have hcast : ((m.toNat : ℕ) : Rat) = m := by
      have hint : ((m.toNat : ℕ) : ℤ) = m := by omega
      exact_mod_cast hint
    rw [hcast, factor, one_mul] at hrounded
    exact hrounded

/-! ## Rounded results -/

/-- The double is a number whose value is nearest to an exact result. -/
structure Rounds (x : Rat) (a : Float) : Prop where
  /-- The double is a number. -/
  isNumber : IsNumber a
  /-- Its value is nearest. -/
  nearest : Nearest x (value a)

theorem rounds_of_pack {x : Rat} {u : UnpackedFloat}
    (h : (Float.Model.pack u).unpack ≠ .notANumber ∧
      Nearest x (unpackedValue (Float.Model.pack u).unpack)) :
    Rounds x (.ofModel (.pack u)) :=
  ⟨h.1, h.2⟩

theorem rounds_zero (s : Sign) : Rounds 0 (.ofModel (.pack (.zero s))) := by
  apply rounds_of_pack
  rw [unpack_pack_zero]
  exact ⟨by simp, .of_representable representable_zero⟩

theorem rounds_value {a : Float} (ha : IsNumber a) : Rounds (value a) a :=
  ⟨ha, .of_representable (representable_value a)⟩

/-! ## Sums and differences -/

section sums
variable {a b : Float}

/-- Aligning a mantissa to a smaller exponent keeps the value. -/
theorem decreaseExponent_mul_zpow (s : Sign) (m : ℕ) {e f : ℤ} (h : f ≤ e) :
    ((s.apply ((decreaseExponent m e f).1 : ℕ) : ℤ) : Rat) * 2 ^ f = factor s * (m * 2 ^ e) := by
  have haligned := shiftLeft_mul_zpow m (e - f).toNat e
  rw [show e - ((e - f).toNat : ℤ) = f by omega] at haligned
  rw [cast_apply, mul_assoc]
  exact congrArg (factor s * ·) haligned

/-- **A sum of finite doubles is rounded.** -/
theorem rounds_add (ha : a.isFinite = true) (hb : b.isFinite = true) :
    Rounds (value a + value b) (a + b) := by
  have hsum : a + b = .ofModel (.pack (.add Format.binary64 a.toModel.unpack b.toModel.unpack)) :=
    rfl
  rcases cases_of_isFinite ha with ⟨s, hua⟩ | ⟨s, m, e, hm, hua, -⟩
  · have hvalue : value a = 0 := by unfold value; rw [hua]; rfl
    rw [hvalue, zero_add]
    rcases cases_of_isFinite hb with ⟨t, hub⟩ | ⟨t, m', e', hm', hub, -⟩
    · have hvalue' : value b = 0 := by unfold value; rw [hub]; rfl
      rw [hsum, hua, hub, hvalue']
      obtain ⟨r, hr⟩ : ∃ r, UnpackedFloat.add Format.binary64 (.zero s) (.zero t) = .zero r := by
        cases s <;> cases t <;> exact ⟨_, rfl⟩
      rw [hr]
      exact rounds_zero r
    · have hsame : a + b = b := by
        rw [hsum, hua, hub]
        exact ofModel_pack_eq hub
      rw [hsame]
      exact rounds_value (isNumber_of_isFinite hb)
  · rcases cases_of_isFinite hb with ⟨t, hub⟩ | ⟨t, m', e', hm', hub, -⟩
    · have hvalue' : value b = 0 := by unfold value; rw [hub]; rfl
      have hsame : a + b = a := by
        rw [hsum, hua, hub]
        exact ofModel_pack_eq hua
      rw [hsame, hvalue', add_zero]
      exact rounds_value (isNumber_of_isFinite ha)
    · rw [hsum, hua, hub]
      apply rounds_of_pack
      have hnormal := nearest_normalize (s.apply ((decreaseExponent m e (min e e')).1 : ℕ) +
        t.apply ((decreaseExponent m' e' (min e e')).1 : ℕ)) (min e e') .positive
      rw [Int.cast_add, add_mul, decreaseExponent_mul_zpow s m (min_le_left _ _),
        decreaseExponent_mul_zpow t m' (min_le_right _ _)] at hnormal
      have hvalue : value a = factor s * (m * 2 ^ e) := by unfold value; rw [hua]; rfl
      have hvalue' : value b = factor t * (m' * 2 ^ e') := by unfold value; rw [hub]; rfl
      rw [hvalue, hvalue']
      exact hnormal

/-- Adding something finite to an infinity changes nothing. -/
theorem add_of_infinite (ha : IsNumber a) (hinf : a.isFinite = false) (hb : b.isFinite = true) :
    a + b = a := by
  have hsum : a + b = .ofModel (.pack (.add Format.binary64 a.toModel.unpack b.toModel.unpack)) :=
    rfl
  obtain ⟨s, hua⟩ := cases_of_not_isFinite ha hinf
  rw [hsum, hua]
  rcases cases_of_isFinite hb with ⟨t, hub⟩ | ⟨t, m', e', hm', hub, -⟩
  · rw [hub]
    exact ofModel_pack_eq hua
  · rw [hub]
    exact ofModel_pack_eq hua

theorem unpack_neg (a : Float) : (-a).toModel.unpack = a.toModel.unpack.neg := by
  show (Float.Model.pack a.toModel.unpack.neg).unpack = _
  cases ha : a.toModel.unpack with
  | notANumber => rfl
  | infinity s => exact unpack_pack_infinity _
  | zero s => exact unpack_pack_zero _
  | finite s m e hm => exact unpack_pack_of_canonical (canonical_of_unpack ha)

theorem value_neg (a : Float) : value (-a) = -value a := by
  unfold value
  rw [unpack_neg]
  cases a.toModel.unpack <;>
    simp [UnpackedFloat.neg, unpackedValue, factor_neg]

theorem isNumber_neg_iff : IsNumber (-a) ↔ IsNumber a := by
  unfold IsNumber
  rw [unpack_neg]
  cases a.toModel.unpack <;> simp [UnpackedFloat.neg]

theorem isFinite_neg (a : Float) : (-a).isFinite = a.isFinite := by
  show (-a).toModel.unpack.isFinite = a.toModel.unpack.isFinite
  rw [unpack_neg]
  cases a.toModel.unpack <;> rfl

theorem apply_neg (s : Sign) (n : ℤ) : (-s).apply n = -s.apply n := by
  cases s
  · exact (neg_neg n).symm
  · rfl

/-- A difference is the sum with the opposite. -/
theorem sub_eq_add_opposite (a b : Float) : a - b = a + -b := by
  show Float.ofModel (.pack (.sub Format.binary64 a.toModel.unpack b.toModel.unpack)) =
    .ofModel (.pack (.add Format.binary64 a.toModel.unpack (-b).toModel.unpack))
  rw [unpack_neg]
  congr 2
  cases a.toModel.unpack with
  | notANumber => rfl
  | infinity s => cases b.toModel.unpack <;> rfl
  | zero s => cases b.toModel.unpack <;> rfl
  | finite s m e hm =>
    cases b.toModel.unpack with
    | finite t m' e' hm' =>
      simp only [UnpackedFloat.sub, UnpackedFloat.add, UnpackedFloat.neg, apply_neg]
      rfl
    | _ => rfl

/-- **A difference of finite doubles is rounded.** -/
theorem rounds_sub (ha : a.isFinite = true) (hb : b.isFinite = true) :
    Rounds (value a - value b) (a - b) := by
  have hsum := rounds_add ha ((isFinite_neg b).trans hb)
  rw [value_neg, ← sub_eq_add_neg, ← sub_eq_add_opposite] at hsum
  exact hsum

/-- Taking something finite off an infinity changes nothing. -/
theorem sub_of_infinite (ha : IsNumber a) (hinf : a.isFinite = false) (hb : b.isFinite = true) :
    a - b = a := by
  rw [sub_eq_add_opposite]
  exact add_of_infinite ha hinf ((isFinite_neg b).trans hb)

/-- An infinity less itself is no number. -/
theorem not_isNumber_sub_self (ha : IsNumber a) (hinf : a.isFinite = false) :
    ¬IsNumber (a - a) := by
  obtain ⟨s, hua⟩ := cases_of_not_isFinite ha hinf
  have hdifference : a - a =
      .ofModel (.pack (.sub Format.binary64 a.toModel.unpack a.toModel.unpack)) := rfl
  unfold IsNumber
  rw [hdifference, hua, not_not]
  cases s <;> rfl

end sums

/-! ## Products and quotients -/

section products
variable {a b : Float}

/-- The product of stored mantissas has enough bits. -/
theorem Canonical.le_exponentOf_mul {m m' : ℕ} {e e' : ℤ} (h : Canonical m e)
    (h' : Canonical m' e') (hm : 0 < m) (hm' : 0 < m') :
    e + e' ≤ exponentOf (m * m') (e + e') := by
  have hbits : 2 ^ 52 ≤ m * m' ∨ e + e' ≤ -1074 := by
    rcases h.normal_or with hn | he
    · exact Or.inl (hn.trans (Nat.le_mul_of_pos_right m hm'))
    · rcases h'.normal_or with hn' | he'
      · exact Or.inl (hn'.trans (Nat.le_mul_of_pos_left m' hm))
      · exact Or.inr (by omega)
  unfold exponentOf
  rcases hbits with hbits | hsmall
  · have hlog : 52 ≤ (m * m').log2 := (Nat.le_log2 (by positivity)).mpr hbits
    omega
  · omega

/-- **A product of finite doubles is rounded.** -/
theorem rounds_mul (ha : a.isFinite = true) (hb : b.isFinite = true) :
    Rounds (value a * value b) (a * b) := by
  have hproduct : a * b =
      .ofModel (.pack (.mul Format.binary64 a.toModel.unpack b.toModel.unpack)) := rfl
  have hcases := cases_of_isFinite ha
  have hcases' := cases_of_isFinite hb
  unfold value
  rcases hcases with ⟨s, hua⟩ | ⟨s, m, e, hm, hua, hc⟩
  · rw [hproduct, hua, unpackedValue, zero_mul]
    rcases hcases' with ⟨t, hub⟩ | ⟨t, m', e', hm', hub, -⟩
    · rw [hub]; exact rounds_zero _
    · rw [hub]; exact rounds_zero _
  · rcases hcases' with ⟨t, hub⟩ | ⟨t, m', e', hm', hub, hc'⟩
    · rw [hproduct, hua, hub, unpackedValue, unpackedValue, mul_zero]
      exact rounds_zero _
    · rw [hproduct, hua, hub]
      apply rounds_of_pack
      have hrounded := nearest_roundWithAccuracy (s * t) (represents_exact (m * m'))
        (hc.le_exponentOf_mul hc' hm hm')
      have hvalue : unpackedValue (.finite s m e hm) * unpackedValue (.finite t m' e' hm') =
          factor (s * t) * (((m * m' : ℕ) : Rat) * 2 ^ (e + e')) := by
        rw [factor_mul, two_zpow_add, unpackedValue, unpackedValue]
        push_cast
        ring
      rw [hvalue]
      exact hrounded

/-- A positive double times an infinity is that infinity. -/
theorem mul_of_infinite (ha : a.isFinite = true) (hpos : 0 < value a) (hb : IsNumber b)
    (hinf : b.isFinite = false) : a * b = b := by
  have hproduct : a * b =
      .ofModel (.pack (.mul Format.binary64 a.toModel.unpack b.toModel.unpack)) := rfl
  obtain ⟨t, hub⟩ := cases_of_not_isFinite hb hinf
  unfold value at hpos
  rcases cases_of_isFinite ha with ⟨s, hua⟩ | ⟨s, m, e, hm, hua, -⟩
  · rw [hua, unpackedValue] at hpos
    exact absurd hpos (lt_irrefl 0)
  · rw [hua, unpackedValue] at hpos
    cases s with
    | negative =>
      have hm' := magnitude_pos hm e
      rw [factor] at hpos
      linarith
    | positive =>
      rw [hproduct, hua, hub, ← ofModel_pack_eq hub]
      cases t <;> rfl

/-- The remainder says how the exact quotient compares to the whole one. -/
theorem represents_div (m : ℕ) {n : ℕ} (hn : 0 < n) :
    Represents (ExtendedMantissa.ofMantissaAndAccuracy (m / n) (accuracyOfFraction (m % n) n))
      (m / n) := by
  have hn' : (0 : Rat) < n := by exact_mod_cast hn
  have hdivision : (m : Rat) = n * (m / n : ℕ) + (m % n : ℕ) := by
    exact_mod_cast (Nat.div_add_mod m n).symm
  have hquotient : (m : Rat) / n = (m / n : ℕ) + (m % n : ℕ) / n := by
    field_simp
    linarith
  have hless : ((m % n : ℕ) : Rat) / n < 1 := by
    rw [div_lt_one hn']
    exact_mod_cast Nat.mod_lt m hn
  unfold accuracyOfFraction
  by_cases hzero : m % n = 0
  · rw [if_pos hzero, hquotient, hzero]
    simp [ExtendedMantissa.ofMantissaAndAccuracy, Represents]
  · have hpos : 0 < ((m % n : ℕ) : Rat) / n := by
      apply div_pos _ hn'
      exact_mod_cast Nat.pos_of_ne_zero hzero
    rw [if_neg hzero, hquotient]
    rcases lt_trichotomy (2 * (m % n)) n with hcompare | hcompare | hcompare
    · have hhalf : ((m % n : ℕ) : Rat) / n < 1 / 2 := by
        rw [div_lt_div_iff₀ hn' (by norm_num), one_mul, mul_comm]
        exact_mod_cast hcompare
      rw [compare_lt_iff_lt.mpr hcompare]
      exact ⟨by linarith, by linarith⟩
    · have hhalf : ((m % n : ℕ) : Rat) / n = 1 / 2 := by
        rw [div_eq_div_iff hn'.ne' (by norm_num), one_mul, mul_comm]
        exact_mod_cast hcompare
      rw [compare_eq_iff_eq.mpr hcompare, hhalf]
      rfl
    · have hhalf : 1 / 2 < ((m % n : ℕ) : Rat) / n := by
        rw [div_lt_div_iff₀ (by norm_num) hn', one_mul, mul_comm]
        exact_mod_cast hcompare
      rw [compare_gt_iff_gt.mpr hcompare]
      exact ⟨by linarith, by linarith⟩

/-- The exponent at which a quotient is computed. -/
def quotientExponent (m : ℕ) (e : ℤ) (m' : ℕ) (e' : ℤ) : ℤ :=
  min (e - e') (max (m.log2 + e - (m'.log2 + e') - 53) (-1074))

theorem divCore_eq (m : ℕ) (e : ℤ) (m' : ℕ) (e' : ℤ) :
    divCore Format.binary64 m e m' e' =
      ((m <<< (e - e' - quotientExponent m e m' e').toNat) / m', quotientExponent m e m' e',
        accuracyOfFraction ((m <<< (e - e' - quotientExponent m e m' e').toNat) % m') m') := by
  have hexponent : min (e - e') (Format.binary64.targetExponent
      (totalExponent m e - totalExponent m' e')) = quotientExponent m e m' e' := by
    show min (e - e') (max (((m.log2 : ℤ) + 1 + e) - ((m'.log2 : ℤ) + 1 + e') - 53) (-1074)) = _
    unfold quotientExponent
    congr 2
    ring
  unfold divCore
  simp only [hexponent]

/-- The whole quotient has enough bits. -/
theorem quotientExponent_le {m m' : ℕ} (hm : 0 < m) (hm' : 0 < m') (e e' : ℤ) :
    quotientExponent m e m' e' ≤
      exponentOf ((m <<< (e - e' - quotientExponent m e m' e').toNat) / m')
        (quotientExponent m e m' e') := by
  generalize hs : (e - e' - quotientExponent m e m' e').toNat = s
  rcases le_or_gt (quotientExponent m e m' e') (-1074) with hsmall | hlarge
  · exact hsmall.trans (le_max_right _ _)
  · have hshift : m'.log2 + 1 + 52 ≤ m.log2 + s := by
      unfold quotientExponent at hs hlarge
      omega
    have hbits : 2 ^ 52 ≤ (m <<< s) / m' := by
      rw [Nat.le_div_iff_mul_le hm', Nat.shiftLeft_eq]
      calc 2 ^ 52 * m' ≤ 2 ^ 52 * 2 ^ (m'.log2 + 1) :=
            Nat.mul_le_mul_left _ Nat.lt_log2_self.le
        _ = 2 ^ (m'.log2 + 1 + 52) := by rw [← Nat.pow_add, Nat.add_comm]
        _ ≤ 2 ^ (m.log2 + s) := Nat.pow_le_pow_right (by norm_num) hshift
        _ = 2 ^ m.log2 * 2 ^ s := Nat.pow_add _ _ _
        _ ≤ m * 2 ^ s := Nat.mul_le_mul_right _ (Nat.log2_self_le hm.ne')
    have hlog : 52 ≤ ((m <<< s) / m').log2 := (Nat.le_log2 (by omega)).mpr hbits
    unfold exponentOf
    omega

theorem factor_div (s t : Sign) : factor (s / t) = factor s / factor t := by
  cases s <;> cases t
  · show (1 : Rat) = -1 / -1; norm_num
  · show (-1 : Rat) = -1 / 1; norm_num
  · show (-1 : Rat) = 1 / -1; norm_num
  · show (1 : Rat) = 1 / 1; norm_num

/-- **A quotient of finite doubles is rounded**, unless the divisor is zero. -/
theorem rounds_div (ha : a.isFinite = true) (hb : b.isFinite = true) (hzero : value b ≠ 0) :
    Rounds (value a / value b) (a / b) := by
  have hquotient : a / b =
      .ofModel (.pack (.div Format.binary64 a.toModel.unpack b.toModel.unpack)) := rfl
  have hcases := cases_of_isFinite ha
  have hcases' := cases_of_isFinite hb
  unfold value at hzero ⊢
  rcases hcases' with ⟨t, hub⟩ | ⟨t, m', e', hm', hub, -⟩
  · rw [hub] at hzero
    exact absurd rfl hzero
  · rcases hcases with ⟨s, hua⟩ | ⟨s, m, e, hm, hua, -⟩
    · rw [hquotient, hua, hub, unpackedValue, zero_div]
      exact rounds_zero _
    · rw [hquotient, hua, hub]
      apply rounds_of_pack
      have hrounded := nearest_roundWithAccuracy (s / t)
        (represents_div (m <<< (e - e' - quotientExponent m e m' e').toNat) hm')
        (quotientExponent_le hm hm' e e')
      have hvalue : unpackedValue (.finite s m e hm) / unpackedValue (.finite t m' e' hm') =
          factor (s / t) *
            (((m <<< (e - e' - quotientExponent m e m' e').toNat : ℕ) : Rat) / m' *
              2 ^ quotientExponent m e m' e') := by
        have hexponent : quotientExponent m e m' e' =
            e - e' - ((e - e' - quotientExponent m e m' e').toNat : ℤ) := by
          have hle : quotientExponent m e m' e' ≤ e - e' := min_le_left _ _
          omega
        have hshifted := shiftLeft_mul_zpow m (e - e' - quotientExponent m e m' e').toNat (e - e')
        rw [← hexponent] at hshifted
        rw [div_mul_eq_mul_div, hshifted, factor_div, unpackedValue, unpackedValue,
          zpow_sub₀ (by norm_num : (2 : Rat) ≠ 0)]
        have hpos := two_zpow_pos e'
        have hpos' : (0 : Rat) < m' := by exact_mod_cast hm'
        have hfactor : factor t ≠ 0 := by cases t <;> norm_num [factor]
        field_simp
      have hdiv : UnpackedFloat.div Format.binary64 (.finite s m e hm) (.finite t m' e' hm') =
          roundWithAccuracy Format.binary64 (s / t)
            ((m <<< (e - e' - quotientExponent m e m' e').toNat) / m')
            (quotientExponent m e m' e')
            (accuracyOfFraction ((m <<< (e - e' - quotientExponent m e m' e').toNat) % m') m') := by
        simp only [UnpackedFloat.div, divCore_eq]
      rw [hvalue, hdiv]
      exact hrounded

end products

end Double

end SetQubo
