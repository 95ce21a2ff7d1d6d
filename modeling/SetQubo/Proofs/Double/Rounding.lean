import Mathlib
import SetQubo.Proofs.Double.Value
/-!
# Results are rounded to a nearest grid point

An operation computes a mantissa that may be cut short, together with two bits that say how the
exact one compares to it: `Represents` is what they say. Shifting keeps it, and rounding at the end
gives a nearest integer. At the exponent at which this happens the integers are the grid around the
exact result, so what is packed is a grid point nearest to it. Results beyond the grid come out as
an infinity, which stands at the limit.
-/

namespace SetQubo

namespace Double

open Float.Model Float.Model.UnpackedFloat

/-! ## Mantissas that are cut short -/

/-- What a mantissa with its round bit and its sticky bit says about the exact one. -/
def Represents : ExtendedMantissa → Rat → Prop
  | ⟨m, false, false⟩, y => y = m
  | ⟨m, false, true⟩, y => m < y ∧ y < m + 1 / 2
  | ⟨m, true, false⟩, y => y = m + 1 / 2
  | ⟨m, true, true⟩, y => m + 1 / 2 < y ∧ y < m + 1

namespace Represents

variable {em : ExtendedMantissa} {y : Rat}

/-- The mantissa is the whole part. -/
theorem bounds (h : Represents em y) : (em.mantissa : Rat) ≤ y ∧ y < em.mantissa + 1 := by
  obtain ⟨m, r, s⟩ := em
  cases r <;> cases s <;> simp only [Represents] at h ⊢ <;> constructor <;> linarith

/-- Shifting by one digit halves the exact mantissa. -/
theorem shiftRightOne (h : Represents em y) : Represents em.shiftRightOne (y / 2) := by
  obtain ⟨m, r, s⟩ := em
  -- The digit that is shifted out becomes the round bit.
  have hm : (m : Rat) = 2 * ((m / 2 : ℕ) : Rat) + ((m % 2 : ℕ) : Rat) := by
    exact_mod_cast (Nat.div_add_mod m 2).symm
  rcases Nat.mod_two_eq_zero_or_one m with hlast | hlast
  · rw [hlast] at hm
    cases r <;> cases s <;> simp [Represents, ExtendedMantissa.shiftRightOne, hlast] at h hm ⊢ <;>
      (try constructor) <;> linarith
  · rw [hlast] at hm
    cases r <;> cases s <;> simp [Represents, ExtendedMantissa.shiftRightOne, hlast] at h hm ⊢ <;>
      (try constructor) <;> linarith

theorem shiftRight (h : Represents em y) (n : ℕ) : Represents (em >>> n) (y / 2 ^ n) := by
  show Represents (n.repeat ExtendedMantissa.shiftRightOne em) _
  induction n with
  | zero => simpa [Nat.repeat] using h
  | succ n ih =>
    have hstep := ih.shiftRightOne
    rw [div_div, ← pow_succ] at hstep
    exact hstep

/-- **The rounded mantissa is a nearest integer.** -/
theorem abs_roundedMantissa_sub_le (h : Represents em y) (z : ℤ) :
    |(em.roundedMantissa : Rat) - y| ≤ |z - y| := by
  obtain ⟨m, r, s⟩ := em
  -- An integer is at most the mantissa or at least the next one.
  have hz : (z : Rat) ≤ m ∨ (m : Rat) + 1 ≤ z := by
    rcases le_or_gt z m with hle | hgt
    · exact Or.inl (by exact_mod_cast hle)
    · exact Or.inr (by exact_mod_cast hgt)
  cases r <;> cases s <;>
    simp only [Represents, ExtendedMantissa.roundedMantissa, ExtendedMantissa.accuracy,
      Accuracy.roundToNearestEven] at h ⊢
  · rw [h, sub_self, abs_zero]
    exact abs_nonneg _
  · rw [abs_of_nonpos (by linarith)]
    rcases hz with hz | hz
    · rw [abs_of_nonpos (by linarith)]; linarith
    · rw [abs_of_nonneg (by linarith)]; linarith
  · -- A tie: both neighbours are half a unit away.
    have hhalf : |((m + m % 2 : ℕ) : Rat) - y| = 1 / 2 := by
      rcases Nat.mod_two_eq_zero_or_one m with hlast | hlast
      · rw [hlast, h, Nat.add_zero, abs_of_nonpos (by linarith)]; ring
      · rw [hlast, h]
        push_cast
        rw [abs_of_nonneg (by linarith)]; ring
    rw [hhalf]
    rcases hz with hz | hz
    · rw [abs_of_nonpos (by linarith)]; linarith
    · rw [abs_of_nonneg (by linarith)]; linarith
  · push_cast
    rw [abs_of_nonneg (by linarith)]
    rcases hz with hz | hz
    · rw [abs_of_nonpos (by linarith)]; linarith
    · rw [abs_of_nonneg (by linarith)]; linarith

end Represents

theorem represents_exact (m : ℕ) :
    Represents (ExtendedMantissa.ofMantissaAndAccuracy m .exact) m := rfl

/-! ## The exponent of the result -/

/-- The exponent to which a mantissa is rounded. -/
def exponentOf (m : ℕ) (e : ℤ) : ℤ := max (m.log2 + 1 + e - 53) (-1074)

/-- At this exponent the mantissa has at most fifty-three bits, -/
theorem succ_le_of_exponentOf (m : ℕ) (e : ℤ) :
    m + 1 ≤ 2 ^ 53 * 2 ^ (exponentOf m e - e).toNat := by
  rw [← Nat.pow_add]
  calc m + 1 ≤ 2 ^ (m.log2 + 1) := Nat.lt_log2_self
    _ ≤ 2 ^ (53 + (exponentOf m e - e).toNat) :=
      Nat.pow_le_pow_right (by norm_num) (by unfold exponentOf; omega)

/-- and no fewer, unless the exponent is the least one. -/
theorem le_of_exponentOf {m : ℕ} {e : ℤ} (he : e ≤ exponentOf m e)
    (hleast : exponentOf m e ≠ -1074) : 2 ^ 52 * 2 ^ (exponentOf m e - e).toNat ≤ m := by
  have hlog : m.log2 = 52 + (exponentOf m e - e).toNat := by
    unfold exponentOf at he hleast ⊢
    omega
  have hm : m ≠ 0 := by
    rintro rfl
    rw [Nat.log2_zero] at hlog
    omega
  rw [← Nat.pow_add, ← hlog]
  exact Nat.log2_self_le hm

theorem shiftToTargetExponent_eq (m : ℕ) (e : ℤ) (a : Accuracy) :
    shiftToTargetExponent Format.binary64 m e a =
      (ExtendedMantissa.ofMantissaAndAccuracy m a >>> (exponentOf m e - e).toNat,
        e + ((exponentOf m e - e).toNat : ℤ)) := rfl

/-- A mantissa that needs no more bits is left alone. -/
theorem shiftToTargetExponent_of_lt {m : ℕ} {e : ℤ} (hm : m < 2 ^ 53) (he : -1074 ≤ e) :
    shiftToTargetExponent Format.binary64 m e .exact = (⟨m, false, false⟩, e) := by
  have hlog : m.log2 ≤ 52 := by
    rcases Nat.eq_zero_or_pos m with rfl | hpos
    · simp
    · have := (Nat.log2_lt hpos.ne').mpr hm
      omega
  have hshift : (exponentOf m e - e).toNat = 0 := by unfold exponentOf; omega
  rw [shiftToTargetExponent_eq, hshift]
  simp [HShiftRight.hShiftRight, Nat.repeat, ExtendedMantissa.ofMantissaAndAccuracy]

/-- A mantissa that was rounded up to one more bit gives it up again. -/
theorem shiftToTargetExponent_of_carry {e : ℤ} (he : -1074 ≤ e) :
    shiftToTargetExponent Format.binary64 (2 ^ 53) e .exact = (⟨2 ^ 52, false, false⟩, e + 1) := by
  have hshift : (exponentOf (2 ^ 53) e - e).toNat = 1 := by
    unfold exponentOf
    rw [Nat.log2_two_pow]
    omega
  rw [shiftToTargetExponent_eq, hshift]
  rfl

/-! ## Rounding -/

/-- What is packed in the end, given the rounded mantissa. -/
theorem roundWithAccuracy_eq (s : Sign) {m r : ℕ} {e : ℤ} {a : Accuracy}
    (hr : (ExtendedMantissa.ofMantissaAndAccuracy m a >>>
      (exponentOf m e - e).toNat).roundedMantissa = r)
    (he : e ≤ exponentOf m e) (hle : r ≤ 2 ^ 53) :
    roundWithAccuracy Format.binary64 s m e a =
      if h : r = 0 then .zero s
      else if r < 2 ^ 53 then .finite s r (exponentOf m e) (Nat.pos_of_ne_zero h)
      else .finite s (2 ^ 52) (exponentOf m e + 1) (by norm_num) := by
  have hlow : -1074 ≤ exponentOf m e := le_max_right _ _
  have hexponent : e + ((exponentOf m e - e).toNat : ℤ) = exponentOf m e := by omega
  unfold roundWithAccuracy
  rw [shiftToTargetExponent_eq, hexponent]
  dsimp only
  rw [hr]
  by_cases hlt : r < 2 ^ 53
  · rw [shiftToTargetExponent_of_lt hlt hlow]
    simp only [hlt, if_true]
  · obtain rfl : r = 2 ^ 53 := by omega
    rw [shiftToTargetExponent_of_carry hlow]
    simp

section integers
variable {q : Rat} {r : ℕ}

/-- A nearest integer is at most any integer above, -/
theorem le_of_nearest (hnear : ∀ z : ℤ, |(r : Rat) - q| ≤ |z - q|) {b : ℕ} (hq : q ≤ b) :
    r ≤ b := by
  have hbound := hnear b
  rw [Int.cast_natCast, abs_of_nonneg (by linarith : (0 : Rat) ≤ b - q)] at hbound
  have hcast : (r : Rat) ≤ b := by linarith [le_abs_self ((r : Rat) - q)]
  exact_mod_cast hcast

/-- and at least any integer below. -/
theorem ge_of_nearest (hnear : ∀ z : ℤ, |(r : Rat) - q| ≤ |z - q|) {b : ℕ} (hq : b ≤ q) :
    b ≤ r := by
  have hbound := hnear b
  rw [Int.cast_natCast, abs_of_nonpos (by linarith : (b : Rat) - q ≤ 0)] at hbound
  have hcast : (b : Rat) ≤ r := by linarith [neg_abs_le ((r : Rat) - q)]
  exact_mod_cast hcast

end integers

/-- A nearest integer is a nearest grid point, if the integers have fifty-three bits or the exponent
is the least one: a finer grid point is below all of them. -/
theorem nearest_of_integer {q : Rat} {r : ℕ} {t : ℤ} (hlow : -1074 ≤ t) (hhigh : t ≤ 971)
    (hr : r ≤ 2 ^ 53) (hnear : ∀ z : ℤ, |(r : Rat) - q| ≤ |z - q|)
    (hq : 2 ^ 52 ≤ q ∨ t = -1074) : Nearest (q * 2 ^ t) (r * 2 ^ t) := by
  have hpos := two_zpow_pos t
  have hscale : ∀ z : Rat, |z * 2 ^ t - q * 2 ^ t| = |z - q| * 2 ^ t := by
    intro z
    rw [← sub_mul, abs_mul, abs_of_pos hpos]
  constructor
  · refine ⟨r, t, ?_, hlow, hhigh, by simp⟩
    rw [Nat.abs_cast]
    exact_mod_cast hr
  · rintro z ⟨n, f, hn, hf, -, rfl⟩
    rw [hscale]
    rcases le_or_gt t f with htf | hft
    · -- The point is one of the integers at this exponent.
      have hinteger : (n : Rat) * 2 ^ f = (n * 2 ^ (f - t).toNat : ℤ) * 2 ^ t := by
        have hpow : (2 : Rat) ^ (f - t).toNat = 2 ^ (f - t) := by
          rw [← zpow_natCast, Int.toNat_of_nonneg (by omega)]
        rw [Int.cast_mul, Int.cast_pow, Int.cast_ofNat, hpow, mul_assoc, ← two_zpow_add,
          sub_add_cancel]
      rw [hinteger, hscale]
      exact mul_le_mul_of_nonneg_right (hnear _) hpos.le
    · have hq52 : (2 : Rat) ^ 52 ≤ q := hq.resolve_right (by omega)
      have hbelow : (n : Rat) * 2 ^ f ≤ 2 ^ 52 * 2 ^ t := by
        have hn' : (n : Rat) ≤ 2 ^ 53 := by exact_mod_cast (abs_le.mp hn).2
        calc (n : Rat) * 2 ^ f ≤ 2 ^ 53 * 2 ^ f :=
              mul_le_mul_of_nonneg_right hn' (two_zpow_pos f).le
          _ ≤ 2 ^ 53 * 2 ^ (t - 1) :=
              mul_le_mul_of_nonneg_left (two_zpow_le (by omega)) (by norm_num)
          _ = 2 ^ 52 * 2 ^ t := by
              rw [show t - 1 = t + -1 by ring, two_zpow_add]
              norm_num
              ring
      have hleast := hnear (2 ^ 52)
      rw [Int.cast_pow, Int.cast_ofNat, abs_of_nonpos (by linarith : (2 : Rat) ^ 52 - q ≤ 0)]
        at hleast
      have habove : (2 : Rat) ^ 52 * 2 ^ t ≤ q * 2 ^ t := mul_le_mul_of_nonneg_right hq52 hpos.le
      rw [abs_of_nonpos (by linarith : (n : Rat) * 2 ^ f - q * 2 ^ t ≤ 0)]
      have hscaled := mul_le_mul_of_nonneg_right hleast hpos.le
      linarith

/-- A mantissa of fifty-three bits is beyond the grid at an exponent beyond the largest one. -/
theorem limit_le {q : Rat} {t : ℤ} (hq : 2 ^ 52 ≤ q) (ht : 971 < t) : limit ≤ q * 2 ^ t := by
  calc limit = 2 ^ 52 * 2 ^ (972 : ℤ) := by
        rw [limit_eq, show (972 : ℤ) = 971 + 1 by norm_num, two_zpow_add, zpow_one]
        ring
    _ ≤ q * 2 ^ t := mul_le_mul hq (two_zpow_le (by omega)) (two_zpow_pos _).le (by linarith)

/-- Beyond the grid the limit is nearest. -/
theorem nearest_limit {x : Rat} (h : limit ≤ x) : Nearest x limit := by
  refine ⟨representable_limit, fun z hz => ?_⟩
  have hle := (le_abs_self z).trans hz.abs_le_limit
  rw [abs_of_nonpos (by linarith), abs_of_nonpos (by linarith)]
  linarith

theorem Nearest.factor_mul {x r : Rat} (h : Nearest x r) (s : Sign) :
    Nearest (factor s * x) (factor s * r) := by
  cases s
  · simpa [factor] using h.neg
  · simpa [factor] using h

/-- The double that is packed in the end, within the grid or at its limit. -/
theorem unpackedValue_pack (s : Sign) {r : ℕ} {t : ℤ} (hlow : -1074 ≤ t) (hhigh : t ≤ 971)
    (hr : r ≤ 2 ^ 53) (hnormal : 2 ^ 52 ≤ r ∨ t = -1074) {u : UnpackedFloat}
    (hu : u = if h : r = 0 then .zero s
      else if r < 2 ^ 53 then .finite s r t (Nat.pos_of_ne_zero h)
      else .finite s (2 ^ 52) (t + 1) (by norm_num)) :
    (Float.Model.pack u).unpack ≠ .notANumber ∧
      unpackedValue (Float.Model.pack u).unpack = factor s * (r * 2 ^ t) := by
  subst hu
  by_cases hzero : r = 0
  · subst hzero
    simp [unpack_pack_zero, unpackedValue]
  · rw [dif_neg hzero]
    by_cases hlt : r < 2 ^ 53
    · rw [if_pos hlt, unpack_pack_of_canonical ⟨hlt, hlow, hhigh, hnormal⟩]
      exact ⟨by simp, rfl⟩
    · obtain rfl : r = 2 ^ 53 := by omega
      rw [if_neg hlt]
      have hcarry : ((2 ^ 53 : ℕ) : Rat) * 2 ^ t = ((2 ^ 52 : ℕ) : Rat) * 2 ^ (t + 1) := by
        rw [two_zpow_add]
        push_cast
        ring
      rcases hhigh.eq_or_lt with rfl | hlt'
      · rw [unpack_pack_of_large (by norm_num)]
        refine ⟨by simp, ?_⟩
        rw [unpackedValue, limit_eq, Nat.cast_pow, Nat.cast_ofNat]
      · rw [unpack_pack_of_canonical ⟨by norm_num, by omega, by omega, Or.inl le_rfl⟩, hcarry]
        exact ⟨by simp, rfl⟩

/-- What is too large for the grid is packed as an infinity. -/
theorem unpack_pack_of_beyond (s : Sign) {r : ℕ} {t : ℤ} (hr : 2 ^ 52 ≤ r) (ht : 971 < t)
    {u : UnpackedFloat}
    (hu : u = if h : r = 0 then .zero s
      else if r < 2 ^ 53 then .finite s r t (Nat.pos_of_ne_zero h)
      else .finite s (2 ^ 52) (t + 1) (by norm_num)) :
    (Float.Model.pack u).unpack = .infinity s := by
  subst hu
  rw [dif_neg (by omega)]
  split
  · exact unpack_pack_of_large (by omega)
  · exact unpack_pack_of_large (by omega)

/-- **Rounding gives a nearest grid point.** The mantissa must have been computed with enough
bits, so that the exponent has not to be lowered. -/
theorem nearest_roundWithAccuracy (s : Sign) {m : ℕ} {e : ℤ} {a : Accuracy} {y : Rat}
    (hy : Represents (ExtendedMantissa.ofMantissaAndAccuracy m a) y) (he : e ≤ exponentOf m e) :
    (Float.Model.pack (roundWithAccuracy Format.binary64 s m e a)).unpack ≠ .notANumber ∧
      Nearest (factor s * (y * 2 ^ e))
        (unpackedValue (Float.Model.pack (roundWithAccuracy Format.binary64 s m e a)).unpack) := by
  have hmantissa : (ExtendedMantissa.ofMantissaAndAccuracy m a).mantissa = m := by
    cases a with
    | exact => rfl
    | inexact o => cases o <;> rfl
  obtain ⟨hml, hmu⟩ := hy.bounds
  rw [hmantissa] at hml hmu
  have hlow : -1074 ≤ exponentOf m e := le_max_right _ _
  have hbits := succ_le_of_exponentOf m e
  have hleast := le_of_exponentOf he
  -- At the exponent of the result, the exact result is `q`.
  generalize hk : (exponentOf m e - e).toNat = k at hbits hleast
  have hexponent : exponentOf m e = e + k := by omega
  obtain ⟨q, hq⟩ : ∃ q, q = y / 2 ^ k := ⟨_, rfl⟩
  have hexact : y * 2 ^ e = q * 2 ^ exponentOf m e := by
    rw [hq, hexponent, two_zpow_add, zpow_natCast]
    field_simp
  have hupper : q ≤ (2 ^ 53 : ℕ) := by
    have hbits' : (m : Rat) + 1 ≤ (2 ^ 53 : ℕ) * 2 ^ k := by exact_mod_cast hbits
    rw [hq, div_le_iff₀ (by positivity)]
    exact hmu.le.trans hbits'
  have hlower : exponentOf m e ≠ -1074 → (2 ^ 52 : ℕ) ≤ q := by
    intro hne
    have hm : ((2 ^ 52 : ℕ) * 2 ^ k : Rat) ≤ m := by exact_mod_cast hleast hne
    rw [hq, le_div_iff₀ (by positivity)]
    exact hm.trans hml
  -- The rounded mantissa is nearest to it, so it is within the same bounds.
  have hnear : ∀ z : ℤ, |((ExtendedMantissa.ofMantissaAndAccuracy m a >>> k).roundedMantissa : Rat)
      - q| ≤ |z - q| := by
    rw [hq]
    exact (hy.shiftRight k).abs_roundedMantissa_sub_le
  generalize hr : (ExtendedMantissa.ofMantissaAndAccuracy m a >>> k).roundedMantissa = r at hnear
  have hrle : r ≤ 2 ^ 53 := le_of_nearest hnear hupper
  have hrlow : exponentOf m e ≠ -1074 → 2 ^ 52 ≤ r := fun hne => ge_of_nearest hnear (hlower hne)
  push_cast at hlower
  rw [roundWithAccuracy_eq s (hk ▸ hr) he hrle, hexact]
  generalize exponentOf m e = t at *
  rcases le_or_gt t 971 with hhigh | hlarge
  · -- The result is on the grid.
    obtain ⟨hnumber, hvalue⟩ :=
      unpackedValue_pack s hlow hhigh hrle (or_iff_not_imp_right.mpr hrlow) rfl
    refine ⟨hnumber, ?_⟩
    rw [hvalue]
    exact (nearest_of_integer hlow hhigh hrle hnear (or_iff_not_imp_right.mpr hlower)).factor_mul s
  · -- The result is too large.
    have hne : t ≠ -1074 := by omega
    rw [unpack_pack_of_beyond s (hrlow hne) hlarge rfl]
    exact ⟨by simp, (nearest_limit (limit_le (hlower hne) hlarge)).factor_mul s⟩

end Double

end SetQubo
