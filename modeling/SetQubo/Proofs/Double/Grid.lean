import Mathlib
/-!
# The grid of doubles

The numbers that a double can be form a grid: integers of at most fifty-three bits, times a power
of two from a bounded range. The grid here has one more point on either side, two to the power of
1024, which stands for the infinity on that side: a result counts as too large exactly when that
point is nearest to it.

Arithmetic rounds to a **nearest** grid point. What the program's sums need follows from that alone:
a result on the grid is exact, rounding respects the order, and the error is at most a share of the
exact result. How ties are broken does not matter.
-/

namespace SetQubo

namespace Double

/-- The magnitude that stands for an infinity. -/
@[irreducible] def limit : Rat := 2 ^ 1024

/-! ## The grid -/

/-- A number that a double can be, or the limit on either side. -/
def Representable (q : Rat) : Prop :=
  ∃ m e : ℤ, |m| ≤ 2 ^ 53 ∧ -1074 ≤ e ∧ e ≤ 971 ∧ q = m * 2 ^ e

theorem two_zpow_pos (e : ℤ) : (0 : Rat) < 2 ^ e := zpow_pos (by norm_num) e

theorem two_zpow_le {e f : ℤ} (h : e ≤ f) : (2 : Rat) ^ e ≤ 2 ^ f :=
  zpow_le_zpow_right₀ (by norm_num) h

theorem two_zpow_add (e f : ℤ) : (2 : Rat) ^ (e + f) = 2 ^ e * 2 ^ f :=
  zpow_add₀ (by norm_num) e f

theorem representable_intCast {m : ℤ} (h : |m| ≤ 2 ^ 53) : Representable m :=
  ⟨m, 0, h, by norm_num, by norm_num, by simp⟩

theorem representable_zero : Representable 0 := by
  have h := representable_intCast (m := 0) (by norm_num)
  simpa using h

theorem Representable.neg {q : Rat} (h : Representable q) : Representable (-q) := by
  obtain ⟨m, e, hm, he, he', rfl⟩ := h
  exact ⟨-m, e, by rwa [abs_neg], he, he', by push_cast; ring⟩

theorem limit_eq : limit = 2 ^ 53 * 2 ^ (971 : ℤ) := by
  unfold limit
  rw [← zpow_natCast, ← zpow_natCast, ← two_zpow_add]
  norm_num

theorem limit_pos : 0 < limit := by unfold limit; positivity

theorem representable_limit : Representable limit :=
  ⟨2 ^ 53, 971, by norm_num, by norm_num, by norm_num, by rw [limit_eq]; norm_num⟩

/-- The limit is the outermost point. -/
theorem Representable.abs_le_limit {q : Rat} (h : Representable q) : |q| ≤ limit := by
  obtain ⟨m, e, hm, -, he, rfl⟩ := h
  have hm' : |(m : Rat)| ≤ 2 ^ 53 := by exact_mod_cast hm
  rw [abs_mul, abs_of_pos (two_zpow_pos e), limit_eq]
  exact mul_le_mul hm' (two_zpow_le he) (two_zpow_pos e).le (by norm_num)

/-- Every grid point is a multiple of the least positive one. -/
theorem Representable.exists_multiple {q : Rat} (h : Representable q) :
    ∃ n : ℤ, q = n * 2 ^ (-1074 : ℤ) := by
  obtain ⟨m, e, -, he, -, rfl⟩ := h
  refine ⟨m * 2 ^ (e + 1074).toNat, ?_⟩
  have hpow : ((2 : Rat) ^ (e + 1074).toNat) = 2 ^ (e + 1074) := by
    rw [← zpow_natCast, Int.toNat_of_nonneg (by omega)]
  rw [Int.cast_mul, Int.cast_pow, Int.cast_ofNat, hpow, mul_assoc, ← two_zpow_add,
    show e + 1074 + -1074 = e by ring]

/-- Below the normal range, every multiple of the least positive point is on the grid. -/
theorem representable_of_multiple {n : ℤ} (h : |(n : Rat) * 2 ^ (-1074 : ℤ)| ≤ 2 ^ (-1022 : ℤ)) :
    Representable (n * 2 ^ (-1074 : ℤ)) := by
  refine ⟨n, -1074, ?_, le_rfl, by norm_num, rfl⟩
  rw [abs_mul, abs_of_pos (two_zpow_pos _), show (-1022 : ℤ) = 52 + -1074 by norm_num,
    two_zpow_add, mul_le_mul_iff_left₀ (two_zpow_pos _)] at h
  have hle : |n| ≤ 2 ^ 52 := by exact_mod_cast h
  exact hle.trans (by norm_num)

/-! ## Nearest points -/

/-- `r` is a grid point, and none is closer to `x`. -/
structure Nearest (x r : Rat) : Prop where
  /-- The result is a grid point. -/
  representable : Representable r
  /-- No grid point is closer. -/
  le : ∀ z, Representable z → |r - x| ≤ |z - x|

namespace Nearest

variable {x y r r' z : Rat}

theorem neg (h : Nearest x r) : Nearest (-x) (-r) := by
  refine ⟨h.representable.neg, fun z hz => ?_⟩
  have hle := h.le (-z) hz.neg
  rwa [← abs_neg (-z - x), show -(-z - x) = z - -x by ring, ← abs_neg (r - x),
    show -(r - x) = -r - -x by ring] at hle

/-- What is on the grid already is its own nearest point. -/
theorem of_representable (h : Representable x) : Nearest x x :=
  ⟨h, fun z _ => by rw [sub_self, abs_zero]; exact abs_nonneg _⟩

/-- **A result on the grid is exact.** -/
theorem eq_of_representable (h : Nearest x r) (hx : Representable x) : r = x := by
  have hle := h.le x hx
  rw [sub_self, abs_zero] at hle
  exact sub_eq_zero.mp (abs_nonpos_iff.mp hle)

/-- **Rounding respects the order.** -/
theorem le_of_lt (h : Nearest x r) (h' : Nearest y r') (hxy : x < y) : r ≤ r' := by
  by_contra hgt
  rw [not_le] at hgt
  -- Were the results in the wrong order, their middle would be below `x` and above `y`.
  have hx := sq_le_sq.mpr (h.le r' h'.representable)
  have hy := sq_le_sq.mpr (h'.le r h.representable)
  have hmiddle : (r - r') * (r + r') ≤ (r - r') * (2 * x) := by linarith
  have hmiddle' : (r - r') * (2 * y) ≤ (r - r') * (r + r') := by linarith
  have hpos : 0 < r - r' := by linarith
  have hle := le_of_mul_le_mul_left (hmiddle'.trans hmiddle) hpos
  linarith

/-- A grid point above the argument is above the result. -/
theorem le_of_le (h : Nearest x r) (hz : Representable z) (hxz : x ≤ z) : r ≤ z := by
  rcases hxz.eq_or_lt with rfl | hlt
  · exact (h.eq_of_representable hz).le
  · exact h.le_of_lt (of_representable hz) hlt

/-- A grid point below the argument is below the result. -/
theorem ge_of_ge (h : Nearest x r) (hz : Representable z) (hzx : z ≤ x) : z ≤ r := by
  rcases hzx.eq_or_lt with rfl | hlt
  · exact (h.eq_of_representable hz).ge
  · exact (of_representable hz).le_of_lt h hlt

theorem nonneg (h : Nearest x r) (hx : 0 ≤ x) : 0 ≤ r := h.ge_of_ge representable_zero hx

/-- A bound on the grid holds for the result as well. -/
theorem abs_le_of_abs_le (h : Nearest x r) (hz : Representable z) (hx : |x| ≤ z) : |r| ≤ z := by
  obtain ⟨hlow, hhigh⟩ := abs_le.mp hx
  exact abs_le.mpr ⟨h.ge_of_ge hz.neg hlow, h.le_of_le hz hhigh⟩

end Nearest

/-! ## Errors -/

/-- The nearest multiple of a power of two is at most half of that power away. -/
theorem abs_round_mul_sub_le (x : Rat) (t : ℤ) :
    |(round (x / 2 ^ t) : Rat) * 2 ^ t - x| ≤ 2 ^ t / 2 := by
  have hpos := two_zpow_pos t
  have hround := abs_sub_round (x / 2 ^ t)
  have hscaled : (round (x / 2 ^ t) : Rat) * 2 ^ t - x =
      -(x / 2 ^ t - round (x / 2 ^ t)) * 2 ^ t := by
    field_simp
    ring
  rw [hscaled, abs_mul, abs_neg, abs_of_pos hpos]
  calc |x / 2 ^ t - round (x / 2 ^ t)| * 2 ^ t ≤ 1 / 2 * 2 ^ t :=
        mul_le_mul_of_nonneg_right hround hpos.le
    _ = 2 ^ t / 2 := by ring

/-- With a power of two that leaves at most fifty-three bits, that multiple is on the grid. -/
theorem representable_round_mul {x : Rat} {t : ℤ} (hlow : -1074 ≤ t) (hhigh : t ≤ 971)
    (hx : |x| ≤ 2 ^ 53 * 2 ^ t) : Representable ((round (x / 2 ^ t) : Rat) * 2 ^ t) := by
  refine ⟨round (x / 2 ^ t), t, ?_, hlow, hhigh, rfl⟩
  have hpos := two_zpow_pos t
  have hquotient : |x / 2 ^ t| ≤ 2 ^ 53 := by
    rw [abs_div, abs_of_pos hpos, div_le_iff₀ hpos]
    exact hx
  obtain ⟨hl, hu⟩ := abs_le.mp hquotient
  have hround := abs_le.mp (abs_sub_round (x / 2 ^ t))
  have hupper : (round (x / 2 ^ t) : Rat) < 2 ^ 53 + 1 := by linarith [hround.1]
  have hlower : -(2 ^ 53 + 1) < (round (x / 2 ^ t) : Rat) := by linarith [hround.2]
  have hupper' : round (x / 2 ^ t) < 2 ^ 53 + 1 := by exact_mod_cast hupper
  have hlower' : -(2 ^ 53 + 1) < round (x / 2 ^ t) := by exact_mod_cast hlower
  rw [abs_le]
  omega

/-- **In the normal range the error is a share of the exact result.** -/
theorem Nearest.abs_sub_le {x r : Rat} (h : Nearest x r) (hlow : 2 ^ (-1022 : ℤ) ≤ |x|)
    (hhigh : |x| < limit) : |r - x| ≤ |x| / 2 ^ 53 := by
  have hx : 0 < |x| := (two_zpow_pos _).trans_le hlow
  -- The grid around `x` has the step `2 ^ (k - 52)`, where `2 ^ k` is its leading digit.
  obtain ⟨k, hk, hk'⟩ : ∃ k : ℤ, (2 : Rat) ^ k ≤ |x| ∧ |x| < 2 ^ (k + 1) :=
    ⟨Int.log 2 |x|, Int.zpow_log_le_self (by norm_num) hx,
      Int.lt_zpow_succ_log_self (by norm_num) _⟩
  have hkl : -1022 ≤ k := by
    have hlt := (zpow_lt_zpow_iff_right₀ (by norm_num : (1 : Rat) < 2)).mp (hlow.trans_lt hk')
    omega
  have hkh : k ≤ 1023 := by
    have hlim : (2 : Rat) ^ k < 2 ^ (1024 : ℤ) := by
      have := hk.trans_lt hhigh
      unfold limit at this
      exact_mod_cast this
    have hlt := (zpow_lt_zpow_iff_right₀ (by norm_num : (1 : Rat) < 2)).mp hlim
    omega
  have hbits : |x| ≤ 2 ^ 53 * 2 ^ (k - 52) := by
    have heq : (2 : Rat) ^ (k + 1) = 2 ^ 53 * 2 ^ (k - 52) := by
      rw [show k + 1 = 53 + (k - 52) by ring, two_zpow_add]
      norm_num
    exact heq ▸ hk'.le
  have hgrid := representable_round_mul (x := x) (t := k - 52) (by omega) (by omega) hbits
  calc |r - x| ≤ |(round (x / 2 ^ (k - 52)) : Rat) * 2 ^ (k - 52) - x| := h.le _ hgrid
    _ ≤ 2 ^ (k - 52) / 2 := abs_round_mul_sub_le x _
    _ = 2 ^ k / 2 ^ 53 := by
      rw [show k - 52 = k + -52 by ring, two_zpow_add]
      norm_num
      ring
    _ ≤ |x| / 2 ^ 53 := by gcongr

/-- **The error of a sum is a share of the exact sum**, also below the normal range: there the
sum is on the grid. -/
theorem Nearest.abs_sub_add_le {x y r : Rat} (hx : Representable x) (hy : Representable y)
    (h : Nearest (x + y) r) (hhigh : |x + y| < limit) : |r - (x + y)| ≤ |x + y| / 2 ^ 53 := by
  rcases le_total (2 ^ (-1022 : ℤ)) |x + y| with hlow | hlow
  · exact h.abs_sub_le hlow hhigh
  · obtain ⟨n, hn⟩ := hx.exists_multiple
    obtain ⟨n', hn'⟩ := hy.exists_multiple
    have hsum : x + y = ((n + n' : ℤ) : Rat) * 2 ^ (-1074 : ℤ) := by
      rw [Int.cast_add, add_mul, ← hn, ← hn']
    have hgrid : Representable (x + y) := by
      rw [hsum] at hlow ⊢
      exact representable_of_multiple hlow
    rw [h.eq_of_representable hgrid, sub_self, abs_zero]
    exact div_nonneg (abs_nonneg _) (by norm_num)

end Double

end SetQubo
