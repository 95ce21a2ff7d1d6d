import SetQubo.Proofs.Double.Scalar
/-!
# Sums of doubles next to exact sums

A double **approximates** an exact number if its distance is a few rounding units of a bound on the
number's magnitude. Both the bound and the number of units are counted, in terms of a number `p`
that all terms of a sum are measured by. Adding two doubles adds the bounds, and costs one more
unit: so a sum of thousands of terms is still exact up to a few millionths of `p`.
-/

namespace SetQubo

namespace Double

open Float.Model Float.Model.UnpackedFloat

/-! ## Results within the range -/

theorem representable_limit_div_two : Representable (limit / 2) := by
  refine ⟨2 ^ 52, 971, by norm_num, by norm_num, by norm_num, ?_⟩
  rw [limit_eq, show ((2 ^ 52 : ℤ) : Rat) = 2 ^ 52 by norm_num]
  ring

theorem limit_div_two_lt : limit / 2 < limit := half_lt_self limit_pos

/-- A result of at most half the limit does not overflow. -/
theorem Rounds.isFinite {x : Rat} {a : Float} (h : Rounds x a) (hx : |x| ≤ limit / 2) :
    a.isFinite = true := by
  rw [isFinite_iff h.isNumber]
  exact (h.nearest.abs_le_of_abs_le representable_limit_div_two hx).trans_lt limit_div_two_lt

/-- Natural numbers with more bits than a double are rounded once. -/
theorem ofNat_eq_of_le {n : ℕ} (h : 2 ^ 53 ≤ n) : Float.ofNat n =
    .ofModel (.pack (roundWithAccuracy .binary64 .positive (n <<< 53 * 1) (-53 + 0) .exact)) := by
  show Float.ofScientific n false 0 = _
  unfold Float.ofScientific
  rw [dif_neg fun h' => absurd h'.1 (Nat.not_lt.mpr h)]
  show Float.ofModel (.pack (UnpackedFloat.ofScientific _ n 0)) = _
  have hlow : ¬(0 : ℤ) < -(2 ^ 11 + (n.log2 : ℤ)) := by omega
  unfold UnpackedFloat.ofScientific
  rw [dif_neg (by omega), if_neg (by norm_num), if_neg hlow, if_pos le_rfl]
  rfl

/-- **Words are in the range of doubles.** -/
theorem isFinite_ofNat {n : ℕ} (h : n < 2 ^ 64) : (Float.ofNat n).isFinite = true := by
  rcases Nat.lt_or_ge n (2 ^ 53) with hsmall | hlarge
  · exact (rounds_ofNat hsmall).1
  · have hpos : 0 < n := by omega
    have hrounded := nearest_roundWithAccuracy .positive (represents_exact (n <<< 53 * 1))
      (e := -53 + 0) (by rw [mul_one]; unfold exponentOf; rw [log2_shiftLeft hpos]; omega)
    have hvalue : factor .positive * (((n <<< 53 * 1 : ℕ) : Rat) * 2 ^ (-53 + 0 : ℤ)) = n := by
      have hshift := shiftLeft_mul_zpow n 53 0
      rw [zpow_zero, mul_one] at hshift
      rw [factor, one_mul, mul_one]
      exact hshift
    rw [hvalue] at hrounded
    have hrounds := rounds_of_pack hrounded
    rw [← ofNat_eq_of_le hlarge] at hrounds
    have hrange : (2 : Rat) ^ 64 ≤ limit / 2 := by
      have hpow : (2 : Rat) ^ 65 ≤ 2 ^ 1024 := pow_le_pow_right₀ (by norm_num) (by norm_num)
      unfold limit
      rw [le_div_iff₀ (by norm_num), ← pow_succ]
      exact hpow
    have hcast : (n : Rat) < 2 ^ 64 := by exact_mod_cast h
    apply hrounds.isFinite
    rw [Nat.abs_cast]
    exact hcast.le.trans hrange

/-- In the normal range the error is a share of the exact result. -/
theorem Rounds.abs_sub_le {x : Rat} {a : Float} (h : Rounds x a) (hlow : 2 ^ (-1022 : ℤ) ≤ |x|)
    (hhigh : |x| ≤ limit / 2) : |value a - x| ≤ |x| / 2 ^ 53 :=
  h.nearest.abs_sub_le hlow (hhigh.trans_lt limit_div_two_lt)

/-- A result on the grid is exact, and finite within half the limit. -/
theorem Rounds.exact {x : Rat} {a : Float} (h : Rounds x a) (hgrid : Representable x)
    (hx : |x| ≤ limit / 2) : a.isFinite = true ∧ value a = x :=
  ⟨h.isFinite hx, h.nearest.eq_of_representable hgrid⟩

/-- Twice a grid point is on the grid, unless it is too large. -/
theorem Representable.double {q : Rat} (h : Representable q) (hq : |2 * q| ≤ limit / 2) :
    Representable (2 * q) := by
  obtain ⟨m, e, hm, he, he', rfl⟩ := h
  rcases lt_or_ge e 971 with hlt | hge
  · refine ⟨m, e + 1, hm, by omega, by omega, ?_⟩
    rw [two_zpow_add, zpow_one]
    ring
  · -- At the largest exponent the mantissa is doubled.
    obtain rfl : e = 971 := by omega
    refine ⟨2 * m, 971, ?_, he, le_rfl, by rw [Int.cast_mul, Int.cast_ofNat, mul_assoc]⟩
    have hpow := two_zpow_pos 971
    rw [limit_eq, ← mul_assoc, abs_mul, abs_of_pos hpow] at hq
    have hm' : |2 * (m : Rat)| ≤ 2 ^ 53 / 2 := by
      apply le_of_mul_le_mul_right _ hpow
      linarith
    have hm'' : |2 * (m : Rat)| ≤ 2 ^ 53 := hm'.trans (by norm_num)
    exact_mod_cast hm''

/-! ## Approximation -/

/-- The double is finite, the exact number is at most `k` times `p`, and the two are at most `n`
rounding units of that bound apart. -/
structure Approximates (p : Rat) (k n : ℕ) (a : Float) (q : Rat) : Prop where
  /-- The double is finite. -/
  isFinite : a.isFinite = true
  /-- The exact number is bounded. -/
  abs_le : |q| ≤ k * p
  /-- So is the distance. -/
  error : |value a - q| ≤ k * p * n / 2 ^ 52

namespace Approximates

variable {p : Rat} {k k' n n' : ℕ} {a b : Float} {q r : Rat}

theorem mono (h : Approximates p k n a q) (hp : 0 ≤ p) (hk : k ≤ k') (hn : n ≤ n') :
    Approximates p k' n' a q := by
  have hk' : (k : Rat) ≤ k' := by exact_mod_cast hk
  have hn' : (n : Rat) ≤ n' := by exact_mod_cast hn
  refine ⟨h.isFinite, h.abs_le.trans (by gcongr), h.error.trans ?_⟩
  gcongr

theorem neg (h : Approximates p k n a q) : Approximates p k n (-a) (-q) := by
  refine ⟨by rw [isFinite_neg, h.isFinite], by rw [abs_neg]; exact h.abs_le, ?_⟩
  rw [value_neg, neg_sub_neg, abs_sub_comm]
  exact h.error

theorem zero : Approximates p 0 n 0 0 := by
  refine ⟨isFinite_zero, by simp, ?_⟩
  rw [value_zero]
  simp

/-- **A sum approximates the exact sum**, with one more unit for its own rounding. -/
theorem add (ha : Approximates p k n a q) (hb : Approximates p k' n' b r) (hp : 0 ≤ p)
    (hlarge : 2 ^ 24 * p ≤ limit) (hk : k + k' ≤ 2 ^ 22) (hn' : n' ≤ n) (hn : n ≤ 2 ^ 20) :
    Approximates p (k + k') (n + 1) (a + b) (q + r) := by
  have hb := hb.mono hp le_rfl hn'
  have hsum := rounds_add ha.isFinite hb.isFinite
  have hk : (k : Rat) + k' ≤ 2 ^ 22 := by exact_mod_cast hk
  have hn : (n : Rat) ≤ 2 ^ 20 := by exact_mod_cast hn
  have hscale : 0 ≤ (k + k' : Rat) * p := by positivity
  -- The errors of both terms, and what they leave of the bound on the exact sum.
  have herror : |value a + value b - (q + r)| ≤ (k + k') * p * n / 2 ^ 52 :=
    calc |value a + value b - (q + r)| = |(value a - q) + (value b - r)| := by ring_nf
      _ ≤ |value a - q| + |value b - r| := abs_add_le _ _
      _ ≤ k * p * n / 2 ^ 52 + k' * p * n / 2 ^ 52 := add_le_add ha.error hb.error
      _ = _ := by ring
  have hexact : |q + r| ≤ (k + k') * p :=
    calc |q + r| ≤ |q| + |r| := abs_add_le _ _
      _ ≤ k * p + k' * p := add_le_add ha.abs_le hb.abs_le
      _ = _ := by ring
  have hunits : (k + k') * p * n / 2 ^ 52 ≤ (k + k' : Rat) * p := by
    rw [mul_div_assoc]
    apply mul_le_of_le_one_right hscale
    rw [div_le_one (by positivity)]
    exact hn.trans (by norm_num)
  have hbound : |value a + value b| ≤ 2 * ((k + k') * p) := by
    have hsplit := abs_add_le (value a + value b - (q + r)) (q + r)
    rw [sub_add_cancel] at hsplit
    linarith
  have hrange : |value a + value b| ≤ limit / 2 :=
    calc |value a + value b| ≤ 2 * ((k + k') * p) := hbound
      _ ≤ 2 * (2 ^ 22 * p) := by gcongr
      _ ≤ limit / 2 := by linarith
  have hround := hsum.nearest.abs_sub_add_le (representable_value a) (representable_value b)
    (hrange.trans_lt limit_div_two_lt)
  refine ⟨hsum.isFinite hrange, by push_cast; exact hexact, ?_⟩
  have hsplit := abs_add_le (value (a + b) - (value a + value b)) (value a + value b - (q + r))
  rw [sub_add_sub_cancel] at hsplit
  push_cast
  calc |value (a + b) - (q + r)|
      ≤ |value a + value b| / 2 ^ 53 + (k + k') * p * n / 2 ^ 52 := by linarith
    _ ≤ 2 * ((k + k') * p) / 2 ^ 53 + (k + k') * p * n / 2 ^ 52 := by gcongr
    _ = (k + k') * p * (n + 1) / 2 ^ 52 := by ring

/-- **A sum over a list approximates the exact sum** over the list that corresponds to it, whichever
terms count. -/
theorem foldl {K : Type} (on : K → Bool) {c n₀ : ℕ} {es : List (K × Float)} {es' : List (K × Rat)}
    (hes : List.Forall₂ (fun e e' => e.1 = e'.1 ∧ Approximates p c n₀ e.2 e'.2) es es')
    (ha : Approximates p k n a q) (hp : 0 ≤ p) (hlarge : 2 ^ 24 * p ≤ limit)
    (hk : k + es.length * c ≤ 2 ^ 22) (hn₀ : n₀ ≤ n) (hn : n + es.length ≤ 2 ^ 20) :
    Approximates p (k + es.length * c) (n + es.length)
      (es.foldl (fun s e => if on e.1 then s + e.2 else s) a)
      (es'.foldl (fun s e => if on e.1 then s + e.2 else s) q) := by
  induction hes generalizing a q k n with
  | nil => simpa using ha
  | @cons e e' es es' he _ ih =>
    obtain ⟨hkey, hcoefficient⟩ := he
    rw [List.length_cons] at hk hn ⊢
    have hcount : k + c + es.length * c = k + (es.length + 1) * c := by ring
    have hunits : n + 1 + es.length = n + (es.length + 1) := by ring
    have hstep : Approximates p (k + c) (n + 1) (if on e.1 then a + e.2 else a)
        (if on e'.1 then q + e'.2 else q) := by
      rw [hkey]
      split
      · exact ha.add hcoefficient hp hlarge (by omega) hn₀ (by omega)
      · exact ha.mono hp (by omega) (by omega)
    have hrest := ih hstep (by omega) (by omega) (by omega)
    rw [hcount, hunits] at hrest
    exact hrest

end Approximates

end Double

end SetQubo
