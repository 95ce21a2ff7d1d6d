import SetQubo.Proofs.Embedding.ElementEnergy
import SetQubo.Proofs.Embedding.Nearness
/-!
# The energies of elements in doubles

In exact arithmetic the penalties and the rewards of an element cancel. In doubles the reward is
rounded, and so is every sum, and what remains is the energy of the element. It is a few rounding
units of the penalty, with a factor that is quadratic in the number of ones; an element with a single
one has energy zero in doubles as well.
-/

namespace SetQubo

namespace Double

/-- **Adding one double many times.** The error grows by that of the double and by one rounding unit
of the largest partial sum, a little enlarged by the error itself. -/
theorem abs_foldl_replicate_sub_le {c : Float} {q δ slack : Rat} (bound : Rat) (hc : c.isFinite = true)
    (hcq : |value c - q| ≤ δ) (hδ : 0 ≤ δ) (hs : 0 ≤ slack)
    (hrange : bound * (1 + slack) ≤ limit / 2) (k : ℕ)
    {a : Float} {x d : Rat} (ha : a.isFinite = true) (hax : |value a - x| ≤ d)
    (hbound : ∀ i ≤ k, |x + i * q| ≤ bound)
    (hslack : d + k * (δ + bound * (1 + slack) / 2 ^ 53) ≤ bound * slack) :
    ((List.replicate k c).foldl (· + ·) a).isFinite = true ∧
      |value ((List.replicate k c).foldl (· + ·) a) - (x + k * q)| ≤
        d + k * (δ + bound * (1 + slack) / 2 ^ 53) := by
  induction k generalizing a x d with
  | zero => simpa using ⟨ha, hax⟩
  | succ k ih =>
    have hpositive : 0 ≤ bound := (abs_nonneg _).trans (hbound 0 (by omega))
    have hunit : 0 ≤ bound * (1 + slack) / 2 ^ 53 := by positivity
    generalize hu : bound * (1 + slack) / 2 ^ 53 = unit at *
    push_cast at hslack ⊢
    have hk : 0 ≤ (k : Rat) * (δ + unit) := by positivity
    -- The next partial sum, before it is rounded.
    have hfirst : |x + q| ≤ bound := by simpa using hbound 1 (by omega)
    have herror : |value a + value c - (x + q)| ≤ d + δ := by
      rw [add_sub_add_comm]
      exact (abs_add_le _ _).trans (add_le_add hax hcq)
    have hsum : |value a + value c| ≤ bound * (1 + slack) := by
      have hsplit := abs_add_le (value a + value c - (x + q)) (x + q)
      rw [sub_add_cancel] at hsplit
      linarith
    have hrounds := rounds_add ha hc
    have hround : |value (a + c) - (value a + value c)| ≤ unit := by
      refine (hrounds.nearest.abs_sub_add_le (representable_value a) (representable_value c)
        ((hsum.trans hrange).trans_lt limit_div_two_lt)).trans ?_
      rw [← hu]
      gcongr
    have hnext : |value (a + c) - (x + q)| ≤ d + δ + unit := by
      have hsplit := abs_sub_le (value (a + c)) (value a + value c) (x + q)
      linarith
    obtain ⟨hfinite, hrest⟩ := ih (hrounds.isFinite (hsum.trans hrange)) hnext
      (fun i hi => by
        have hi' := hbound (i + 1) (by omega)
        push_cast at hi'
        rwa [show x + q + i * q = x + (i + 1) * q by ring])
      (by linarith)
    refine ⟨hfinite, ?_⟩
    rw [show x + (k + 1) * q = x + q + k * q by ring]
    exact hrest.trans (by linarith)

end Double

namespace Embedding

open Double Variable

/-! ## The sum that is computed -/

section standing
variable {s : SetSpec} {x : Valuation Variable} {e : BitVector}

theorem foldl_replicate_add (k : ℕ) (c a : Rat) :
    (List.replicate k c).foldl (· + ·) a = a + k * c := by
  induction k generalizing a with
  | zero => simp
  | succ k ih =>
    rw [List.replicate_succ, List.foldl_cons, ih]
    push_cast
    ring

/-- As many pairs are on as the element has ones: in exact arithmetic they pay for its bits and its
indicator. -/
theorem StandsFor.countP_quadratic (h : StandsFor s x e) (hzero : e.isZero = false)
    {penalty : Rat} (hpenalty : 0 < penalty) :
    (modelOf penalty s.width s.nonzero).quadratic.toList.countP (fun t => t.1.isOn x) =
      e.onesCount := by
  have hpos := (BitVector.onesCount_pos_iff e).mpr hzero
  have hn : (0 : Rat) < e.onesCount := by exact_mod_cast hpos
  have henergy : (modelOf penalty s.width s.nonzero).energy x = 0 := h.energy_eq_zero
  rw [h.energy_eq_foldl, foldl_replicate_add, foldl_replicate_add, hzero, reward_eq] at henergy
  generalize (modelOf penalty s.width s.nonzero).quadratic.toList.countP _ = k at henergy ⊢
  rw [if_neg Bool.false_ne_true] at henergy
  push_cast at henergy
  have hscale : (0 : Rat) < (e.onesCount + 1) * penalty := by positivity
  have hbalance : (e.onesCount + 1) * penalty * ((e.onesCount : Rat) - k) = 0 := by
    field_simp at henergy
    linear_combination henergy
  have hsame : (e.onesCount : Rat) = k := by
    rcases mul_eq_zero.mp hbalance with hzero | hzero
    · exact absurd hzero hscale.ne'
    · linarith
  exact_mod_cast hsame.symm

/-- **What stands for an element has the element's energy**, bit by bit. -/
theorem StandsFor.energy_eq_elementEnergy (hstands : StandsFor s x e) {penalty : Float}
    (h : Moderate penalty) (hcap : s.width + s.nonzero.length ≤ 16) :
    (modelOf penalty s.width s.nonzero).energy x = elementEnergy penalty e := by
  have hcount := (near_modelOf h hcap).quadratic.countP_eq fun p => p.isOn x
  rw [hstands.energy_eq_foldl, hcount]
  unfold elementEnergy
  cases hzero : e.isZero with
  | true =>
    -- No indicator is on for the zero vector, so no pair is.
    have hnone : (modelOf (value penalty) s.width s.nonzero).quadratic.toList.countP
        (fun t => t.1.isOn x) = 0 := by
      rw [List.countP_eq_zero]
      intro t ht hon
      have hnonzero := (hstands.coefficient_eq ht hon).1
      rw [hzero] at hnonzero
      cases hnonzero
    rw [hnone]
    rfl
  | false =>
    rw [hstands.countP_quadratic hzero h.pos]
    rfl

end standing

/-! ## What remains -/

/-- The rounding unit of the sum of all penalties that are paid for an element with `n` ones, a
little enlarged by what was lost before. -/
def sumUnit (penalty : Rat) (n : ℕ) : Rat :=
  (n + 1) * penalty * (1 + 1 / 2 ^ 20) / 2 ^ 53

/-- A unit for each of the sums, and two for all rewards together. -/
def roundingBound (penalty : Rat) (n : ℕ) : Rat := (2 * n + 3) * sumUnit penalty n

theorem sumUnit_nonneg {penalty : Rat} (hpenalty : 0 ≤ penalty) (n : ℕ) :
    0 ≤ sumUnit penalty n := by
  unfold sumUnit
  positivity

theorem roundingBound_mono {penalty : Rat} (hpenalty : 0 ≤ penalty) {n k : ℕ} (h : n ≤ k) :
    roundingBound penalty n ≤ roundingBound penalty k := by
  have h : (n : Rat) ≤ k := by exact_mod_cast h
  unfold roundingBound sumUnit
  gcongr

/-- With at most fifteen ones, hardly anything remains. -/
theorem roundingBound_le {penalty : Rat} (hpenalty : 0 ≤ penalty) {n : ℕ} (h : n ≤ 15) :
    roundingBound penalty n ≤ penalty / 4000000 := by
  refine (roundingBound_mono hpenalty h).trans ?_
  unfold roundingBound sumUnit
  push_cast
  linarith

/-- What remains is small next to the sum of the penalties. -/
theorem roundingBound_le_slack {penalty : Rat} (hpenalty : 0 ≤ penalty) {n : ℕ} (h : n ≤ 64) :
    roundingBound penalty n ≤ (n + 1) * penalty * (1 / 2 ^ 20) := by
  have h : (n : Rat) ≤ 64 := by exact_mod_cast h
  have hscale : 0 ≤ (n + 1) * penalty := by positivity
  calc roundingBound penalty n
      = (n + 1) * penalty * ((2 * n + 3) * (1 + 1 / 2 ^ 20) / 2 ^ 53) := by
        unfold roundingBound sumUnit
        ring
    _ ≤ (n + 1) * penalty * (1 / 2 ^ 20) := mul_le_mul_of_nonneg_left (by linarith) hscale

/-- All rewards of an element together are its penalties. -/
theorem onesCount_mul_reward (penalty : Rat) {e : BitVector} (hpos : 0 < e.onesCount) :
    e.onesCount * reward penalty e = (e.onesCount + 1) * penalty := by
  have hne : (e.onesCount : Rat) ≠ 0 := by exact_mod_cast hpos.ne'
  rw [reward_eq]
  field_simp

/-- The rewards lose a unit for each sum and less than two for their own rounding. -/
theorem units_le_roundingBound {penalty : Rat} (hpenalty : 0 ≤ penalty) {e : BitVector}
    (hpos : 0 < e.onesCount) :
    (e.onesCount + 1) * sumUnit penalty e.onesCount +
        e.onesCount * (reward penalty e * (1 + 1 / 2 ^ 54) / 2 ^ 52 +
          sumUnit penalty e.onesCount) ≤ roundingBound penalty e.onesCount := by
  have hbalance := onesCount_mul_reward penalty hpos
  have hscale : 0 ≤ (e.onesCount + 1) * penalty := by positivity
  calc _ = (2 * e.onesCount + 1) * sumUnit penalty e.onesCount +
          (e.onesCount + 1) * penalty * ((1 + 1 / 2 ^ 54) / 2 ^ 52) := by
        linear_combination (1 + 1 / 2 ^ 54) / 2 ^ 52 * hbalance
    _ ≤ (2 * e.onesCount + 1) * sumUnit penalty e.onesCount +
          (e.onesCount + 1) * penalty * (2 * (1 + 1 / 2 ^ 20) / 2 ^ 53) :=
        add_le_add_right (mul_le_mul_of_nonneg_left (by norm_num) hscale) _
    _ = roundingBound penalty e.onesCount := by
        unfold roundingBound sumUnit
        ring

section bound
variable {penalty : Float} (h : Moderate penalty) {e : BitVector}
include h

/-- The sums stay within the range. -/
theorem Moderate.enlarged_le {n : ℕ} (hn : n ≤ 64) :
    (n + 1) * value penalty * (1 + 1 / 2 ^ 20) ≤ limit / 2 := by
  have hp := h.pos
  have hhigh := h.high
  have hn : (n : Rat) ≤ 64 := by exact_mod_cast hn
  calc (n + 1) * value penalty * (1 + 1 / 2 ^ 20)
      ≤ (64 + 1) * value penalty * (1 + 1 / 2 ^ 20) := by gcongr
    _ ≤ limit / 2 := by linarith

/-- The penalties for the bits and the indicator of an element, added one by one. -/
theorem Moderate.abs_foldl_penalty_sub_le {n : ℕ} (hn : n ≤ 64) :
    ((List.replicate (n + 1) penalty).foldl (· + ·) 0).isFinite = true ∧
      |value ((List.replicate (n + 1) penalty).foldl (· + ·) 0) - (n + 1) * value penalty| ≤
        (n + 1) * sumUnit (value penalty) n := by
  have hp := h.pos
  have hslack := roundingBound_le_slack hp.le hn
  have hunits : (n + 1) * sumUnit (value penalty) n ≤ roundingBound (value penalty) n := by
    unfold roundingBound
    exact mul_le_mul_of_nonneg_right (by linarith [n.cast_nonneg (α := Rat)])
      (sumUnit_nonneg hp.le n)
  have hsum := abs_foldl_replicate_sub_le (q := value penalty) (δ := 0)
    ((n + 1) * value penalty) h.isFinite (by simp) le_rfl (by norm_num) (h.enlarged_le hn) (n + 1)
    isFinite_zero (x := 0) (d := 0) (by rw [value_zero]; simp)
    (fun i hi => by
      have hi : (i : Rat) ≤ n + 1 := by exact_mod_cast hi
      rw [zero_add, abs_of_nonneg (by positivity)]
      gcongr)
    (by
      rw [zero_add, zero_add]
      push_cast
      exact hunits.trans hslack)
  rw [zero_add, zero_add, zero_add] at hsum
  push_cast at hsum
  exact hsum

/-- **Penalties and rewards cancel** up to the rounding bound. -/
theorem Moderate.abs_elementEnergy_le (hones : e.onesCount ≤ 64) :
    (elementEnergy penalty e).isFinite = true ∧
      |value (elementEnergy penalty e)| ≤ roundingBound (value penalty) e.onesCount := by
  have hp := h.pos
  unfold elementEnergy
  cases hzero : e.isZero with
  | true =>
    refine ⟨isFinite_zero, ?_⟩
    show |value (0 : Float)| ≤ _
    rw [value_zero, abs_zero]
    exact mul_nonneg (by positivity) (sumUnit_nonneg hp.le _)
  | false =>
    rw [if_neg Bool.false_ne_true]
    have hpos := (BitVector.onesCount_pos_iff e).mpr hzero
    have hbalance := onesCount_mul_reward (value penalty) hpos
    have hreward : 0 ≤ reward (value penalty) e := (reward_pos hp hpos).le
    have hunits := units_le_roundingBound hp.le hpos
    obtain ⟨hfinite, hrounded⟩ := h.value_reward hpos hones
    obtain ⟨hpaidFinite, hpaid⟩ := h.abs_foldl_penalty_sub_le hones
    obtain ⟨hsumFinite, hsum⟩ := abs_foldl_replicate_sub_le (c := -reward penalty e)
      (q := -reward (value penalty) e) ((e.onesCount + 1) * value penalty)
      (δ := reward (value penalty) e * (1 + 1 / 2 ^ 54) / 2 ^ 52)
      (by rw [isFinite_neg, hfinite])
      (by rw [value_neg, neg_sub_neg, abs_sub_comm]; exact hrounded) (by positivity)
      (by norm_num) (h.enlarged_le hones) e.onesCount hpaidFinite hpaid
      (fun i hi => by
        -- A part of the rewards takes a part of the penalties back.
        have hi : (i : Rat) ≤ e.onesCount := by exact_mod_cast hi
        have hpart : i * reward (value penalty) e ≤ (e.onesCount + 1) * value penalty := by
          rw [← hbalance]
          gcongr
        have hpart' : 0 ≤ i * reward (value penalty) e := by positivity
        rw [abs_of_nonneg (by linarith)]
        linarith)
      (hunits.trans (roundingBound_le_slack hp.le hones))
    have hcancel : (e.onesCount + 1) * value penalty +
        e.onesCount * -reward (value penalty) e = 0 := by linarith
    rw [hcancel, sub_zero] at hsum
    exact ⟨hsumFinite, hsum.trans hunits⟩

/-- With a single one the reward is exactly twice the penalty. -/
theorem Moderate.value_reward_of_single (hone : e.onesCount = 1) :
    (reward penalty e).isFinite = true ∧ value (reward penalty e) = 2 * value penalty := by
  have hrange : |2 * value penalty| ≤ limit / 2 :=
    h.abs_le_half_limit (by rw [abs_of_pos (by linarith [h.pos])]; linarith [h.pos])
  have hgrid := (representable_value penalty).double hrange
  obtain ⟨honesFinite, honesValue⟩ := value_ones (x := e) (by omega)
  obtain ⟨hunitFinite, hunitValue⟩ := rounds_ofNat (n := e.onesCount) (by omega)
  have hunit : value (Float.ofNat e.onesCount) = 1 := by rw [hunitValue, hone, Nat.cast_one]
  have hproduct := rounds_mul honesFinite h.isFinite
  have htwo : value (Float.ofNat e.onesCount + Float.ofNat 1) = 2 := by
    rw [honesValue, hone, Nat.cast_one, one_add_one_eq_two]
  rw [htwo] at hproduct
  obtain ⟨hproductFinite, hproductValue⟩ := hproduct.exact hgrid hrange
  have hquotient := rounds_div hproductFinite hunitFinite (by rw [hunit]; norm_num)
  rw [hproductValue, hunit, div_one] at hquotient
  exact hquotient.exact hgrid hrange

/-- **With a single one nothing remains**: all that is computed is twice the penalty. -/
theorem Moderate.value_elementEnergy_of_le_one (hones : e.onesCount ≤ 1) :
    value (elementEnergy penalty e) = 0 := by
  unfold elementEnergy
  cases hzero : e.isZero with
  | true => exact value_zero
  | false =>
    have hone : e.onesCount = 1 :=
      le_antisymm hones ((BitVector.onesCount_pos_iff e).mpr hzero)
    have hp := h.pos
    have hrange : |2 * value penalty| ≤ limit / 2 :=
      h.abs_le_half_limit (by rw [abs_of_pos (by linarith)]; linarith)
    -- The sum of the penalties.
    have hfirst := rounds_add isFinite_zero h.isFinite
    rw [value_zero, zero_add] at hfirst
    obtain ⟨hfirstFinite, hfirstValue⟩ := hfirst.exact (representable_value penalty)
      (h.abs_le_half_limit (by rw [abs_of_pos hp]; linarith))
    have hpaid := rounds_add hfirstFinite h.isFinite
    rw [hfirstValue, ← two_mul] at hpaid
    obtain ⟨hpaidFinite, hpaidValue⟩ :=
      hpaid.exact ((representable_value penalty).double hrange) hrange
    -- It cancels with the reward.
    obtain ⟨hrewardFinite, hrewardValue⟩ := h.value_reward_of_single hone
    have hsum := rounds_add (b := -reward penalty e) hpaidFinite
      (by rw [isFinite_neg, hrewardFinite])
    rw [hpaidValue, value_neg, hrewardValue, add_neg_cancel] at hsum
    have hexact := hsum.nearest.eq_of_representable representable_zero
    rw [if_neg Bool.false_ne_true, hone]
    simp only [List.replicate_succ, List.replicate_zero, List.foldl_cons, List.foldl_nil]
    exact hexact

end bound

end Embedding

end SetQubo
