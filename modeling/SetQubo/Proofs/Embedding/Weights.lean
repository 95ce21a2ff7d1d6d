import Mathlib
import SetQubo.Proofs.Embedding.Coefficients
import SetQubo.Proofs.Embedding.ElementEnergy
import SetQubo.Proofs.Embedding.Entries
/-!
# Weights within the range of doubles

The coefficients of an embedded set in doubles are the penalty, the rewards, the deterrents, and
sums of two deterrents. So they are all finite exactly if those of them that the set brings in are.
A bound on the penalty is enough for that, whatever the set: a reward is at most twice the penalty,
also when it is rounded; a deterrent is at most the width times that, and a sum of two guards at
most twice that again.

What must not be exceeded is the greatest finite double, half of which is a double as well. A result
between that and the limit may be rounded up to the limit, which is infinite.
-/

namespace SetQubo

/-! ## The greatest double -/

namespace Double

/-- The value of the greatest finite double. -/
def largest : Rat := (2 ^ 53 - 1) * 2 ^ (971 : ℤ)

theorem representable_largest : Representable largest :=
  ⟨2 ^ 53 - 1, 971, by norm_num, by norm_num, by norm_num, by unfold largest; norm_num⟩

theorem representable_largest_div_two : Representable (largest / 2) := by
  refine ⟨2 ^ 53 - 1, 970, by norm_num, by norm_num, by norm_num, ?_⟩
  unfold largest
  rw [show (971 : ℤ) = 970 + 1 by norm_num, two_zpow_add, zpow_one]
  generalize (2 : Rat) ^ (970 : ℤ) = p
  push_cast
  ring

theorem largest_lt_limit : largest < limit := by
  rw [limit_eq, largest]
  exact mul_lt_mul_of_pos_right (by norm_num) (two_zpow_pos _)

/-- A result of at most the greatest double does not overflow. -/
theorem Rounds.isFinite_of_le_largest {x : Rat} {a : Float} (h : Rounds x a)
    (hx : |x| ≤ largest) : a.isFinite = true := by
  rw [isFinite_iff h.isNumber]
  exact (h.nearest.abs_le_of_abs_le representable_largest hx).trans_lt largest_lt_limit

/-- A grid point times a power of two is on the grid, unless it is too large. -/
theorem Representable.two_pow_mul {q : Rat} (h : Representable q) (k : ℕ)
    (hq : |2 ^ k * q| ≤ limit / 2) : Representable (2 ^ k * q) := by
  induction k with
  | zero => simpa using h
  | succ k ih =>
    rw [pow_succ', mul_assoc] at hq ⊢
    refine (ih ?_).double hq
    calc |2 ^ k * q| ≤ 2 * |2 ^ k * q| := by linarith [abs_nonneg (2 ^ k * q)]
      _ = |2 * (2 ^ k * q)| := by rw [abs_mul 2, abs_two]
      _ ≤ limit / 2 := hq

end Double

namespace Embedding

open Double Variable

/-! ## The weights that a set brings in -/

/-- No weight that the set brings in overflows. A deterrent stands next to a bit only if its
element holds a zero, and two of them stand together only for elements that do not cover each
other. -/
structure FiniteWeights (penalty : Float) (s : SetSpec) : Prop where
  /-- Every reward is finite. -/
  rewards : ∀ x ∈ s.nonzero, (reward penalty x).isFinite = true
  /-- So is every deterrent. -/
  deterrents : ∀ x ∈ s.nonzero, x.onesCount < s.width →
    (deterrent penalty s.width x).isFinite = true
  /-- So are the sums of two guards. -/
  guards : s.nonzero.Pairwise fun x y => x.covers y = false → y.covers x = false →
    (deterrent penalty s.width x + deterrent penalty s.width y).isFinite = true

/-- Two members of a list stand there in one order or the other. -/
theorem sublist_or_sublist {α : Type} {l : List α} {x y : α} (hx : x ∈ l) (hy : y ∈ l)
    (hne : x ≠ y) : [x, y].Sublist l ∨ [y, x].Sublist l := by
  obtain ⟨before, after, rfl⟩ := List.append_of_mem hx
  rcases List.mem_append.mp hy with hy | hy
  · right
    exact (List.singleton_sublist.mpr hy).append (List.singleton_sublist.mpr List.mem_cons_self)
  · left
    have hafter : y ∈ after := (List.mem_cons.mp hy).resolve_left hne.symm
    exact ((List.singleton_sublist.mpr hafter).cons_cons x).trans (List.sublist_append_right _ _)

section weights
variable {penalty : Float} {s : SetSpec} {x y : BitVector}

/-- What stands between two indicators is finite. -/
theorem FiniteWeights.isFinite_of_merge (h : FiniteWeights penalty s)
    (horder : [x, y].Sublist s.nonzero) {c : Float}
    (hc : Option.merge (· + ·) (guard? penalty s.width x y) (guard? penalty s.width y x) =
      some c) : c.isFinite = true := by
  have hx : x ∈ s.nonzero := horder.mem List.mem_cons_self
  have hy : y ∈ s.nonzero := horder.mem (List.mem_cons_of_mem _ List.mem_cons_self)
  have hwidthX := SetSpec.width_of_mem_nonzero hx
  have hwidthY := SetSpec.width_of_mem_nonzero hy
  have hwidth : x.width = y.width := hwidthX.trans hwidthY.symm
  unfold guard? at hc
  cases hxy : x.covers y with
  | true =>
    cases hyx : y.covers x with
    | true => simp [hxy, hyx] at hc
    | false =>
      have hones := BitVector.onesCount_lt_of_not_covers hwidth.symm hyx
      simp only [hxy, hyx, if_true, Bool.false_eq_true, if_false, Option.merge] at hc
      exact Option.some.inj hc ▸ h.deterrents y hy (hwidthY ▸ hones)
  | false =>
    have hones := BitVector.onesCount_lt_of_not_covers hwidth hxy
    cases hyx : y.covers x with
    | true =>
      simp only [hxy, hyx, if_true, Bool.false_eq_true, if_false, Option.merge] at hc
      exact Option.some.inj hc ▸ h.deterrents x hx (hwidthX ▸ hones)
    | false =>
      simp only [hxy, hyx, Bool.false_eq_true, if_false, Option.merge] at hc
      exact Option.some.inj hc ▸ List.pairwise_iff_forall_sublist.mp h.guards horder hxy hyx

/-- With finite weights, everything in the table of pairs is finite. -/
theorem FiniteWeights.quadratic (h : FiniteWeights penalty s) :
    ∀ t ∈ (modelOf penalty s.width s.nonzero).quadratic.toList, t.2.isFinite = true := by
  intro t ht
  have hlookup := (consistent_modelOf penalty s.width s.nonzero).quadratic.lookup_of_mem ht
  have hpair := pairsIn_modelOf penalty s.width s.nonzero t.1 (List.mem_map_of_mem ht)
  rcases terms_modelOf s.width_le penalty s.nonzero t ht with
    ⟨i, hi, x, hkey, hcoefficient⟩ | ⟨x, y, hne, hkey⟩
  · rw [hkey] at hpair
    have hx := mem_of_indicator_mem hpair.2
    rw [hcoefficient]
    split
    · rw [isFinite_neg]
      exact h.rewards x hx
    · next hzero =>
      have hwidth := SetSpec.width_of_mem_nonzero hx
      rw [Bool.not_eq_true] at hzero
      exact h.deterrents x hx
        (hwidth ▸ BitVector.onesCount_lt_width_iff.mpr ⟨i, hwidth.symm ▸ hi, hzero⟩)
  · rw [hkey] at hpair hlookup
    -- The key may hold the two elements in either order.
    rcases sublist_or_sublist (mem_of_indicator_mem hpair.1) (mem_of_indicator_mem hpair.2) hne with
      horder | horder
    · rw [lookup_indicators penalty s.width (SetSpec.nodup_nonzero s) horder] at hlookup
      exact h.isFinite_of_merge horder hlookup
    · rw [Table.lookup_congr _ (beq_indicators_swap x y),
        lookup_indicators penalty s.width (SetSpec.nodup_nonzero s) horder] at hlookup
      exact h.isFinite_of_merge horder hlookup

/-- Whatever is found in the table of pairs is finite, so every weight that stands there is. -/
theorem FiniteWeights.of_quadratic
    (h : ∀ t ∈ (modelOf penalty s.width s.nonzero).quadratic.toList, t.2.isFinite = true) :
    FiniteWeights penalty s := by
  have hnodup := SetSpec.nodup_nonzero s
  have hfound : ∀ {k : Pair Variable} {c : Float},
      (modelOf penalty s.width s.nonzero).quadratic.lookup k = some c → c.isFinite = true := by
    intro k c hc
    obtain ⟨k', -, hmem⟩ := Table.exists_mem_of_lookup_eq_some hc
    exact h (k', c) hmem
  have hbit : ∀ x ∈ s.nonzero, ∀ i < s.width,
      (bitEntry penalty s.width x i).isFinite = true :=
    fun x hx i hi => hfound (lookup_bit_indicator s.width_le penalty hnodup hx hi)
  constructor
  case rewards =>
    intro x hx
    have hwidth := SetSpec.width_of_mem_nonzero hx
    -- An element other than zero holds a one, and the reward stands there.
    have hones : 0 < x.ones.card := by
      rw [BitVector.card_ones]
      exact SetSpec.onesCount_pos_of_mem_nonzero hx
    obtain ⟨i, hi⟩ := Finset.card_pos.mp hones
    have hlt := Finset.mem_range.mp (BitVector.ones_subset_range x hi)
    have hentry := hbit x hx i (hwidth ▸ hlt)
    rwa [bitEntry, if_pos (BitVector.mem_ones.mp hi), isFinite_neg] at hentry
  case deterrents =>
    intro x hx hlt
    have hwidth := SetSpec.width_of_mem_nonzero hx
    obtain ⟨i, hi, hzero⟩ := BitVector.onesCount_lt_width_iff.mp (hwidth.symm ▸ hlt)
    have hentry := hbit x hx i (hwidth ▸ hi)
    rwa [bitEntry, if_neg (Bool.not_eq_true _ ▸ hzero)] at hentry
  case guards =>
    rw [List.pairwise_iff_forall_sublist]
    intro x y horder hxy hyx
    apply hfound (k := ⟨indicator x, indicator y⟩)
    rw [lookup_indicators penalty s.width hnodup horder, guard?, guard?, hxy, hyx]
    rfl

/-- **The coefficients of an embedded set are finite** exactly if its weights are. -/
theorem finiteCoefficients_modelOf_iff (hpenalty : penalty.isFinite = true) :
    (modelOf penalty s.width s.nonzero).FiniteCoefficients ↔ FiniteWeights penalty s := by
  constructor
  · exact fun h => .of_quadratic h.quadratic
  · intro h
    refine ⟨?_, h.quadratic⟩
    intro t ht
    rw [toList_linear_modelOf] at ht
    obtain ⟨v, -, rfl⟩ := List.mem_map.mp ht
    exact hpenalty

end weights

/-! ## A bound on the penalty -/

/-- Between one more than a positive number and twice that number lies a power of two. -/
theorem exists_two_pow_between {n : ℕ} (h : 0 < n) :
    ∃ k : ℕ, (n + 1 : Rat) ≤ 2 ^ k ∧ (2 : Rat) ^ k ≤ 2 * n := by
  refine ⟨n.log2 + 1, ?_, ?_⟩
  · exact_mod_cast Nat.lt_log2_self (n := n)
  · rw [pow_succ']
    exact_mod_cast Nat.mul_le_mul_left 2 (Nat.log2_self_le h.ne')

section bound
variable {penalty : Float} {x : BitVector} {width : Nat} (hpenalty : penalty.isFinite = true)
  (hpos : 0 < value penalty) (hones : 0 < x.onesCount) (hones' : x.onesCount ≤ width)
  (hwidth : width ≤ 64) (hbound : 4 * width * value penalty ≤ largest)
include hpenalty hpos hones hones' hwidth hbound

/-- What a reward is shared out from is at most twice the number of ones, times the penalty. That
bound need not be a double itself, but below it lies a power of two times the penalty, which is. -/
theorem product_le_two_mul :
    ((Nat.cast x.onesCount + Nat.cast 1) * penalty : Float).isFinite = true ∧
      0 ≤ value ((Nat.cast x.onesCount + Nat.cast 1) * penalty) ∧
      value ((Nat.cast x.onesCount + Nat.cast 1) * penalty) ≤
        2 * (x.onesCount * value penalty) := by
  obtain ⟨hfinitePaid, hvaluePaid⟩ := Moderate.value_ones (x := x) (hones'.trans hwidth)
  obtain ⟨k, hk, hk'⟩ := exists_two_pow_between hones
  have hlimit := largest_lt_limit
  have hn' : (x.onesCount : Rat) ≤ width := by exact_mod_cast hones'
  have hlinear : (x.onesCount : Rat) * value penalty ≤ width * value penalty :=
    mul_le_mul_of_nonneg_right hn' hpos.le
  have hscaled : 2 ^ k * value penalty ≤ 2 * (x.onesCount * value penalty) := by
    rw [← mul_assoc]
    exact mul_le_mul_of_nonneg_right hk' hpos.le
  have hscaledPos : 0 < 2 ^ k * value penalty := by positivity
  have hgrid : Representable (2 ^ k * value penalty) :=
    (representable_value penalty).two_pow_mul k (by rw [abs_of_pos hscaledPos]; linarith)
  have hproduct := rounds_mul hfinitePaid hpenalty
  rw [hvaluePaid] at hproduct
  have hpaid : (x.onesCount + 1) * value penalty ≤ 2 ^ k * value penalty :=
    mul_le_mul_of_nonneg_right hk hpos.le
  have hpaidPos : 0 < (x.onesCount + 1 : Rat) * value penalty := by positivity
  refine ⟨hproduct.isFinite ?_, hproduct.nearest.nonneg hpaidPos.le,
    (hproduct.nearest.le_of_le hgrid hpaid).trans hscaled⟩
  rw [abs_of_pos hpaidPos]
  linarith

/-- **A reward is at most twice the penalty**, also after rounding. -/
theorem reward_le_two_mul : (reward penalty x).isFinite = true ∧
    0 ≤ value (reward penalty x) ∧ value (reward penalty x) ≤ 2 * value penalty := by
  obtain ⟨hfinite, hnonneg, hle⟩ := product_le_two_mul hpenalty hpos hones hones' hwidth hbound
  obtain ⟨hfiniteOnes, hvalueOnes⟩ := rounds_ofNat (n := x.onesCount) (by omega)
  have hn : (1 : Rat) ≤ x.onesCount := by exact_mod_cast hones
  have hn' : (x.onesCount : Rat) ≤ width := by exact_mod_cast hones'
  have hlimit := largest_lt_limit
  have hsmall : 2 * value penalty ≤ limit / 2 := by
    have hlinear : 1 * value penalty ≤ width * value penalty :=
      mul_le_mul_of_nonneg_right (hn.trans hn') hpos.le
    linarith
  have hdouble : Representable (2 * value penalty) :=
    (representable_value penalty).double (by rwa [abs_of_pos (by linarith)])
  have hquotient := rounds_div hfinite hfiniteOnes (by rw [hvalueOnes]; linarith)
  rw [hvalueOnes] at hquotient
  have hquotientNonneg := div_nonneg hnonneg (show (0 : Rat) ≤ x.onesCount by linarith)
  have hquotientLe : value ((Nat.cast x.onesCount + Nat.cast 1) * penalty) / x.onesCount ≤
      2 * value penalty := by
    rw [div_le_iff₀ (by linarith)]
    linarith
  refine ⟨hquotient.isFinite ?_, hquotient.nearest.nonneg hquotientNonneg,
    hquotient.nearest.le_of_le hdouble hquotientLe⟩
  rw [abs_of_nonneg hquotientNonneg]
  exact hquotientLe.trans hsmall

/-- **A deterrent is at most half of the greatest double.** -/
theorem deterrent_le_half : (deterrent penalty width x).isFinite = true ∧
    0 ≤ value (deterrent penalty width x) ∧ value (deterrent penalty width x) ≤ largest / 2 := by
  obtain ⟨hfinite, hnonneg, hle⟩ := reward_le_two_mul hpenalty hpos hones hones' hwidth hbound
  obtain ⟨hfiniteWidth, hvalueWidth⟩ := rounds_ofNat (n := width) (by omega)
  have hproduct := rounds_mul hfinite hfiniteWidth
  rw [hvalueWidth] at hproduct
  have hexact : 0 ≤ value (reward penalty x) * width := by positivity
  have hexactLe : value (reward penalty x) * width ≤ largest / 2 :=
    calc value (reward penalty x) * width ≤ 2 * value penalty * width := by gcongr
      _ ≤ largest / 2 := by linarith
  have hvalue := hproduct.nearest.le_of_le representable_largest_div_two hexactLe
  refine ⟨hproduct.isFinite_of_le_largest ?_, hproduct.nearest.nonneg hexact, hvalue⟩
  rw [abs_of_nonneg hexact]
  linarith

end bound

/-- **A penalty is small enough** if, times four times the width, it is within the range of
doubles. -/
theorem FiniteWeights.of_le {penalty : Float} {s : SetSpec} (hpenalty : penalty.isFinite = true)
    (hpos : 0 < value penalty) (hbound : 4 * s.width * value penalty ≤ largest) :
    FiniteWeights penalty s := by
  have hones : ∀ x ∈ s.nonzero, 0 < x.onesCount ∧ x.onesCount ≤ s.width := by
    intro x hx
    refine ⟨SetSpec.onesCount_pos_of_mem_nonzero hx, ?_⟩
    rw [← SetSpec.width_of_mem_nonzero hx]
    exact x.onesCount_le_width
  have hreward := fun x hx =>
    reward_le_two_mul hpenalty hpos (hones x hx).1 (hones x hx).2 s.width_le hbound
  have hdeterrent := fun x hx =>
    deterrent_le_half hpenalty hpos (hones x hx).1 (hones x hx).2 s.width_le hbound
  constructor
  case rewards => exact fun x hx => (hreward x hx).1
  case deterrents => exact fun x hx _ => (hdeterrent x hx).1
  case guards =>
    rw [List.pairwise_iff_forall_sublist]
    intro x y horder _ _
    obtain ⟨hfiniteX, hnonnegX, hleX⟩ := hdeterrent x (horder.mem List.mem_cons_self)
    obtain ⟨hfiniteY, hnonnegY, hleY⟩ :=
      hdeterrent y (horder.mem (List.mem_cons_of_mem _ List.mem_cons_self))
    apply (rounds_add hfiniteX hfiniteY).isFinite_of_le_largest
    rw [abs_of_nonneg (by linarith)]
    linarith

end Embedding

end SetQubo
