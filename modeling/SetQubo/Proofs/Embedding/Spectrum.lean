import Mathlib
import SetQubo.Proofs.Embedding.Landscape
/-!
# The two lowest energies of an embedded set

A valuation **stands for** an element if its bits are the element's and its own indicator is the
only one on; for the zero vector no indicator is on. Such a valuation has energy zero. Every other
one has at least the base penalty divided by the largest number of ones in an element, and one of
them has just that: the element with the most ones, with one of its bits missing.
-/

namespace SetQubo

/-- The largest number of ones in an element, or 1 if zero is the only element. -/
def SetSpec.mostOnes (s : SetSpec) : Nat :=
  if s.nonzero.isEmpty then 1 else s.elements.toFinset.sup BitVector.onesCount

namespace SetSpec

variable {s : SetSpec}

theorem onesCount_le_mostOnes {e : BitVector} (he : e ∈ s.nonzero) :
    e.onesCount ≤ s.mostOnes := by
  have hne : s.nonzero.isEmpty = false := by
    cases h : s.nonzero with
    | nil => rw [h] at he; cases he
    | cons _ _ => rfl
  unfold mostOnes
  rw [hne]
  exact Finset.le_sup (f := BitVector.onesCount)
    (List.mem_toFinset.mpr (mem_nonzero.mp he).1)

/-- Unless zero is the only element, some element has the most ones. -/
theorem exists_onesCount_eq_mostOnes (h : s.nonzero ≠ []) :
    ∃ e ∈ s.nonzero, e.onesCount = s.mostOnes := by
  obtain ⟨e, he⟩ := List.exists_mem_of_ne_nil _ h
  have hnonempty : s.elements.toFinset.Nonempty :=
    ⟨e, List.mem_toFinset.mpr (mem_nonzero.mp he).1⟩
  obtain ⟨y, hy, hsup⟩ := Finset.exists_mem_eq_sup _ hnonempty BitVector.onesCount
  have hmost : s.mostOnes = s.elements.toFinset.sup BitVector.onesCount := by
    unfold mostOnes
    rw [if_neg]
    simpa using h
  refine ⟨y, mem_nonzero.mpr ⟨List.mem_toFinset.mp hy, ?_⟩, by rw [hmost, hsup]⟩
  -- It is not zero, since it has at least as many ones as an element that is not.
  have hpos := onesCount_pos_of_mem_nonzero he
  have hle := onesCount_le_mostOnes he
  rw [hmost, hsup] at hle
  exact (BitVector.onesCount_pos_iff y).mp (Nat.lt_of_lt_of_le hpos hle)

theorem mostOnes_pos (s : SetSpec) : 0 < s.mostOnes := by
  by_cases h : s.nonzero = []
  · simp [mostOnes, h]
  · obtain ⟨e, he, hmost⟩ := exists_onesCount_eq_mostOnes h
    rw [← hmost]
    exact onesCount_pos_of_mem_nonzero he

/-- No element has more ones, the zero vector included. -/
theorem onesCount_le_mostOnes_of_mem {e : BitVector} (he : e ∈ s.elements) :
    e.onesCount ≤ s.mostOnes := by
  by_cases hones : 0 < e.onesCount
  · exact onesCount_le_mostOnes
      (mem_nonzero.mpr ⟨he, (BitVector.onesCount_pos_iff e).mp hones⟩)
  · exact (Nat.eq_zero_of_not_pos hones).trans_le (Nat.zero_le _)

/-- With at most sixteen bits and indicators, an element has at most fifteen ones. -/
theorem mostOnes_le (hcap : s.width + s.nonzero.length ≤ 16) : s.mostOnes ≤ 15 := by
  by_cases h : s.nonzero = []
  · simp [mostOnes, h]
  · obtain ⟨e, he, hmost⟩ := exists_onesCount_eq_mostOnes h
    have hones := BitVector.onesCount_le_width e
    have hindicator := List.length_pos_iff.mpr h
    rw [width_of_mem_nonzero he] at hones
    omega

end SetSpec

namespace Embedding

open Variable

variable {penalty : Rat} {width : Nat} {e : BitVector} {positions : Finset Nat}
  {on : Finset BitVector}

/-- The penalty divided by the largest number of ones: the lowest energy above zero. -/
def gap (s : SetSpec) (penalty : Rat) : Rat := penalty / s.mostOnes

theorem gap_pos (s : SetSpec) (hpenalty : 0 < penalty) : 0 < gap s penalty := by
  have hmost : (0 : Rat) < s.mostOnes := by exact_mod_cast s.mostOnes_pos
  exact div_pos hpenalty hmost

/-! ## Rewards and deterrents -/

theorem reward_eq (penalty : Rat) (e : BitVector) :
    reward penalty e = (e.onesCount + 1) * penalty / e.onesCount := by
  unfold reward
  norm_num

theorem reward_pos (hpenalty : 0 < penalty) (hones : 0 < e.onesCount) :
    0 < reward penalty e := by
  have hcast : (0 : Rat) < e.onesCount := by exact_mod_cast hones
  rw [reward_eq]
  positivity

theorem deterrent_eq (penalty : Rat) (width : Nat) (e : BitVector) :
    deterrent penalty width e = reward penalty e * width := rfl

theorem deterrent_nonneg (width : Nat) (hpenalty : 0 < penalty) (hones : 0 < e.onesCount) :
    0 ≤ deterrent penalty width e := by
  have hreward := reward_pos hpenalty hones
  rw [deterrent_eq]
  positivity

/-! ## Loads -/

/-- An element that does not cover all others that are on has a load of at least the penalty: one
deterrent outweighs whatever its bits can earn. -/
theorem penalty_le_load (hpenalty : 0 < penalty) (hones : 0 < e.onesCount)
    (hwidth : e.width = width) (h : (uncovered on e).Nonempty) :
    penalty ≤ load penalty width positions on e := by
  have hreward := reward_pos hpenalty hones
  have hdeterrent := deterrent_nonneg width hpenalty hones
  have hshared : (positions ∩ e.ones).card ≤ width := by
    calc (positions ∩ e.ones).card ≤ e.ones.card := Finset.card_le_card Finset.inter_subset_right
      _ = e.onesCount := BitVector.card_ones e
      _ ≤ width := hwidth ▸ BitVector.onesCount_le_width e
  -- The rewards are at most one deterrent, and there is a deterrent to pay.
  have hearned : reward penalty e * (positions ∩ e.ones).card ≤ deterrent penalty width e := by
    rw [deterrent_eq]
    exact mul_le_mul_of_nonneg_left (by exact_mod_cast hshared) hreward.le
  have hguard : deterrent penalty width e ≤
      deterrent penalty width e * (uncovered on e).card := by
    have hcard : (1 : Rat) ≤ (uncovered on e).card := by exact_mod_cast h.card_pos
    exact le_mul_of_one_le_right hdeterrent hcard
  have hstray : 0 ≤ deterrent penalty width e * ((positions \ e.ones).card : Rat) :=
    mul_nonneg hdeterrent (Nat.cast_nonneg _)
  unfold load
  linarith

/-- The positions and the load of an element that covers all others: the share of the penalty for
the ones that are missing, and a full cost for every stray bit. -/
theorem positions_add_load (hones : 0 < e.onesCount) (h : uncovered on e = ∅) :
    penalty * positions.card + load penalty width positions on e =
      penalty * (e.onesCount - (positions ∩ e.ones).card) / e.onesCount +
        (penalty + deterrent penalty width e) * (positions \ e.ones).card := by
  have hcast : (e.onesCount : Rat) ≠ 0 := by exact_mod_cast hones.ne'
  have hcard : (positions.card : Rat) = (positions ∩ e.ones).card + (positions \ e.ones).card := by
    exact_mod_cast (Finset.card_inter_add_card_sdiff positions e.ones).symm
  unfold load
  rw [h, hcard, reward_eq, Finset.card_empty]
  field_simp
  push_cast
  ring

/-- What an element that covers all others costs together with the positions is not negative. -/
theorem positions_add_load_nonneg (width : Nat) (positions : Finset Nat)
    (hpenalty : 0 < penalty) (hones : 0 < e.onesCount) (h : uncovered on e = ∅) :
    0 ≤ penalty * positions.card + load penalty width positions on e := by
  have hdeterrent := deterrent_nonneg width hpenalty hones
  have hshared : ((positions ∩ e.ones).card : Rat) ≤ e.onesCount := by
    rw [← BitVector.card_ones]
    exact_mod_cast Finset.card_le_card Finset.inter_subset_right
  have hmissing : 0 ≤ penalty * (e.onesCount - (positions ∩ e.ones).card) / e.onesCount :=
    div_nonneg (mul_nonneg hpenalty.le (by linarith)) (Nat.cast_nonneg _)
  have hstray : 0 ≤ (penalty + deterrent penalty width e) * ((positions \ e.ones).card : Rat) :=
    mul_nonneg (by linarith) (Nat.cast_nonneg _)
  rw [positions_add_load hones h]
  linarith

/-! ## Two or more elements on -/

/-- Of the elements that are on, at most one covers all others. -/
theorem eq_of_uncovered_eq_empty {e' : BitVector} (hwidth : ∀ y ∈ on, y.width = width)
    (he : e ∈ on) (he' : e' ∈ on) (h : uncovered on e = ∅) (h' : uncovered on e' = ∅) :
    e = e' := by
  have hcovers : ∀ {x y : BitVector}, uncovered on x = ∅ → y ∈ on → y ≠ x → x.covers y = true := by
    intro x y hempty hy hne
    by_contra hcontra
    have hmem : y ∈ uncovered on x :=
      Finset.mem_filter.mpr ⟨hy, hne, by simpa using hcontra⟩
    rw [hempty] at hmem
    cases hmem
  -- Each of the two would cover the other.
  by_contra hne
  exact hne (BitVector.covers_antisymm ((hwidth e he).trans (hwidth e' he').symm)
    (hcovers h he' (Ne.symm hne)) (hcovers h' he hne))

/-- Two or more elements on cost at least the penalty, whatever the bits. -/
theorem penalty_le_of_two_on (hpenalty : 0 < penalty) (hwidth : ∀ y ∈ on, y.width = width)
    (hones : ∀ y ∈ on, 0 < y.onesCount) (htwo : 1 < on.card) :
    penalty ≤ penalty * positions.card + ∑ y ∈ on, load penalty width positions on y := by
  have hpositions : 0 ≤ penalty * (positions.card : Rat) :=
    mul_nonneg hpenalty.le (Nat.cast_nonneg _)
  by_cases htop : ∃ t ∈ on, uncovered on t = ∅
  · -- One element covers all others: it pays for the positions, and the others pay the penalty.
    obtain ⟨t, ht, hempty⟩ := htop
    have hothers : ∀ y ∈ on.erase t, penalty ≤ load penalty width positions on y := by
      intro y hy
      obtain ⟨hne, hy⟩ := Finset.mem_erase.mp hy
      apply penalty_le_load hpenalty (hones y hy) (hwidth y hy)
      rw [Finset.nonempty_iff_ne_empty]
      exact fun hy' => hne (eq_of_uncovered_eq_empty hwidth hy ht hy' hempty)
    have hsum := Finset.card_nsmul_le_sum _ _ _ hothers
    have hcard : (1 : Rat) ≤ (on.erase t).card := by
      rw [Finset.card_erase_of_mem ht]
      exact_mod_cast Nat.le_sub_of_add_le htwo
    have hnonneg := positions_add_load_nonneg width positions hpenalty (hones t ht) hempty
    have hscaled : penalty ≤ (on.erase t).card • penalty := by
      rw [nsmul_eq_mul]
      exact le_mul_of_one_le_left hpenalty.le hcard
    rw [← Finset.add_sum_erase _ _ ht]
    linarith
  · -- No element covers all others: every one pays the penalty.
    have hall : ∀ y ∈ on, penalty ≤ load penalty width positions on y := by
      intro y hy
      apply penalty_le_load hpenalty (hones y hy) (hwidth y hy)
      rw [Finset.nonempty_iff_ne_empty]
      exact fun hy' => htop ⟨y, hy, hy'⟩
    have hsum := Finset.card_nsmul_le_sum _ _ _ hall
    have hcard : (1 : Rat) ≤ on.card := by exact_mod_cast htwo.le
    have hscaled : penalty ≤ on.card • penalty := by
      rw [nsmul_eq_mul]
      exact le_mul_of_one_le_left hpenalty.le hcard
    linarith

/-! ## Valuations that stand for an element -/

/-- The bits are those of the element, and no indicator is on but its own. -/
structure StandsFor (s : SetSpec) (x : Valuation Variable) (e : BitVector) : Prop where
  /-- The bits are the element's. -/
  positions : onPositions s.width x = e.ones
  /-- The indicators select the element. -/
  on : onElements s.nonzero x = if e.isZero then ∅ else {e}

section spectrum
variable {s : SetSpec} {x : Valuation Variable}

theorem mem_onElements : e ∈ onElements s.nonzero x ↔ e ∈ s.nonzero ∧ x (indicator e) = 1 := by
  unfold onElements
  rw [Finset.mem_filter, List.mem_toFinset]

theorem width_of_mem_onElements (he : e ∈ onElements s.nonzero x) : e.width = s.width :=
  SetSpec.width_of_mem_nonzero (mem_onElements.mp he).1

theorem onesCount_pos_of_mem_onElements (he : e ∈ onElements s.nonzero x) : 0 < e.onesCount :=
  SetSpec.onesCount_pos_of_mem_nonzero (mem_onElements.mp he).1

/-- An element on its own leaves no other one uncovered. -/
theorem uncovered_singleton (e : BitVector) : uncovered {e} e = ∅ := by
  unfold uncovered
  rw [Finset.filter_singleton, if_neg]
  simp

/-- What stands for an element has energy zero. -/
theorem StandsFor.energy_eq_zero (h : StandsFor s x e) :
    (modelOf penalty s.width s.nonzero).energy x = 0 := by
  rw [energy_eq_sum_load s.width_le (SetSpec.nodup_nonzero s), h.positions, h.on]
  cases hzero : e.isZero with
  | true =>
    have hones : e.ones = ∅ := by
      rw [(BitVector.isZero_iff e).mp hzero, BitVector.ones_zeros]
    simp [hones]
  | false =>
    have hpos := (BitVector.onesCount_pos_iff e).mpr hzero
    rw [if_neg Bool.false_ne_true, Finset.sum_singleton,
      positions_add_load hpos (uncovered_singleton e), Finset.inter_self, Finset.sdiff_self,
      BitVector.card_ones]
    simp

/-- With one element on, bits that are not the element's cost at least the penalty divided by the
number of its ones. -/
theorem le_positions_add_load (hpenalty : 0 < penalty) (hones : 0 < e.onesCount)
    (hne : positions ≠ e.ones) :
    penalty / e.onesCount ≤ penalty * positions.card + load penalty width positions {e} e := by
  have hdeterrent := deterrent_nonneg width hpenalty hones
  have hcast : (1 : Rat) ≤ e.onesCount := by exact_mod_cast hones
  rw [positions_add_load hones (uncovered_singleton e)]
  have hshared : (positions ∩ e.ones).card ≤ e.onesCount := by
    rw [← BitVector.card_ones]
    exact Finset.card_le_card Finset.inter_subset_right
  have hstray : 0 ≤ (penalty + deterrent penalty width e) * ((positions \ e.ones).card : Rat) :=
    mul_nonneg (by linarith) (Nat.cast_nonneg _)
  rcases Nat.lt_or_eq_of_le hshared with hlt | heq
  · -- A one of the element is missing.
    have hmissing : (1 : Rat) ≤ e.onesCount - (positions ∩ e.ones).card := by
      have hle : ((positions ∩ e.ones).card : Rat) + 1 ≤ e.onesCount := by exact_mod_cast hlt
      linarith
    have hshare : penalty / e.onesCount ≤
        penalty * (e.onesCount - (positions ∩ e.ones).card) / e.onesCount := by
      apply div_le_div_of_nonneg_right _ (Nat.cast_nonneg _)
      exact le_mul_of_one_le_right hpenalty.le hmissing
    linarith
  · -- All ones are there, so some bit is stray.
    have hsubset : e.ones ⊆ positions := by
      have hinter : positions ∩ e.ones = e.ones := by
        apply Finset.eq_of_subset_of_card_le Finset.inter_subset_right
        rw [heq, BitVector.card_ones]
      exact Finset.inter_eq_right.mp hinter
    have hcard : (1 : Rat) ≤ (positions \ e.ones).card := by
      have hnonempty : (positions \ e.ones).Nonempty := by
        rw [Finset.sdiff_nonempty]
        exact fun hle => hne (Finset.Subset.antisymm hle hsubset)
      exact_mod_cast hnonempty.card_pos
    have hcost : penalty ≤ (penalty + deterrent penalty width e) * (positions \ e.ones).card :=
      calc penalty ≤ penalty + deterrent penalty width e := by linarith
        _ ≤ _ := le_mul_of_one_le_right (by linarith) hcard
    have hshare : penalty / e.onesCount ≤ penalty := div_le_self hpenalty.le hcast
    rw [heq, sub_self, mul_zero, zero_div, zero_add]
    linarith

/-- **What stands for no element has at least the gap.** -/
theorem le_energy_of_forall_not_standsFor (hzero : s.containsZero = true) (hpenalty : 0 < penalty)
    (h : ∀ e ∈ s.elements, ¬StandsFor s x e) :
    gap s penalty ≤ (modelOf penalty s.width s.nonzero).energy x := by
  have hmost : (1 : Rat) ≤ s.mostOnes := by exact_mod_cast s.mostOnes_pos
  have hle : gap s penalty ≤ penalty := div_le_self hpenalty.le hmost
  rw [energy_eq_sum_load s.width_le (SetSpec.nodup_nonzero s)]
  rcases Nat.lt_trichotomy (onElements s.nonzero x).card 1 with hnone | hone | htwo
  · -- No element is on. Then some bit is, for otherwise the valuation stands for zero.
    have hempty : onElements s.nonzero x = ∅ := by
      rw [← Finset.card_eq_zero]
      omega
    have hpositions : (onPositions s.width x).Nonempty := by
      rw [Finset.nonempty_iff_ne_empty]
      intro hnone
      apply h _ (SetSpec.containsZero_iff.mp hzero)
      exact ⟨by rw [hnone, BitVector.ones_zeros], by rw [hempty, BitVector.isZero_zeros]; rfl⟩
    have hcard : (1 : Rat) ≤ (onPositions s.width x).card := by
      exact_mod_cast hpositions.card_pos
    have hcost : penalty ≤ penalty * (onPositions s.width x).card :=
      le_mul_of_one_le_right hpenalty.le hcard
    rw [hempty, Finset.sum_empty]
    linarith
  · -- One element is on, and the bits are not its own.
    obtain ⟨e, he⟩ := Finset.card_eq_one.mp hone
    have hmem : e ∈ onElements s.nonzero x := he ▸ Finset.mem_singleton_self e
    obtain ⟨helement, hnonzero⟩ := SetSpec.mem_nonzero.mp (mem_onElements.mp hmem).1
    have hones := onesCount_pos_of_mem_onElements hmem
    have hne : onPositions s.width x ≠ e.ones := by
      intro hpositions
      exact h e helement ⟨hpositions, by rw [he, hnonzero]; rfl⟩
    have hdivisor : gap s penalty ≤ penalty / e.onesCount := by
      apply div_le_div_of_nonneg_left hpenalty.le
      · exact_mod_cast hones
      · exact_mod_cast SetSpec.onesCount_le_mostOnes (mem_onElements.mp hmem).1
    rw [he, Finset.sum_singleton]
    exact hdivisor.trans (le_positions_add_load hpenalty hones hne)
  · -- Two or more elements are on: the full penalty is due.
    exact hle.trans (penalty_le_of_two_on hpenalty (fun y hy => width_of_mem_onElements hy)
      (fun y hy => onesCount_pos_of_mem_onElements hy) htwo)

end spectrum

end Embedding

end SetQubo
