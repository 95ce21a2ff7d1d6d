import Mathlib
import SetQubo.Proofs.BitVector.Ones
import SetQubo.Proofs.Embedding.Terms
import SetQubo.Proofs.SetSpec.Distinct
/-!
# The energy landscape of an embedded set

An energy depends on two finite sets: the positions whose bits are on, and the elements whose
indicators are on. Every position costs the base penalty, and every element carries a **load**: its
own penalty, less the rewards for the bits that it shares, plus the deterrents for the bits and the
other elements that contradict it.

* With no element on, the energy is what the bits cost.
* With one element on, it is zero if the bits are that element, and otherwise at least the base
  penalty divided by the number of the element's ones.
* With two or more elements on, it is at least the base penalty. At most one of them covers all
  others, and an element that does not cover all others has a load of at least the penalty, whatever
  its bits earn.
-/

namespace SetQubo

namespace Embedding

open Variable

/-! ## What is on -/

/-- The positions whose bits are on. -/
def onPositions (width : Nat) (x : Valuation Variable) : Finset Nat :=
  (Finset.range width).filter fun i => x (bitAt i) = 1

/-- The elements whose indicators are on. -/
def onElements (elements : List BitVector) (x : Valuation Variable) : Finset BitVector :=
  elements.toFinset.filter fun e => x (indicator e) = 1

/-- The elements that are on next to `e` and not covered by it. -/
def uncovered (on : Finset BitVector) (e : BitVector) : Finset BitVector :=
  on.filter fun y => y ≠ e ∧ e.covers y = false

/-- What an element that is on adds to the energy, given all that is on. -/
def load (penalty : Rat) (width : Nat) (positions : Finset Nat) (on : Finset BitVector)
    (e : BitVector) : Rat :=
  penalty - reward penalty e * (positions ∩ e.ones).card +
    deterrent penalty width e * (positions \ e.ones).card +
    deterrent penalty width e * (uncovered on e).card

/-! ## The energy as a sum of loads -/

variable {penalty : Rat} {width : Nat} {elements : List BitVector} {e : BitVector}

theorem sum_map_range (f : Nat → Rat) (n : Nat) :
    ((List.range n).map f).sum = ∑ i ∈ Finset.range n, f i := rfl

theorem bitsCost_eq (x : Valuation Variable) :
    bitsCost penalty width x = penalty * (onPositions width x).card := by
  unfold bitsCost onPositions
  rw [sum_map_range, ← Finset.sum_filter, Finset.sum_const, nsmul_eq_mul, mul_comm]

/-- Next to an indicator that is on, every bit that is on counts with its weight. -/
theorem bitTermsCost_of_on (x : Valuation Variable) (he : x (indicator e) = 1) :
    bitTermsCost penalty width x e =
      -reward penalty e * (onPositions width x ∩ e.ones).card +
        deterrent penalty width e * (onPositions width x \ e.ones).card := by
  -- The bits that are on fall into those that the element has and those that it has not.
  have hshared : (onPositions width x).filter (fun i => e.isSet i = true) =
      onPositions width x ∩ e.ones := by
    ext i
    rw [Finset.mem_filter, Finset.mem_inter, BitVector.mem_ones]
  have hother : (onPositions width x).filter (fun i => ¬e.isSet i = true) =
      onPositions width x \ e.ones := by
    ext i
    rw [Finset.mem_filter, Finset.mem_sdiff, BitVector.mem_ones]
  unfold bitTermsCost
  rw [sum_map_range]
  simp only [he, and_true]
  rw [← Finset.sum_filter]
  show ∑ i ∈ onPositions width x, bitWeight penalty width e i = _
  unfold bitWeight
  rw [Finset.sum_ite, hshared, hother, Finset.sum_const, Finset.sum_const, nsmul_eq_mul,
    nsmul_eq_mul]
  ring

/-- An indicator that is on pays for every other one that is on and not covered. -/
theorem guardsCost_of_on (hnodup : elements.Nodup) (x : Valuation Variable)
    (he : x (indicator e) = 1) :
    guardsCost penalty width elements x e =
      deterrent penalty width e * (uncovered (onElements elements x) e).card := by
  unfold guardsCost uncovered onElements
  rw [← List.sum_toFinset _ hnodup, Finset.filter_filter]
  -- The test for a guard and the test for what is on become one condition on the element.
  have hterm : ∀ y ∈ elements.toFinset,
      (if (decide (y = e) || e.covers y) = true then (0 : Rat)
        else if x (indicator e) = 1 ∧ x (indicator y) = 1 then deterrent penalty width e else 0) =
      if x (indicator y) = 1 ∧ y ≠ e ∧ e.covers y = false
        then deterrent penalty width e else 0 := by
    intro y _
    by_cases hy : y = e
    · simp [hy]
    · by_cases hcovers : e.covers y = true
      · simp [hcovers]
      · by_cases hon : x (indicator y) = 1
        · simp [hy, hcovers, he, hon]
        · simp [hy, hcovers, hon]
  rw [Finset.sum_congr rfl hterm, ← Finset.sum_filter, Finset.sum_const, nsmul_eq_mul, mul_comm]

/-- An element contributes its load if its indicator is on, and nothing otherwise. -/
theorem indicatorCost_eq (hnodup : elements.Nodup) (x : Valuation Variable) (e : BitVector) :
    indicatorCost penalty width elements x e =
      if x (indicator e) = 1 then
        load penalty width (onPositions width x) (onElements elements x) e else 0 := by
  unfold indicatorCost
  by_cases he : x (indicator e) = 1
  · rw [if_pos he, if_pos he, bitTermsCost_of_on x he, guardsCost_of_on hnodup x he]
    unfold load
    ring
  · have hbits : bitTermsCost penalty width x e = 0 := by
      unfold bitTermsCost
      simp [he]
    have hguards : guardsCost penalty width elements x e = 0 := by
      unfold guardsCost
      simp [he]
    rw [if_neg he, if_neg he, hbits, hguards]
    norm_num

/-- **The energy of an embedded set** is the cost of the positions and the load of every element
that is on. -/
theorem energy_eq_sum_load (hwidth : width ≤ 64) (hnodup : elements.Nodup)
    (x : Valuation Variable) :
    (modelOf penalty width elements).energy x =
      penalty * (onPositions width x).card +
        ∑ e ∈ onElements elements x,
          load penalty width (onPositions width x) (onElements elements x) e := by
  rw [energy_modelOf hwidth hnodup, bitsCost_eq, ← List.sum_toFinset _ hnodup,
    Finset.sum_congr rfl fun e _ => indicatorCost_eq hnodup x e, ← Finset.sum_filter]
  rfl

end Embedding

end SetQubo
