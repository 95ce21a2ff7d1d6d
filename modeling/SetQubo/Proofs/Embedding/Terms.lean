import Mathlib
import SetQubo.Proofs.Embedding.Shape
import SetQubo.Proofs.Model.Energy
/-!
# The terms of an embedded set

The model of a set is built up term by term. Here its energy is added up along the construction:
the bits contribute the base penalty each, and every element contributes what concerns its own
indicator. The terms between the bits and an indicator are written over whatever stands there, so
the sum is right only because nothing stands there yet, which holds as long as no element comes
twice.
-/

namespace SetQubo

namespace Variable

/-- A bit next to an indicator is the same key only for the same bit and the same element. -/
theorem beq_bit_indicator {i j : Nat} {x y : BitVector} :
    ((⟨bitAt i, indicator x⟩ : Pair Variable) == ⟨bitAt j, indicator y⟩) = true ↔
      bitAt i = bitAt j ∧ x = y := by
  rw [Pair.beq_iff]
  simp [Pair.swap, bitAt]

/-- Two indicators are never the key of a bit and an indicator. -/
theorem beq_indicators_bit {i : Nat} {x y z : BitVector} :
    ((⟨indicator x, indicator y⟩ : Pair Variable) == ⟨bitAt i, indicator z⟩) = false := by
  rw [← Bool.not_eq_true, Pair.beq_iff]
  simp [Pair.swap, bitAt]

end Variable

namespace Embedding

open Variable

/-! ## Adding up along a construction -/

/-- Steps that each add their cost to the energy add up all costs. What a step needs, `Ready`, may
speak of the steps still to come. -/
theorem energy_foldl {α : Type} {step : Model Variable Rat → α → Model Variable Rat}
    {x : Valuation Variable} (cost : α → Rat) (Ready : List α → Model Variable Rat → Prop)
    (hready : ∀ a as m, Ready (a :: as) m → Ready as (step m a))
    (henergy : ∀ a as m, Ready (a :: as) m → (step m a).energy x = m.energy x + cost a)
    (as : List α) (m : Model Variable Rat) (h : Ready as m) :
    Ready [] (as.foldl step m) ∧ (as.foldl step m).energy x = m.energy x + (as.map cost).sum := by
  -- The model changes with every step, so the induction is over all models at once.
  induction as generalizing m with
  | nil => exact ⟨h, by simp⟩
  | cons a as ih =>
    obtain ⟨hend, hsum⟩ := ih (step m a) (hready a as m h)
    refine ⟨hend, ?_⟩
    rw [List.foldl_cons, hsum, henergy a as m h, List.map_cons, List.sum_cons, add_assoc]

variable {penalty : Rat} {width : Nat} {m : Model Variable Rat}

/-! ## The bits -/

/-- What the bits contribute to the energy. -/
def bitsCost (penalty : Rat) (width : Nat) (x : Valuation Variable) : Rat :=
  ((List.range width).map fun i => if x (bitAt i) = 1 then penalty else 0).sum

theorem energy_addBits (hm : m.Consistent) (x : Valuation Variable) :
    (addBits penalty width m).energy x = m.energy x + bitsCost penalty width x := by
  unfold addBits bitsCost
  refine (energy_foldl _ (fun _ m => m.Consistent) ?_ ?_ _ m hm).2
  · intro i is m hm
    exact hm.addLinear _ _
  · intro i is m hm
    exact hm.energy_addLinear _ _ x

/-! ## The terms between bits and one indicator -/

/-- Nothing stands between the bits and the indicator of an element. -/
def Untouched (width : Nat) (e : BitVector) (m : Model Variable Rat) : Prop :=
  ∀ i < width, m.quadraticCoefficient (bitAt i) (indicator e) = 0

/-- The coefficient between a bit and the indicator of an element. -/
def bitWeight (penalty : Rat) (width : Nat) (e : BitVector) (i : Nat) : Rat :=
  if e.isSet i then -reward penalty e else deterrent penalty width e

/-- What the terms between the bits and the indicator of an element contribute. -/
def bitTermsCost (penalty : Rat) (width : Nat) (x : Valuation Variable) (e : BitVector) : Rat :=
  ((List.range width).map fun i =>
    if x (bitAt i) = 1 ∧ x (indicator e) = 1 then bitWeight penalty width e i else 0).sum

/-- The terms of one element leave those of every other one as they are. -/
theorem untouched_setBitTerms (hm : m.Consistent) {e e' : BitVector} (hne : e ≠ e')
    (h : Untouched width e' m) : Untouched width e' (setBitTerms penalty width e m) := by
  unfold setBitTerms
  refine (List.foldlRecOn (motive := fun m => m.Consistent ∧ Untouched width e' m) _ _ ⟨hm, h⟩
    ?_).2
  rintro m ⟨hm, h⟩ i -
  refine ⟨hm.setQuadratic _ _ _, ?_⟩
  intro j hj
  have hkey : ((⟨bitAt i, indicator e⟩ : Pair Variable) == ⟨bitAt j, indicator e'⟩) = false := by
    rw [← Bool.not_eq_true, beq_bit_indicator]
    exact fun hboth => hne hboth.2
  rw [hm.quadraticCoefficient_setQuadratic, hkey]
  exact h j hj

/-- What holds while the terms of one element are written: the positions still to come are below
the width, none comes twice, and nothing stands there yet. -/
structure PendingBits (width : Nat) (e : BitVector) (is : List Nat) (m : Model Variable Rat) :
    Prop where
  /-- Index and entries agree. -/
  consistent : m.Consistent
  /-- No position comes twice. -/
  nodup : is.Nodup
  /-- Every position is one of the vector. -/
  below : ∀ i ∈ is, i < width
  /-- The coefficients still to be written are 0. -/
  untouched : ∀ i ∈ is, m.quadraticCoefficient (bitAt i) (indicator e) = 0

theorem PendingBits.setQuadratic (hwidth : width ≤ 64) {e : BitVector} {i : Nat} {is : List Nat}
    (h : PendingBits width e (i :: is) m) (c : Rat) :
    PendingBits width e is (m.setQuadratic (bitAt i) (indicator e) c) := by
  obtain ⟨hnot, hnodup⟩ := List.nodup_cons.mp h.nodup
  refine ⟨h.consistent.setQuadratic _ _ _, hnodup,
    fun j hj => h.below j (List.mem_cons_of_mem _ hj), ?_⟩
  intro j hj
  have hi : i < width := h.below i List.mem_cons_self
  have hj' : j < width := h.below j (List.mem_cons_of_mem _ hj)
  -- Two positions of one element have different keys, so the later one is not written over.
  have hkey : ((⟨bitAt i, indicator e⟩ : Pair Variable) == ⟨bitAt j, indicator e⟩) = false := by
    rw [← Bool.not_eq_true, beq_bit_indicator, bitAt_inj (by omega) (by omega)]
    rintro ⟨rfl, -⟩
    exact hnot hj
  rw [h.consistent.quadraticCoefficient_setQuadratic, hkey]
  exact h.untouched j (List.mem_cons_of_mem _ hj)

theorem energy_setBitTerms (hwidth : width ≤ 64) (hm : m.Consistent) {e : BitVector}
    (h : Untouched width e m) (x : Valuation Variable) :
    (setBitTerms penalty width e m).energy x =
      m.energy x + bitTermsCost penalty width x e := by
  unfold setBitTerms bitTermsCost
  have hstart : PendingBits width e (List.range width) m :=
    ⟨hm, List.nodup_range, fun i hi => List.mem_range.mp hi,
      fun i hi => h i (List.mem_range.mp hi)⟩
  refine (energy_foldl _ (PendingBits width e) ?_ ?_ _ m hstart).2
  · intro i is m hpending
    exact hpending.setQuadratic hwidth _
  · -- What is overwritten is 0, so overwriting adds.
    intro i is m hpending
    rw [hpending.consistent.energy_setQuadratic, hpending.untouched i List.mem_cons_self, sub_zero]
    rfl

/-! ## The guards of one indicator -/

/-- What the indicator of `e` contributes next to the others that are on and not covered. -/
def guardsCost (penalty : Rat) (width : Nat) (elements : List BitVector) (x : Valuation Variable)
    (e : BitVector) : Rat :=
  (elements.map fun y =>
    if y = e || e.covers y then 0
    else if x (indicator e) = 1 ∧ x (indicator y) = 1 then deterrent penalty width e else 0).sum

/-- Guards stand between indicators only. -/
theorem untouched_addGuards (hm : m.Consistent) (elements : List BitVector) (e : BitVector)
    {e' : BitVector} (h : Untouched width e' m) :
    Untouched width e' (addGuards penalty width elements e m) := by
  unfold addGuards
  refine (List.foldlRecOn (motive := fun m => m.Consistent ∧ Untouched width e' m) _ _ ⟨hm, h⟩
    ?_).2
  rintro m ⟨hm, h⟩ y -
  split
  · exact ⟨hm, h⟩
  · refine ⟨hm.addQuadratic _ _ _, ?_⟩
    intro j hj
    rw [hm.quadraticCoefficient_addQuadratic, beq_indicators_bit, h j hj]
    simp

theorem energy_addGuards (hm : m.Consistent) (elements : List BitVector) (e : BitVector)
    (x : Valuation Variable) :
    (addGuards penalty width elements e m).energy x =
      m.energy x + guardsCost penalty width elements x e := by
  unfold addGuards guardsCost
  refine (energy_foldl _ (fun _ m => m.Consistent) ?_ ?_ _ m hm).2
  · intro y ys m hm
    split
    · exact hm
    · exact hm.addQuadratic _ _ _
  · intro y ys m hm
    split
    · rw [add_zero]
    · exact hm.energy_addQuadratic _ _ _ x

/-! ## All indicators -/

/-- What the indicator of one element contributes, with all its terms. -/
def indicatorCost (penalty : Rat) (width : Nat) (elements : List BitVector)
    (x : Valuation Variable) (e : BitVector) : Rat :=
  (if x (indicator e) = 1 then penalty else 0) + bitTermsCost penalty width x e +
    guardsCost penalty width elements x e

/-- What holds while the indicators are added: no element still to come comes twice, and nothing
stands between the bits and its indicator yet. -/
structure PendingElements (width : Nat) (es : List BitVector) (m : Model Variable Rat) : Prop where
  /-- Index and entries agree. -/
  consistent : m.Consistent
  /-- No element comes twice. -/
  nodup : es.Nodup
  /-- The coefficients still to be written are 0. -/
  untouched : ∀ e ∈ es, Untouched width e m

theorem PendingElements.addIndicator {e : BitVector} {es : List BitVector}
    (h : PendingElements width (e :: es) m) (elements : List BitVector) :
    PendingElements width es (addIndicator penalty width elements m e) := by
  obtain ⟨hnot, hnodup⟩ := List.nodup_cons.mp h.nodup
  refine ⟨consistent_addIndicator h.consistent elements e, hnodup, ?_⟩
  intro e' he'
  have hne : e ≠ e' := fun heq => hnot (heq ▸ he')
  have hlinear := h.consistent.addLinear (indicator e) penalty
  have hbefore : Untouched width e' (m.addLinear (indicator e) penalty) :=
    h.untouched e' (List.mem_cons_of_mem _ he')
  exact untouched_addGuards (consistent_setBitTerms hlinear e) elements e
    (untouched_setBitTerms hlinear hne hbefore)

theorem energy_addIndicator (hwidth : width ≤ 64) (hm : m.Consistent) {e : BitVector}
    (h : Untouched width e m) (elements : List BitVector) (x : Valuation Variable) :
    (addIndicator penalty width elements m e).energy x =
      m.energy x + indicatorCost penalty width elements x e := by
  have hlinear := hm.addLinear (indicator e) penalty
  have hbefore : Untouched width e (m.addLinear (indicator e) penalty) := h
  unfold addIndicator indicatorCost
  rw [energy_addGuards (consistent_setBitTerms hlinear e),
    energy_setBitTerms hwidth hlinear hbefore, hm.energy_addLinear]
  abel

theorem pendingElements_addBits (penalty : Rat) {es : List BitVector} (hes : es.Nodup) :
    PendingElements width es (addBits penalty width .empty) := by
  refine ⟨consistent_addBits Model.consistent_empty, hes, ?_⟩
  intro e _ i _
  unfold addBits
  exact List.foldlRecOn
    (motive := fun m : Model Variable Rat => m.quadraticCoefficient (bitAt i) (indicator e) = 0)
    _ _ (Model.quadraticCoefficient_empty _ _) fun m h j _ => h

/-- **The energy of an embedded set** is what the bits contribute, and what each element's
indicator does. -/
theorem energy_modelOf (hwidth : width ≤ 64) {elements : List BitVector} (hnodup : elements.Nodup)
    (x : Valuation Variable) :
    (modelOf penalty width elements).energy x =
      bitsCost penalty width x + (elements.map (indicatorCost penalty width elements x)).sum := by
  unfold modelOf
  have hsum := (energy_foldl (indicatorCost penalty width elements x) (PendingElements width)
    (fun e es m h => h.addIndicator elements)
    (fun e es m h => energy_addIndicator hwidth h.consistent (h.untouched e List.mem_cons_self)
      elements x)
    elements _ (pendingElements_addBits penalty hnodup)).2
  rw [hsum, energy_addBits Model.consistent_empty, Model.energy_empty, zero_add]

end Embedding

end SetQubo
