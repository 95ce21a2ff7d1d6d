import Mathlib
import SetQubo.Proofs.Model.Consistency
import SetQubo.Proofs.Model.Labels
import SetQubo.Proofs.Pair
import SetQubo.Proofs.Table.Total
/-!
# Energies in exact arithmetic

With exact coefficients an energy is the sum of two totals, and a step on a model changes it by the
change of one coefficient, provided that the labels of the term are on. Both hold of every
**consistent** model, that is, of every model built up step by step.
-/

namespace SetQubo

namespace Model

variable {V : Type} [Label V]

/-! ## The energy as two totals -/

/-- The energy is the total of what is on in both tables. -/
theorem energy_eq_total (m : Model V Rat) (x : Valuation V) :
    m.energy x = m.linear.total (fun v => x v = 1) + m.quadratic.total (·.isOn x) := by
  have hlinear := m.linear.foldl_eq_total (fun v => x v = 1) 0
  have hquadratic := m.quadratic.foldl_eq_total (·.isOn x) (m.linear.total fun v => x v = 1)
  rw [← hquadratic, ← zero_add (m.linear.total _), ← hlinear]
  simp only [decide_eq_true_eq]
  rfl

/-- The model without terms has no coefficient. -/
theorem quadraticCoefficient_empty (a b : V) :
    (empty : Model V Rat).quadraticCoefficient a b = 0 := by
  apply (consistent_empty (V := V) (S := Rat)).quadratic.get_of_forall_ne
  intro e he
  cases he

@[simp] theorem energy_empty (x : Valuation V) : (empty : Model V Rat).energy x = 0 := rfl

/-! ## Steps -/

variable {m : Model V Rat}

/-- Equal labels are the same, so a label is on or off as a key. -/
theorem decide_on_congr (x : Valuation V) (v w : V) (h : (v == w) = true) :
    decide (x v = 1) = decide (x w = 1) := by
  rw [LawfulBEq.eq_of_beq h]

/-- Adding to the coefficient of a variable changes the energy by as much, if the variable is on. -/
theorem Consistent.energy_addLinear (h : m.Consistent) (v : V) (c : Rat) (x : Valuation V) :
    (m.addLinear v c).energy x = m.energy x + if x v = 1 then c else 0 := by
  rw [energy_eq_total, energy_eq_total]
  show (m.linear.add v c).total _ + m.quadratic.total _ = _
  rw [h.linear.total_add (decide_on_congr x)]
  simp only [decide_eq_true_eq]
  abel

/-- Overwriting the coefficient of a variable changes the energy by the difference, if the variable
is on. -/
theorem Consistent.energy_setLinear (h : m.Consistent) (v : V) (c : Rat) (x : Valuation V) :
    (m.setLinear v c).energy x =
      m.energy x + if x v = 1 then c - m.linearCoefficient v else 0 := by
  rw [energy_eq_total, energy_eq_total]
  show (m.linear.set v c).total _ + m.quadratic.total _ = _
  rw [h.linear.total_set (decide_on_congr x)]
  simp only [decide_eq_true_eq, linearCoefficient]
  abel

/-- Adding to the coefficient of a pair changes the energy by as much, if both labels are on. -/
theorem Consistent.energy_addQuadratic (h : m.Consistent) (a b : V) (c : Rat) (x : Valuation V) :
    (m.addQuadratic a b c).energy x = m.energy x + if x a = 1 ∧ x b = 1 then c else 0 := by
  rw [energy_eq_total, energy_eq_total]
  show m.linear.total _ + (m.quadratic.add ⟨a, b⟩ c).total _ = _
  rw [h.quadratic.total_add fun _ _ hk => Pair.isOn_congr hk x]
  simp only [Pair.isOn, Bool.and_eq_true, decide_eq_true_eq]
  abel

/-- Overwriting the coefficient of a pair changes the energy by the difference, if both labels are
on. -/
theorem Consistent.energy_setQuadratic (h : m.Consistent) (a b : V) (c : Rat) (x : Valuation V) :
    (m.setQuadratic a b c).energy x =
      m.energy x + if x a = 1 ∧ x b = 1 then c - m.quadraticCoefficient a b else 0 := by
  rw [energy_eq_total, energy_eq_total]
  show m.linear.total _ + (m.quadratic.set ⟨a, b⟩ c).total _ = _
  rw [h.quadratic.total_set fun _ _ hk => Pair.isOn_congr hk x]
  simp only [Pair.isOn, Bool.and_eq_true, decide_eq_true_eq, quadraticCoefficient]
  abel

/-- A step on one pair leaves the coefficient of every other one as it is. -/
theorem Consistent.quadraticCoefficient_setQuadratic (h : m.Consistent) (a b a' b' : V) (c : Rat) :
    (m.setQuadratic a b c).quadraticCoefficient a' b' =
      if (⟨a, b⟩ : Pair V) == ⟨a', b'⟩ then c else m.quadraticCoefficient a' b' :=
  h.quadratic.get_set _ _ c

theorem Consistent.quadraticCoefficient_addQuadratic (h : m.Consistent) (a b a' b' : V) (c : Rat) :
    (m.addQuadratic a b c).quadraticCoefficient a' b' =
      m.quadraticCoefficient a' b' + if (⟨a, b⟩ : Pair V) == ⟨a', b'⟩ then c else 0 :=
  h.quadratic.get_add _ _ c

/-! ## Ground states -/

/-- Every variable is off or on, and no such valuation has a lower energy. -/
structure IsGroundState (m : Model V Rat) (x : Valuation V) : Prop where
  /-- Every variable is off or on. -/
  binary : m.IsBinary x
  /-- The energy is the least. -/
  least : ∀ y, m.IsBinary y → m.energy x ≤ m.energy y

/-- If a binary valuation has energy zero and none has a negative one, then the ground states are
the binary valuations with energy zero. -/
theorem isGroundState_iff (hnonneg : ∀ y, m.IsBinary y → 0 ≤ m.energy y)
    {z : Valuation V} (hz : m.IsBinary z) (henergy : m.energy z = 0) (x : Valuation V) :
    m.IsGroundState x ↔ m.IsBinary x ∧ m.energy x = 0 := by
  constructor
  · intro h
    have hle := h.least z hz
    rw [henergy] at hle
    exact ⟨h.binary, le_antisymm hle (hnonneg x h.binary)⟩
  · intro hboth
    obtain ⟨hx, hzero⟩ := hboth
    refine ⟨hx, fun y hy => ?_⟩
    rw [hzero]
    exact hnonneg y hy

end Model

end SetQubo
