import Mathlib
import SetQubo.Proofs.FirstOccurrences
import SetQubo.Proofs.Model.Energy
import SetQubo.Proofs.Table.Determined
/-!
# Models with the same terms

Two models may have the same variables and the same coefficients and still differ as tables: their
entries stand in the order in which they came, a pair is kept as it was first written, and a
coefficient of 0 may or may not have an entry. In exact arithmetic none of that shows in an energy.
Models that compare as equal are a case of this, since their equality looks through the orientation
of a pair.
-/

namespace SetQubo

namespace Model

variable {V : Type} [Label V]

/-- Two models have the same variables, in any order, and the same coefficients. -/
structure SameTerms (m m' : Model V Rat) : Prop where
  /-- The variables are the same. -/
  mem_labels_iff (v : V) : v ∈ m'.labels ↔ v ∈ m.labels
  /-- Every variable has the same coefficient. -/
  linear {v : V} (h : v ∈ m.labels) : m'.linearCoefficient v = m.linearCoefficient v
  /-- Every pair of variables has the same coefficient, whichever way it is written. -/
  quadratic {a b : V} (ha : a ∈ m.labels) (hb : b ∈ m.labels) :
    m'.quadraticCoefficient a b = m.quadraticCoefficient a b

variable {m m' : Model V Rat}

/-! ## Coefficients of what does not occur -/

/-- A label that does not occur has no coefficient. -/
theorem Consistent.linearCoefficient_eq_zero (hm : m.Consistent) {v : V} (hv : v ∉ m.labels) :
    m.linearCoefficient v = 0 := by
  apply hm.linear.get_of_forall_ne
  intro e he
  rw [← Bool.not_eq_true]
  intro heq
  obtain rfl := LawfulBEq.eq_of_beq heq
  exact hv (mem_labels_of_linear he)

/-- A pair one of whose labels does not occur has no coefficient. -/
theorem Consistent.quadraticCoefficient_eq_zero (hm : m.Consistent) {a b : V}
    (hab : ¬(a ∈ m.labels ∧ b ∈ m.labels)) : m.quadraticCoefficient a b = 0 := by
  apply hm.quadratic.get_of_forall_ne
  intro e he
  rw [← Bool.not_eq_true]
  intro heq
  obtain ⟨hfirst, hsecond⟩ := mem_labels_of_quadratic he
  rcases Pair.beq_iff.mp heq with hwritten | hreversed
  · rw [hwritten] at hfirst hsecond
    exact hab ⟨hfirst, hsecond⟩
  · rw [hreversed] at hfirst hsecond
    exact hab ⟨hsecond, hfirst⟩

namespace SameTerms

/-- Also the labels that do not occur have the same coefficient. -/
theorem linearCoefficient_eq (h : m.SameTerms m') (hm : m.Consistent) (hm' : m'.Consistent)
    (v : V) : m'.linearCoefficient v = m.linearCoefficient v := by
  by_cases hv : v ∈ m.labels
  · exact h.linear hv
  · have hv' : v ∉ m'.labels := fun hmem => hv ((h.mem_labels_iff v).mp hmem)
    rw [hm.linearCoefficient_eq_zero hv, hm'.linearCoefficient_eq_zero hv']

/-- Also the pairs that do not occur have the same coefficient. -/
theorem quadraticCoefficient_eq (h : m.SameTerms m') (hm : m.Consistent) (hm' : m'.Consistent)
    (a b : V) : m'.quadraticCoefficient a b = m.quadraticCoefficient a b := by
  by_cases hab : a ∈ m.labels ∧ b ∈ m.labels
  · exact h.quadratic hab.1 hab.2
  · have hab' : ¬(a ∈ m'.labels ∧ b ∈ m'.labels) := fun hmem =>
      hab ⟨(h.mem_labels_iff a).mp hmem.1, (h.mem_labels_iff b).mp hmem.2⟩
    rw [hm.quadraticCoefficient_eq_zero hab, hm'.quadraticCoefficient_eq_zero hab']

/-- **Models with the same terms have the same energies**, also where some values are neither 0
nor 1. -/
theorem energy_eq (h : m.SameTerms m') (hm : m.Consistent) (hm' : m'.Consistent) :
    m'.energy = m.energy := by
  funext x
  rw [energy_eq_total, energy_eq_total]
  congr 1
  · exact hm'.linear.total_congr hm.linear (decide_on_congr x)
      fun v _ => h.linearCoefficient_eq hm hm' v
  · exact hm'.quadratic.total_congr hm.quadratic (fun _ _ hk => Pair.isOn_congr hk x)
      fun p _ => h.quadraticCoefficient_eq hm hm' p.first p.second

/-- The variables are a rearrangement of each other. -/
theorem labels_perm (h : m.SameTerms m') : m'.labels.Perm m.labels :=
  (List.perm_ext_iff_of_nodup (nodup_eraseDups _) (nodup_eraseDups _)).mpr h.mem_labels_iff

end SameTerms

/-! ## Models that compare as equal -/

/-- Every label of a model occurs in a model that is equal to it. -/
theorem mem_labels_of_beq (h : (m == m') = true) {v : V} (hv : v ∈ m.labels) : v ∈ m'.labels := by
  obtain ⟨hlinear, hquadratic⟩ := Bool.and_eq_true_iff.mp h
  rcases List.mem_append.mp (mem_labels_iff.mp hv) with hv | hv
  · obtain ⟨w, hw, heq⟩ := Table.exists_key_of_beq hlinear hv
    obtain rfl := LawfulBEq.eq_of_beq heq
    exact mem_labels_iff.mpr (List.mem_append_left _ hw)
  · obtain ⟨p, hp, hvp⟩ := List.mem_flatMap.mp hv
    obtain ⟨q, hq, heq⟩ := Table.exists_key_of_beq hquadratic hp
    -- The equal pair may be written the other way round.
    have hvq : v ∈ [q.first, q.second] := by
      rcases Pair.beq_iff.mp heq with rfl | rfl
      · exact hvp
      · simpa [Pair.swap, or_comm] using hvp
    exact mem_labels_iff.mpr (List.mem_append_right _ (List.mem_flatMap.mpr ⟨q, hq, hvq⟩))

theorem beq_symm (h : (m == m') = true) : (m' == m) = true := by
  obtain ⟨hlinear, hquadratic⟩ := Bool.and_eq_true_iff.mp h
  exact Bool.and_eq_true_iff.mpr ⟨Table.beq_symm hlinear, Table.beq_symm hquadratic⟩

/-- **Models that compare as equal have the same terms.** -/
theorem sameTerms_of_beq (hm : m.Consistent) (hm' : m'.Consistent) (h : (m == m') = true) :
    m.SameTerms m' := by
  obtain ⟨hlinear, hquadratic⟩ := Bool.and_eq_true_iff.mp h
  constructor
  case mem_labels_iff =>
    exact fun v => ⟨mem_labels_of_beq (beq_symm h), mem_labels_of_beq h⟩
  case linear =>
    intro v _
    exact (hm.linear.get_congr_of_beq hm'.linear hlinear v).symm
  case quadratic =>
    intro a b _ _
    exact (hm.quadratic.get_congr_of_beq hm'.quadratic hquadratic ⟨a, b⟩).symm

end Model

end SetQubo
