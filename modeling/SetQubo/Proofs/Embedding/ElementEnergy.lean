import SetQubo.Proofs.Embedding.Spectrum
import SetQubo.Proofs.Table.Rebuild
/-!
# How the energy of an element is added up

What stands for an element has energy zero in exact arithmetic. In rounded arithmetic it matters how
the energy is added up: first the penalty for each of the element's bits and for its indicator, then
what the indicator is paid for each bit. Nothing else is on, so the sum depends on nothing but the
penalty and the number of ones.
-/

namespace SetQubo

namespace Embedding

open Variable

variable {S : Type} [Scalar S]

/-- The penalty for each bit and for the indicator, and then the rewards. -/
def elementEnergy (penalty : S) (e : BitVector) : S :=
  if e.isZero then 0
  else (List.replicate e.onesCount (-reward penalty e)).foldl (· + ·)
    ((List.replicate (e.onesCount + 1) penalty).foldl (· + ·) 0)

/-- If all entries that count have one coefficient, it is added as often as there are such
entries. -/
theorem foldl_eq_foldl_replicate {K : Type} (on : K → Bool) (es : List (K × S)) {c : S}
    (hc : ∀ t ∈ es, on t.1 = true → t.2 = c) (a : S) :
    es.foldl (fun s t => if on t.1 then s + t.2 else s) a =
      (List.replicate (es.countP fun t => on t.1) c).foldl (· + ·) a := by
  induction es generalizing a with
  | nil => rfl
  | cons t es ih =>
    have hrest := ih fun t' ht' => hc t' (List.mem_cons_of_mem _ ht')
    rw [List.foldl_cons, hrest, List.countP_cons]
    cases hon : on t.1 with
    | true =>
      rw [hc t List.mem_cons_self hon, if_pos rfl, if_pos rfl, List.replicate_succ, List.foldl_cons]
    | false => rw [if_neg Bool.false_ne_true, if_neg Bool.false_ne_true, Nat.add_zero]

/-! ## The terms of single variables -/

section linear
variable {s : SetSpec} {x : Valuation Variable} {e : BitVector}

/-- Every variable has the penalty as its coefficient. -/
theorem toList_linear_modelOf (s : SetSpec) (penalty : S) :
    (modelOf penalty s.width s.nonzero).linear.toList =
      (variableList s.width s.nonzero).map fun v => (v, penalty) := by
  have hlist : (modelOf penalty s.width s.nonzero).linear =
      .ofList ((variableList s.width s.nonzero).map fun v => (v, penalty)) := by
    rw [linear_modelOf, Table.ofList, Table.addAll, List.foldl_map]
  rw [hlist]
  apply Table.toList_ofList
  rw [List.pairwise_map]
  refine (nodup_variableList s.width_le (SetSpec.nodup_nonzero s)).imp fun hne => ?_
  rw [beq_eq_false_iff_ne]
  exact hne

/-- As many variables are on as bits and indicators are. -/
theorem countP_variableList (s : SetSpec) (x : Valuation Variable) :
    (variableList s.width s.nonzero).countP (fun v => decide (x v = 1)) =
      (onPositions s.width x).card + (onElements s.nonzero x).card := by
  have helements : (onElements s.nonzero x).card =
      (s.nonzero.filter fun y => decide (x (indicator y) = 1)).length := by
    rw [← List.toFinset_card_of_nodup ((SetSpec.nodup_nonzero s).filter _), List.toFinset_filter]
    simp [onElements]
  have hpositions : (onPositions s.width x).card =
      ((List.range s.width).filter fun i => decide (x (bitAt i) = 1)).length := rfl
  unfold variableList
  rw [List.countP_append, List.countP_map, List.countP_map, List.countP_eq_length_filter,
    List.countP_eq_length_filter, helements, hpositions]
  rfl

theorem StandsFor.countP_linear (h : StandsFor s x e) (penalty : S) :
    (modelOf penalty s.width s.nonzero).linear.toList.countP (fun t => decide (x t.1 = 1)) =
      if e.isZero then 0 else e.onesCount + 1 := by
  rw [toList_linear_modelOf, List.countP_map]
  have hcount := countP_variableList s x
  rw [h.positions, h.on, BitVector.card_ones] at hcount
  refine hcount.trans ?_
  cases hzero : e.isZero with
  | true =>
    have hones : e.onesCount = 0 := by
      by_contra hne
      have hnonzero := (BitVector.onesCount_pos_iff e).mp (Nat.pos_of_ne_zero hne)
      rw [hzero] at hnonzero
      cases hnonzero
    simp [hones]
  | false => simp

end linear

/-! ## The terms of pairs -/

/-- What stands in the table of pairs: between a bit and an indicator a reward or a deterrent, and
otherwise something between two different indicators. -/
def IsTerm (penalty : S) (width : Nat) (t : Pair Variable × S) : Prop :=
  (∃ i < width, ∃ y, t.1 = ⟨bitAt i, indicator y⟩ ∧
    t.2 = if y.isSet i then -reward penalty y else deterrent penalty width y) ∨
  ∃ y z, y ≠ z ∧ t.1 = ⟨indicator y, indicator z⟩

section quadratic
variable {penalty : S} {width : Nat} {m : Model Variable S}

/-- All entries of the table of pairs are terms. -/
def Terms (penalty : S) (width : Nat) (m : Model Variable S) : Prop :=
  ∀ t ∈ m.quadratic.toList, IsTerm penalty width t

/-- A step that makes a term of the entry it touches keeps all entries terms. -/
theorem Terms.upsert (hm : m.Consistent) (h : Terms penalty width m) {k : Pair Variable}
    {update : S → S} {new : S} (hnew : IsTerm penalty width (k, new))
    (hupdate : ∀ t, IsTerm penalty width t → (t.1 == k) = true →
      IsTerm penalty width (t.1, update t.2)) :
    ∀ t ∈ (m.quadratic.upsert k update new).toList, IsTerm penalty width t := by
  rcases hm.quadratic.upsert_cases k update new with
    ⟨before, after, k', c, hk, hlist, hlist'⟩ | ⟨-, hlist'⟩
  · intro t ht
    rw [hlist'] at ht
    have hold : ∀ t ∈ before ++ (k', c) :: after, IsTerm penalty width t := hlist ▸ h
    rcases List.mem_append.mp ht with ht | ht
    · exact hold t (List.mem_append_left _ ht)
    · rcases List.mem_cons.mp ht with rfl | ht
      · exact hupdate (k', c) (hold _ (by simp)) hk
      · exact hold t (List.mem_append_right _ (List.mem_cons_of_mem _ ht))
  · intro t ht
    rw [hlist'] at ht
    rcases List.mem_append.mp ht with ht | ht
    · exact h t ht
    · rw [List.mem_singleton.mp ht]
      exact hnew

theorem Terms.setBitTerms (hwidth : width ≤ 64) (hm : m.Consistent) (h : Terms penalty width m)
    (e : BitVector) : Terms penalty width (setBitTerms penalty width e m) := by
  unfold Embedding.setBitTerms
  refine (List.foldlRecOn (motive := fun m => m.Consistent ∧ Terms penalty width m) _ _ ⟨hm, h⟩
    ?_).2
  rintro m ⟨hm, h⟩ i hi
  rw [List.mem_range] at hi
  refine ⟨hm.setQuadratic _ _ _, Terms.upsert hm h (Or.inl ⟨i, hi, e, rfl, rfl⟩) ?_⟩
  rintro t (⟨j, hj, y, hkey, -⟩ | ⟨y, z, -, hkey⟩) hk
  · -- An entry for the same bit and the same element is overwritten with its own weight.
    rw [hkey, beq_bit_indicator, bitAt_inj (by omega) (by omega)] at hk
    obtain ⟨rfl, rfl⟩ := hk
    exact Or.inl ⟨j, hj, y, hkey, rfl⟩
  · rw [hkey, beq_indicators_bit] at hk
    cases hk

theorem Terms.addGuards (hm : m.Consistent) (h : Terms penalty width m)
    (elements : List BitVector) (e : BitVector) :
    Terms penalty width (addGuards penalty width elements e m) := by
  unfold Embedding.addGuards
  refine (List.foldlRecOn (motive := fun m => m.Consistent ∧ Terms penalty width m) _ _ ⟨hm, h⟩
    ?_).2
  rintro m ⟨hm, h⟩ y _
  split
  · exact ⟨hm, h⟩
  · next hguard =>
    have hne : e ≠ y := fun heq => hguard (by simp [heq])
    refine ⟨hm.addQuadratic _ _ _, Terms.upsert hm h (Or.inr ⟨e, y, hne, rfl⟩) ?_⟩
    rintro t (⟨j, _, z, hkey, -⟩ | ⟨z, z', hz, hkey⟩) hk
    · -- A guard never falls on an entry for a bit.
      rw [hkey] at hk
      have hk' := BEq.symm hk
      rw [beq_indicators_bit] at hk'
      cases hk'
    · exact Or.inr ⟨z, z', hz, hkey⟩

theorem terms_modelOf (hwidth : width ≤ 64) (penalty : S) (elements : List BitVector) :
    Terms penalty width (modelOf penalty width elements) := by
  have hstart : Terms penalty width (addBits penalty width .empty) := by
    unfold addBits
    refine List.foldlRecOn _ _ ?_ fun m h i _ => h
    intro t ht
    cases ht
  unfold modelOf
  refine (List.foldlRecOn (motive := fun m => m.Consistent ∧ Terms penalty width m) _ _
    ⟨consistent_addBits Model.consistent_empty, hstart⟩ ?_).2
  rintro m ⟨hm, h⟩ e -
  have hlinear := hm.addLinear (indicator e) penalty
  exact ⟨consistent_addIndicator hm elements e,
    (Terms.setBitTerms hwidth hlinear h e).addGuards (consistent_setBitTerms hlinear e) elements e⟩

end quadratic

section quadratic
variable {s : SetSpec} {x : Valuation Variable} {e : BitVector} {penalty : S}

/-- No indicator is on but the element's own. -/
theorem StandsFor.of_indicator_on (h : StandsFor s x e) {y : BitVector}
    (hy : indicator y ∈ variableList s.width s.nonzero) (hone : x (indicator y) = 1) :
    y = e ∧ e.isZero = false := by
  have hon := h.on ▸ mem_onElements.mpr ⟨mem_of_indicator_mem hy, hone⟩
  split at hon
  · cases hon
  · next hzero => exact ⟨Finset.mem_singleton.mp hon, Bool.eq_false_iff.mpr hzero⟩

/-- Every pair that is on holds a bit of the element and its indicator, and has the reward. -/
theorem StandsFor.coefficient_eq (h : StandsFor s x e) {t : Pair Variable × S}
    (ht : t ∈ (modelOf penalty s.width s.nonzero).quadratic.toList) (hon : t.1.isOn x = true) :
    e.isZero = false ∧ t.2 = -reward penalty e := by
  have hpair := pairsIn_modelOf penalty s.width s.nonzero t.1 (List.mem_map_of_mem ht)
  simp only [Pair.isOn, Bool.and_eq_true, decide_eq_true_eq] at hon
  rcases terms_modelOf s.width_le penalty s.nonzero t ht with
    ⟨i, hi, y, hkey, hcoefficient⟩ | ⟨y, z, hne, hkey⟩
  · rw [hkey] at hpair hon
    obtain ⟨rfl, hzero⟩ := h.of_indicator_on hpair.2 hon.2
    have hone : i ∈ y.ones := by
      rw [← h.positions]
      exact Finset.mem_filter.mpr ⟨Finset.mem_range.mpr hi, hon.1⟩
    rw [hcoefficient, if_pos (BitVector.mem_ones.mp hone)]
    exact ⟨hzero, rfl⟩
  · -- Two indicators are never on together.
    rw [hkey] at hpair hon
    obtain ⟨rfl, -⟩ := h.of_indicator_on hpair.1 hon.1
    obtain ⟨rfl, -⟩ := h.of_indicator_on hpair.2 hon.2
    exact absurd rfl hne

/-- The energy of an element, up to the number of pairs that are on. -/
theorem StandsFor.energy_eq_foldl (h : StandsFor s x e) :
    (modelOf penalty s.width s.nonzero).energy x =
      (List.replicate ((modelOf penalty s.width s.nonzero).quadratic.toList.countP
          fun t => t.1.isOn x) (-reward penalty e)).foldl (· + ·)
        ((List.replicate (if e.isZero then 0 else e.onesCount + 1) penalty).foldl (· + ·) 0) := by
  have hlinear := foldl_eq_foldl_replicate (fun v => decide (x v = 1))
    (modelOf penalty s.width s.nonzero).linear.toList (c := penalty) (fun t ht _ => by
      rw [toList_linear_modelOf] at ht
      obtain ⟨v, -, rfl⟩ := List.mem_map.mp ht
      rfl) 0
  rw [h.countP_linear] at hlinear
  rw [Model.energy_eq_foldl, ← foldl_eq_foldl_replicate (fun p : Pair Variable => p.isOn x) _
    (fun t ht hon => (h.coefficient_eq ht hon).2), ← hlinear]
  simp only [decide_eq_true_eq]

end quadratic

end Embedding

end SetQubo
