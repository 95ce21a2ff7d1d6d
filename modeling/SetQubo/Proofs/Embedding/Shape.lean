import Mathlib.Data.List.Nodup
import SetQubo.Embedding.Basic
import SetQubo.Proofs.FirstOccurrences
import SetQubo.Proofs.Model.Consistency
/-!
# The shape of an embedded set

Whatever the arithmetic, the model of a set has consistent tables, and its variables are the bits
in the order of their positions, followed by the indicators in the order of their elements. The
linear table has them all; the pairs bring in no others.
-/

namespace SetQubo

namespace Variable

/-- Different positions have different bits. -/
theorem bitAt_inj {i j : Nat} (hi : i < 64) (hj : j < 64) : bitAt i = bitAt j ↔ i = j := by
  constructor
  · intro h
    have hofNat : UInt64.ofNat i = UInt64.ofNat j := Variable.bit.inj h
    have htoNat := congrArg UInt64.toNat hofNat
    rwa [UInt64.toNat_ofNat_of_lt' (Nat.lt_trans hi (by decide)),
      UInt64.toNat_ofNat_of_lt' (Nat.lt_trans hj (by decide))] at htoNat
  · rintro rfl
    rfl

end Variable

namespace Embedding

open Variable

variable {S : Type} [Scalar S] {penalty : S} {width : Nat} {m : Model Variable S}

/-! ## Consistency -/

theorem consistent_addBits (hm : m.Consistent) : (addBits penalty width m).Consistent := by
  unfold addBits
  exact List.foldlRecOn _ _ hm fun m hm i _ => hm.addLinear _ _

theorem consistent_setBitTerms (hm : m.Consistent) (e : BitVector) :
    (setBitTerms penalty width e m).Consistent := by
  unfold setBitTerms
  exact List.foldlRecOn _ _ hm fun m hm i _ => hm.setQuadratic _ _ _

theorem consistent_addGuards (hm : m.Consistent) (elements : List BitVector) (e : BitVector) :
    (addGuards penalty width elements e m).Consistent := by
  unfold addGuards
  refine List.foldlRecOn _ _ hm fun m hm y _ => ?_
  split
  · exact hm
  · exact hm.addQuadratic _ _ _

theorem consistent_addIndicator (hm : m.Consistent) (elements : List BitVector) (e : BitVector) :
    (addIndicator penalty width elements m e).Consistent :=
  consistent_addGuards (consistent_setBitTerms (hm.addLinear _ _) e) elements e

/-- Both tables of an embedded model are consistent. -/
theorem consistent_modelOf (penalty : S) (width : Nat) (elements : List BitVector) :
    (modelOf penalty width elements).Consistent := by
  unfold modelOf
  exact List.foldlRecOn _ _ (consistent_addBits Model.consistent_empty)
    fun m hm e _ => consistent_addIndicator hm elements e

/-! ## The linear table -/

/-- The variables of an embedded set: the bits, then the indicators. -/
def variableList (width : Nat) (elements : List BitVector) : List Variable :=
  (List.range width).map bitAt ++ elements.map indicator

/-- An indicator among the variables is that of an element. -/
theorem mem_of_indicator_mem {elements : List BitVector} {x : BitVector}
    (h : indicator x ∈ variableList width elements) : x ∈ elements := by
  rcases List.mem_append.mp h with hbit | hindicator
  · obtain ⟨i, -, hi⟩ := List.mem_map.mp hbit
    cases hi
  · obtain ⟨y, hy, heq⟩ := List.mem_map.mp hindicator
    exact Variable.indicator.inj heq ▸ hy

theorem nodup_variableList (hwidth : width ≤ 64) {elements : List BitVector}
    (hnodup : elements.Nodup) : (variableList width elements).Nodup := by
  unfold variableList
  rw [List.nodup_append]
  refine ⟨?_, ?_, ?_⟩
  · apply List.Nodup.map_on _ List.nodup_range
    intro i hi j hj h
    rw [List.mem_range] at hi hj
    exact (bitAt_inj (by omega) (by omega)).mp h
  · exact List.Nodup.map (fun _ _ h => Variable.indicator.inj h) hnodup
  · intro v hv v' hv' heq
    obtain ⟨i, -, rfl⟩ := List.mem_map.mp hv
    obtain ⟨e, -, rfl⟩ := List.mem_map.mp hv'
    cases heq

theorem linear_setBitTerms (e : BitVector) :
    (setBitTerms penalty width e m).linear = m.linear := by
  unfold setBitTerms
  exact List.foldlRecOn (motive := fun m' : Model Variable S => m'.linear = m.linear) _ _ rfl
    fun m' h i _ => h

theorem linear_addGuards (elements : List BitVector) (e : BitVector) :
    (addGuards penalty width elements e m).linear = m.linear := by
  unfold addGuards
  refine List.foldlRecOn (motive := fun m' : Model Variable S => m'.linear = m.linear) _ _ rfl
    fun m' h y _ => ?_
  split
  · exact h
  · exact h

theorem linear_addIndicator (elements : List BitVector) (e : BitVector) :
    (addIndicator penalty width elements m e).linear = m.linear.add (indicator e) penalty := by
  unfold addIndicator
  rw [linear_addGuards, linear_setBitTerms]
  rfl

theorem linear_addBits :
    (addBits penalty width m).linear =
      ((List.range width).map bitAt).foldl (fun t v => t.add v penalty) m.linear := by
  unfold addBits
  rw [List.foldl_map]
  induction List.range width generalizing m with
  | nil => rfl
  | cons i is ih => exact ih

/-- The linear table is filled with the variables, one after the other. -/
theorem linear_modelOf (penalty : S) (width : Nat) (elements : List BitVector) :
    (modelOf penalty width elements).linear =
      (variableList width elements).foldl (fun t v => t.add v penalty) .empty := by
  -- Each element adds its own indicator, whatever it does to the pairs.
  have hindicators : ∀ (es : List BitVector) (m : Model Variable S),
      (es.foldl (addIndicator penalty width elements) m).linear =
        (es.map indicator).foldl (fun t v => t.add v penalty) m.linear := by
    intro es
    induction es with
    | nil => exact fun m => rfl
    | cons e es ih =>
      intro m
      rw [List.foldl_cons, ih, linear_addIndicator, List.map_cons, List.foldl_cons]
  unfold modelOf variableList
  rw [hindicators, linear_addBits, List.foldl_append]
  rfl

theorem keys_linear_modelOf (hwidth : width ≤ 64) (penalty : S) {elements : List BitVector}
    (hnodup : elements.Nodup) :
    (modelOf penalty width elements).linear.keys = variableList width elements := by
  rw [linear_modelOf, Table.consistent_empty.keys_foldl_add]
  · rfl
  · exact nodup_variableList hwidth hnodup

/-! ## The quadratic table -/

/-- All pairs are made of the given variables. -/
def PairsIn (vs : List Variable) (m : Model Variable S) : Prop :=
  ∀ p ∈ m.quadratic.keys, p.first ∈ vs ∧ p.second ∈ vs

variable {vs : List Variable} {a b : Variable}

omit [Scalar S] in
theorem PairsIn.setQuadratic (hm : m.Consistent) (h : PairsIn vs m) (ha : a ∈ vs) (hb : b ∈ vs)
    (c : S) : PairsIn vs (m.setQuadratic a b c) := by
  intro p hp
  rcases hm.quadratic.mem_keys_upsert hp with hp | rfl
  · exact h p hp
  · exact ⟨ha, hb⟩

theorem PairsIn.addQuadratic (hm : m.Consistent) (h : PairsIn vs m) (ha : a ∈ vs) (hb : b ∈ vs)
    (c : S) : PairsIn vs (m.addQuadratic a b c) := by
  intro p hp
  rcases hm.quadratic.mem_keys_upsert hp with hp | rfl
  · exact h p hp
  · exact ⟨ha, hb⟩

theorem PairsIn.setBitTerms (penalty : S) (hm : m.Consistent) (h : PairsIn vs m) {e : BitVector}
    (hbits : ∀ i < width, bitAt i ∈ vs) (he : indicator e ∈ vs) :
    PairsIn vs (setBitTerms penalty width e m) := by
  unfold Embedding.setBitTerms
  refine (List.foldlRecOn (motive := fun m => m.Consistent ∧ PairsIn vs m) _ _ ⟨hm, h⟩ ?_).2
  rintro m ⟨hm, h⟩ i hi
  exact ⟨hm.setQuadratic _ _ _, h.setQuadratic hm (hbits i (List.mem_range.mp hi)) he _⟩

theorem PairsIn.addGuards (hm : m.Consistent) (h : PairsIn vs m) {elements : List BitVector}
    {e : BitVector} (hes : ∀ y ∈ elements, indicator y ∈ vs) (he : indicator e ∈ vs) :
    PairsIn vs (addGuards penalty width elements e m) := by
  unfold Embedding.addGuards
  refine (List.foldlRecOn (motive := fun m => m.Consistent ∧ PairsIn vs m) _ _ ⟨hm, h⟩ ?_).2
  rintro m ⟨hm, h⟩ y hy
  split
  · exact ⟨hm, h⟩
  · exact ⟨hm.addQuadratic _ _ _, h.addQuadratic hm he (hes y hy) _⟩

theorem pairsIn_modelOf (penalty : S) (width : Nat) (elements : List BitVector) :
    PairsIn (variableList width elements) (modelOf penalty width elements) := by
  have hbits : ∀ i < width, bitAt i ∈ variableList width elements := by
    intro i hi
    exact List.mem_append_left _ (List.mem_map_of_mem (List.mem_range.mpr hi))
  have hes : ∀ y ∈ elements, indicator y ∈ variableList width elements := by
    intro y hy
    exact List.mem_append_right _ (List.mem_map_of_mem hy)
  have hstart : PairsIn (variableList width elements) (addBits penalty width .empty) := by
    unfold addBits
    refine List.foldlRecOn _ _ ?_ fun m h i _ => h
    intro p hp
    cases hp
  -- Consistency is carried along: it says which keys a step can add.
  unfold modelOf
  refine (List.foldlRecOn
    (motive := fun m => m.Consistent ∧ PairsIn (variableList width elements) m) _ _
    ⟨consistent_addBits Model.consistent_empty, hstart⟩ ?_).2
  rintro m ⟨hm, h⟩ e he
  have hlinear := hm.addLinear (indicator e) penalty
  have hterms := PairsIn.setBitTerms penalty hlinear h hbits (hes e he)
  exact ⟨consistent_addIndicator hm elements e,
    hterms.addGuards (consistent_setBitTerms hlinear e) hes (hes e he)⟩

/-! ## Embedding -/

/-- A set that is embedded contains zero, and the penalty is positive and finite. -/
theorem of_embed_eq_ok {s : SetSpec} {config : EmbeddingConfig S} (h : embed config s = .ok m) :
    (Scalar.isFinite config.basePenalty = true ∧ 0 < config.basePenalty) ∧
      s.containsZero = true ∧ m = modelOf config.basePenalty s.width s.nonzero := by
  unfold embed at h
  by_cases hvalid : Scalar.isFinite config.basePenalty = true ∧ 0 < config.basePenalty
  · rw [if_neg (not_not_intro hvalid)] at h
    by_cases hzero : s.containsZero = true
    · rw [if_neg (not_not_intro hzero)] at h
      cases h
      exact ⟨hvalid, hzero, rfl⟩
    · rw [if_pos hzero] at h
      cases h
  · rw [if_pos hvalid] at h
    cases h

/-- A set that contains zero is embedded with every positive and finite penalty. -/
theorem embed_of_accepted {s : SetSpec} (config : EmbeddingConfig S) (hzero : s.containsZero = true)
    (hvalid : Scalar.isFinite config.basePenalty = true ∧ 0 < config.basePenalty) :
    embed config s = .ok (modelOf config.basePenalty s.width s.nonzero) := by
  unfold embed
  rw [if_neg (not_not_intro hvalid), if_neg (not_not_intro hzero)]

/-! ## The variables -/

/-- **The variables of an embedded set** are numbered in the order bits, then indicators. -/
theorem labels_modelOf (hwidth : width ≤ 64) (penalty : S) {elements : List BitVector}
    (hnodup : elements.Nodup) :
    (modelOf penalty width elements).labels = variableList width elements := by
  unfold Model.labels Model.occurrences
  rw [keys_linear_modelOf hwidth penalty hnodup]
  -- The linear keys come first and are all different; the pairs only repeat them.
  apply eraseDups_append_of_subset (nodup_variableList hwidth hnodup)
  intro v hv
  obtain ⟨p, hp, hv⟩ := List.mem_flatMap.mp hv
  obtain ⟨hfirst, hsecond⟩ := pairsIn_modelOf penalty width elements p hp
  rcases List.mem_cons.mp hv with rfl | hv
  · exact hfirst
  · rw [List.mem_singleton] at hv
    exact hv ▸ hsecond

end Embedding

end SetQubo
