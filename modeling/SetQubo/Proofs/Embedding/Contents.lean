import Mathlib
import SetQubo.Embedding.Decoding
import SetQubo.Proofs.Embedding.Division
import SetQubo.Proofs.Embedding.GroundStates
import SetQubo.Proofs.Embedding.Weights
/-!
# What the model of a set holds

In exact arithmetic the model of a set is known in full: its variables, its coefficients, and how
many of them there are. Indicators are visited in pairs, from either side, and every pair of them is
left with an entry, since no two distinct elements cover each other. So the table of pairs has one
entry for each bit and each indicator, one for each two indicators, and no more.

Entries are counted as unordered pairs of labels, which is what keys of that table are.
-/

namespace SetQubo

open Variable

/-! ## Unordered pairs -/

section unordered
variable {V S : Type} [Label V] {t : Table (Pair V) S}

/-- No two keys of a table are the same without their order. -/
theorem Table.Consistent.nodup_unordered (h : t.Consistent) :
    (t.keys.map Pair.unordered).Nodup := by
  unfold keys List.Nodup
  rw [List.map_map, List.pairwise_map]
  apply h.distinct.imp
  intro e e' hne heq
  rw [← Bool.not_eq_true, Pair.beq_iff_unordered] at hne
  exact hne heq

/-- What is found under a pair has a key with its labels. -/
theorem Table.mem_unordered_of_lookup {a b : V} {c : S} (h : t.lookup ⟨a, b⟩ = some c) :
    s(a, b) ∈ t.keys.map Pair.unordered := by
  obtain ⟨k, hk, hmem⟩ := exists_mem_of_lookup_eq_some h
  rw [List.mem_map]
  exact ⟨k, List.mem_map_of_mem hmem, Pair.beq_iff_unordered.mp hk⟩

end unordered

/-- The unordered pairs with one label from either of two sets, or two different ones from the
second. -/
def crossPairs (A B : Finset Variable) : Finset (Sym2 Variable) :=
  (A ×ˢ B).image Sym2.mk.uncurry ∪ B.offDiag.image Sym2.mk.uncurry

theorem card_crossPairs {A B : Finset Variable} (h : Disjoint A B) :
    (crossPairs A B).card = A.card * B.card + B.card * (B.card - 1) / 2 := by
  rw [Finset.disjoint_left] at h
  have hinj : Set.InjOn Sym2.mk.uncurry
      ((A ×ˢ B : Finset (Variable × Variable)) : Set (Variable × Variable)) := by
    rintro ⟨a, b⟩ hab ⟨a', b'⟩ hab' heq
    rw [Finset.mem_coe, Finset.mem_product] at hab hab'
    rcases Sym2.eq_iff.mp heq with ⟨rfl, rfl⟩ | ⟨rfl, rfl⟩
    · rfl
    · exact absurd hab'.2 (h hab.1)
  have hdisjoint : Disjoint ((A ×ˢ B).image Sym2.mk.uncurry)
      (B.offDiag.image Sym2.mk.uncurry) := by
    rw [Finset.disjoint_left]
    intro z hz hz'
    obtain ⟨⟨a, b⟩, hab, rfl⟩ := Finset.mem_image.mp hz
    obtain ⟨⟨c, d⟩, hcd, heq⟩ := Finset.mem_image.mp hz'
    rw [Finset.mem_product] at hab
    rw [Finset.mem_offDiag] at hcd
    -- The label from the first set is none of the second.
    rcases Sym2.eq_iff.mp heq with ⟨rfl, rfl⟩ | ⟨rfl, rfl⟩
    · exact h hab.1 hcd.1
    · exact h hab.1 hcd.2.1
  unfold crossPairs
  rw [Finset.card_union_of_disjoint hdisjoint, Finset.card_image_of_injOn hinj,
    Finset.card_product, Sym2.card_image_offDiag, Nat.choose_two_right]

namespace Embedding

/-! ## Between two indicators -/

section guards
variable {s : SetSpec} {penalty : Rat} {x y : BitVector}

/-- What the guard of `x` against `y` costs, which is nothing if `x` covers `y`. -/
def guardCost (penalty : Rat) (width : Nat) (x y : BitVector) : Rat :=
  if x.covers y then 0 else width * (x.onesCount + 1) * penalty / x.onesCount

theorem deterrent_eq_div (penalty : Rat) (width : Nat) (x : BitVector) :
    deterrent penalty width x = width * (x.onesCount + 1) * penalty / x.onesCount := by
  rw [deterrent_eq, reward_eq]
  ring

theorem deterrent_pos (hpenalty : 0 < penalty) (hx : x ∈ s.nonzero) :
    0 < deterrent penalty s.width x := by
  have hreward := reward_pos hpenalty (SetSpec.onesCount_pos_of_mem_nonzero hx)
  have hwidth : (0 : Rat) < s.width := by exact_mod_cast s.width_pos
  rw [deterrent_eq]
  positivity

/-- **Between two distinct elements stands a guard**, or two of them. -/
theorem merge_guards (hpenalty : 0 < penalty) (hx : x ∈ s.nonzero) (hy : y ∈ s.nonzero)
    (hne : x ≠ y) :
    Option.merge (· + ·) (guard? penalty s.width x y) (guard? penalty s.width y x) =
        some (guardCost penalty s.width x y + guardCost penalty s.width y x) ∧
      0 < guardCost penalty s.width x y + guardCost penalty s.width y x := by
  have hwidth : x.width = y.width :=
    (SetSpec.width_of_mem_nonzero hx).trans (SetSpec.width_of_mem_nonzero hy).symm
  have hposX := deterrent_pos hpenalty hx
  have hposY := deterrent_pos hpenalty hy
  unfold guard? guardCost
  rw [← deterrent_eq_div, ← deterrent_eq_div]
  by_cases hxy : x.covers y = true
  · have hyx : ¬y.covers x = true := fun hyx => hne (BitVector.covers_antisymm hwidth hxy hyx)
    simp [hxy, hyx, hposY]
  · by_cases hyx : y.covers x = true
    · simp [hxy, hyx, hposX]
    · simp [hxy, hyx, add_pos hposX hposY]

/-- The entry of two indicators is the sum of their guards, in whichever order they are visited. -/
theorem lookup_indicators_eq (hpenalty : 0 < penalty) (hx : x ∈ s.nonzero) (hy : y ∈ s.nonzero)
    (hne : x ≠ y) :
    (modelOf penalty s.width s.nonzero).quadratic.lookup ⟨indicator x, indicator y⟩ =
      some (guardCost penalty s.width x y + guardCost penalty s.width y x) := by
  rcases sublist_or_sublist hx hy hne with horder | horder
  · rw [lookup_indicators penalty s.width s.nodup_nonzero horder]
    exact (merge_guards hpenalty hx hy hne).1
  · rw [Table.lookup_congr _ (beq_indicators_swap x y),
      lookup_indicators penalty s.width s.nodup_nonzero horder, add_comm]
    exact (merge_guards hpenalty hy hx hne.symm).1

end guards

/-! ## Nothing else -/

section entries
variable {S : Type} [Scalar S] {s : SetSpec}

/-- Two bits have no entry. -/
theorem lookup_bits (s : SetSpec) (penalty : S) (i j : Nat) :
    (modelOf penalty s.width s.nonzero).quadratic.lookup ⟨bitAt i, bitAt j⟩ = none := by
  rw [Table.lookup_eq_none_iff]
  intro t ht
  rw [← Bool.not_eq_true, Pair.beq_iff]
  -- Every key has an indicator on its right.
  rcases terms_modelOf s.width_le penalty s.nonzero t ht with
    ⟨k, -, x, hkey, -⟩ | ⟨x, y, -, hkey⟩
  · rw [hkey]
    simp [Pair.swap, bitAt]
  · rw [hkey]
    simp [Pair.swap, bitAt]

/-- The bits. -/
def bitSet (s : SetSpec) : Finset Variable := ((List.range s.width).map bitAt).toFinset

/-- The indicators. -/
def indicatorSet (s : SetSpec) : Finset Variable := (s.nonzero.map indicator).toFinset

theorem mem_bitSet {v : Variable} : v ∈ bitSet s ↔ ∃ i < s.width, bitAt i = v := by
  simp [bitSet]

theorem mem_indicatorSet {v : Variable} : v ∈ indicatorSet s ↔ ∃ x ∈ s.nonzero, indicator x = v := by
  simp [indicatorSet]

theorem card_bitSet (s : SetSpec) : (bitSet s).card = s.width := by
  have hnodup := (List.nodup_append.mp (nodup_variableList s.width_le s.nodup_nonzero)).1
  rw [bitSet, List.toFinset_card_of_nodup hnodup, List.length_map, List.length_range]

theorem card_indicatorSet (s : SetSpec) : (indicatorSet s).card = s.nonzero.length := by
  have hnodup := (List.nodup_append.mp (nodup_variableList s.width_le s.nodup_nonzero)).2.1
  rw [indicatorSet, List.toFinset_card_of_nodup hnodup, List.length_map]

theorem disjoint_bitSet_indicatorSet (s : SetSpec) : Disjoint (bitSet s) (indicatorSet s) := by
  rw [Finset.disjoint_left]
  intro v hv hv'
  obtain ⟨i, -, rfl⟩ := mem_bitSet.mp hv
  obtain ⟨x, -, heq⟩ := mem_indicatorSet.mp hv'
  cases heq

end entries

section size
variable {s : SetSpec} {penalty : Rat} (hpenalty : 0 < penalty)
include hpenalty

/-- **Which pairs have entries**: a bit and an indicator, or two indicators. -/
theorem toFinset_unordered :
    ((modelOf penalty s.width s.nonzero).quadratic.keys.map Pair.unordered).toFinset =
      crossPairs (bitSet s) (indicatorSet s) := by
  ext z
  rw [List.mem_toFinset, crossPairs, Finset.mem_union, Finset.mem_image, Finset.mem_image]
  constructor
  · intro hz
    obtain ⟨p, hp, rfl⟩ := List.mem_map.mp hz
    obtain ⟨t, ht, rfl⟩ := List.mem_map.mp hp
    have hpair := pairsIn_modelOf penalty s.width s.nonzero t.1 hp
    rcases terms_modelOf s.width_le penalty s.nonzero t ht with
      ⟨i, hi, x, hkey, -⟩ | ⟨x, y, hne, hkey⟩
    · rw [hkey] at hpair ⊢
      left
      refine ⟨(bitAt i, indicator x), Finset.mem_product.mpr ⟨mem_bitSet.mpr ⟨i, hi, rfl⟩,
        mem_indicatorSet.mpr ⟨x, mem_of_indicator_mem hpair.2, rfl⟩⟩, rfl⟩
    · rw [hkey] at hpair ⊢
      right
      refine ⟨(indicator x, indicator y), Finset.mem_offDiag.mpr
        ⟨mem_indicatorSet.mpr ⟨x, mem_of_indicator_mem hpair.1, rfl⟩,
          mem_indicatorSet.mpr ⟨y, mem_of_indicator_mem hpair.2, rfl⟩, ?_⟩, rfl⟩
      exact fun heq => hne (Variable.indicator.inj heq)
  · rintro (⟨⟨a, b⟩, hab, rfl⟩ | ⟨⟨a, b⟩, hab, rfl⟩)
    · obtain ⟨ha, hb⟩ := Finset.mem_product.mp hab
      obtain ⟨i, hi, rfl⟩ := mem_bitSet.mp ha
      obtain ⟨x, hx, rfl⟩ := mem_indicatorSet.mp hb
      exact Table.mem_unordered_of_lookup
        (lookup_bit_indicator s.width_le penalty s.nodup_nonzero hx hi)
    · obtain ⟨ha, hb, hne⟩ := Finset.mem_offDiag.mp hab
      obtain ⟨x, hx, rfl⟩ := mem_indicatorSet.mp ha
      obtain ⟨y, hy, rfl⟩ := mem_indicatorSet.mp hb
      exact Table.mem_unordered_of_lookup
        (lookup_indicators_eq hpenalty hx hy fun heq => hne (congrArg indicator heq))

/-- **How many pairs have entries.** -/
theorem size_quadratic_modelOf :
    (modelOf penalty s.width s.nonzero).quadratic.size =
      s.width * s.nonzero.length + s.nonzero.length * (s.nonzero.length - 1) / 2 := by
  have hnodup := (consistent_modelOf penalty s.width s.nonzero).quadratic.nodup_unordered
  have hcard := List.toFinset_card_of_nodup hnodup
  rw [toFinset_unordered hpenalty, card_crossPairs (disjoint_bitSet_indicatorSet s), card_bitSet,
    card_indicatorSet, List.length_map] at hcard
  rw [hcard, Table.keys, List.length_map]
  exact Array.length_toList.symm

end size

/-! ## Everything that a model holds -/

/-- The model of a set in full. -/
structure Contents (s : SetSpec) (penalty : Rat) (m : Model Variable Rat) : Prop where
  /-- The indicators are those of the elements other than zero, each where it occurs first. -/
  elements : s.nonzero = s.others
  /-- The variables are the bits and then the indicators, in the order that the decoder has. -/
  labels : m.labels = (List.range s.width).map bitAt ++ s.nonzero.map indicator
  /-- The decoder has the same indicators. -/
  indicators : (Decoder.ofSet s).indicators = s.nonzero.map indicator
  /-- Every variable costs the penalty. -/
  linear : ∀ v ∈ m.labels, m.linear.lookup v = some penalty
  /-- No other variable has a cost. -/
  size_linear : m.linear.size = s.width + s.nonzero.length
  /-- Two bits have no entry. -/
  bits : ∀ i j, m.quadratic.lookup ⟨bitAt i, bitAt j⟩ = none
  /-- An indicator is paid for the ones of its element. -/
  ones : ∀ x ∈ s.nonzero, ∀ i < s.width, x.isSet i = true →
    m.quadratic.lookup ⟨bitAt i, indicator x⟩ =
      some (-((x.onesCount + 1) * penalty / x.onesCount))
  /-- It costs more for the zeros. -/
  zeros : ∀ x ∈ s.nonzero, ∀ i < s.width, x.isSet i = false →
    m.quadratic.lookup ⟨bitAt i, indicator x⟩ =
      some (s.width * (x.onesCount + 1) * penalty / x.onesCount)
  /-- Two indicators cost what each of them costs if its element does not cover the other. -/
  guards : ∀ x ∈ s.nonzero, ∀ y ∈ s.nonzero, x ≠ y →
    m.quadratic.lookup ⟨indicator x, indicator y⟩ =
        some (guardCost penalty s.width x y + guardCost penalty s.width y x) ∧
      0 < guardCost penalty s.width x y + guardCost penalty s.width y x
  /-- No other pair has an entry. -/
  size_quadratic : m.quadratic.size =
    s.width * s.nonzero.length + s.nonzero.length * (s.nonzero.length - 1) / 2
  /-- Nothing is divided by a number of ones that is zero. -/
  divisors : ∀ x ∈ s.nonzero, 0 < x.onesCount
  /-- The model comes out the same if a division by zero has no result. -/
  checked : embed ⟨Checked.of penalty⟩ s = .ok (m.mapCoefficients .of)

theorem lookup_linear_modelOf {S : Type} [Scalar S] (s : SetSpec) (penalty : S) {v : Variable}
    (hv : v ∈ variableList s.width s.nonzero) :
    (modelOf penalty s.width s.nonzero).linear.lookup v = some penalty := by
  apply (consistent_modelOf penalty s.width s.nonzero).linear.lookup_of_mem (e := (v, penalty))
  rw [toList_linear_modelOf]
  exact List.mem_map_of_mem hv

/-- **What the model of a set holds.** Every set that contains zero is embedded, in exact arithmetic
and with any positive penalty, and its model is known in full. -/
theorem embed_contents {s : SetSpec} {penalty : Rat} (hzero : s.containsZero = true)
    (hpenalty : 0 < penalty) : ∃ m, embed ⟨penalty⟩ s = .ok m ∧ Contents s penalty m := by
  have hlabels := labels_modelOf s.width_le penalty s.nodup_nonzero
  refine ⟨_, embed_eq_ok hzero hpenalty, ?_⟩
  constructor
  case elements => exact s.nonzero_eq_others
  case labels => exact hlabels
  case indicators => rfl
  case linear =>
    intro v hv
    rw [hlabels] at hv
    exact lookup_linear_modelOf s penalty hv
  case size_linear =>
    have hlength : (modelOf penalty s.width s.nonzero).linear.toList.length =
        s.width + s.nonzero.length := by
      rw [toList_linear_modelOf]
      simp [variableList]
    exact hlength
  case bits => exact lookup_bits s penalty
  case ones =>
    intro x hx i hi hone
    rw [lookup_bit_indicator s.width_le penalty s.nodup_nonzero hx hi, bitEntry, if_pos hone,
      reward_eq]
  case zeros =>
    intro x hx i hi hone
    rw [lookup_bit_indicator s.width_le penalty s.nodup_nonzero hx hi, bitEntry, hone,
      if_neg Bool.false_ne_true, deterrent_eq_div]
  case guards =>
    exact fun x hx y hy hne => ⟨lookup_indicators_eq hpenalty hx hy hne,
      (merge_guards hpenalty hx hy hne).2⟩
  case size_quadratic => exact size_quadratic_modelOf hpenalty
  case divisors => exact fun x hx => SetSpec.onesCount_pos_of_mem_nonzero hx
  case checked =>
    rw [← modelOf_checked]
    exact embed_of_accepted ⟨Checked.of penalty⟩ hzero
      ⟨rfl, ⟨0, rfl, penalty, rfl, hpenalty⟩⟩

/-- A row with one one. -/
def lesser : BitVector := ⟨[true, false, false, false]⟩

/-- A row that covers it. -/
def greater : BitVector := ⟨[true, true, false, false]⟩

/-- Both rows and zero, with one of them given twice. -/
def nested : SetSpec where
  width := 4
  elements := [greater, .zeros 4, lesser, greater]
  width_pos := by decide
  width_le := by decide
  width_eq := by decide

/-- In the model of nested rows the greater one has no guard, so that the lesser one's is all that
stands between the two. -/
theorem nested_contents : nested.containsZero = true ∧ (0 : Rat) < 10 ∧
    ∃ m, embed (⟨10⟩ : EmbeddingConfig Rat) nested = .ok m ∧
      m.linear.size = 6 ∧ m.quadratic.size = 9 ∧
      m.quadratic.lookup ⟨bitAt 0, indicator greater⟩ = some (-15) ∧
      m.quadratic.lookup ⟨bitAt 1, indicator lesser⟩ = some 80 ∧
      m.quadratic.lookup ⟨indicator lesser, indicator greater⟩ = some 80 := by
  have hzero : nested.containsZero = true := by decide
  have hpenalty : (0 : Rat) < 10 := by norm_num
  have hnonzero : nested.nonzero = [greater, lesser] := by decide
  have hwidth : nested.width = 4 := rfl
  have htwo : greater.onesCount = 2 := rfl
  have hone : lesser.onesCount = 1 := rfl
  obtain ⟨m, hembed, hcontents⟩ := embed_contents hzero hpenalty
  have hones := hcontents.ones greater (by simp [hnonzero]) 0 (by decide) rfl
  have hzeros := hcontents.zeros lesser (by simp [hnonzero]) 1 (by decide) rfl
  obtain ⟨hguards, -⟩ := hcontents.guards lesser (by simp [hnonzero]) greater (by simp [hnonzero])
    (by decide)
  have hless : guardCost 10 nested.width lesser greater = 80 := by
    rw [guardCost, if_neg (by decide), hone, hwidth]
    norm_num
  have hcovers : guardCost 10 nested.width greater lesser = 0 := if_pos (by decide)
  refine ⟨hzero, hpenalty, m, hembed, ?_, ?_, ?_, ?_, ?_⟩
  · rw [hcontents.size_linear, hnonzero]
    rfl
  · rw [hcontents.size_quadratic, hnonzero]
    rfl
  · rw [hones, htwo]
    norm_num
  · rw [hzeros, hone, hwidth]
    norm_num
  · rw [hguards, hless, hcovers]
    norm_num

end Embedding

end SetQubo
