import Mathlib.Data.Finset.Card
import Mathlib.Data.Finset.Range
import SetQubo.BitVector.Basic
/-!
# The positions of the ones

A vector of a known width is the finite set of the positions of its ones. Its number of ones is the
size of that set, and one vector covers another of the same width exactly when its set contains the
other one's. So two different vectors never cover each other.
-/

namespace SetQubo

namespace BitVector

/-- The positions that hold a one. -/
def ones (x : BitVector) : Finset Nat := (Finset.range x.width).filter fun i => x.isSet i

variable {x y : BitVector} {i : Nat}

theorem mem_ones : i ∈ x.ones ↔ x.isSet i = true := by
  unfold ones isSet
  rw [Finset.mem_filter, Finset.mem_range]
  constructor
  · exact fun h => h.2
  · intro h
    refine ⟨?_, h⟩
    cases hi : x.bits[i]? with
    | none => simp [hi] at h
    | some b =>
      obtain ⟨hlt, -⟩ := List.getElem?_eq_some_iff.mp hi
      exact hlt

theorem ones_subset_range (x : BitVector) : x.ones ⊆ Finset.range x.width :=
  Finset.filter_subset _ _

/-- There are as many ones as positions of ones. -/
theorem card_ones (x : BitVector) : x.ones.card = x.onesCount := by
  -- Both sides count the positions of a list of bits, which goes by induction on the list.
  have hlist : ∀ bits : List Bool,
      ((Finset.range bits.length).filter fun i => bits[i]?.getD false = true).card =
        bits.countP id := by
    intro bits
    have hrange : Finset.range bits.length = (List.range bits.length).toFinset := by
      ext i
      simp
    rw [hrange, ← List.toFinset_filter, List.toFinset_card_of_nodup (List.nodup_range.filter _),
      ← List.countP_eq_length_filter]
    clear hrange
    induction bits with
    | nil => rfl
    | cons b bits ih =>
      rw [List.length_cons, List.range_succ_eq_map, List.countP_cons, List.countP_map,
        List.countP_cons, ← ih]
      simp [Function.comp_def]
  exact hlist x.bits

theorem onesCount_le_width (x : BitVector) : x.onesCount ≤ x.width := by
  rw [← card_ones, ← Finset.card_range x.width]
  exact Finset.card_le_card (ones_subset_range x)

/-- A vector has fewer ones than positions exactly if one of the positions holds no one. -/
theorem onesCount_lt_width_iff : x.onesCount < x.width ↔ ∃ i < x.width, x.isSet i = false := by
  rw [← card_ones]
  constructor
  · intro hlt
    rw [← Finset.card_range x.width] at hlt
    obtain ⟨i, hi, hnot⟩ := Finset.exists_mem_notMem_of_card_lt_card hlt
    exact ⟨i, Finset.mem_range.mp hi, Bool.not_eq_true _ ▸ mt mem_ones.mpr hnot⟩
  · rintro ⟨i, hi, hzero⟩
    have hnot : i ∉ x.ones := by
      rw [mem_ones, hzero]
      exact Bool.false_ne_true
    calc x.ones.card < (Finset.range x.width).card :=
          Finset.card_lt_card ((Finset.ssubset_iff_of_subset (ones_subset_range x)).mpr
            ⟨i, Finset.mem_range.mpr hi, hnot⟩)
      _ = x.width := Finset.card_range _

/-- Vectors of one width with ones at the same positions are the same. -/
theorem ones_inj (hwidth : x.width = y.width) (h : x.ones = y.ones) : x = y := by
  have hbits : x.bits = y.bits := by
    apply List.ext_getElem hwidth
    intro i hx hy
    have hmem : x.isSet i = true ↔ y.isSet i = true := by rw [← mem_ones, ← mem_ones, h]
    unfold isSet at hmem
    rw [List.getElem?_eq_getElem hx, List.getElem?_eq_getElem hy] at hmem
    exact Bool.eq_iff_iff.mpr hmem
  cases x
  exact congrArg BitVector.mk hbits

/-! ## The zero vector -/

/-- A vector without ones is the zero vector of its width. -/
theorem isZero_iff (x : BitVector) : x.isZero = true ↔ x = zeros x.width := by
  unfold isZero
  rw [List.all_eq_true]
  constructor
  · intro h
    have hbits : x.bits = List.replicate x.width false := by
      apply List.eq_replicate_of_mem
      intro b hb
      simpa using h b hb
    cases x
    exact congrArg BitVector.mk hbits
  · intro h b hb
    rw [h] at hb
    simp [List.eq_of_mem_replicate hb]

@[simp] theorem width_zeros (width : Nat) : (zeros width).width = width := by
  simp [zeros, BitVector.width]

@[simp] theorem isZero_zeros (width : Nat) : (zeros width).isZero = true := by
  rw [isZero_iff, width_zeros]

/-- A vector has a one exactly when it is not zero. -/
theorem onesCount_pos_iff (x : BitVector) : 0 < x.onesCount ↔ x.isZero = false := by
  unfold onesCount isZero
  rw [List.countP_pos_iff, ← Bool.not_eq_true, List.all_eq_true]
  simp

@[simp] theorem ones_zeros (width : Nat) : (zeros width).ones = ∅ := by
  ext i
  rw [mem_ones]
  by_cases hi : i < width
  · simp [isSet, zeros, hi]
  · simp [isSet, zeros, hi]

/-! ## Covering -/

/-- A vector covers another of its width exactly when it has all of the other's ones. -/
theorem covers_iff (hwidth : x.width = y.width) : x.covers y = true ↔ y.ones ⊆ x.ones := by
  unfold covers
  rw [List.all_eq_true]
  constructor
  · -- A one of the covered vector is within both, so the test looks at its position.
    intro h i hi
    rw [mem_ones] at hi ⊢
    have hlt : i < y.bits.length := by
      by_contra hge
      rw [isSet, List.getElem?_eq_none (Nat.not_lt.mp hge)] at hi
      cases hi
    have hltx : i < x.bits.length := (show x.bits.length = y.bits.length from hwidth) ▸ hlt
    have hzip : i < (x.bits.zip y.bits).length := by
      rw [List.length_zip]
      exact Nat.lt_min.mpr ⟨hltx, hlt⟩
    have hpair := h _ (List.getElem_mem hzip)
    rw [List.getElem_zip] at hpair
    unfold isSet at hi ⊢
    rw [List.getElem?_eq_getElem hlt] at hi
    rw [List.getElem?_eq_getElem hltx]
    simp_all
  · intro h p hp
    obtain ⟨i, hi, rfl⟩ := List.mem_iff_getElem.mp hp
    rw [List.length_zip, Nat.lt_min] at hi
    have hmem : y.isSet i = true → x.isSet i = true := by
      rw [← mem_ones, ← mem_ones]
      exact fun hy => h hy
    unfold isSet at hmem
    rw [List.getElem?_eq_getElem hi.1, List.getElem?_eq_getElem hi.2] at hmem
    rw [List.getElem_zip]
    cases hy : y.bits[i] with
    | false => simp
    | true => simpa [hy] using hmem

/-- A vector that does not cover another of its width has fewer ones than positions. -/
theorem onesCount_lt_of_not_covers (hwidth : x.width = y.width) (h : x.covers y = false) :
    x.onesCount < x.width := by
  have hnot : ¬y.ones ⊆ x.ones := by
    rw [← covers_iff hwidth, h]
    exact Bool.false_ne_true
  obtain ⟨i, hy, hx⟩ := Finset.not_subset.mp hnot
  have hi : i < x.width := hwidth ▸ Finset.mem_range.mp (ones_subset_range y hy)
  exact onesCount_lt_width_iff.mpr ⟨i, hi, Bool.not_eq_true _ ▸ mt mem_ones.mpr hx⟩

/-- Two vectors of one width that cover each other are the same. -/
theorem covers_antisymm (hwidth : x.width = y.width) (hxy : x.covers y = true)
    (hyx : y.covers x = true) : x = y :=
  ones_inj hwidth
    (Finset.Subset.antisymm ((covers_iff hwidth.symm).mp hyx) ((covers_iff hwidth).mp hxy))

end BitVector

end SetQubo
