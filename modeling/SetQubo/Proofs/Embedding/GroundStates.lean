import Mathlib
import SetQubo.Proofs.Embedding.Decoding
/-!
# The ground states of an embedded set

A valuation is made from what it has on. The one that has the bits and the indicator of an element
on stands for it, so every element of a set that contains zero is a ground state, and nothing else
is. With one bit of the heaviest element left out, the energy is the lowest above zero.
-/

namespace SetQubo

namespace Embedding

open Variable

variable {s : SetSpec} {x : Valuation Variable} {e : BitVector}

/-! ## Valuations made from what is on -/

/-- The valuation that has the given positions and elements on. -/
def valuationOf (positions : Finset Nat) (on : Finset BitVector) : Valuation Variable
  | .bit i => if i.toNat ∈ positions then 1 else 0
  | .indicator e => if e ∈ on then 1 else 0

variable {positions : Finset Nat} {on : Finset BitVector}

theorem isBinary_valuationOf {S : Type} (m : Model Variable S) (positions : Finset Nat)
    (on : Finset BitVector) :
    m.IsBinary (valuationOf positions on) := by
  intro v _
  cases v with
  | bit i =>
    show (if i.toNat ∈ positions then (1 : UInt8) else 0) = 0 ∨
      (if i.toNat ∈ positions then (1 : UInt8) else 0) = 1
    by_cases hi : i.toNat ∈ positions
    · exact Or.inr (if_pos hi)
    · exact Or.inl (if_neg hi)
  | indicator e =>
    show (if e ∈ on then (1 : UInt8) else 0) = 0 ∨ (if e ∈ on then (1 : UInt8) else 0) = 1
    by_cases he : e ∈ on
    · exact Or.inr (if_pos he)
    · exact Or.inl (if_neg he)

theorem onPositions_valuationOf {width : Nat} (hwidth : width ≤ 64)
    (hpositions : positions ⊆ Finset.range width) :
    onPositions width (valuationOf positions on) = positions := by
  ext i
  unfold onPositions
  rw [Finset.mem_filter, Finset.mem_range]
  have hvalue : i < width → (valuationOf positions on (bitAt i) = 1 ↔ i ∈ positions) := by
    intro hi
    have htoNat : (UInt64.ofNat i).toNat = i := by
      rw [UInt64.toNat_ofNat']
      exact Nat.mod_eq_of_lt (by omega)
    show (if (UInt64.ofNat i).toNat ∈ positions then (1 : UInt8) else 0) = 1 ↔ _
    rw [htoNat]
    by_cases hmem : i ∈ positions
    · simp [hmem]
    · simp [hmem]
  constructor
  · intro hboth
    obtain ⟨hi, hon⟩ := hboth
    exact (hvalue hi).mp hon
  · intro hmem
    have hi := Finset.mem_range.mp (hpositions hmem)
    exact ⟨hi, (hvalue hi).mpr hmem⟩

theorem onElements_valuationOf (hon : ∀ y ∈ on, y ∈ s.nonzero) :
    onElements s.nonzero (valuationOf positions on) = on := by
  ext y
  rw [mem_onElements]
  unfold valuationOf
  by_cases hy : y ∈ on
  · simp [hy, hon y hy]
  · simp [hy]

/-- The valuation that has the bits and the indicator of an element on, and nothing else. -/
def standing (e : BitVector) : Valuation Variable :=
  valuationOf e.ones (if e.isZero then ∅ else {e})

theorem standsFor_standing (he : e ∈ s.elements) : StandsFor s (standing e) e := by
  have hones : e.ones ⊆ Finset.range s.width := s.width_eq e he ▸ e.ones_subset_range
  refine ⟨onPositions_valuationOf s.width_le hones, onElements_valuationOf ?_⟩
  intro y hy
  cases hzero : e.isZero with
  | true => simp [hzero] at hy
  | false =>
    rw [hzero, if_neg Bool.false_ne_true, Finset.mem_singleton] at hy
    exact hy ▸ SetSpec.mem_nonzero.mpr ⟨he, hzero⟩

/-! ## The second level is attained -/

/-- **The gap is attained**: the element with the most ones, with one of its bits missing, has the
penalty divided by their number. If zero is the only element, one bit costs the penalty. -/
theorem exists_energy_eq_gap (s : SetSpec) (penalty : Rat) :
    ∃ positions on, (modelOf penalty s.width s.nonzero).energy (valuationOf positions on) =
      gap s penalty := by
  unfold gap
  by_cases hnonzero : s.nonzero = []
  · -- Zero is the only element: turn on one bit and nothing else.
    refine ⟨{0}, ∅, ?_⟩
    have hpositions : {0} ⊆ Finset.range s.width := by
      simpa using s.width_pos
    rw [energy_eq_sum_load s.width_le (SetSpec.nodup_nonzero s),
      onPositions_valuationOf s.width_le hpositions, onElements_valuationOf (by simp)]
    simp [SetSpec.mostOnes, hnonzero]
  · -- Select the element with the most ones, and leave out one of its bits.
    obtain ⟨e, he, hmost⟩ := SetSpec.exists_onesCount_eq_mostOnes hnonzero
    have hones := SetSpec.onesCount_pos_of_mem_nonzero he
    rw [← BitVector.card_ones] at hones
    obtain ⟨i, hi⟩ := Finset.card_pos.mp hones
    refine ⟨e.ones.erase i, {e}, ?_⟩
    have hsubset : e.ones.erase i ⊆ Finset.range s.width :=
      (Finset.erase_subset i _).trans (SetSpec.width_of_mem_nonzero he ▸ e.ones_subset_range)
    have hshared : e.ones.erase i ∩ e.ones = e.ones.erase i :=
      Finset.inter_eq_left.mpr (Finset.erase_subset i _)
    have hstray : e.ones.erase i \ e.ones = ∅ :=
      Finset.sdiff_eq_empty_iff_subset.mpr (Finset.erase_subset i _)
    rw [energy_eq_sum_load s.width_le (SetSpec.nodup_nonzero s),
      onPositions_valuationOf s.width_le hsubset, onElements_valuationOf (by simpa using he),
      Finset.sum_singleton,
      positions_add_load (BitVector.card_ones e ▸ hones) (uncovered_singleton e), hshared, hstray,
      Finset.card_erase_of_mem hi, BitVector.card_ones, ← hmost,
      Nat.cast_sub (BitVector.card_ones e ▸ hones)]
    simp

/-! ## Ground states -/

/-- In exact arithmetic a set that contains zero is embedded whenever the penalty is positive. -/
theorem embed_eq_ok {config : EmbeddingConfig Rat} (hzero : s.containsZero = true)
    (hpenalty : 0 < config.basePenalty) :
    embed config s = .ok (modelOf config.basePenalty s.width s.nonzero) :=
  embed_of_accepted config hzero ⟨rfl, hpenalty⟩

/-- The bits of a binary valuation of an embedded set are zeros and ones. -/
theorem bit_le_one {S : Type} [Scalar S] {penalty : S}
    (hx : (modelOf penalty s.width s.nonzero).IsBinary x) :
    ∀ i < s.width, x (bitAt i) ≤ 1 := by
  intro i hi
  have hmem : bitAt i ∈ (modelOf penalty s.width s.nonzero).labels := by
    rw [labels_modelOf s.width_le penalty (SetSpec.nodup_nonzero s)]
    exact List.mem_append_left _ (List.mem_map_of_mem (List.mem_range.mpr hi))
  exact le_one_iff.mpr (hx _ hmem)

/-- A valuation whose bits are zeros and ones decodes to an element and has energy zero, or it does
not decode and has at least the gap. -/
theorem decodes_or_gap_le {penalty : Rat} (hzero : s.containsZero = true) (hpenalty : 0 < penalty)
    (hbits : ∀ i < s.width, x (bitAt i) ≤ 1) :
    (∃ e, (Decoder.ofSet s).decode x = .ok e ∧
      (modelOf penalty s.width s.nonzero).energy x = 0) ∨
    ((∀ e, (Decoder.ofSet s).decode x ≠ .ok e) ∧
      gap s penalty ≤ (modelOf penalty s.width s.nonzero).energy x) := by
  by_cases h : ∃ e, (Decoder.ofSet s).decode x = .ok e
  · obtain ⟨e, he⟩ := h
    obtain ⟨-, hstands⟩ := (Decoder.decode_eq_ok_iff_standsFor hzero hbits).mp he
    exact Or.inl ⟨e, he, hstands.energy_eq_zero⟩
  · refine Or.inr ⟨fun e he => h ⟨e, he⟩, ?_⟩
    apply le_energy_of_forall_not_standsFor hzero hpenalty
    intro e he hstands
    exact h ⟨e, (Decoder.decode_eq_ok_iff_standsFor hzero hbits).mpr ⟨he, hstands⟩⟩

/-- **The ground states of an embedded set are its elements.** A set that contains zero is embedded
for every positive penalty. A binary valuation of its variables has no negative energy, and has
energy zero exactly when it decodes; the decoded element is the row of its bits. So the patterns
that can be completed to a ground state are the elements. -/
theorem ground_states_are_elements {s : SetSpec} {config : EmbeddingConfig Rat}
    (hzero : s.containsZero = true) (hpenalty : 0 < config.basePenalty) :
    ∃ m, embed config s = .ok m ∧
      (∀ x, m.IsBinary x →
        0 ≤ m.energy x ∧
        (m.energy x = 0 ↔ ∃ e, (Decoder.ofSet s).decode x = .ok e) ∧
        ∀ e, (Decoder.ofSet s).decode x = .ok e →
          e.values = (List.range s.width).map fun i => x (bitAt i)) ∧
      ∀ pattern : BitVector,
        (∃ x, m.IsGroundState x ∧
          (List.range s.width).map (fun i => x (bitAt i)) = pattern.values) ↔
        pattern ∈ s.elements := by
  have hgap := gap_pos s hpenalty
  have hlevels : ∀ x, (modelOf config.basePenalty s.width s.nonzero).IsBinary x →
      0 ≤ (modelOf config.basePenalty s.width s.nonzero).energy x ∧
      ((modelOf config.basePenalty s.width s.nonzero).energy x = 0 ↔
        ∃ e, (Decoder.ofSet s).decode x = .ok e) := by
    intro x hx
    -- What decodes has energy zero, and what does not has at least the gap.
    rcases decodes_or_gap_le hzero hpenalty (bit_le_one hx) with ⟨e, he, henergy⟩ | ⟨hnot, hle⟩
    · exact ⟨henergy.ge, fun _ => ⟨e, he⟩, fun _ => henergy⟩
    · refine ⟨hgap.le.trans hle, fun henergy => ?_, fun ⟨e, he⟩ => absurd he (hnot e)⟩
      rw [henergy] at hle
      exact absurd hgap (not_lt.mpr hle)
  refine ⟨_, embed_eq_ok hzero hpenalty, ?_, ?_⟩
  · intro x hx
    exact ⟨(hlevels x hx).1, (hlevels x hx).2, fun e he => (Decoder.values_of_decode hzero he).2⟩
  · intro pattern
    -- Zero is attained, so the ground states are the valuations with energy zero.
    have hground := Model.isGroundState_iff (fun y hy => (hlevels y hy).1)
      (isBinary_valuationOf _ _ _)
      (standsFor_standing (SetSpec.containsZero_iff.mp hzero)).energy_eq_zero
    constructor
    · intro hcompleted
      obtain ⟨x, hx, hbits⟩ := hcompleted
      obtain ⟨hbinary, henergy⟩ := (hground x).mp hx
      obtain ⟨e, he⟩ := (hlevels x hbinary).2.mp henergy
      obtain ⟨hmem, hvalues⟩ := Decoder.values_of_decode hzero he
      have heq : e = pattern := BitVector.values_inj (hvalues.trans hbits)
      exact heq ▸ hmem
    · intro hmem
      have hstands := standsFor_standing hmem
      have hbinary := isBinary_valuationOf (modelOf config.basePenalty s.width s.nonzero)
        pattern.ones (if pattern.isZero then ∅ else {pattern})
      have hdecode := (Decoder.decode_eq_ok_iff_standsFor hzero (bit_le_one hbinary)).mpr
        ⟨hmem, hstands⟩
      exact ⟨standing pattern, (hground _).mpr ⟨hbinary, hstands.energy_eq_zero⟩,
        (Decoder.values_of_decode hzero hdecode).2.symm⟩

/-- In the truth table of exclusive or, the row 110 can be completed to a ground state, and the row
111 cannot. -/
theorem exclusiveOr_ground_states :
    SetSpec.exclusiveOr.containsZero = true ∧ (0 : Rat) < 10 ∧
      ∃ m, embed ⟨10⟩ SetSpec.exclusiveOr = .ok m ∧
        (∃ x, m.IsGroundState x ∧ (List.range 3).map (fun i => x (bitAt i)) = [1, 1, 0]) ∧
        ¬∃ x, m.IsGroundState x ∧ (List.range 3).map (fun i => x (bitAt i)) = [1, 1, 1] := by
  have hzero : SetSpec.exclusiveOr.containsZero = true := by decide
  have hpenalty : (0 : Rat) < 10 := by norm_num
  obtain ⟨m, hm, -, hpatterns⟩ :=
    @ground_states_are_elements SetSpec.exclusiveOr ⟨10⟩ hzero hpenalty
  refine ⟨hzero, hpenalty, m, hm, ?_, ?_⟩
  · exact (hpatterns ⟨[true, true, false]⟩).mpr (by decide)
  · intro h
    exact absurd ((hpatterns ⟨[true, true, true]⟩).mp h) (by decide)

end Embedding

end SetQubo
