import Mathlib
import SetQubo.Embedding.Decoding
import SetQubo.Proofs.BitVector.Values
import SetQubo.Proofs.Digits
import SetQubo.Proofs.Embedding.Spectrum
/-!
# What decodes

The indicators select an element exactly when at most one of them is on, and a valuation decodes to
the element selected exactly when its bits are that element's values. So in a set that contains
zero, a valuation of zeros and ones decodes to an element exactly when it stands for it.
-/

namespace SetQubo

open Variable SetQubo.Embedding

namespace Decoder

variable {d : Decoder} {x : Valuation Variable} {e : BitVector}

/-! ## The two halves of decoding -/

/-- A valuation decodes to the selected element, provided that no bit differs. -/
theorem decode_eq_ok_iff : d.decode x = .ok e ↔ d.selected x = .ok e ∧ d.mismatch? x e = none := by
  unfold decode
  cases hselected : d.selected x with
  | error r => simp [bind, Except.bind]
  | ok y =>
    simp only [bind, Except.bind]
    cases hmismatch : d.mismatch? x y with
    | some i =>
      constructor
      · intro h
        cases h
      · intro hboth
        obtain ⟨h, hnone⟩ := hboth
        cases h
        rw [hmismatch] at hnone
        cases hnone
    | none =>
      constructor
      · intro h
        cases h
        exact ⟨rfl, hmismatch⟩
      · intro hboth
        obtain ⟨h, -⟩ := hboth
        cases h
        rfl

/-- No bit differs exactly when every bit has the value that the element has there. -/
theorem mismatch?_eq_none_iff :
    d.mismatch? x e = none ↔ ∀ i < d.width, x (bitAt i) = BitVector.valueOf (e.isSet i) := by
  unfold mismatch?
  rw [List.find?_eq_none]
  simp only [List.mem_range, BitVector.getD_get?]
  constructor
  · intro h i hi
    simpa using h i hi
  · intro h i hi
    simpa using h i hi

/-- Bits that are zeros and ones have the values of an element exactly when the positions that are
on are the element's. -/
theorem forall_bit_eq_iff {width : Nat} (hbits : ∀ i < width, x (bitAt i) ≤ 1)
    (hwidth : e.width = width) :
    (∀ i < width, x (bitAt i) = BitVector.valueOf (e.isSet i)) ↔ onPositions width x = e.ones := by
  -- A value that is zero or one is told by whether it is one.
  have hvalue : ∀ i < width, x (bitAt i) = BitVector.valueOf (e.isSet i) ↔
      (x (bitAt i) = 1 ↔ e.isSet i = true) := by
    intro i hi
    rcases le_one_iff.mp (hbits i hi) with h | h <;> cases e.isSet i <;>
      simp [h, BitVector.valueOf]
  constructor
  · intro h
    ext i
    rw [onPositions, Finset.mem_filter, Finset.mem_range, BitVector.mem_ones]
    constructor
    · intro hboth
      obtain ⟨hi, hon⟩ := hboth
      exact ((hvalue i hi).mp (h i hi)).mp hon
    · intro hset
      have hi : i < width := by
        rw [← hwidth]
        exact Finset.mem_range.mp (e.ones_subset_range (BitVector.mem_ones.mpr hset))
      exact ⟨hi, ((hvalue i hi).mp (h i hi)).mpr hset⟩
  · intro h i hi
    rw [hvalue i hi, ← BitVector.mem_ones, ← h, onPositions, Finset.mem_filter, Finset.mem_range]
    exact ⟨fun hon => ⟨hi, hon⟩, fun hmem => hmem.2⟩

/-! ## Decoding in a set that contains zero -/

section ofSet
variable {s : SetSpec}

theorem toFinset_active (s : SetSpec) (x : Valuation Variable) :
    ((ofSet s).active x).toFinset = onElements s.nonzero x := by
  ext e
  rw [List.mem_toFinset, mem_onElements, active, List.mem_filter]
  simp [ofSet]

theorem nodup_active (s : SetSpec) (x : Valuation Variable) : ((ofSet s).active x).Nodup :=
  (SetSpec.nodup_nonzero s).filter _

/-- The indicators select an element exactly when none but its own is on. -/
theorem selected_eq_ok_iff (hzero : s.containsZero = true) :
    (ofSet s).selected x = .ok e ↔
      e ∈ s.elements ∧ onElements s.nonzero x = if e.isZero then ∅ else {e} := by
  have hactive := toFinset_active s x
  have hnodup := nodup_active s x
  unfold selected
  cases hlist : (ofSet s).active x with
  | nil =>
    -- No indicator is on, which selects zero.
    rw [hlist] at hactive
    have hset : (ofSet s).containsZero = true := hzero
    rw [← hactive, hset]
    constructor
    · intro h
      cases h
      refine ⟨SetSpec.containsZero_iff.mp hzero, ?_⟩
      rw [show (BitVector.zeros (ofSet s).width).isZero = true from BitVector.isZero_zeros _]
      rfl
    · intro hboth
      obtain ⟨hmem, hempty⟩ := hboth
      cases hz : e.isZero with
      | false =>
        rw [hz] at hempty
        exact absurd hempty.symm (Finset.singleton_ne_empty e)
      | true =>
        rw [(BitVector.isZero_iff e).mp hz, s.width_eq e hmem]
        rfl
  | cons y ys =>
    have hy : y ∈ s.nonzero := by
      have hmem : y ∈ (ofSet s).active x := by simp [hlist]
      exact (List.mem_filter.mp hmem).1
    obtain ⟨hyelement, hynonzero⟩ := SetSpec.mem_nonzero.mp hy
    cases ys with
    | nil =>
      -- One indicator is on, which selects its element; that element is not zero.
      rw [hlist] at hactive
      rw [← hactive]
      constructor
      · intro h
        cases h
        refine ⟨hyelement, ?_⟩
        rw [hynonzero]
        rfl
      · intro hboth
        obtain ⟨-, hsingle⟩ := hboth
        cases hz : e.isZero with
        | true =>
          rw [hz] at hsingle
          exact absurd hsingle (by simp)
        | false =>
          rw [hz] at hsingle
          have heq : y = e := by simpa using hsingle
          rw [heq]
    | cons z zs =>
      -- Two are on, and they are different, so no element leaves all others off.
      constructor
      · intro h
        cases h
      · intro hboth
        obtain ⟨-, hfew⟩ := hboth
        have hcard : 2 ≤ (onElements s.nonzero x).card := by
          rw [← hactive, List.toFinset_card_of_nodup hnodup, hlist]
          simp
        rw [hfew] at hcard
        cases hz : e.isZero with
        | true => simp [hz] at hcard
        | false => simp [hz] at hcard

/-- **Decoding finds what a valuation stands for**: its bits are zeros and ones, and it decodes to
an element of the set exactly when it stands for it. -/
theorem decode_eq_ok_iff_standsFor (hzero : s.containsZero = true)
    (hbits : ∀ i < s.width, x (bitAt i) ≤ 1) :
    (ofSet s).decode x = .ok e ↔ e ∈ s.elements ∧ StandsFor s x e := by
  rw [decode_eq_ok_iff, selected_eq_ok_iff hzero, mismatch?_eq_none_iff]
  constructor
  · intro hboth
    obtain ⟨⟨hmem, hon⟩, hvalues⟩ := hboth
    exact ⟨hmem, (forall_bit_eq_iff hbits (s.width_eq e hmem)).mp hvalues, hon⟩
  · intro hboth
    obtain ⟨hmem, hpositions, hon⟩ := hboth
    exact ⟨⟨hmem, hon⟩, (forall_bit_eq_iff hbits (s.width_eq e hmem)).mpr hpositions⟩

/-- What a valuation decodes to is an element, and its values are those of the bits. -/
theorem values_of_decode (hzero : s.containsZero = true) (h : (ofSet s).decode x = .ok e) :
    e ∈ s.elements ∧ e.values = (List.range s.width).map fun i => x (bitAt i) := by
  obtain ⟨hselected, hmismatch⟩ := decode_eq_ok_iff.mp h
  have hmem := ((selected_eq_ok_iff hzero).mp hselected).1
  have hvalues := mismatch?_eq_none_iff.mp hmismatch
  refine ⟨hmem, ?_⟩
  rw [BitVector.values_eq_map_range (s.width_eq e hmem)]
  apply List.map_congr_left
  intro i hi
  exact (hvalues i (List.mem_range.mp hi)).symm

end ofSet

end Decoder

end SetQubo
