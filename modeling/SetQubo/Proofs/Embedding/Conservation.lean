import Mathlib
import SetQubo.Proofs.Embedding.Decoding
import SetQubo.Proofs.Embedding.GroundStates
/-!
# Embedding a larger set

The model of a set is built element by element, and an element's guards are written against all
others. Still, in exact arithmetic, the terms that concern a part of the elements are those that
this part has on its own: as long as the indicators of the other elements are off, the model of the
larger set has the energies of the smaller one's, and its decoder says the same. In particular it
does not matter in which order the elements of a set are given, or how often.
-/

namespace SetQubo

namespace Embedding

open Variable

variable {s t : SetSpec} {x : Valuation Variable}

/-- The elements of the one set are elements of the other, which has the same width. -/
structure Extends (t s : SetSpec) : Prop where
  /-- The width is the same. -/
  width_eq : t.width = s.width
  /-- Every element is kept, wherever it stands. -/
  mem {e : BitVector} (h : e ∈ s.elements) : e ∈ t.elements

/-- The indicators of the elements that only the larger set has are off. -/
def OffOutside (s t : SetSpec) (x : Valuation Variable) : Prop :=
  ∀ e ∈ t.elements, e ∉ s.elements → x (indicator e) ≠ 1

namespace Extends

variable (h : Extends t s)
include h

theorem containsZero (hzero : s.containsZero = true) : t.containsZero = true := by
  rw [SetSpec.containsZero_iff] at hzero ⊢
  rw [h.width_eq]
  exact h.mem hzero

/-- The same elements are on in both sets. -/
theorem onElements_eq (hoff : OffOutside s t x) :
    onElements t.nonzero x = onElements s.nonzero x := by
  ext e
  rw [mem_onElements, mem_onElements, SetSpec.mem_nonzero, SetSpec.mem_nonzero]
  constructor
  · rintro ⟨⟨hmem, hnonzero⟩, hon⟩
    have hkept : e ∈ s.elements := by
      by_contra hnot
      exact hoff e hmem hnot hon
    exact ⟨⟨hkept, hnonzero⟩, hon⟩
  · rintro ⟨⟨hmem, hnonzero⟩, hon⟩
    exact ⟨⟨h.mem hmem, hnonzero⟩, hon⟩

/-- The energy is the same in both models: the same positions and the same elements are on, and the
load of an element depends on nothing else. -/
theorem energy_eq (hoff : OffOutside s t x) (penalty : Rat) :
    (modelOf penalty t.width t.nonzero).energy x =
      (modelOf penalty s.width s.nonzero).energy x := by
  rw [energy_eq_sum_load t.width_le t.nodup_nonzero, energy_eq_sum_load s.width_le s.nodup_nonzero,
    h.onElements_eq hoff, h.width_eq]

/-- An element that the indicators select in the larger set is one of the smaller set. -/
theorem mem_of_onElements_eq (hzero : s.containsZero = true) {e : BitVector}
    (hmem : e ∈ t.elements) (hon : onElements s.nonzero x = if e.isZero then ∅ else {e}) :
    e ∈ s.elements := by
  cases hcase : e.isZero with
  | true =>
    -- There is one zero vector of the width, and the smaller set contains it.
    rw [(BitVector.isZero_iff e).mp hcase, t.width_eq e hmem, h.width_eq]
    exact SetSpec.containsZero_iff.mp hzero
  | false =>
    have hself : e ∈ onElements s.nonzero x := by
      rw [hon, hcase]
      exact Finset.mem_singleton_self e
    exact (SetSpec.mem_nonzero.mp (mem_onElements.mp hself).1).1

/-- Both decoders accept the same valuations, and for the same element. -/
theorem decode_eq_ok_iff (hzero : s.containsZero = true) (hoff : OffOutside s t x)
    (e : BitVector) :
    (Decoder.ofSet t).decode x = .ok e ↔ (Decoder.ofSet s).decode x = .ok e := by
  have hmismatch : (Decoder.ofSet t).mismatch? x e = (Decoder.ofSet s).mismatch? x e := by
    show (List.range t.width).find? _ = (List.range s.width).find? _
    rw [h.width_eq]
  rw [Decoder.decode_eq_ok_iff, Decoder.decode_eq_ok_iff, hmismatch,
    Decoder.selected_eq_ok_iff (h.containsZero hzero), Decoder.selected_eq_ok_iff hzero,
    h.onElements_eq hoff]
  constructor
  · rintro ⟨⟨hmem, hon⟩, hnone⟩
    exact ⟨⟨h.mem_of_onElements_eq hzero hmem hon, hon⟩, hnone⟩
  · rintro ⟨⟨hmem, hon⟩, hnone⟩
    exact ⟨⟨h.mem hmem, hon⟩, hnone⟩

end Extends

/-- Two embedded sets agree on a valuation: it has the same energy in both models, and it decodes
to the same element or to none in both sets. -/
structure AgreeOn (s t : SetSpec) (m n : Model Variable Rat) (x : Valuation Variable) : Prop where
  /-- The energy is the same. -/
  energy : n.energy x = m.energy x
  /-- What decodes in one set decodes in the other, to the same element. -/
  decode (e : BitVector) : (Decoder.ofSet t).decode x = .ok e ↔ (Decoder.ofSet s).decode x = .ok e

/-- **The embedding is conservative.** If a set that contains zero is extended by elements of its
width, then both sets are embedded, and they agree on every valuation in which the indicators of
the new elements are off. If there are no new elements, so that the second set only gives the
elements in another order or more often, then they agree on every valuation. -/
theorem conservative {config : EmbeddingConfig Rat} (hzero : s.containsZero = true)
    (hextends : Extends t s) (hpenalty : 0 < config.basePenalty) :
    ∃ m n, embed config s = .ok m ∧ embed config t = .ok n ∧
      (∀ x, OffOutside s t x → AgreeOn s t m n x) ∧
      ((∀ e ∈ t.elements, e ∈ s.elements) → ∀ x, AgreeOn s t m n x) := by
  have hagree : ∀ x, OffOutside s t x →
      AgreeOn s t (modelOf config.basePenalty s.width s.nonzero)
        (modelOf config.basePenalty t.width t.nonzero) x := fun x hoff =>
    ⟨hextends.energy_eq hoff config.basePenalty, hextends.decode_eq_ok_iff hzero hoff⟩
  refine ⟨_, _, embed_eq_ok hzero hpenalty, embed_eq_ok (hextends.containsZero hzero) hpenalty,
    hagree, ?_⟩
  intro hsame x
  exact hagree x fun e he hnot => absurd (hsame e he) hnot

/-- Two rows of the truth table of exclusive or, one of them given twice. -/
def twoRows : SetSpec :=
  { SetSpec.exclusiveOr with
    elements := [⟨[true, true, false]⟩, ⟨[false, false, false]⟩, ⟨[true, true, false]⟩]
    width_eq := by decide }

/-- As long as the indicators of the other two rows are off, the model of the whole truth table has
the energies of the model of these two rows. -/
theorem twoRows_conservative :
    twoRows.containsZero = true ∧ Extends SetSpec.exclusiveOr twoRows ∧
      ∃ m n, embed (⟨10⟩ : EmbeddingConfig Rat) twoRows = .ok m ∧
        embed (⟨10⟩ : EmbeddingConfig Rat) SetSpec.exclusiveOr = .ok n ∧
        ∀ x, x (indicator ⟨[true, false, true]⟩) = 0 → x (indicator ⟨[false, true, true]⟩) = 0 →
          AgreeOn twoRows SetSpec.exclusiveOr m n x := by
  have hzero : twoRows.containsZero = true := by decide
  have hextends : Extends SetSpec.exclusiveOr twoRows := by
    have hall : ∀ e ∈ twoRows.elements, e ∈ SetSpec.exclusiveOr.elements := by decide
    exact ⟨rfl, fun {e} he => hall e he⟩
  obtain ⟨m, n, hm, hn, hagree, -⟩ := @conservative _ _ ⟨10⟩ hzero hextends (by norm_num)
  refine ⟨hzero, hextends, m, n, hm, hn, ?_⟩
  intro x hfirst hsecond
  apply hagree
  have hothers : ∀ e ∈ SetSpec.exclusiveOr.elements, e ∉ twoRows.elements →
      e = ⟨[true, false, true]⟩ ∨ e = ⟨[false, true, true]⟩ := by decide
  intro e he hnot
  rcases hothers e he hnot with rfl | rfl
  · rw [hfirst]
    decide
  · rw [hsecond]
    decide

end Embedding

end SetQubo
