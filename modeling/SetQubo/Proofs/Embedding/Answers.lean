import Mathlib
import SetQubo.Proofs.Embedding.Decoding
/-!
# What a decoder answers

A decoder looks at the indicators first and at the bits afterwards, and each step has one answer for
every valuation, whatever values it gives to the variables. A value counts as on only if it is 1,
and agrees with a position of an element only if it is the value there; so an indicator with the
value 2 is off, and a bit with the value 2 agrees with nothing.

* If two or more indicators are on, then the answer names them, in their order. The bits are not
  looked at.
* Otherwise one element is selected: that of the indicator which is on, or zero if none is. If a
  bit differs from it, then the answer reports the first one that does, and else it is the element.

What is answered in the end is an element of the set, and every element is answered to its own bits
with no indicator on but its own.
-/

namespace SetQubo

open Variable

namespace BitVector

/-- Within the width there is a value, so that reading with a default finds it. -/
theorem get?_eq_some_iff {e : BitVector} {i : Nat} (hi : i < e.width) {a : UInt8} :
    e.get? i = some a ↔ a = (e.get? i).getD 0 := by
  have hlt : i < e.values.length := by rwa [length_values]
  rw [get?, List.getElem?_eq_getElem hlt]
  simp [eq_comm]

end BitVector

namespace Decoder

variable {d : Decoder} {s : SetSpec} {x : Valuation Variable} {e : BitVector} {i : Nat}

/-! ## The indicators that are on -/

/-- The indicators that are on, in the order of the decoder. -/
def activeIndicators (d : Decoder) (x : Valuation Variable) : List Variable :=
  d.indicators.filter fun v => x v = 1

/-- The elements that the decoder finds selected are those of the indicators that are on. -/
theorem map_active (d : Decoder) (x : Valuation Variable) :
    (d.active x).map indicator = d.activeIndicators x := by
  unfold active activeIndicators indicators
  rw [List.filter_map]
  rfl

/-- If no more than one indicator is on, then an element is selected. -/
inductive Selects (s : SetSpec) (x : Valuation Variable) : BitVector → Prop where
  /-- With no indicator on it is zero. -/
  | zero (h : (ofSet s).activeIndicators x = []) : Selects s x (.zeros s.width)
  /-- With one indicator on it is the element of that one. -/
  | one (e : BitVector) (h : (ofSet s).activeIndicators x = [indicator e]) : Selects s x e

theorem exists_selects (h : ((ofSet s).activeIndicators x).length < 2) : ∃ e, Selects s x e := by
  have hmap := map_active (ofSet s) x
  match hactive : (ofSet s).active x with
  | [] => exact ⟨_, .zero (by rw [← hmap, hactive]; rfl)⟩
  | [e] => exact ⟨e, .one e (by rw [← hmap, hactive]; rfl)⟩
  | e :: e' :: es =>
    rw [← hmap, hactive] at h
    simp at h

theorem Selects.selected_eq_ok (h : Selects s x e) (hzero : s.containsZero = true) :
    (ofSet s).selected x = .ok e := by
  unfold selected
  cases h with
  | zero hnone =>
    have hactive : (ofSet s).active x = [] := by
      rw [← map_active] at hnone
      exact List.map_eq_nil_iff.mp hnone
    have hcontains : (ofSet s).containsZero = true := hzero
    rw [hactive, hcontains]
    rfl
  | one _ hone =>
    have hactive : (ofSet s).active x = [e] := by
      rw [← map_active] at hone
      obtain ⟨y, hy, heq⟩ := List.map_eq_singleton_iff.mp hone
      rw [hy, Variable.indicator.inj heq]
    rw [hactive]

theorem Selects.width_eq (h : Selects s x e) : e.width = s.width := by
  cases h with
  | zero => exact BitVector.width_zeros _
  | one _ hone =>
    have hmem : e ∈ (ofSet s).active x := by
      rw [← List.mem_map_of_injective (fun _ _ h => Variable.indicator.inj h), map_active, hone]
      exact List.mem_singleton_self _
    exact SetSpec.width_of_mem_nonzero (List.mem_filter.mp hmem).1

/-- Where two indicators are on, all of them are named. -/
theorem selected_of_two_le (h : 2 ≤ (d.activeIndicators x).length) :
    d.selected x = .error (.multipleIndicators (d.active x)) := by
  have hlength : (d.active x).length = (d.activeIndicators x).length := by
    rw [← map_active, List.length_map]
  unfold selected
  match hactive : d.active x with
  | [] => simp [hactive] at hlength; omega
  | [e] => simp [hactive] at hlength; omega
  | e :: e' :: es => rfl

/-! ## The bits -/

/-- The first bit that differs is found. -/
theorem mismatch?_eq_some_iff : d.mismatch? x e = some i ↔
    i < d.width ∧ x (bitAt i) ≠ (e.get? i).getD 0 ∧ ∀ j < i, x (bitAt j) = (e.get? j).getD 0 := by
  unfold mismatch?
  rw [List.find?_range_eq_some, List.mem_range]
  simp only [ne_eq, decide_not, Bool.not_eq_true', decide_eq_false_iff_not, Bool.not_not,
    decide_eq_true_eq]
  tauto

theorem decode_of_selected_eq_error {r : DecodeError} (h : d.selected x = .error r) :
    d.decode x = .error r := by
  unfold decode
  rw [h]
  rfl

theorem decode_of_mismatch (hselected : d.selected x = .ok e) (h : d.mismatch? x e = some i) :
    d.decode x = .error (.bitMismatch e i ((e.get? i).getD 0) (x (bitAt i))) := by
  unfold decode
  rw [hselected]
  simp only [bind, Except.bind]
  rw [h]
  rfl

/-! ## The answers -/

/-- What a decoder answers to a valuation, for each way that the indicators and bits can be. -/
structure Answers (s : SetSpec) (x : Valuation Variable) : Prop where
  /-- If two or more indicators are on, then these are named, whatever the bits are. -/
  multiple (h : 2 ≤ ((ofSet s).activeIndicators x).length) :
    ∃ es : List BitVector, es.map indicator = (ofSet s).activeIndicators x ∧
      (ofSet s).decode x = .error (.multipleIndicators es) ∧
      (DecodeError.multipleIndicators es).message =
        toString ((ofSet s).activeIndicators x).length ++ " indicator variables are active (" ++
          String.intercalate ", " (((ofSet s).activeIndicators x).map Variable.name) ++
          "), at most one may be"
  /-- Otherwise an element is selected. -/
  selected (h : ((ofSet s).activeIndicators x).length < 2) : ∃ e, Selects s x e
  /-- The first bit that differs from the selected element is reported, with the value that it
  should have and the value that it has. -/
  mismatch {e : BitVector} {i : Nat} (h : Selects s x e) (hi : i < s.width)
    (hdiffers : e.get? i ≠ some (x (bitAt i)))
    (hfirst : ∀ j < i, e.get? j = some (x (bitAt j))) :
    ∃ expected, e.get? i = some expected ∧
      (ofSet s).decode x = .error (.bitMismatch e i expected (x (bitAt i)))
  /-- If no bit differs, then the selected element is the answer. -/
  element {e : BitVector} (h : Selects s x e)
    (hbits : ∀ i < s.width, e.get? i = some (x (bitAt i))) : (ofSet s).decode x = .ok e
  /-- An answer that is an element is one of the set, and its values are those of the bits. -/
  sound {e : BitVector} (h : (ofSet s).decode x = .ok e) :
    e ∈ s.elements ∧ e.values = (List.range s.width).map fun i => x (bitAt i)
  /-- Every element of the set is the answer to its values with its own indicator on and no
  other. -/
  complete {e : BitVector} (h : e ∈ s.elements)
    (hbits : e.values = (List.range s.width).map fun i => x (bitAt i))
    (hown : ∀ v ∈ (ofSet s).indicators, x v = 1 ↔ v = indicator e) :
    (ofSet s).decode x = .ok e

/-- The selected element is answered if every bit agrees with it. -/
theorem Selects.decode_eq_ok (h : Selects s x e) (hzero : s.containsZero = true)
    (hbits : ∀ i < s.width, e.get? i = some (x (bitAt i))) : (ofSet s).decode x = .ok e := by
  rw [decode_eq_ok_iff]
  refine ⟨h.selected_eq_ok hzero, mismatch?_eq_none_iff.mpr ?_⟩
  intro i hi
  rw [← BitVector.getD_get?, hbits i hi]
  rfl

/-- The first bit that differs from the selected element is reported. -/
theorem Selects.decode_eq_error (h : Selects s x e) (hzero : s.containsZero = true)
    (hi : i < s.width) (hdiffers : e.get? i ≠ some (x (bitAt i)))
    (hfirst : ∀ j < i, e.get? j = some (x (bitAt j))) :
    ∃ expected, e.get? i = some expected ∧
      (ofSet s).decode x = .error (.bitMismatch e i expected (x (bitAt i))) := by
  have hread : ∀ j < s.width, ∀ a, e.get? j = some a ↔ a = (e.get? j).getD 0 := fun j hj a =>
    BitVector.get?_eq_some_iff (h.width_eq ▸ hj)
  refine ⟨(e.get? i).getD 0, (hread i hi _).mpr rfl, ?_⟩
  apply decode_of_mismatch (h.selected_eq_ok hzero)
  rw [mismatch?_eq_some_iff]
  refine ⟨hi, fun heq => hdiffers ((hread i hi _).mpr heq), ?_⟩
  intro j hj
  exact (hread j (hj.trans hi) _).mp (hfirst j hj)

/-- An element is selected by its own indicator alone; zero has none. -/
theorem selects_of_own (he : e ∈ s.elements)
    (hown : ∀ v ∈ (ofSet s).indicators, x v = 1 ↔ v = indicator e) : Selects s x e := by
  have hactive : (ofSet s).activeIndicators x =
      List.replicate ((ofSet s).indicators.count (indicator e)) (indicator e) := by
    unfold activeIndicators
    rw [← List.filter_eq]
    exact List.filter_congr fun v hv => decide_eq_decide.mpr (hown v hv)
  have hmem : indicator e ∈ (ofSet s).indicators ↔ e ∈ s.nonzero :=
    List.mem_map_of_injective fun _ _ h => Variable.indicator.inj h
  by_cases hzero : e.isZero = true
  · have hnot : indicator e ∉ (ofSet s).indicators := by
      rw [hmem, SetSpec.mem_nonzero, hzero]
      simp
    rw [List.count_eq_zero_of_not_mem hnot] at hactive
    rw [(BitVector.isZero_iff e).mp hzero, s.width_eq e he]
    exact .zero hactive
  · have hlisted : indicator e ∈ (ofSet s).indicators :=
      hmem.mpr (SetSpec.mem_nonzero.mpr ⟨he, Bool.not_eq_true _ ▸ hzero⟩)
    have hnodup : (ofSet s).indicators.Nodup :=
      s.nodup_nonzero.map fun _ _ h => Variable.indicator.inj h
    rw [List.count_eq_one_of_mem hnodup hlisted] at hactive
    exact .one e hactive

/-- **What a decoder answers.** In a set that contains zero every valuation has its answer, also
one with values that are neither 0 nor 1. -/
theorem answers (hzero : s.containsZero = true) (x : Valuation Variable) : Answers s x := by
  constructor
  case multiple =>
    intro h
    refine ⟨(ofSet s).active x, map_active _ _,
      decode_of_selected_eq_error (selected_of_two_le h), ?_⟩
    rw [← map_active, List.length_map, List.map_map]
    rfl
  case selected => exact exists_selects
  case mismatch => exact fun h hi hdiffers hfirst => h.decode_eq_error hzero hi hdiffers hfirst
  case element => exact fun h hbits => h.decode_eq_ok hzero hbits
  case sound => exact values_of_decode hzero
  case complete =>
    intro e he hbits hown
    apply (selects_of_own he hown).decode_eq_ok hzero
    intro i hi
    rw [BitVector.get?, hbits]
    simp [hi]

/-- The first row of exclusive or is selected, its first bit is on, and everything else has the
value 2. -/
def halfWritten : Valuation Variable
  | .bit i => if i = 0 then 1 else 2
  | .indicator e => if e = ⟨[true, true, false]⟩ then 1 else 2

/-- In the truth table of exclusive or, the value 2 does not select a second row, but as a bit it
differs from the row that is selected. With every variable on, all three rows are named. -/
theorem exclusiveOr_answers :
    SetSpec.exclusiveOr.containsZero = true ∧
      (ofSet SetSpec.exclusiveOr).decode halfWritten =
        .error (.bitMismatch ⟨[true, true, false]⟩ 1 1 2) ∧
      (ofSet SetSpec.exclusiveOr).decode (fun _ => 1) = .error (.multipleIndicators
        [⟨[true, true, false]⟩, ⟨[true, false, true]⟩, ⟨[false, true, true]⟩]) := by
  have hzero : SetSpec.exclusiveOr.containsZero = true := by decide
  obtain ⟨expected, hexpected, hmismatch⟩ := (answers hzero halfWritten).mismatch
    (.one ⟨[true, true, false]⟩ (by decide)) (by decide : 1 < SetSpec.exclusiveOr.width)
    (by decide) (by decide)
  obtain ⟨es, hes, hmultiple, -⟩ := (answers hzero fun _ => 1).multiple (by decide)
  constructor
  · exact hzero
  constructor
  · have hone : expected = 1 := Option.some.inj (hexpected.symm.trans (by decide))
    have hfound : halfWritten (bitAt 1) = 2 := by decide
    rw [hmismatch, hone, hfound]
  · have hrows : es = [⟨[true, true, false]⟩, ⟨[true, false, true]⟩, ⟨[false, true, true]⟩] := by
      apply List.map_injective_iff.mpr fun _ _ h => Variable.indicator.inj h
      rw [hes]
      decide
    rw [hmultiple, hrows]

end Decoder

end SetQubo
