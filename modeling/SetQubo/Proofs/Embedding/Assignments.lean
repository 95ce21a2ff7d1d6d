import Mathlib
import SetQubo.Proofs.Embedding.GroundStates
import SetQubo.Proofs.Solver.Search
/-!
# The assignments of an embedded set

A solver of an embedded set numbers the bits first and then the indicators. Each element is decoded
from exactly one of its assignments, the row of which holds the element's values followed by a one
at its own indicator. So the assignments that decode come in the order of the written forms of
their elements. Nothing of this depends on the arithmetic.
-/

namespace SetQubo

namespace Embedding

open Variable

variable {s : SetSpec} {x y : Valuation Variable} {e e' : BitVector}

/-! ## Valuations with the same values -/

/-- What a valuation stands for depends on the variables of the set only. -/
theorem StandsFor.congr (h : StandsFor s x e)
    (hxy : ∀ v ∈ variableList s.width s.nonzero, x v = y v) : StandsFor s y e := by
  constructor
  · rw [← h.positions]
    unfold onPositions
    apply Finset.filter_congr
    intro i hi
    rw [hxy _ (List.mem_append_left _ (List.mem_map_of_mem (by simpa using hi)))]
  · rw [← h.on]
    unfold onElements
    apply Finset.filter_congr
    intro z hz
    rw [hxy _ (List.mem_append_right _ (List.mem_map_of_mem (List.mem_toFinset.mp hz)))]

/-- Two valuations that stand for one element have the same variables on. -/
theorem StandsFor.eq_one_iff (hx : StandsFor s x e) (hy : StandsFor s y e) :
    ∀ v ∈ variableList s.width s.nonzero, x v = 1 ↔ y v = 1 := by
  intro v hv
  rcases List.mem_append.mp hv with hv | hv
  · obtain ⟨i, hi, rfl⟩ := List.mem_map.mp hv
    have hpositions := Finset.ext_iff.mp (hx.positions.trans hy.positions.symm) i
    unfold onPositions at hpositions
    rw [Finset.mem_filter, Finset.mem_filter, Finset.mem_range] at hpositions
    rw [List.mem_range] at hi
    simpa [hi] using hpositions
  · obtain ⟨z, hz, rfl⟩ := List.mem_map.mp hv
    have hon := Finset.ext_iff.mp (hx.on.trans hy.on.symm) z
    rw [mem_onElements, mem_onElements] at hon
    simpa [hz] using hon

/-! ## Assignments that decode -/

variable {S : Type}

/-- What an assignment of an embedded set decodes to. -/
def decoded (s : SetSpec) (solver : Solver Variable S) (n : UInt64) :
    Except DecodeError BitVector :=
  (Decoder.ofSet s).decode (solver.assignment n).value

/-- The bits of an assignment are zeros and ones. -/
theorem bit_assignment_le_one (solver : Solver Variable S) (n : UInt64) :
    ∀ i < s.width, (solver.assignment n).value (bitAt i) ≤ 1 := by
  intro i _
  exact le_one_iff.mpr (Assignment.value_eq_zero_or_one _ _)

theorem decoded_eq_ok_iff (hzero : s.containsZero = true) (solver : Solver Variable S)
    (n : UInt64) :
    decoded s solver n = .ok e ↔ e ∈ s.elements ∧ StandsFor s (solver.assignment n).value e :=
  Decoder.decode_eq_ok_iff_standsFor hzero (bit_assignment_le_one solver n)

/-- The row of an element: its values, then a one at its own indicator. -/
def rowOf (s : SetSpec) (e : BitVector) : List UInt8 :=
  e.values ++ s.nonzero.map fun z => if z = e then 1 else 0

variable [Scalar S] {penalty : S} {config : SolverConfig S} {solver : Solver Variable S}
  {n n' : UInt64}

/-- A set is solved if the cap admits its bits and its indicators. -/
theorem exists_prepare_modelOf (s : SetSpec) (penalty : S) (config : SolverConfig S)
    (hcap : s.width + s.nonzero.length ≤ config.cap) :
    ∃ solver, Solver.prepare (modelOf penalty s.width s.nonzero) config = .ok solver := by
  apply Solver.exists_prepare_eq_ok
  rw [labels_modelOf s.width_le penalty (SetSpec.nodup_nonzero s)]
  unfold variableList
  rw [List.length_append, List.length_map, List.length_map, List.length_range]
  exact hcap

section prepared
variable (h : Solver.Prepares (modelOf penalty s.width s.nonzero) config solver)
include h

/-- The bits are numbered first, then the indicators. -/
theorem labels_solver : solver.labels = variableList s.width s.nonzero := by
  rw [h.labels_eq, labels_modelOf s.width_le penalty (SetSpec.nodup_nonzero s)]

/-- Every element is decoded from an assignment. -/
theorem exists_decoded_eq_ok (hzero : s.containsZero = true) (he : e ∈ s.elements) :
    ∃ n ∈ solver.encodings, decoded s solver n = .ok e := by
  -- The assignment that agrees with the standing valuation of the element stands for it, too.
  refine ⟨_, h.encodingOf_mem (standing e), ?_⟩
  rw [decoded_eq_ok_iff hzero]
  refine ⟨he, (standsFor_standing he).congr ?_⟩
  intro v hv
  rw [← labels_solver h, h.labels_eq] at hv
  exact (h.value_encodingOf (isBinary_valuationOf _ _ _) hv).symm

/-- **No element is decoded from two assignments.** -/
theorem decoded_inj (hzero : s.containsZero = true) (hn : n ∈ solver.encodings)
    (hn' : n' ∈ solver.encodings) (hdecoded : decoded s solver n = .ok e)
    (hdecoded' : decoded s solver n' = .ok e) : n = n' := by
  have hstands := ((decoded_eq_ok_iff hzero solver n).mp hdecoded).2
  have hstands' := ((decoded_eq_ok_iff hzero solver n').mp hdecoded').2
  apply h.encoding_inj hn hn'
  intro v hv
  rw [← h.labels_eq, labels_solver h] at hv
  exact eq_of_binary (Assignment.value_eq_zero_or_one _ v) (Assignment.value_eq_zero_or_one _ v)
    (hstands.eq_one_iff hstands' v hv)

/-- **The row of an assignment that decodes** is the row of its element. -/
theorem values_of_decoded (hzero : s.containsZero = true)
    (hdecoded : decoded s solver n = .ok e) : (solver.assignment n).values = rowOf s e := by
  have hstands := ((decoded_eq_ok_iff hzero solver n).mp hdecoded).2
  rw [h.values_eq, ← h.labels_eq, labels_solver h]
  unfold variableList rowOf
  rw [List.map_append, List.map_map, List.map_map, (Decoder.values_of_decode hzero hdecoded).2]
  congr 1
  apply List.map_congr_left
  intro z hz
  -- An indicator is on exactly if it is the element's own; zero has none.
  have hon : (solver.assignment n).value (indicator z) = 1 ↔ z = e := by
    have hmem := Finset.ext_iff.mp hstands.on z
    rw [mem_onElements] at hmem
    have hnonzero := (SetSpec.mem_nonzero.mp hz).2
    cases hzeroElement : e.isZero with
    | true =>
      have hne : z ≠ e := by
        rintro rfl
        rw [hnonzero] at hzeroElement
        cases hzeroElement
      simpa [hzeroElement, hz, hne] using hmem
    | false => simpa [hzeroElement, hz] using hmem
  show (solver.assignment n).value (indicator z) = _
  by_cases heq : z = e
  · rw [if_pos heq, hon.mpr heq]
  · rw [if_neg heq]
    exact (Assignment.value_eq_zero_or_one _ _).resolve_right fun hone => heq (hon.mp hone)

/-- Assignments that decode are in the order of the written forms of their elements. -/
theorem text_lt_of_decoded (hzero : s.containsZero = true) (hn : n ∈ solver.encodings)
    (hn' : n' ∈ solver.encodings) (hdecoded : decoded s solver n = .ok e)
    (hdecoded' : decoded s solver n' = .ok e') (hlt : n < n') : e.text < e'.text := by
  have hmem := ((decoded_eq_ok_iff hzero solver n).mp hdecoded).1
  have hmem' := ((decoded_eq_ok_iff hzero solver n').mp hdecoded').1
  have hrows := (h.values_lt_values_iff hn hn').mpr hlt
  rw [values_of_decoded h hzero hdecoded, values_of_decoded h hzero hdecoded'] at hrows
  have hlength : e.values.length = e'.values.length := by
    rw [BitVector.length_values, BitVector.length_values, s.width_eq e hmem, s.width_eq e' hmem']
  rcases lt_or_eq_of_append_lt_append hlength hrows with hvalues | hvalues
  · exact (BitVector.text_lt_text_iff e e').mpr hvalues
  · -- The same element would have come from one assignment.
    have heq : e = e' := BitVector.values_inj hvalues
    subst heq
    have hsame := decoded_inj h hzero hn hn' hdecoded hdecoded'
    exact absurd (hsame ▸ hlt) (UInt64.lt_irrefl n)

end prepared

/-! ## The elements that assignments decode to -/

/-- The elements that some assignments decode to, in the order of the assignments. -/
def decodedElements (s : SetSpec) (solver : Solver Variable S) (ns : List UInt64) :
    List BitVector :=
  ns.filterMap fun n => (decoded s solver n).toOption

omit [Scalar S] in
theorem toOption_decoded_eq_some_iff :
    (decoded s solver n).toOption = some e ↔ decoded s solver n = .ok e := by
  cases decoded s solver n with
  | error r => simp [Except.toOption]
  | ok x => simp [Except.toOption]

omit [Scalar S] in
theorem mem_decodedElements {ns : List UInt64} :
    e ∈ decodedElements s solver ns ↔ ∃ n ∈ ns, decoded s solver n = .ok e := by
  unfold decodedElements
  rw [List.mem_filterMap]
  simp only [toOption_decoded_eq_some_iff]

omit [Scalar S] in
/-- Nothing but elements is decoded. -/
theorem mem_elements_of_mem_decodedElements (hzero : s.containsZero = true) {ns : List UInt64}
    (he : e ∈ decodedElements s solver ns) : e ∈ s.elements := by
  obtain ⟨n, -, hdecoded⟩ := mem_decodedElements.mp he
  exact ((decoded_eq_ok_iff hzero solver n).mp hdecoded).1

section prepared
variable (h : Solver.Prepares (modelOf penalty s.width s.nonzero) config solver)
  (hzero : s.containsZero = true)
include h hzero

/-- The rows of assignments that decode are the rows of their elements. -/
theorem map_values_eq_map_rowOf {ns : List UInt64}
    (hdecoded : ∀ n ∈ ns, ∃ e, decoded s solver n = .ok e) :
    (ns.map fun n => (solver.assignment n).values) =
      (decodedElements s solver ns).map (rowOf s) := by
  induction ns with
  | nil => rfl
  | cons n ns ih =>
    obtain ⟨e, he⟩ := hdecoded n List.mem_cons_self
    have hrest := ih fun n' hn' => hdecoded n' (List.mem_cons_of_mem _ hn')
    have hfirst : decodedElements s solver (n :: ns) = e :: decodedElements s solver ns :=
      List.filterMap_cons_some (toOption_decoded_eq_some_iff.mpr he)
    rw [hfirst, List.map_cons, List.map_cons, hrest, values_of_decoded h hzero he]

/-- In ascending order, assignments decode to elements with ascending written forms. -/
theorem pairwise_text_decodedElements {ns : List UInt64} (hns : ns.Pairwise (· < ·))
    (hmem : ∀ n ∈ ns, n ∈ solver.encodings) :
    ((decodedElements s solver ns).map BitVector.text).Pairwise (· < ·) := by
  unfold decodedElements
  rw [List.pairwise_map, List.pairwise_filterMap]
  apply hns.imp_of_mem
  intro n n' hn hn' hlt e he e' he'
  exact text_lt_of_decoded h hzero (hmem n hn) (hmem n' hn')
    (toOption_decoded_eq_some_iff.mp he) (toOption_decoded_eq_some_iff.mp he') hlt

end prepared

end Embedding

end SetQubo
