import SetQubo.Proofs.Model.Labels
import SetQubo.Proofs.Solver.Assignments
import SetQubo.Solver.Search
/-!
# What the search looks at

A prepared solver enumerates the encodings below two to the number of variables, which stand for
the binary valuations of the model, each for one. The energy it computes from the digits of an
encoding is the model's energy of that valuation, whatever the arithmetic.
-/

namespace SetQubo

namespace Solver

variable {V S : Type} [Label V] {m : Model V S} {config : SolverConfig S} {s : Solver V S}

/-! ## Preparation -/

/-- The solver is the one that the model and the settings are prepared as. -/
structure Prepares (m : Model V S) (config : SolverConfig S) (s : Solver V S) : Prop where
  /-- The settings are kept. -/
  config_eq : s.config = config
  /-- The variables are numbered as they occur. -/
  numbering_eq : s.numbering = .ofList m.occurrences
  /-- There are no more variables than allowed. -/
  size_le_cap : s.numbering.size ≤ config.cap
  /-- The linear terms are those of the model. -/
  linear_eq : s.linear = m.linear.toList.map fun t => (s.numbering.maskOf t.1, t.2)
  /-- The quadratic terms are those of the model. -/
  quadratic_eq : s.quadratic = m.quadratic.toList.map fun t =>
    (s.numbering.maskOf t.1.first ||| s.numbering.maskOf t.1.second, t.2)

theorem prepares_of_prepare (h : prepare m config = .ok s) : Prepares m config s := by
  unfold prepare at h
  by_cases hcap : (Numbering.ofList m.occurrences).size > config.cap
  · rw [if_pos hcap] at h
    cases h
  · rw [if_neg hcap] at h
    cases h
    exact ⟨rfl, rfl, Nat.not_lt.mp hcap, rfl, rfl⟩

/-- A model with no more variables than the cap is prepared. -/
theorem exists_prepare_eq_ok (h : m.labels.length ≤ config.cap) :
    ∃ s, prepare m config = .ok s := by
  have hcap : ¬(Numbering.ofList m.occurrences).size > config.cap := by
    rw [Numbering.size_ofList]
    exact Nat.not_lt.mpr h
  unfold prepare
  rw [if_neg hcap]
  exact ⟨_, rfl⟩

/-- A model is refused for the number of its variables, and for nothing else. -/
theorem prepare_eq_error_iff {e : SolverError} : prepare m config = .error e ↔
    config.cap < m.labels.length ∧ e = .tooManyVariables m.labels.length config.cap := by
  unfold Model.labels
  rw [← Numbering.size_ofList]
  unfold prepare
  by_cases hcap : (Numbering.ofList m.occurrences).size > config.cap
  · rw [if_pos hcap]
    constructor
    · intro h
      exact ⟨hcap, (Except.error.inj h).symm⟩
    · intro h
      rw [h.2]
  · rw [if_neg hcap]
    constructor
    · intro h
      cases h
    · intro h
      exact absurd h.1 hcap

/-- The coefficients that make up the energy of an encoding, in the order in which they are
added. -/
def summands (s : Solver V S) (n : UInt64) : List S :=
  (s.linear.filter fun t => n &&& t.1 ≠ 0).map Prod.snd ++
    (s.quadratic.filter fun t => n &&& t.1 = t.1).map Prod.snd

theorem energy_eq_foldl_summands [Scalar S] (s : Solver V S) (n : UInt64) :
    s.energy n = (s.summands n).foldl (· + ·) 0 := by
  unfold summands energy
  rw [List.foldl_append, List.foldl_map, List.foldl_map, List.foldl_filter, List.foldl_filter]
  simp only [decide_eq_true_eq]

/-- The search runs upwards, whatever it runs through. -/
theorem pairwise_encodings (s : Solver V S) : s.encodings.Pairwise (· < ·) := by
  have hlimit := s.assignmentCount.toNat_lt
  unfold encodings
  rw [List.pairwise_map]
  apply List.Pairwise.imp_of_mem _ List.pairwise_lt_range
  intro a b ha hb hab
  rw [List.mem_range] at ha hb
  rw [UInt64.lt_iff_toNat_lt, UInt64.toNat_ofNat_of_lt' (ha.trans hlimit),
    UInt64.toNat_ofNat_of_lt' (hb.trans hlimit)]
  exact hab

namespace Prepares

variable (h : Prepares m config s)
include h

/-- The variables of the solver are those of the model. -/
theorem labels_eq : s.labels = m.labels := by
  unfold labels Model.labels
  rw [h.numbering_eq, Numbering.labels_ofList]

theorem consistent : s.numbering.Consistent := by
  rw [h.numbering_eq]
  exact Numbering.consistent_ofList _

theorem size_le : s.numbering.size ≤ 63 :=
  h.size_le_cap.trans (Nat.min_le_right _ _)

/-- Every label of the model has a number below the size. -/
theorem exists_index {v : V} (hv : v ∈ m.labels) :
    ∃ i, s.numbering.indexOf? v = some i ∧ i < s.numbering.size := by
  rw [← h.labels_eq] at hv
  cases hi : s.numbering.indexOf? v with
  | none => exact absurd hv ((h.consistent.indexOf?_eq_none_iff v).mp hi)
  | some i => exact ⟨i, rfl, h.consistent.lt_size hi⟩

/-! ## Energies -/

/-- A label of the model is on exactly when its mask is contained in the encoding. -/
theorem value_eq_one_iff {v : V} (hv : v ∈ m.labels) (n : UInt64) :
    (s.assignment n).value v = 1 ↔ n &&& s.numbering.maskOf v = s.numbering.maskOf v := by
  obtain ⟨i, hi, hlt⟩ := h.exists_index hv
  have hmask : s.numbering.maskOf v = s.numbering.mask i := by
    unfold Numbering.maskOf
    rw [hi]
  have hcontained := Numbering.and_mask_eq_iff (h.size_le.trans (by decide)) hlt n
  rw [Assignment.value_eq_one_iff, hmask, hcontained, ← hmask]
  exact Iff.rfl

/-- The terms that pass the search's bit tests are those that are on, in the same order. -/
theorem summands_eq (n : UInt64) : s.summands n = m.summands (s.assignment n).value := by
  have hlinear : ∀ t ∈ m.linear.toList, decide (n &&& s.numbering.maskOf t.1 ≠ 0) =
      decide ((s.assignment n).value t.1 = 1) :=
    fun t _ => decide_eq_decide.mpr (Assignment.value_eq_one_iff (s.assignment n) t.1).symm
  have hquadratic : ∀ t ∈ m.quadratic.toList,
      decide (n &&& (s.numbering.maskOf t.1.first ||| s.numbering.maskOf t.1.second) =
        s.numbering.maskOf t.1.first ||| s.numbering.maskOf t.1.second) =
          t.1.isOn (s.assignment n).value := by
    intro t ht
    obtain ⟨hfirst, hsecond⟩ := Model.mem_labels_of_quadratic ht
    unfold Pair.isOn
    rw [Bool.eq_iff_iff, decide_eq_true_iff, and_or_eq_iff, Bool.and_eq_true, decide_eq_true_iff,
      decide_eq_true_iff, h.value_eq_one_iff hfirst, h.value_eq_one_iff hsecond]
  unfold summands Model.summands
  rw [h.linear_eq, h.quadratic_eq, List.filter_map, List.filter_map, List.map_map, List.map_map]
  unfold Function.comp
  rw [List.filter_congr hlinear, List.filter_congr hquadratic]

/-- **The search computes the energies of the model**, term by term and in the same order. -/
theorem energy_eq [Scalar S] (n : UInt64) : s.energy n = m.energy (s.assignment n).value := by
  rw [energy_eq_foldl_summands, h.summands_eq, ← Model.energy_eq_foldl_summands]

/-! ## Encodings -/

theorem toNat_assignmentCount : s.assignmentCount.toNat = 2 ^ s.numbering.size := by
  have hsize := h.size_le
  have hshift : (UInt64.ofNat s.numbering.size).toNat = s.numbering.size :=
    UInt64.toNat_ofNat_of_lt' (Nat.lt_of_le_of_lt hsize (by decide))
  have hone : (1 : UInt64).toNat = 1 := rfl
  unfold assignmentCount
  rw [UInt64.toNat_shiftLeft, hshift, hone, Nat.mod_eq_of_lt (by omega : s.numbering.size < 64),
    Nat.one_shiftLeft, Nat.mod_eq_of_lt (Nat.pow_lt_pow_right (by omega) (by omega))]

/-- The search runs through the integers that have no digits but those of variables. -/
theorem mem_encodings {n : UInt64} : n ∈ s.encodings ↔ n.toNat < 2 ^ s.numbering.size := by
  unfold encodings
  rw [List.mem_map, h.toNat_assignmentCount]
  constructor
  · intro hlisted
    obtain ⟨k, hk, rfl⟩ := hlisted
    rw [List.mem_range] at hk
    exact Nat.lt_of_le_of_lt (Nat.mod_le _ _) hk
  · intro hn
    exact ⟨n.toNat, List.mem_range.mpr hn, UInt64.ofNat_toNat⟩

/-- There is an assignment, also of no variables. -/
theorem encodings_ne_nil : s.encodings ≠ [] :=
  List.ne_nil_of_mem (h.mem_encodings.mpr (Nat.two_pow_pos _) : (0 : UInt64) ∈ s.encodings)

/-- The value of a label of the model is one binary digit of the encoding. -/
theorem exists_value_eq_digit {v : V} (hv : v ∈ m.labels) :
    ∃ i, s.labels[i]? = some v ∧ i < s.numbering.size ∧ ∀ n, (s.assignment n).value v =
      BitVector.valueOf (n.toNat.testBit (s.numbering.size - 1 - i)) := by
  obtain ⟨i, hi, hlt⟩ := h.exists_index hv
  have hlabel : s.numbering.labels[i]? = some v := (h.consistent v i).mp hi
  refine ⟨i, Array.getElem?_toList.trans hlabel, hlt, fun n => ?_⟩
  have hvalue : (s.assignment n).value v = (s.assignment n).valueAt i := by
    unfold Assignment.value
    rw [show (s.assignment n).numbering.indexOf? v = some i from hi]
  rw [hvalue, Assignment.valueAt_eq (a := s.assignment n) (h.size_le.trans (by decide)) hlt]
  rfl

/-! ## Rows -/

/-- Rows are ordered as the encodings are. -/
theorem values_lt_values_iff {n n' : UInt64} (hn : n ∈ s.encodings) (hn' : n' ∈ s.encodings) :
    (s.assignment n).values < (s.assignment n').values ↔ n < n' := by
  have hsize : s.numbering.size ≤ 64 := h.size_le.trans (by decide)
  rw [Assignment.values_eq_row (a := s.assignment n) hsize,
    Assignment.values_eq_row (a := s.assignment n') hsize]
  show Assignment.row s.numbering.size n.toNat < Assignment.row s.numbering.size n'.toNat ↔ _
  rw [Assignment.row_lt_row_iff, Nat.mod_eq_of_lt (h.mem_encodings.mp hn),
    Nat.mod_eq_of_lt (h.mem_encodings.mp hn'), UInt64.lt_iff_toNat_lt]

/-- The row of values of an assignment holds the values of the labels. -/
theorem values_eq (n : UInt64) :
    (s.assignment n).values = m.labels.map (s.assignment n).value := by
  rw [Assignment.values_eq_map_value h.consistent, ← h.labels_eq]
  rfl

/-- Two assignments that agree on the labels are the same. -/
theorem encoding_inj {n n' : UInt64} (hn : n ∈ s.encodings) (hn' : n' ∈ s.encodings)
    (hvalue : ∀ v ∈ m.labels, (s.assignment n).value v = (s.assignment n').value v) :
    n = n' := by
  have hsize : s.numbering.size ≤ 64 := h.size_le.trans (by decide)
  have hvalues : (s.assignment n).values = (s.assignment n').values := by
    rw [h.values_eq, h.values_eq, List.map_congr_left hvalue]
  rw [Assignment.values_eq_row (a := s.assignment n) hsize,
    Assignment.values_eq_row (a := s.assignment n') hsize] at hvalues
  -- Neither has digits that belong to no variable, so equal rows mean equal encodings.
  have hmod := (Assignment.row_eq_row_iff s.numbering.size n.toNat n'.toNat).mp hvalues
  rw [Nat.mod_eq_of_lt (h.mem_encodings.mp hn), Nat.mod_eq_of_lt (h.mem_encodings.mp hn')] at hmod
  exact UInt64.toNat_inj.mp hmod

end Prepares

/-! ## Valuations -/

theorem length_labels (s : Solver V S) : s.labels.length = s.numbering.size := Array.length_toList

/-- The encoding of the labels that a valuation has on. -/
def encodingOf (s : Solver V S) (x : Valuation V) : UInt64 :=
  BitVector.encodeBits (s.labels.map fun v => decide (x v = 1)).reverse

namespace Prepares

variable (h : Prepares m config s)
include h

theorem encodingOf_mem (x : Valuation V) : s.encodingOf x ∈ s.encodings := by
  rw [h.mem_encodings]
  apply Nat.lt_pow_two_of_testBit
  intro j hj
  have hbehind : ((s.labels.map fun v => decide (x v = 1)).reverse)[j]? = none := by
    rw [List.getElem?_eq_none]
    rw [List.length_reverse, List.length_map, s.length_labels]
    exact hj
  unfold encodingOf
  rw [BitVector.testBit_encodeBits, hbehind]
  simp

/-- A label is on in the encoding of the labels that a valuation has on exactly when it is on in the
valuation. -/
theorem value_encodingOf_eq_one_iff (x : Valuation V) {v : V} (hv : v ∈ m.labels) :
    (s.assignment (s.encodingOf x)).value v = 1 ↔ x v = 1 := by
  have hsize := h.size_le
  obtain ⟨i, hlabel, hlt, hvalue⟩ := h.exists_value_eq_digit hv
  -- The bits are encoded from the end, so the digit of a number is the value of its label.
  have hdigit : (s.encodingOf x).toNat.testBit (s.numbering.size - 1 - i) = decide (x v = 1) := by
    have hlength : (s.labels.map fun v => decide (x v = 1)).length = s.numbering.size := by
      rw [List.length_map, s.length_labels]
    unfold encodingOf
    rw [BitVector.testBit_encodeBits, List.getElem?_reverse (by omega), hlength,
      show s.numbering.size - 1 - (s.numbering.size - 1 - i) = i by omega, List.getElem?_map,
      hlabel, decide_eq_true (by omega : s.numbering.size - 1 - i < 64)]
    rfl
  rw [hvalue, hdigit]
  by_cases hon : x v = 1
  · simp [hon, BitVector.valueOf]
  · simp [hon, BitVector.valueOf]

/-- **Every binary valuation is looked at**: an assignment has the same values on all labels. -/
theorem value_encodingOf {x : Valuation V} (hx : m.IsBinary x) {v : V} (hv : v ∈ m.labels) :
    (s.assignment (s.encodingOf x)).value v = x v :=
  eq_of_binary (Assignment.value_eq_zero_or_one _ v) (hx v hv)
    (h.value_encodingOf_eq_one_iff x hv)

/-- **Every valuation is looked at**, whatever values it has where it is not on. -/
theorem energy_encodingOf [Scalar S] (x : Valuation V) :
    s.energy (s.encodingOf x) = m.energy x := by
  rw [h.energy_eq]
  exact Model.energy_congr fun v hv => h.value_encodingOf_eq_one_iff x hv

end Prepares

end Solver

end SetQubo
