import Mathlib
import SetQubo.Proofs.Embedding.Assignments
import SetQubo.Proofs.Solver.Closeness
import SetQubo.Proofs.Solver.Levels
/-!
# What solving an embedded set finds

The best energy of an embedded set is zero. Next to zero the relative tolerance, which is less than
one, admits nothing, so an assignment counts as optimal when its energy is at most the absolute
tolerance. As long as that is below the gap, the optimal assignments are those that decode, the
second level is the gap, and the solutions are the elements in the order of their written forms.
-/

namespace SetQubo

namespace Embedding

open Variable

variable {s : SetSpec} {penalty : Rat} {config : SolverConfig Rat}

/-! ## Close to zero -/

/-- The settings compare energies sensibly: a share of less than all, and no negative bound. -/
structure Tolerant (config : SolverConfig Rat) : Prop where
  /-- The relative tolerance is not negative. -/
  relative_nonneg : 0 ≤ config.relativeTolerance
  /-- The relative tolerance is less than one. -/
  relative_lt_one : config.relativeTolerance < 1
  /-- The absolute tolerance is not negative. -/
  absolute_nonneg : 0 ≤ config.absoluteTolerance

/-- An energy is close to zero exactly when the absolute tolerance admits it. -/
theorem Tolerant.isClose_zero_iff (htolerant : Tolerant config) {e : Rat} (he : 0 ≤ e) :
    config.isClose e 0 = true ↔ e ≤ config.absoluteTolerance := by
  rw [SolverConfig.isClose_iff, sub_zero, abs_zero, abs_of_nonneg he, max_eq_left he]
  constructor
  · intro hadmitted
    rcases hadmitted with hshare | habsolute
    · -- A share of less than one reaches the whole only at zero.
      have hnonpos : e ≤ 0 := by
        by_contra hpos
        rw [not_le] at hpos
        have hless := mul_lt_mul_of_pos_right htolerant.relative_lt_one hpos
        rw [one_mul] at hless
        exact absurd hshare (not_le.mpr hless)
      exact hnonpos.trans htolerant.absolute_nonneg
    · exact habsolute
  · exact Or.inr

/-! ## The levels -/

variable {solver : Solver Variable Rat} {n : UInt64}

section prepared
variable (h : Solver.Prepares (modelOf penalty s.width s.nonzero) config solver)
  (hzero : s.containsZero = true) (hpenalty : 0 < penalty)
include h hzero hpenalty

/-- An assignment decodes and has energy zero, or it does not and has at least the gap. -/
theorem decoded_or_gap_le (n : UInt64) :
    (∃ e, decoded s solver n = .ok e ∧ solver.energy n = 0) ∨
      ((∀ e, decoded s solver n ≠ .ok e) ∧ gap s penalty ≤ solver.energy n) := by
  rw [h.energy_eq]
  exact decodes_or_gap_le hzero hpenalty (bit_assignment_le_one solver n)

theorem energy_nonneg (n : UInt64) : 0 ≤ solver.energy n := by
  rcases decoded_or_gap_le h hzero hpenalty n with ⟨e, -, henergy⟩ | ⟨-, hle⟩
  · exact henergy.ge
  · exact (gap_pos s hpenalty).le.trans hle

/-- The best energy of an embedded set is zero. -/
theorem best_eq_zero : solver.solve.best = 0 := by
  obtain ⟨⟨n, -, hbest⟩, hleast⟩ := h.best_solve fun _ _ => le_rfl
  apply le_antisymm
  · -- The zero vector is decoded from an assignment, whose energy is zero.
    obtain ⟨z, hz, hdecoded⟩ :=
      exists_decoded_eq_ok h hzero (SetSpec.containsZero_iff.mp hzero)
    rcases decoded_or_gap_le h hzero hpenalty z with ⟨e, -, henergy⟩ | ⟨hnot, -⟩
    · exact henergy ▸ hleast z hz
    · exact absurd hdecoded (hnot _)
  · exact hbest ▸ energy_nonneg h hzero hpenalty n

/-- Optimal is what the absolute tolerance admits. -/
theorem isClose_best_iff (htolerant : Tolerant config) (n : UInt64) :
    solver.config.isClose (solver.energy n) solver.solve.best = true ↔
      solver.energy n ≤ config.absoluteTolerance := by
  rw [best_eq_zero h hzero hpenalty, h.config_eq]
  exact htolerant.isClose_zero_iff (energy_nonneg h hzero hpenalty n)

/-- Whatever decodes is optimal. -/
theorem isClose_of_decoded (htolerant : Tolerant config) {e : BitVector}
    (hdecoded : decoded s solver n = .ok e) :
    solver.config.isClose (solver.energy n) solver.solve.best = true := by
  rw [isClose_best_iff h hzero hpenalty htolerant]
  rcases decoded_or_gap_le h hzero hpenalty n with ⟨e', -, henergy⟩ | ⟨hnot, -⟩
  · rw [henergy]
    exact htolerant.absolute_nonneg
  · exact absurd hdecoded (hnot e)

/-- Below the gap, whatever is optimal decodes. -/
theorem exists_decoded_of_isClose (htolerant : Tolerant config)
    (hbelow : config.absoluteTolerance < gap s penalty)
    (hclose : solver.config.isClose (solver.energy n) solver.solve.best = true) :
    ∃ e, decoded s solver n = .ok e := by
  rw [isClose_best_iff h hzero hpenalty htolerant] at hclose
  rcases decoded_or_gap_le h hzero hpenalty n with ⟨e, hdecoded, -⟩ | ⟨-, hle⟩
  · exact ⟨e, hdecoded⟩
  · exact absurd (hle.trans hclose) (not_le.mpr hbelow)

/-- Some assignment that does not decode has the gap as its energy. -/
theorem exists_energy_eq_gap_of_not_decoded :
    ∃ n ∈ solver.encodings, (∀ e, decoded s solver n ≠ .ok e) ∧
      solver.energy n = gap s penalty := by
  obtain ⟨positions, on, hattained⟩ := exists_energy_eq_gap s penalty
  refine ⟨_, h.encodingOf_mem (valuationOf positions on), ?_⟩
  have henergy : solver.energy (solver.encodingOf (valuationOf positions on)) = gap s penalty := by
    rw [h.energy_eq]
    refine Eq.trans (Model.energy_congr ?_) hattained
    intro v hv
    rw [h.value_encodingOf (isBinary_valuationOf _ _ _) hv]
  refine ⟨?_, henergy⟩
  intro e hdecoded
  rcases decoded_or_gap_le h hzero hpenalty
      (solver.encodingOf (valuationOf positions on)) with ⟨e', -, hnone⟩ | ⟨hnot, -⟩
  · rw [henergy] at hnone
    exact absurd hnone (gap_pos s hpenalty).ne'
  · exact hnot e hdecoded

/-- Below the gap, the second level is the gap. -/
theorem secondBest_eq_gap (htolerant : Tolerant config)
    (hbelow : config.absoluteTolerance < gap s penalty) :
    solver.solve.secondBest = gap s penalty := by
  obtain ⟨g, hg, hnot, hattained⟩ := exists_energy_eq_gap_of_not_decoded h hzero hpenalty
  have hfar : solver.config.isClose (solver.energy g) solver.solve.best = false := by
    rw [← Bool.not_eq_true]
    intro hclose
    obtain ⟨e, hdecoded⟩ := exists_decoded_of_isClose h hzero hpenalty htolerant hbelow hclose
    exact hnot e hdecoded
  rcases Solver.secondBest_solve solver fun _ _ => le_rfl with ⟨hall, -⟩ | ⟨⟨n, hn, hnfar, hsecond⟩, hleast⟩
  · rw [hall g hg] at hfar
    cases hfar
  · apply le_antisymm
    · exact hattained ▸ hleast g hg hfar
    -- The second level is not close, so its assignment does not decode.
    · rcases decoded_or_gap_le h hzero hpenalty n with ⟨e, hdecoded, -⟩ | ⟨-, hle⟩
      · rw [isClose_of_decoded h hzero hpenalty htolerant hdecoded] at hnfar
        cases hnfar
      · exact hsecond ▸ hle

/-! ## The solutions -/

/-- The optimal assignments decode to all elements, and to nothing else. -/
theorem mem_decodedElements_optimal (htolerant : Tolerant config) {e : BitVector} :
    e ∈ decodedElements s solver solver.optimal ↔ e ∈ s.elements := by
  constructor
  · exact mem_elements_of_mem_decodedElements hzero
  · intro he
    obtain ⟨n, hn, hdecoded⟩ := exists_decoded_eq_ok h hzero he
    have hoptimal : n ∈ solver.optimal :=
      Solver.mem_optimal.mpr ⟨hn, isClose_of_decoded h hzero hpenalty htolerant hdecoded⟩
    exact mem_decodedElements.mpr ⟨n, hoptimal, hdecoded⟩

/-- Those of the optimal assignments that decode do so to the elements, in the order of their
written forms. -/
theorem text_decodedElements_optimal (htolerant : Tolerant config) :
    (decodedElements s solver solver.optimal).map BitVector.text = s.elementTexts := by
  -- Two strictly ascending lists with the same members are the same.
  apply List.Pairwise.eq_of_mem_iff
    (pairwise_text_decodedElements h hzero solver.pairwise_optimal
      fun n hn => (Solver.mem_optimal.mp hn).1)
    s.pairwise_elementTexts
  intro t
  rw [List.mem_map, SetSpec.mem_elementTexts]
  simp only [mem_decodedElements_optimal h hzero hpenalty htolerant]

/-- Below the gap, the solutions are the rows of the elements that are decoded. -/
theorem solutions_eq_map_rowOf (htolerant : Tolerant config)
    (hbelow : config.absoluteTolerance < gap s penalty) :
    solver.solve.solutions = (decodedElements s solver solver.optimal).map (rowOf s) := by
  rw [solver.solutions_solve]
  apply map_values_eq_map_rowOf h hzero
  intro n hn
  exact exists_decoded_of_isClose h hzero hpenalty htolerant hbelow (Solver.mem_optimal.mp hn).2

end prepared

/-- The row of an element begins with the element. -/
theorem take_rowOf {e : BitVector} (he : e ∈ s.elements) :
    (rowOf s e).take s.width = e.values := by
  unfold rowOf
  rw [List.take_left' (by rw [BitVector.length_values, s.width_eq e he])]

theorem drop_rowOf {e : BitVector} (he : e ∈ s.elements) :
    (rowOf s e).drop s.width = s.nonzero.map fun z => if z = e then 1 else 0 := by
  unfold rowOf
  rw [List.drop_left' (by rw [BitVector.length_values, s.width_eq e he])]

/-- **Solving an embedded set finds its elements.** If the absolute tolerance is below the gap and
the cap admits the variables, the set is embedded and its model solved. The best energy is zero and
the second one is the gap, which is the penalty divided by the largest number of ones. There is one
solution for each distinct element: the values of the bits are the written forms in their order,
and next to them stands a one exactly at the indicator of the element. -/
theorem solutions_are_elements {s : SetSpec} {embedding : EmbeddingConfig Rat}
    {config : SolverConfig Rat} (hzero : s.containsZero = true)
    (hpenalty : 0 < embedding.basePenalty) (htolerant : Tolerant config)
    (hbelow : config.absoluteTolerance < embedding.basePenalty / s.mostOnes)
    (hcap : s.width + s.nonzero.length ≤ config.cap) :
    ∃ m solver, embed embedding s = .ok m ∧ Solver.prepare m config = .ok solver ∧
      solver.labels = (List.range s.width).map bitAt ++ s.nonzero.map indicator ∧
      solver.solve.best = 0 ∧
      solver.solve.secondBest = embedding.basePenalty / s.mostOnes ∧
      solver.solve.gap = embedding.basePenalty / s.mostOnes ∧
      solver.solve.solutions.length = s.distinctCount ∧
      solver.solve.solutions.map (fun row => Assignment.rowText (row.take s.width)) =
        s.elementTexts ∧
      ∀ row ∈ solver.solve.solutions, ∃ e ∈ s.elements, row.take s.width = e.values ∧
        row.drop s.width = s.nonzero.map fun z => if z = e then 1 else 0 := by
  obtain ⟨solver, hprepare⟩ := exists_prepare_modelOf s embedding.basePenalty config hcap
  have h := Solver.prepares_of_prepare hprepare
  have hbest := best_eq_zero h hzero hpenalty
  have hsecond := secondBest_eq_gap h hzero hpenalty htolerant hbelow
  have htexts := text_decodedElements_optimal h hzero hpenalty htolerant
  have hsolutions := solutions_eq_map_rowOf h hzero hpenalty htolerant hbelow
  have hmem : ∀ e ∈ decodedElements s solver solver.optimal, e ∈ s.elements :=
    fun e he => mem_elements_of_mem_decodedElements hzero he
  refine ⟨_, solver, embed_eq_ok hzero hpenalty, hprepare, labels_solver h, hbest, hsecond, ?_, ?_,
    ?_, ?_⟩
  · rw [Solver.gap_solve, hsecond, hbest]
    exact sub_zero _
  · rw [hsolutions, List.length_map, ← SetSpec.length_elementTexts, ← htexts, List.length_map]
  · rw [hsolutions, ← htexts, List.map_map]
    apply List.map_congr_left
    intro e he
    show Assignment.rowText ((rowOf s e).take s.width) = e.text
    rw [take_rowOf (hmem e he), Assignment.rowText_values]
  · intro row hrow
    rw [hsolutions] at hrow
    obtain ⟨e, he, rfl⟩ := List.mem_map.mp hrow
    exact ⟨e, hmem e he, take_rowOf (hmem e he), drop_rowOf (hmem e he)⟩

/-- The truth table of exclusive or, with penalty ten: its elements have two ones at most, so the
gap is five, and the four rows are found. -/
theorem exclusiveOr_solutions :
    SetSpec.exclusiveOr.containsZero = true ∧ SetSpec.exclusiveOr.mostOnes = 2 ∧
      ∃ m solver, embed (⟨10⟩ : EmbeddingConfig Rat) SetSpec.exclusiveOr = .ok m ∧
        Solver.prepare m ⟨16, 1 / 1000, 1 / 1000, false⟩ = .ok solver ∧
        solver.solve.best = 0 ∧ solver.solve.secondBest = 5 ∧
        solver.solve.solutions.length = 4 := by
  have hzero : SetSpec.exclusiveOr.containsZero = true := by decide
  have hmost : SetSpec.exclusiveOr.mostOnes = 2 := by decide
  have hcount : SetSpec.exclusiveOr.distinctCount = 4 := by decide
  have htolerant : Tolerant ⟨16, 1 / 1000, 1 / 1000, false⟩ := by
    refine ⟨?_, ?_, ?_⟩
    · norm_num
    · norm_num
    · norm_num
  obtain ⟨m, solver, hembed, hprepare, -, hbest, hsecond, -, hlength, -⟩ :=
    @solutions_are_elements SetSpec.exclusiveOr ⟨10⟩ ⟨16, 1 / 1000, 1 / 1000, false⟩ hzero
      (by norm_num) htolerant (by rw [hmost]; norm_num) (by decide)
  refine ⟨hzero, hmost, m, solver, hembed, hprepare, hbest, ?_, hlength.trans hcount⟩
  rw [hsecond, hmost]
  norm_num

end Embedding

end SetQubo
