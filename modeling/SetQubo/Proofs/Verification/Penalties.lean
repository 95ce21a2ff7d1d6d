import Mathlib
import SetQubo.Proofs.Embedding.Assignments
import SetQubo.Proofs.Embedding.ElementRounding
import SetQubo.Proofs.Solver.Doubles
import SetQubo.Proofs.Verification.Account
/-!
# Which penalties pass in doubles

The tolerances do not scale with the penalty. With the settings that are used unless others are
given, two things can go wrong, and they do so at opposite ends.

* A penalty of less than about `10⁻⁹` times the largest number of ones has a gap below the absolute
  tolerance. Then assignments that stand for nothing count as optimal.
* With a large penalty the rounding errors that remain of the energies of elements exceed the
  absolute tolerance. Then elements are missed.

Above the lower end, whatever the report says is about elements: it passes exactly when the energies
of all elements are close to the least one, and an element is recovered exactly when its energy is.
-/

namespace SetQubo

namespace Verification

open Double SetQubo.Embedding

variable {s : SetSpec} {penalty : Float} {solver : Solver Variable Float} {n : UInt64}
  {e : BitVector}

/-- Whether the energy of an element is close to the best one. -/
def reachesBest (penalty best : Float) (e : BitVector) : Bool :=
  SolverConfig.default.isClose (elementEnergy penalty e) best

/-- With at most sixteen bits and indicators the gap is a fifteenth of the penalty at least. -/
theorem div_le_gap {penalty : Rat} (hpenalty : 0 ≤ penalty)
    (hcap : s.width + s.nonzero.length ≤ 16) : penalty / 15 ≤ gap s penalty := by
  have hmost : (0 : Rat) < s.mostOnes := by exact_mod_cast s.mostOnes_pos
  have hmost' : (s.mostOnes : Rat) ≤ 15 := by exact_mod_cast SetSpec.mostOnes_le hcap
  exact div_le_div_of_nonneg_left hpenalty hmost hmost'

/-! ## The energies of a run -/

section prepared
variable (hmoderate : Moderate penalty)
  (h : Solver.Prepares (modelOf penalty s.width s.nonzero) .default solver)
  (hzero : s.containsZero = true) (hcap : s.width + s.nonzero.length ≤ 16)
include hmoderate h hcap

/-- Every energy is finite, and near the exact one. -/
theorem abs_energy_sub_le (n : UInt64) :
    (solver.energy n).isFinite = true ∧
      |value (solver.energy n) - (modelOf (value penalty) s.width s.nonzero).energy
        (solver.assignment n).value| ≤ value penalty / 4000000 := by
  rw [h.energy_eq]
  exact hmoderate.abs_energy_sub_le hcap _

include hzero

theorem energy_of_decoded (hdecoded : decoded s solver n = .ok e) :
    solver.energy n = elementEnergy penalty e := by
  rw [h.energy_eq]
  exact ((decoded_eq_ok_iff hzero solver n).mp hdecoded).2.energy_eq_elementEnergy hmoderate hcap

/-- What does not decode has about the gap at least. -/
theorem gap_sub_le_energy (hnot : ∀ e, decoded s solver n ≠ .ok e) :
    gap s (value penalty) - value penalty / 4000000 ≤ value (solver.energy n) := by
  have hnear := (abs_le.mp (abs_energy_sub_le hmoderate h hcap n).2).1
  rcases decodes_or_gap_le hzero hmoderate.pos (bit_assignment_le_one solver n) with
    ⟨e, he, -⟩ | ⟨-, hle⟩
  · exact absurd he (hnot e)
  · linarith

/-- The gap is far above what is lost by rounding. -/
theorem energy_pos_of_not_decoded (hnot : ∀ e, decoded s solver n ≠ .ok e) :
    0 < value (solver.energy n) := by
  have hp := hmoderate.pos
  have hgap := div_le_gap hp.le hcap
  have hle := gap_sub_le_energy hmoderate h hzero hcap hnot
  linarith

/-- **The best energy is the least energy of an element.** -/
theorem best_eq_elementEnergy :
    (∃ e ∈ s.elements, solver.solve.best = elementEnergy penalty e) ∧
      ∀ e ∈ s.elements, value solver.solve.best ≤ value (elementEnergy penalty e) := by
  have hfinite := hmoderate.finiteCoefficients hcap
  obtain ⟨⟨n, hn, hbest⟩, hleast⟩ := h.best_solve_of_finite hfinite
  constructor
  · by_cases hdecodes : ∃ e, decoded s solver n = .ok e
    · obtain ⟨e, hdecoded⟩ := hdecodes
      refine ⟨e, ((decoded_eq_ok_iff hzero solver n).mp hdecoded).1, ?_⟩
      rw [← hbest]
      exact energy_of_decoded hmoderate h hzero hcap hdecoded
    · -- Otherwise the best energy were positive.
      have hpos := energy_pos_of_not_decoded hmoderate h hzero hcap (not_exists.mp hdecodes)
      rw [hbest] at hpos
      exact absurd (h.value_best_nonpos hfinite) (not_le.mpr hpos)
  · intro e he
    obtain ⟨n', hn', hdecoded⟩ := exists_decoded_eq_ok h hzero he
    rw [← energy_of_decoded hmoderate h hzero hcap hdecoded]
    exact hleast n' hn'

omit hzero in
theorem isFinite_best : solver.solve.best.isFinite = true := by
  obtain ⟨n, -, hbest⟩ := (h.best_solve_of_finite (hmoderate.finiteCoefficients hcap)).1
  rw [← hbest]
  exact (abs_energy_sub_le hmoderate h hcap n).1

omit h hzero in
/-- The energy of an element is finite and small. -/
theorem abs_elementEnergy_le (he : e ∈ s.elements) :
    (elementEnergy penalty e).isFinite = true ∧
      |value (elementEnergy penalty e)| ≤ roundingBound (value penalty) s.mostOnes := by
  have hones := SetSpec.onesCount_le_mostOnes_of_mem he
  have hmost := SetSpec.mostOnes_le hcap
  obtain ⟨hfinite, hle⟩ := hmoderate.abs_elementEnergy_le (e := e) (by omega)
  exact ⟨hfinite, hle.trans (roundingBound_mono hmoderate.pos.le hones)⟩

theorem abs_best_le : |value solver.solve.best| ≤ value penalty / 4000000 := by
  obtain ⟨e, he, hbest⟩ := (best_eq_elementEnergy hmoderate h hzero hcap).1
  rw [hbest]
  exact (abs_elementEnergy_le hmoderate hcap he).2.trans
    (roundingBound_le hmoderate.pos.le (SetSpec.mostOnes_le hcap))

/-! ## A gap above the absolute tolerance -/

/-- What does not decode is not optimal, as long as the gap is a little above the absolute
tolerance. -/
theorem isOptimal_eq_false_of_not_decoded
    (hlow : 100001 / 10 ^ 14 * s.mostOnes ≤ value penalty)
    (hnot : ∀ e, decoded s solver n ≠ .ok e) : isOptimal solver n = false := by
  have hp := hmoderate.pos
  have hmost : (0 : Rat) < s.mostOnes := by exact_mod_cast s.mostOnes_pos
  have hfinite := (abs_energy_sub_le hmoderate h hcap n).1
  have hbestFinite := isFinite_best hmoderate h hcap
  have hnonpos := h.value_best_nonpos (hmoderate.finiteCoefficients hcap)
  have hsmall := abs_best_le hmoderate h hzero hcap
  -- Rounding takes less than four millionths off the gap.
  have hscale := div_le_gap hp.le hcap
  have hgap : 100001 / 10 ^ 14 ≤ gap s (value penalty) := (le_div_iff₀ hmost).mpr hlow
  have hle := gap_sub_le_energy hmoderate h hzero hcap hnot
  have habsolute : absolute < value (solver.energy n) := by
    have htolerance : absolute < 100001 / 10 ^ 14 * (1 - 15 / 4000000) := by
      unfold absolute
      norm_num
    linarith
  rw [← Bool.not_eq_true]
  intro hoptimal
  unfold isOptimal at hoptimal
  rw [h.config_eq] at hoptimal
  have hdistance := le_absolute_of_isClose hfinite hbestFinite hnonpos (by linarith) hoptimal
  have hwhole : value (solver.energy n) ≤ value (solver.energy n - solver.solve.best) :=
    (rounds_sub hfinite hbestFinite).nearest.ge_of_ge (representable_value _) (by linarith)
  linarith [le_abs_self (value (solver.energy n - solver.solve.best))]

/-- With a gap a little below the absolute tolerance something is optimal that does not decode. -/
theorem exists_isOptimal_of_small (hsmall : value penalty ≤ 99999 / 10 ^ 14 * s.mostOnes) :
    ∃ n ∈ solver.encodings, decodes s solver n ≠ isOptimal solver n := by
  have hp := hmoderate.pos
  have hmost : (0 : Rat) < s.mostOnes := by exact_mod_cast s.mostOnes_pos
  -- The valuation at the gap, and its assignment.
  obtain ⟨positions, on, hattained⟩ := exists_energy_eq_gap s (value penalty)
  refine ⟨_, h.encodingOf_mem (valuationOf positions on), ?_⟩
  generalize hn : solver.encodingOf (valuationOf positions on) = n
  have hexact : (modelOf (value penalty) s.width s.nonzero).energy (solver.assignment n).value =
      gap s (value penalty) := by
    refine Eq.trans (Model.energy_congr ?_) hattained
    intro v hv
    rw [labels_modelOf s.width_le _ (SetSpec.nodup_nonzero s),
      ← labels_modelOf s.width_le penalty (SetSpec.nodup_nonzero s)] at hv
    rw [← hn, h.value_encodingOf (isBinary_valuationOf _ _ _) hv]
  have hnot : decodes s solver n = false := by
    rw [← Bool.not_eq_true]
    intro hdecodes
    obtain ⟨e, he⟩ := Option.isSome_iff_exists.mp hdecodes
    have hstands := ((decoded_eq_ok_iff hzero solver n).mp (toOption_decoded_eq_some_iff.mp he)).2
    rw [hstands.energy_eq_zero] at hexact
    exact absurd hexact (gap_pos s hp).ne
  have hoptimal : isOptimal solver n = true := by
    obtain ⟨hfinite, hnear⟩ := abs_energy_sub_le hmoderate h hcap n
    have hbest := abs_le.mp (abs_best_le hmoderate h hzero hcap)
    rw [hexact] at hnear
    have henergy := abs_le.mp hnear
    have hgap : gap s (value penalty) ≤ 99999 / 10 ^ 14 := (div_le_iff₀ hmost).mpr hsmall
    have hscale := div_le_gap hp.le hcap
    have htolerance : 99999 / 10 ^ 14 * (1 + 2 * 15 / 4000000) ≤ absolute := by
      unfold absolute
      norm_num
    unfold isOptimal
    rw [h.config_eq]
    apply isClose_of_abs_sub_le hfinite (isFinite_best hmoderate h hcap)
    rw [abs_le]
    constructor
    · linarith
    · linarith
  rw [hnot, hoptimal]
  exact Bool.false_ne_true

/-! ## Recoveries -/

/-- What decodes is optimal if the energy of its element is close to the best one. -/
theorem isOptimal_of_decoded (hdecoded : decoded s solver n = .ok e) :
    isOptimal solver n = reachesBest penalty solver.solve.best e := by
  unfold isOptimal reachesBest
  rw [h.config_eq, energy_of_decoded hmoderate h hzero hcap hdecoded]

/-- With a gap above the absolute tolerance, optimality and decoding agree on an assignment unless
it decodes to an element whose energy is not close to the best one. -/
theorem decodes_eq_isOptimal_iff (hlow : 100001 / 10 ^ 14 * s.mostOnes ≤ value penalty) :
    decodes s solver n = isOptimal solver n ↔
      ∀ e, decoded s solver n = .ok e → reachesBest penalty solver.solve.best e = true := by
  unfold decodes
  cases hdecoded : decoded s solver n with
  | error r =>
    rw [isOptimal_eq_false_of_not_decoded hmoderate h hzero hcap hlow (by simp [hdecoded])]
    simp [Except.toOption]
  | ok e =>
    rw [isOptimal_of_decoded hmoderate h hzero hcap hdecoded]
    constructor
    · intro hsame e' he'
      cases he'
      exact hsame.symm
    · intro hall
      exact (hall e rfl).symm

/-- An element is recovered when its energy is close to the best one, and then once. -/
theorem recoveries_eq (he : e ∈ s.elements) :
    recoveries s solver e = if reachesBest penalty solver.solve.best e then 1 else 0 := by
  have htexts := pairwise_text_decodedElements h hzero solver.pairwise_optimal
    fun n hn => (Solver.mem_optimal.mp hn).1
  have hnodup : (recoveredElements s solver).Nodup :=
    List.Nodup.of_map BitVector.text (htexts.imp ne_of_lt)
  have hmem : e ∈ recoveredElements s solver ↔
      reachesBest penalty solver.solve.best e = true := by
    rw [recoveredElements, mem_decodedElements]
    constructor
    · intro hrecovered
      obtain ⟨n, hn, hdecoded⟩ := hrecovered
      rw [← isOptimal_of_decoded hmoderate h hzero hcap hdecoded]
      exact (Solver.mem_optimal.mp hn).2
    · intro hclose
      obtain ⟨n, hn, hdecoded⟩ := exists_decoded_eq_ok h hzero he
      rw [← isOptimal_of_decoded hmoderate h hzero hcap hdecoded] at hclose
      exact ⟨n, Solver.mem_optimal.mpr ⟨hn, hclose⟩, hdecoded⟩
  rw [recoveries_eq_count]
  split
  · next hclose => exact List.count_eq_one_of_mem hnodup (hmem.mpr hclose)
  · next hfar => exact List.count_eq_zero_of_not_mem (mt hmem.mp hfar)

end prepared

/-! ## Reports -/

/-- Whatever the report says is about elements and their energies. -/
structure AboutElements (s : SetSpec) (penalty : Float) (report : Report Float) : Prop where
  /-- The best energy is the least energy of an element. -/
  best : (∃ e ∈ s.elements, report.best = elementEnergy penalty e) ∧
    ∀ e ∈ s.elements, report.best ≤ elementEnergy penalty e
  /-- A violation is that an element's energy is not close to the best one. -/
  violations : ∀ v ∈ report.violations, ∃ e ∈ s.elements,
    reachesBest penalty report.best e = false ∧ (v = .missingElement e.text ∨
      ∃ assignment, v = .decodedNotOptimal assignment (elementEnergy penalty e) e.text)
  /-- The recovered elements are those whose energy is close to the best one, once each and
  ascending by encoding. -/
  recovered : ∃ es : List BitVector, report.recovered = es.map BitVector.text ∧
    es.Pairwise (fun x y => x.encode < y.encode) ∧
    ∀ e, e ∈ es ↔ e ∈ s.elements ∧ reachesBest penalty report.best e = true
  /-- The verification has passed if that are all elements. -/
  passed : report.passed = true ↔ ∀ e ∈ s.elements, reachesBest penalty report.best e = true

section report
variable {report : Report Float} (hmoderate : Moderate penalty)
  (hreport : verify s ⟨penalty⟩ .default = .ok report)
  (hcap : s.width + s.nonzero.length ≤ 16)
include hmoderate hreport hcap

theorem aboutElements_of_verify (hlow : 100001 / 10 ^ 14 * s.mostOnes ≤ value penalty) :
    AboutElements s penalty report := by
  obtain ⟨m, solver, hembed, hprepare, hbest, hviolations, hrecovered⟩ := of_verify_eq_ok hreport
  obtain ⟨-, hzero, rfl⟩ := of_embed_eq_ok hembed
  have h := Solver.prepares_of_prepare hprepare
  have hrecovered_iff : ∀ e ∈ s.elements,
      recoveries s solver e = 1 ↔ reachesBest penalty solver.solve.best e = true := by
    intro e he
    rw [recoveries_eq hmoderate h hzero hcap he]
    split <;> simp [*]
  constructor
  case best =>
    obtain ⟨hattained, hleast⟩ := best_eq_elementEnergy hmoderate h hzero hcap
    rw [hbest]
    refine ⟨hattained, fun e he => ?_⟩
    rw [le_iff (isNumber_of_isFinite (isFinite_best hmoderate h hcap))
      (isNumber_of_isFinite (abs_elementEnergy_le hmoderate hcap he).1)]
    exact hleast e he
  case violations =>
    intro v hv
    rw [hbest]
    rw [hviolations] at hv
    rcases List.mem_append.mp hv with hv | hv
    · -- What is optimal decodes, so the assignment decodes and is not optimal.
      obtain ⟨n, hn, rfl⟩ := List.mem_map.mp hv
      have hne := bne_iff_ne.mp (List.mem_filter.mp hn).2
      rw [Ne, decodes_eq_isOptimal_iff hmoderate h hzero hcap hlow] at hne
      simp only [not_forall, Bool.not_eq_true] at hne
      obtain ⟨e, hdecoded, hfar⟩ := hne
      refine ⟨e, ((decoded_eq_ok_iff hzero solver n).mp hdecoded).1, hfar,
        Or.inr ⟨(solver.assignment n).text, ?_⟩⟩
      unfold assignmentViolation
      rw [hdecoded, energy_of_decoded hmoderate h hzero hcap hdecoded]
    · obtain ⟨e, he, rfl⟩ := List.mem_map.mp hv
      obtain ⟨hmem, hne⟩ := List.mem_filter.mp he
      have hmem := SetSpec.mem_byEncoding.mp hmem
      have hfar := Bool.eq_false_iff.mpr (mt (hrecovered_iff e hmem).mpr (bne_iff_ne.mp hne))
      refine ⟨e, hmem, hfar, Or.inl ?_⟩
      unfold elementViolation
      rw [recoveries_eq hmoderate h hzero hcap hmem, hfar]
      rfl
  case recovered =>
    refine ⟨_, by rw [hrecovered, List.map_map]; rfl, pairwise_recovered hzero, ?_⟩
    intro e
    rw [mem_recovered_iff hzero, hbest]
    constructor
    · intro he
      have hmem := mem_elements_of_mem_decodedElements hzero he
      have hpos := recoveries_pos_iff.mpr he
      rw [recoveries_eq hmoderate h hzero hcap hmem] at hpos
      exact ⟨hmem, by_contra fun hfar => by simp [hfar] at hpos⟩
    · intro he
      rw [← recoveries_pos_iff, (hrecovered_iff e he.1).mpr he.2]
      exact Nat.one_pos
  case passed =>
    unfold Report.passed
    rw [hviolations, isEmpty_violations_iff, hbest]
    constructor
    · intro hboth e he
      exact (hrecovered_iff e he).mp (hboth.2 e he)
    · intro hall
      refine ⟨fun n _ => ?_, fun e he => (hrecovered_iff e he).mpr (hall e he)⟩
      rw [decodes_eq_isOptimal_iff hmoderate h hzero hcap hlow]
      exact fun e hdecoded => hall e ((decoded_eq_ok_iff hzero solver n).mp hdecoded).1

/-- The energies of all elements are close to the best one if the penalty is not too large for the
number of ones, or if no element has more than a single one. -/
theorem passed_of_le (hlow : 100001 / 10 ^ 14 * s.mostOnes ≤ value penalty)
    (hhigh : value penalty * ((s.mostOnes + 1) * (2 * s.mostOnes + 3)) ≤ 4500000 ∨
      s.mostOnes = 1) : report.passed = true := by
  have habout := aboutElements_of_verify hmoderate hreport hcap hlow
  rw [habout.passed]
  obtain ⟨b, hb, hbest⟩ := habout.best.1
  intro e he
  unfold reachesBest
  rw [hbest]
  obtain ⟨hfinite, hle⟩ := abs_elementEnergy_le hmoderate hcap he
  obtain ⟨hbestFinite, hbestLe⟩ := abs_elementEnergy_le hmoderate hcap hb
  rcases hhigh with hhigh | hone
  · apply isClose_of_abs_sub_le hfinite hbestFinite
    have hbound : 2 * roundingBound (value penalty) s.mostOnes ≤ absolute :=
      calc 2 * roundingBound (value penalty) s.mostOnes
          = value penalty * ((s.mostOnes + 1) * (2 * s.mostOnes + 3)) *
              (2 * (1 + 1 / 2 ^ 20) / 2 ^ 53) := by unfold roundingBound sumUnit; ring
        _ ≤ 4500000 * (2 * (1 + 1 / 2 ^ 20) / 2 ^ 53) := by gcongr
        _ ≤ absolute := by unfold absolute; norm_num
    exact (abs_sub _ _).trans (by linarith)
  · -- The energies are zero: nothing remains of an element with a single one.
    have hnone : ∀ x ∈ s.elements, value (elementEnergy penalty x) = 0 := by
      intro x hx
      have hones := SetSpec.onesCount_le_mostOnes_of_mem hx
      exact hmoderate.value_elementEnergy_of_le_one (hones.trans hone.le)
    exact isClose_of_value_eq hfinite hbestFinite ((hnone e he).trans (hnone b hb).symm)

/-- With a gap a little below the absolute tolerance a verification does not pass. -/
theorem passed_eq_false_of_small
    (hsmall : value penalty ≤ 99999 / 10 ^ 14 * s.mostOnes) : report.passed = false := by
  obtain ⟨m, solver, hembed, hprepare, -, hviolations, -⟩ := of_verify_eq_ok hreport
  obtain ⟨-, hzero, rfl⟩ := of_embed_eq_ok hembed
  have h := Solver.prepares_of_prepare hprepare
  obtain ⟨n, hn, hne⟩ := exists_isOptimal_of_small hmoderate h hzero hcap hsmall
  rw [← Bool.not_eq_true]
  unfold Report.passed
  rw [hviolations, isEmpty_violations_iff]
  exact fun hboth => hne (hboth.1 n hn)

end report

/-- A report is returned for every penalty that the embedding accepts. -/
theorem exists_verifyText {text : String} (hparse : SetSpec.parse text = .ok s)
    (hzero : s.containsZero = true) (hcap : s.width + s.nonzero.length ≤ 16)
    (hfinite : penalty.isFinite = true) (hpos : 0 < penalty) :
    ∃ report, verifyText text ⟨penalty⟩ .default = .ok report ∧
      verify s ⟨penalty⟩ .default = .ok report := by
  obtain ⟨solver, hprepare⟩ := exists_prepare_modelOf s penalty .default hcap
  obtain ⟨report, hreport⟩ := exists_verify_eq_ok
    (embed_of_accepted ⟨penalty⟩ hzero ⟨hfinite, hpos⟩) hprepare
  refine ⟨report, ?_, hreport⟩
  unfold verifyText
  rw [hparse]
  exact hreport

/-- **Which penalties pass.** With the settings that are used unless others are given, every set
that contains zero and has at most sixteen bits and indicators is verified with every positive and
finite penalty. If the gap, which is the penalty divided by the largest number of ones, is a little
above the absolute tolerance, then all that the report says is about elements; and the verification
passes if the penalty is not too large for the number of ones, or if there is at most a single one.
If the gap is a little below the absolute tolerance, the verification does not pass. -/
theorem verifyText_aboutElements {text : String} (hparse : SetSpec.parse text = .ok s)
    (hzero : s.containsZero = true) (hcap : s.width + s.nonzero.length ≤ 16)
    (hfinite : penalty.isFinite = true) (hpos : 0 < penalty) :
    ∃ report, verifyText text ⟨penalty⟩ .default = .ok report ∧
      (100001 / 10 ^ 14 * s.mostOnes ≤ value penalty → value penalty ≤ 2 ^ 1000 →
        AboutElements s penalty report ∧
          (value penalty * ((s.mostOnes + 1) * (2 * s.mostOnes + 3)) ≤ 4500000 ∨
            s.mostOnes = 1 → report.passed = true)) ∧
      (2 ^ (-900 : ℤ) ≤ value penalty → value penalty ≤ 99999 / 10 ^ 14 * s.mostOnes →
        report.passed = false) := by
  obtain ⟨report, hverify, hreport⟩ := exists_verifyText hparse hzero hcap hfinite hpos
  refine ⟨report, hverify, ?_, ?_⟩
  · intro hlow hhigh
    have hmost : (1 : Rat) ≤ s.mostOnes := by exact_mod_cast s.mostOnes_pos
    have hnormal : (2 : Rat) ^ (-900 : ℤ) ≤ 2 ^ (-30 : ℤ) := two_zpow_le (by norm_num)
    have hmoderate : Moderate penalty := by
      refine .of_bounds hfinite (hnormal.trans ?_) hhigh
      calc (2 : Rat) ^ (-30 : ℤ) ≤ 100001 / 10 ^ 14 * 1 := by norm_num
        _ ≤ 100001 / 10 ^ 14 * s.mostOnes := by gcongr
        _ ≤ value penalty := hlow
    exact ⟨aboutElements_of_verify hmoderate hreport hcap hlow,
      passed_of_le hmoderate hreport hcap hlow⟩
  · intro hlow hsmall
    have hmost : (s.mostOnes : Rat) ≤ 15 := by exact_mod_cast SetSpec.mostOnes_le hcap
    refine passed_eq_false_of_small (.of_bounds hfinite hlow ?_) hreport hcap hsmall
    calc value penalty ≤ 99999 / 10 ^ 14 * s.mostOnes := hsmall
      _ ≤ 99999 / 10 ^ 14 * 15 := by gcongr
      _ ≤ 2 ^ 0 := by norm_num
      _ ≤ 2 ^ 1000 := pow_le_pow_right₀ (by norm_num) (by norm_num)

theorem exists_parse_zeroOrOne : ∃ s, SetSpec.parse "0|1" = .ok s ∧ s.containsZero = true ∧
    s.width + s.nonzero.length ≤ 16 ∧ s.mostOnes = 1 :=
  ⟨_, rfl, by decide, by decide, by decide⟩

/-- With penalty ten the set of zero and one passes. -/
theorem zeroOrOne_passes :
    ∃ s, SetSpec.parse "0|1" = .ok s ∧ ∃ report, verifyText "0|1" ⟨10⟩ .default = .ok report ∧
      AboutElements s 10 report ∧ report.passed = true := by
  have hten : (10 : Float).isFinite = true ∧ value 10 = 10 := rounds_ofNat (by norm_num)
  obtain ⟨s, hparse, hzero, hcap, hone⟩ := exists_parse_zeroOrOne
  obtain ⟨report, hreport, habove, -⟩ :=
    verifyText_aboutElements hparse hzero hcap hten.1 (by decide +kernel)
  obtain ⟨habout, hpassed⟩ := habove (by rw [hone, hten.2]; norm_num)
    (by rw [hten.2]; exact (by norm_num : (10 : Rat) ≤ 2 ^ 4).trans
          (pow_le_pow_right₀ (by norm_num) (by norm_num)))
  exact ⟨s, hparse, report, hreport, habout, hpassed (Or.inr hone)⟩

theorem value_tenBillionth : value 1e-10 = 7737125245533627 / 2 ^ 86 := by
  have hbits : (1e-10 : Float) = Float.ofBits 4457293557087583675 := by decide +kernel
  have hunpack : (Float.ofBits 4457293557087583675).toModel.unpack =
      .finite .positive 7737125245533627 (-86) (by norm_num) := rfl
  rw [hbits]
  unfold value
  rw [hunpack, Double.unpackedValue, Double.factor]
  norm_num

/-- **Not every penalty passes.** With the penalty `10⁻¹⁰` the set of zero and one fails, for its gap
is below the absolute tolerance. With the penalty `10⁹` the set of three zeros and three ones fails,
for what remains of the energy of three ones is above it. -/
theorem not_passed_at_both_ends :
    (∃ s, SetSpec.parse "0|1" = .ok s ∧ s.containsZero = true ∧
      s.width + s.nonzero.length ≤ 16 ∧ (1e-10 : Float).isFinite = true ∧ (0 : Float) < 1e-10 ∧
      ∃ report, verifyText "0|1" ⟨1e-10⟩ .default = .ok report ∧ report.passed = false) ∧
    ∃ s, SetSpec.parse "000|111" = .ok s ∧ s.containsZero = true ∧
      s.width + s.nonzero.length ≤ 16 ∧ (1e9 : Float).isFinite = true ∧ (0 : Float) < 1e9 ∧
      ∃ report, verifyText "000|111" ⟨1e9⟩ .default = .ok report ∧ report.passed = false := by
  constructor
  · obtain ⟨s, hparse, hzero, hcap, hone⟩ := exists_parse_zeroOrOne
    have hfinite : (1e-10 : Float).isFinite = true := by decide +kernel
    have hpos : (0 : Float) < 1e-10 := by decide +kernel
    obtain ⟨report, hverify, hreport⟩ := exists_verifyText hparse hzero hcap hfinite hpos
    refine ⟨s, hparse, hzero, hcap, hfinite, hpos, report, hverify, ?_⟩
    refine passed_eq_false_of_small (.of_bounds hfinite ?_ ?_) hreport hcap ?_
    · rw [value_tenBillionth]
      calc (2 : Rat) ^ (-900 : ℤ) ≤ 2 ^ (-40 : ℤ) := two_zpow_le (by norm_num)
        _ ≤ 7737125245533627 / 2 ^ 86 := by norm_num
    · rw [value_tenBillionth]
      calc (7737125245533627 / 2 ^ 86 : Rat) ≤ 2 ^ 0 := by norm_num
        _ ≤ 2 ^ 1000 := pow_le_pow_right₀ (by norm_num) (by norm_num)
    · rw [hone, value_tenBillionth]
      norm_num
  · have hparse : ∃ s, SetSpec.parse "000|111" = .ok s ∧ s.containsZero = true ∧
        s.width + s.nonzero.length ≤ 16 ∧ s.mostOnes = 3 ∧
        s.elements = [⟨[false, false, false]⟩, ⟨[true, true, true]⟩] :=
      ⟨_, rfl, by decide, by decide, by decide, rfl⟩
    obtain ⟨s, hparse, hzero, hcap, hmost, helements⟩ := hparse
    have hfinite : (1e9 : Float).isFinite = true := by decide +kernel
    have hpos : (0 : Float) < 1e9 := by decide +kernel
    have hvalue : value 1e9 = 1000000000 := by
      have hsame : (1e9 : Float) = Float.ofNat 1000000000 := by decide +kernel
      rw [hsame]
      exact (rounds_ofNat (by norm_num)).2
    obtain ⟨report, hverify, hreport⟩ := exists_verifyText hparse hzero hcap hfinite hpos
    have hmoderate : Moderate 1e9 := by
      refine .of_bounds hfinite ?_ ?_
      · rw [hvalue]
        exact (two_zpow_le (by norm_num : (-900 : ℤ) ≤ 0)).trans (by norm_num)
      · rw [hvalue]
        exact (by norm_num : (1000000000 : Rat) ≤ 2 ^ 30).trans
          (pow_le_pow_right₀ (by norm_num) (by norm_num))
    have habout := aboutElements_of_verify hmoderate hreport hcap (by
      rw [hmost, hvalue]
      norm_num)
    refine ⟨s, hparse, hzero, hcap, hfinite, hpos, report, hverify, ?_⟩
    rw [← Bool.not_eq_true, habout.passed]
    intro hall
    obtain ⟨b, hb, hbest⟩ := habout.best.1
    -- Whichever of the two energies is the best, the other one is not close to it.
    rw [hbest, helements] at hall
    rw [helements] at hb
    have hfar : reachesBest 1e9 (elementEnergy 1e9 ⟨[false, false, false]⟩)
          ⟨[true, true, true]⟩ = false ∧
        reachesBest 1e9 (elementEnergy 1e9 ⟨[true, true, true]⟩)
          ⟨[false, false, false]⟩ = false := by
      decide +kernel
    rcases List.mem_pair.mp hb with rfl | rfl
    · exact Bool.false_ne_true (hfar.1.symm.trans (hall _ (by simp)))
    · exact Bool.false_ne_true (hfar.2.symm.trans (hall _ (by simp)))

end Verification

end SetQubo
