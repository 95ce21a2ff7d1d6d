import Mathlib
import SetQubo.Proofs.Embedding.Solutions
import SetQubo.Proofs.Verification.Account
/-!
# When a verification passes

In exact arithmetic every element is recovered exactly once, whatever the penalty and the
tolerances. All that can go wrong is that the absolute tolerance, which does not scale with the
penalty, reaches the gap: then assignments that stand for no element count as optimal.
-/

namespace SetQubo

namespace Verification

open SetQubo.Embedding

variable {s : SetSpec} {penalty : Rat} {config : SolverConfig Rat} {solver : Solver Variable Rat}

section prepared
variable (h : Solver.Prepares (modelOf penalty s.width s.nonzero) config solver)
  (hzero : s.containsZero = true) (hpenalty : 0 < penalty) (htolerant : Tolerant config)
include h hzero hpenalty htolerant

/-- Every element is recovered exactly once. -/
theorem recoveries_eq_one {e : BitVector} (he : e ∈ s.elements) : recoveries s solver e = 1 := by
  have htexts := text_decodedElements_optimal h hzero hpenalty htolerant
  have hnodup : (recoveredElements s solver).Nodup := by
    apply List.Nodup.of_map BitVector.text
    show ((decodedElements s solver solver.optimal).map BitVector.text).Nodup
    rw [htexts]
    exact s.pairwise_elementTexts.imp ne_of_lt
  have hmem := (mem_decodedElements_optimal h hzero hpenalty htolerant).mpr he
  rw [recoveries_eq_count]
  exact List.count_eq_one_of_mem hnodup hmem

/-- Whatever decodes counts as optimal. -/
theorem isOptimal_of_decodes {n : UInt64} (hn : decodes s solver n = true) :
    isOptimal solver n = true := by
  obtain ⟨e, he⟩ := Option.isSome_iff_exists.mp hn
  exact isClose_of_decoded h hzero hpenalty htolerant (toOption_decoded_eq_some_iff.mp he)

/-- Optimality and decoding agree exactly when the absolute tolerance is below the gap. -/
theorem agree_iff_below_gap :
    (∀ n ∈ solver.encodings, decodes s solver n = isOptimal solver n) ↔
      config.absoluteTolerance < gap s penalty := by
  constructor
  · intro hagree
    by_contra hreached
    rw [not_lt] at hreached
    -- The assignment at the gap is optimal then, and does not decode.
    obtain ⟨g, hg, hnot, hattained⟩ := exists_energy_eq_gap_of_not_decoded h hzero hpenalty
    have hoptimal : isOptimal solver g = true :=
      (isClose_best_iff h hzero hpenalty htolerant g).mpr (hattained ▸ hreached)
    rw [← hagree g hg] at hoptimal
    obtain ⟨e, he⟩ := Option.isSome_iff_exists.mp hoptimal
    exact hnot e (toOption_decoded_eq_some_iff.mp he)
  · intro hbelow n _
    rw [Bool.eq_iff_iff]
    constructor
    · exact isOptimal_of_decodes h hzero hpenalty htolerant
    · intro hoptimal
      obtain ⟨e, he⟩ := exists_decoded_of_isClose h hzero hpenalty htolerant hbelow hoptimal
      exact Option.isSome_iff_exists.mpr ⟨e, toOption_decoded_eq_some_iff.mpr he⟩

end prepared

/-- **A verification passes exactly below the gap.** In exact arithmetic a report lists every
distinct element as recovered, once and ascending by encoding, and its violations are assignments
that count as optimal but do not decode. There are none exactly when the absolute tolerance is less
than the penalty divided by the largest number of ones. -/
theorem passed_iff_below_gap {set : SetSpec} {embedding : EmbeddingConfig Rat}
    {config : SolverConfig Rat} {report : Report Rat} (htolerant : Tolerant config)
    (h : verify set embedding config = .ok report) :
    (∃ es : List BitVector, report.recovered = es.map BitVector.text ∧
      es.Pairwise (fun x y => x.encode < y.encode) ∧ ∀ e, e ∈ es ↔ e ∈ set.elements) ∧
    (∀ v ∈ report.violations, ∃ assignment energy reason,
      v = .optimalNotDecoded assignment energy reason) ∧
    (report.passed = true ↔
      config.absoluteTolerance < embedding.basePenalty / set.mostOnes) := by
  obtain ⟨m, solver, hembed, hprepare, -, hviolations, hrecovered⟩ := of_verify_eq_ok h
  obtain ⟨⟨-, hpenalty⟩, hzero, rfl⟩ := of_embed_eq_ok hembed
  have hprepares := Solver.prepares_of_prepare hprepare
  have honce : ∀ e ∈ set.elements, recoveries set solver e = 1 :=
    fun e he => recoveries_eq_one hprepares hzero hpenalty htolerant he
  refine ⟨⟨_, by rw [hrecovered, List.map_map]; rfl, pairwise_recovered hzero, ?_⟩, ?_, ?_⟩
  · intro e
    rw [mem_recovered_iff hzero]
    exact mem_decodedElements_optimal hprepares hzero hpenalty htolerant
  · intro v hv
    rw [hviolations] at hv
    rcases List.mem_append.mp hv with hv | hv
    · -- What decodes is optimal, so the assignment is optimal and does not decode.
      obtain ⟨n, hn, rfl⟩ := List.mem_map.mp hv
      have hne : decodes set solver n ≠ isOptimal solver n :=
        bne_iff_ne.mp (List.mem_filter.mp hn).2
      unfold assignmentViolation
      cases hdecoded : decoded set solver n with
      | error r => exact ⟨_, _, _, rfl⟩
      | ok x =>
        have hdecodes : decodes set solver n = true := by
          unfold decodes
          rw [hdecoded]
          rfl
        have hoptimal := isOptimal_of_decodes hprepares hzero hpenalty htolerant hdecodes
        exact absurd (hdecodes.trans hoptimal.symm) hne
    · -- Every element is recovered exactly once, so none is reported.
      obtain ⟨e, he, rfl⟩ := List.mem_map.mp hv
      obtain ⟨hmem, hne⟩ := List.mem_filter.mp he
      exact absurd (honce e (SetSpec.mem_byEncoding.mp hmem)) (bne_iff_ne.mp hne)
  · unfold Report.passed
    rw [hviolations, isEmpty_violations_iff,
      agree_iff_below_gap hprepares hzero hpenalty htolerant]
    exact and_iff_left honce

/-- With penalty ten the gap of exclusive or is five: a verification passes with the absolute
tolerance four, and no longer with five. -/
theorem exclusiveOr_passes_below_five :
    (∃ report, verify SetSpec.exclusiveOr (⟨10⟩ : EmbeddingConfig Rat) ⟨16, 0, 4, false⟩ =
        .ok report ∧ report.passed = true) ∧
      ∃ report, verify SetSpec.exclusiveOr (⟨10⟩ : EmbeddingConfig Rat) ⟨16, 0, 5, false⟩ =
        .ok report ∧ report.passed = false := by
  have hmost : SetSpec.exclusiveOr.mostOnes = 2 := by decide
  have hembed := @embed_eq_ok SetSpec.exclusiveOr ⟨10⟩ (by decide) (by norm_num)
  have hreport : ∀ tolerance : Rat, ∃ report, verify SetSpec.exclusiveOr
      (⟨10⟩ : EmbeddingConfig Rat) ⟨16, 0, tolerance, false⟩ = .ok report := by
    intro tolerance
    have hcap : SetSpec.exclusiveOr.width + SetSpec.exclusiveOr.nonzero.length ≤
        min (16 : UInt64).toNat encodingLimit := by decide
    obtain ⟨solver, hprepare⟩ := exists_prepare_modelOf SetSpec.exclusiveOr (10 : Rat)
      ⟨16, 0, tolerance, false⟩ hcap
    exact exists_verify_eq_ok hembed hprepare
  obtain ⟨below, hbelow⟩ := hreport 4
  obtain ⟨reached, hreached⟩ := hreport 5
  have hpasses := (passed_iff_below_gap ⟨le_rfl, by norm_num, by norm_num⟩ hbelow).2.2
  have hfails := (passed_iff_below_gap ⟨le_rfl, by norm_num, by norm_num⟩ hreached).2.2
  rw [hmost] at hpasses hfails
  refine ⟨⟨below, hbelow, hpasses.mpr (by norm_num)⟩, reached, hreached, ?_⟩
  rw [← Bool.not_eq_true, hfails]
  norm_num

end Verification

end SetQubo
