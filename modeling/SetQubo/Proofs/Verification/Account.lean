import Mathlib
import SetQubo.Proofs.Embedding.Assignments
import SetQubo.Proofs.Solver.Enumeration
import SetQubo.Proofs.Solver.Levels
import SetQubo.Verification.Check
/-!
# Reports are exact

A report is an exact account of a run, whatever the energies are. It names every assignment on
which optimality and decoding disagree, and no other, in ascending order; then every element that
is not recovered exactly once, and no other, ascending by encoding. The recovered elements are those
that optimal assignments decode to, and the assignments taken for optimal are the solutions.
-/

namespace SetQubo

/-- A function that gives its results to some members of a list only maps those. -/
theorem filterMap_eq_map_filter {α β : Type} {f : α → Option β} {p : α → Bool} {g : α → β}
    {l : List α} (h : ∀ a ∈ l, f a = if p a then some (g a) else none) :
    l.filterMap f = (l.filter p).map g := by
  induction l with
  | nil => rfl
  | cons a l ih =>
    have hrest := ih fun b hb => h b (List.mem_cons_of_mem _ hb)
    have hfirst := h a List.mem_cons_self
    cases hp : p a with
    | true =>
      rw [hp, if_pos rfl] at hfirst
      rw [List.filterMap_cons_some hfirst, List.filter_cons_of_pos hp, List.map_cons, hrest]
    | false =>
      rw [hp, if_neg Bool.false_ne_true] at hfirst
      rw [List.filterMap_cons_none hfirst, List.filter_cons_of_neg (by simp [hp]), hrest]

namespace Verification

open SetQubo.Embedding

variable {S : Type} [Scalar S] {set : SetSpec} {solver : Solver Variable S} {e : BitVector}
  {n : UInt64}

/-! ## What a report should say -/

/-- Whether the energy of an assignment counts as optimal. -/
def isOptimal (solver : Solver Variable S) (n : UInt64) : Bool :=
  solver.config.isClose (solver.energy n) solver.solve.best

/-- Whether an assignment stands for an element. -/
def decodes (set : SetSpec) (solver : Solver Variable S) (n : UInt64) : Bool :=
  (decoded set solver n).toOption.isSome

/-- How many optimal assignments decode to an element. -/
def recoveries (set : SetSpec) (solver : Solver Variable S) (e : BitVector) : Nat :=
  solver.optimal.countP fun n => (decoded set solver n).toOption = some e

/-- What is reported of an assignment on which optimality and decoding disagree. -/
def assignmentViolation (set : SetSpec) (solver : Solver Variable S) (n : UInt64) : Violation S :=
  match decoded set solver n with
  | .ok x => .decodedNotOptimal (solver.assignment n).text (solver.energy n) x.text
  | .error r => .optimalNotDecoded (solver.assignment n).text (solver.energy n) r.message

/-- What is reported of an element that is not recovered exactly once. -/
def elementViolation (set : SetSpec) (solver : Solver Variable S) (e : BitVector) : Violation S :=
  if recoveries set solver e = 0 then .missingElement e.text
  else .duplicateElement e.text (UInt64.ofNat (recoveries set solver e))

/-- The report tells exactly what happened in a run of the solver. -/
structure Account (set : SetSpec) (solver : Solver Variable S) (report : Report S) : Prop where
  /-- The best energy is the solver's. -/
  best : report.best = solver.solve.best
  /-- The solutions are the rows of the optimal assignments, ascending. -/
  solutions : ∃ ns : List UInt64,
    solver.solve.solutions = ns.map (fun n => (solver.assignment n).values) ∧
    ns.Pairwise (· < ·) ∧
    ∀ n, n ∈ ns ↔ n.toNat < 2 ^ solver.labels.length ∧ isOptimal solver n = true
  /-- The violations are the assignments that are optimal but do not decode, or decode but are not
  optimal, ascending; then the elements that are not recovered exactly once, ascending. -/
  violations : ∃ (ns : List UInt64) (es : List BitVector),
    report.violations =
      ns.map (assignmentViolation set solver) ++ es.map (elementViolation set solver) ∧
    ns.Pairwise (· < ·) ∧
    (∀ n, n ∈ ns ↔
      n.toNat < 2 ^ solver.labels.length ∧ decodes set solver n ≠ isOptimal solver n) ∧
    es.Pairwise (fun x y => x.encode < y.encode) ∧
    ∀ e, e ∈ es ↔ e ∈ set.elements ∧ recoveries set solver e ≠ 1
  /-- A count of recoveries is reported as it is. -/
  count : ∀ e, (UInt64.ofNat (recoveries set solver e)).toNat = recoveries set solver e
  /-- The recovered elements are those that are recovered at all, ascending. -/
  recovered : ∃ es : List BitVector, report.recovered = es.map BitVector.text ∧
    es.Pairwise (fun x y => x.encode < y.encode) ∧
    ∀ e, e ∈ es ↔ e ∈ set.elements ∧ 0 < recoveries set solver e
  /-- Nothing but elements is recovered. -/
  recovered_mem : ∀ e, 0 < recoveries set solver e → e ∈ set.elements
  /-- A verification has passed if optimality and decoding agree everywhere, and every element is
  recovered exactly once. -/
  passed : report.passed = true ↔
    (∀ n : UInt64, n.toNat < 2 ^ solver.labels.length →
      decodes set solver n = isOptimal solver n) ∧
    ∀ e ∈ set.elements, recoveries set solver e = 1

/-! ## Recovered elements -/

/-- The elements that the optimal assignments decode to, once for each assignment. -/
def recoveredElements (set : SetSpec) (solver : Solver Variable S) : List BitVector :=
  decodedElements set solver solver.optimal

theorem recoveries_eq_count (set : SetSpec) (solver : Solver Variable S) (e : BitVector) :
    recoveries set solver e = (recoveredElements set solver).count e := by
  unfold recoveries recoveredElements decodedElements
  rw [List.count_filterMap]
  apply List.countP_congr
  intro n _
  simp

theorem recoveries_pos_iff : 0 < recoveries set solver e ↔ e ∈ recoveredElements set solver := by
  rw [recoveries_eq_count, List.count_pos_iff]

/-- The encodings of recovered elements occur as often as the elements. -/
theorem count_encode (solver : Solver Variable S) (hzero : set.containsZero = true)
    (he : e ∈ set.elements) :
    ((recoveredElements set solver).map BitVector.encode).count e.encode =
      recoveries set solver e := by
  rw [recoveries_eq_count, List.count_eq_countP, List.count_eq_countP, List.countP_map]
  apply List.countP_congr
  intro x hx
  -- The map is kept by encodings, which tell elements of one set apart.
  have hmem := mem_elements_of_mem_decodedElements hzero hx
  show (x.encode == e.encode) = true ↔ (x == e) = true
  rw [beq_iff_eq, beq_iff_eq]
  exact ⟨SetSpec.encode_inj_of_mem hmem he, congrArg BitVector.encode⟩

/-! ## The parts of a report -/

/-- What a verification finds out about one assignment. -/
def verdict (set : SetSpec) (solver : Solver Variable S) (n : UInt64) : Verdict S :=
  ⟨solver.assignment n, solver.energy n, isOptimal solver n, decoded set solver n⟩

theorem verdicts_eq (set : SetSpec) (solver : Solver Variable S) :
    verdicts (.ofSet set) solver solver.solve.best =
      solver.encodings.map (verdict set solver) := by
  unfold verdicts Solver.levels
  rw [List.map_map]
  rfl

/-- The first violations are those of the assignments that disagree. -/
theorem filterMap_violation (set : SetSpec) (solver : Solver Variable S) :
    (verdicts (.ofSet set) solver solver.solve.best).filterMap Verdict.violation? =
      (solver.encodings.filter fun n => decodes set solver n != isOptimal solver n).map
        (assignmentViolation set solver) := by
  rw [verdicts_eq, List.filterMap_map]
  apply filterMap_eq_map_filter
  intro n _
  show (verdict set solver n).violation? = _
  unfold Verdict.violation? verdict decodes assignmentViolation
  -- The four cases of a verdict: two of them agree, and the other two are reported.
  cases decoded set solver n <;> cases isOptimal solver n <;> rfl

/-- The recovered encodings are those of the elements that optimal assignments decode to. -/
theorem filterMap_recovered (set : SetSpec) (solver : Solver Variable S) :
    (verdicts (.ofSet set) solver solver.solve.best).filterMap Verdict.recovered? =
      (recoveredElements set solver).map BitVector.encode := by
  rw [verdicts_eq, List.filterMap_map]
  unfold recoveredElements decodedElements Solver.optimal Solver.closeTo
  rw [List.map_filterMap, List.filterMap_filter]
  apply List.filterMap_congr
  intro n _
  show (verdict set solver n).recovered? =
    if isOptimal solver n then (decoded set solver n).toOption.map BitVector.encode else none
  unfold Verdict.recovered? verdict
  cases decoded set solver n <;> cases isOptimal solver n <;> rfl

/-- The last violations are those of the elements that are not recovered exactly once. -/
theorem filterMap_elementViolation (hzero : set.containsZero = true) :
    set.encodings.filterMap (elementViolation? set.width
        ((recoveredElements set solver).map BitVector.encode)) =
      (set.byEncoding.filter fun e => recoveries set solver e != 1).map
        (elementViolation set solver) := by
  unfold SetSpec.byEncoding
  rw [List.filter_map, List.map_map]
  apply filterMap_eq_map_filter
  intro n hn
  obtain ⟨hmem, hencode⟩ := SetSpec.encode_decode_of_mem hn
  -- Among the recovered encodings, the one of an element occurs once for each recovery.
  have hcount := count_encode solver hzero hmem
  rw [hencode] at hcount
  unfold elementViolation?
  rw [hcount]
  show _ = if (recoveries set solver (BitVector.decode n set.width) != 1) = true then
    some (elementViolation set solver (BitVector.decode n set.width)) else none
  unfold elementViolation
  -- No recovery, exactly one, or more.
  cases hrecoveries : recoveries set solver (BitVector.decode n set.width) with
  | zero => rfl
  | succ k =>
    cases k with
    | zero => rfl
    | succ k => simp

/-- There is no violation exactly when optimality and decoding agree and every element is recovered
exactly once. -/
theorem isEmpty_violations_iff (set : SetSpec) (solver : Solver Variable S) :
    ((solver.encodings.filter fun n => decodes set solver n != isOptimal solver n).map
          (assignmentViolation set solver) ++
        (set.byEncoding.filter fun e => recoveries set solver e != 1).map
          (elementViolation set solver)).isEmpty = true ↔
      (∀ n ∈ solver.encodings, decodes set solver n = isOptimal solver n) ∧
        ∀ e ∈ set.elements, recoveries set solver e = 1 := by
  rw [List.isEmpty_iff, List.append_eq_nil_iff, List.map_eq_nil_iff, List.map_eq_nil_iff,
    List.filter_eq_nil_iff, List.filter_eq_nil_iff]
  simp only [bne_iff_ne, not_not, SetSpec.mem_byEncoding]

/-- A report that is returned holds the levels of a run, the violations in two parts, and the
recovered elements. -/
theorem of_verify_eq_ok {embedding : EmbeddingConfig S} {config : SolverConfig S}
    {report : Report S} (h : verify set embedding config = .ok report) :
    ∃ m solver, embed embedding set = .ok m ∧ Solver.prepare m config = .ok solver ∧
      report.best = solver.solve.best ∧
      report.violations =
        (solver.encodings.filter fun n => decodes set solver n != isOptimal solver n).map
            (assignmentViolation set solver) ++
          (set.byEncoding.filter fun e => recoveries set solver e != 1).map
            (elementViolation set solver) ∧
      report.recovered = (ascending ((recoveredElements set solver).map BitVector.encode)).map
        fun n => (BitVector.decode n set.width).text := by
  unfold verify verifyBy at h
  cases hembed : embed embedding set with
  | error r =>
    rw [hembed] at h
    cases h
  | ok m =>
    cases hprepare : Solver.prepare m config with
    | error r =>
      rw [hembed] at h
      simp only [Except.mapError, bind, Except.bind] at h
      rw [hprepare] at h
      cases h
    | ok solver =>
      obtain ⟨-, hzero, -⟩ := of_embed_eq_ok hembed
      rw [hembed] at h
      simp only [Except.mapError, bind, Except.bind] at h
      rw [hprepare] at h
      cases h
      refine ⟨m, solver, rfl, hprepare, rfl, ?_, ?_⟩
      · rw [← filterMap_violation, ← filterMap_elementViolation hzero, ← filterMap_recovered]
      · rw [← filterMap_recovered]

/-- If the set can be embedded and its model solved, then a report is returned. -/
theorem exists_verify_eq_ok {embedding : EmbeddingConfig S} {config : SolverConfig S}
    {m : Model Variable S} (hembed : embed embedding set = .ok m)
    (hprepare : Solver.prepare m config = .ok solver) :
    ∃ report, verify set embedding config = .ok report := by
  unfold verify verifyBy
  rw [hembed]
  simp only [Except.mapError, bind, Except.bind]
  rw [hprepare]
  exact ⟨_, rfl⟩

/-! ## The account -/

section account
variable {m : Model Variable S} {config : SolverConfig S}
  (h : Solver.Prepares m config solver)
include h

/-- There are fewer recoveries than a count can hold. -/
theorem toNat_recoveries (set : SetSpec) (e : BitVector) :
    (UInt64.ofNat (recoveries set solver e)).toNat = recoveries set solver e := by
  have hsize := h.size_le
  -- No assignment recovers an element twice.
  have hle : recoveries set solver e ≤ 2 ^ solver.numbering.size := by
    calc recoveries set solver e ≤ solver.optimal.length := List.countP_le_length
      _ ≤ solver.encodings.length := List.length_filter_le _ _
      _ = 2 ^ solver.numbering.size := by
        unfold Solver.encodings
        rw [List.length_map, List.length_range, h.toNat_assignmentCount]
  have hlt : 2 ^ solver.numbering.size < UInt64.size :=
    Nat.pow_lt_pow_right (by omega) (by omega : solver.numbering.size < 64)
  exact UInt64.toNat_ofNat_of_lt' (Nat.lt_of_le_of_lt hle hlt)

end account

/-- The recovered encodings, read back, are the recovered elements. -/
theorem mem_recovered_iff (hzero : set.containsZero = true) :
    e ∈ (ascending ((recoveredElements set solver).map BitVector.encode)).map
        (fun n => BitVector.decode n set.width) ↔ e ∈ recoveredElements set solver := by
  rw [List.mem_map]
  constructor
  · intro hread
    obtain ⟨n, hn, rfl⟩ := hread
    obtain ⟨x, hx, rfl⟩ := List.mem_map.mp (mem_ascending.mp hn)
    rw [SetSpec.decode_encode_of_mem (mem_elements_of_mem_decodedElements hzero hx)]
    exact hx
  · intro he
    refine ⟨e.encode, mem_ascending.mpr (List.mem_map_of_mem he), ?_⟩
    exact SetSpec.decode_encode_of_mem (mem_elements_of_mem_decodedElements hzero he)

theorem pairwise_recovered (hzero : set.containsZero = true) :
    ((ascending ((recoveredElements set solver).map BitVector.encode)).map
      fun n => BitVector.decode n set.width).Pairwise fun x y => x.encode < y.encode := by
  apply SetSpec.pairwise_map_decode (pairwise_ascending _)
  intro n hn
  obtain ⟨x, hx, rfl⟩ := List.mem_map.mp (mem_ascending.mp hn)
  exact SetSpec.mem_encodings.mpr ⟨x, mem_elements_of_mem_decodedElements hzero hx, rfl⟩

/-- **A report is an exact account.** Whenever a verification returns a report, the set was embedded
and its model solved, and the report is sound and complete for that run. -/
theorem verify_account {embedding : EmbeddingConfig S} {config : SolverConfig S}
    {report : Report S} (h : verify set embedding config = .ok report) :
    ∃ m solver, embed embedding set = .ok m ∧ Solver.prepare m config = .ok solver ∧
      Account set solver report := by
  obtain ⟨m, solver, hembed, hprepare, hbest, hviolations, hrecovered⟩ := of_verify_eq_ok h
  obtain ⟨-, hzero, -⟩ := of_embed_eq_ok hembed
  have hprepares := Solver.prepares_of_prepare hprepare
  have hdisagree : ∀ n,
      n ∈ solver.encodings.filter (fun n => decodes set solver n != isOptimal solver n) ↔
        n.toNat < 2 ^ solver.labels.length ∧ decodes set solver n ≠ isOptimal solver n := by
    intro n
    rw [List.mem_filter, hprepares.mem_encodings_iff, bne_iff_ne]
  have hmissed : ∀ e, e ∈ set.byEncoding.filter (fun e => recoveries set solver e != 1) ↔
      e ∈ set.elements ∧ recoveries set solver e ≠ 1 := by
    intro e
    rw [List.mem_filter, SetSpec.mem_byEncoding, bne_iff_ne]
  refine ⟨m, solver, hembed, hprepare, ?_⟩
  constructor
  case best => exact hbest
  case solutions =>
    refine ⟨solver.optimal, solver.solutions_solve, solver.pairwise_optimal, ?_⟩
    intro n
    rw [Solver.mem_optimal, hprepares.mem_encodings_iff]
    exact Iff.rfl
  case violations =>
    exact ⟨_, _, hviolations, solver.pairwise_encodings.filter _, hdisagree,
      set.pairwise_byEncoding.filter _, hmissed⟩
  case count => exact toNat_recoveries hprepares set
  case recovered =>
    refine ⟨_, by rw [hrecovered, List.map_map]; rfl, pairwise_recovered hzero, ?_⟩
    intro e
    rw [mem_recovered_iff hzero, recoveries_pos_iff]
    exact ⟨fun he => ⟨mem_elements_of_mem_decodedElements hzero he, he⟩, fun he => he.2⟩
  case recovered_mem =>
    intro e he
    exact mem_elements_of_mem_decodedElements hzero (recoveries_pos_iff.mp he)
  case passed =>
    unfold Report.passed
    rw [hviolations, isEmpty_violations_iff]
    simp only [hprepares.mem_encodings_iff]

/-- Verifying the truth table of exclusive or returns a report, and it is an exact account. -/
theorem exclusiveOr_account :
    ∃ report, verify SetSpec.exclusiveOr (⟨10⟩ : EmbeddingConfig Rat)
        ⟨16, 1 / 1000, 1 / 1000, true⟩ = .ok report ∧
      ∃ m solver, embed (⟨10⟩ : EmbeddingConfig Rat) SetSpec.exclusiveOr = .ok m ∧
        Solver.prepare m ⟨16, 1 / 1000, 1 / 1000, true⟩ = .ok solver ∧
        Account SetSpec.exclusiveOr solver report := by
  have hembed := @embed_eq_ok SetSpec.exclusiveOr ⟨10⟩ (by decide) (by norm_num)
  obtain ⟨solver, hprepare⟩ := exists_prepare_modelOf SetSpec.exclusiveOr (10 : Rat)
    ⟨16, 1 / 1000, 1 / 1000, true⟩ (by decide)
  obtain ⟨report, hreport⟩ := exists_verify_eq_ok hembed hprepare
  exact ⟨report, hreport, verify_account hreport⟩

end Verification

end SetQubo
