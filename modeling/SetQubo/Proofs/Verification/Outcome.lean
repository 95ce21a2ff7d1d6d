import Mathlib
import SetQubo.Proofs.SetSpec.Reading
import SetQubo.Proofs.Solver.Optimum
import SetQubo.Proofs.Solver.Renaming
import SetQubo.Proofs.Verification.Account
/-!
# Outcomes of a verification

A verification of a text can fail at four places, and they are passed in a fixed order: the text
may not describe a set, the penalty may not be positive and finite, the set may not contain zero,
and there may be more variables than the solver allows. What passes all four is reported.

The rules of `Outcome` say so without mentioning an encoding, a model or a solver. Above all they
count the variables from the text alone: one for each bit, and one for each element other than
zero, however often it is repeated. The pairs of a model bring in no more.
-/

namespace SetQubo

open Variable

/-! ## Variables of a set -/

/-- How many variables the model of a set has. -/
def SetSpec.variableCount (s : SetSpec) : Nat := s.width + s.others.length

/-- The display names of the variables: the bits, then the indicators. -/
def SetSpec.variableNames (s : SetSpec) : List String :=
  (List.range s.width).map (fun i => "bit_" ++ toString i) ++
    s.others.map fun x => "ind_" ++ x.text

theorem Variable.name_bitAt {i : Nat} (hi : i < 64) : (bitAt i).name = "bit_" ++ toString i := by
  show "bit_" ++ toString (UInt64.ofNat i).toNat = _
  rw [UInt64.toNat_ofNat_of_lt' (hi.trans (by decide))]

namespace Embedding

variable {S : Type} [Scalar S]

theorem length_variableList (s : SetSpec) :
    (variableList s.width s.nonzero).length = s.variableCount := by
  unfold variableList SetSpec.variableCount
  rw [List.length_append, List.length_map, List.length_map, List.length_range,
    SetSpec.nonzero_eq_others]

theorem map_name_variableList (s : SetSpec) :
    (variableList s.width s.nonzero).map Variable.name = s.variableNames := by
  unfold variableList SetSpec.variableNames
  rw [List.map_append, List.map_map, List.map_map, SetSpec.nonzero_eq_others]
  congr 1
  apply List.map_congr_left
  intro i hi
  -- A position is a number of sixty-four bits, which widths do not exceed.
  exact name_bitAt ((List.mem_range.mp hi).trans_le s.width_le)

theorem length_labels_modelOf (s : SetSpec) (penalty : S) :
    (modelOf penalty s.width s.nonzero).labels.length = s.variableCount := by
  rw [labels_modelOf s.width_le penalty s.nodup_nonzero, length_variableList]

end Embedding

namespace Verification

open SetQubo.Embedding

variable {S : Type} [Scalar S] {text : String} {s : SetSpec} {embedding : EmbeddingConfig S}
  {config : SolverConfig S}

/-! ## The rules -/

/-- What a penalty must be. -/
def Valid (embedding : EmbeddingConfig S) : Prop :=
  Scalar.isFinite embedding.basePenalty = true ∧ 0 < embedding.basePenalty

/-- What a verification of a text comes to. -/
inductive Outcome (text : String) (embedding : EmbeddingConfig S) (config : SolverConfig S) :
    Except (VerifyError S) (Report S) → Prop where
  /-- The text describes no set, whatever the settings are. -/
  | unreadable (e : SetError) (hparse : SetSpec.parse text = .error e) :
    Outcome text embedding config (.error (.set e))
  /-- The text describes a set, and the penalty is not positive and finite. -/
  | penalty (s : SetSpec) (hparse : SetSpec.parse text = .ok s) (hinvalid : ¬Valid embedding) :
    Outcome text embedding config (.error (.embed (.invalidPenalty embedding.basePenalty)))
  /-- The penalty is accepted, and no element is zero. The text is returned as it was given. -/
  | shape (s : SetSpec) (hparse : SetSpec.parse text = .ok s) (hvalid : Valid embedding)
      (hzero : ∀ x ∈ s.elements, x ≠ .zeros s.width) :
    Outcome text embedding config (.error (.embed (.unsupportedShape text)))
  /-- The set is embedded, and has more variables than are allowed. -/
  | tooMany (s : SetSpec) (hparse : SetSpec.parse text = .ok s) (hvalid : Valid embedding)
      (hzero : .zeros s.width ∈ s.elements)
      (hcap : min config.maxVariables.toNat 63 < s.variableCount) :
    Outcome text embedding config
      (.error (.solver (.tooManyVariables s.variableCount (min config.maxVariables.toNat 63))))
  /-- The set is embedded, and its model is solved. -/
  | report (s : SetSpec) (hparse : SetSpec.parse text = .ok s) (hvalid : Valid embedding)
      (hzero : .zeros s.width ∈ s.elements)
      (hcap : s.variableCount ≤ min config.maxVariables.toNat 63) (r : Report S)
      (hset : r.set = text) (hsettings : r.embedding = embedding ∧ r.solver = config)
      (hnames : r.variableNames = s.variableNames)
      (hchecked : r.checked.toNat = 2 ^ s.variableCount) :
    Outcome text embedding config (.ok r)

/-! ## What each step gives -/

theorem verifyText_of_unreadable {e : SetError} (hparse : SetSpec.parse text = .error e) :
    verifyText text embedding config = .error (.set e) := by
  unfold verifyText
  rw [hparse]
  rfl

/-- A set that is read is verified. -/
theorem verifyText_of_parse (hparse : SetSpec.parse text = .ok s) :
    verifyText text embedding config = verify s embedding config := by
  unfold verifyText
  rw [hparse]
  rfl

theorem verify_of_embed_error {e : EmbedError S} (hembed : embed embedding s = .error e) :
    verify s embedding config = .error (.embed e) := by
  unfold verify verifyBy
  rw [hembed]
  rfl

/-- The penalty is checked before the shape of the set. -/
theorem verify_of_not_valid (hinvalid : ¬Valid embedding) :
    verify s embedding config = .error (.embed (.invalidPenalty embedding.basePenalty)) := by
  unfold Valid at hinvalid
  apply verify_of_embed_error
  unfold embed
  rw [if_pos hinvalid]

theorem verify_of_not_zero (hvalid : Valid embedding)
    (hzero : ∀ x ∈ s.elements, x ≠ .zeros s.width) :
    verify s embedding config = .error (.embed (.unsupportedShape s.text)) := by
  have hnot : ¬s.containsZero = true := by
    rw [SetSpec.containsZero_iff]
    exact fun hmem => hzero _ hmem rfl
  unfold Valid at hvalid
  apply verify_of_embed_error
  unfold embed
  rw [if_neg (not_not_intro hvalid), if_pos hnot]

section embedded
variable (hvalid : Valid embedding) (hzero : .zeros s.width ∈ s.elements)
include hvalid hzero

theorem verify_of_too_many (hcap : min config.maxVariables.toNat 63 < s.variableCount) :
    verify s embedding config =
      .error (.solver (.tooManyVariables s.variableCount (min config.maxVariables.toNat 63))) := by
  have hprepare := Solver.prepare_eq_error_iff.mpr
    ⟨(length_labels_modelOf s embedding.basePenalty).symm ▸ hcap, rfl⟩
  unfold verify verifyBy
  rw [embed_of_accepted embedding (SetSpec.containsZero_iff.mpr hzero) hvalid]
  simp only [Except.mapError, bind, Except.bind]
  rw [hprepare, length_labels_modelOf]
  rfl

/-- A model within the cap is solved, and its report names all of its variables. -/
theorem exists_verify_of_within (hcap : s.variableCount ≤ min config.maxVariables.toNat 63) :
    ∃ r, verify s embedding config = .ok r ∧ r.set = s.text ∧
      (r.embedding = embedding ∧ r.solver = config) ∧ r.variableNames = s.variableNames ∧
      r.checked.toNat = 2 ^ s.variableCount := by
  have hcontains := SetSpec.containsZero_iff.mpr hzero
  obtain ⟨solver, hprepare⟩ :=
    exists_prepare_modelOf s embedding.basePenalty config (by
      rw [SetSpec.nonzero_eq_others]
      exact hcap)
  have hprepares := Solver.prepares_of_prepare hprepare
  unfold verify verifyBy
  rw [embed_of_accepted embedding hcontains hvalid]
  simp only [Except.mapError, bind, Except.bind]
  rw [hprepare]
  refine ⟨_, rfl, rfl, ⟨rfl, rfl⟩, ?_, ?_⟩
  · show solver.labels.map Variable.name = _
    rw [labels_solver hprepares, map_name_variableList]
  · show solver.solve.evaluated.toNat = _
    rw [hprepares.toNat_evaluated_solve, length_labels_modelOf]

end embedded

/-! ## Every outcome follows the rules -/

/-- The rules cover everything. -/
theorem outcome_verifyText (text : String) (embedding : EmbeddingConfig S)
    (config : SolverConfig S) :
    Outcome text embedding config (verifyText text embedding config) := by
  match hparse : SetSpec.parse text with
  | .error e =>
    rw [verifyText_of_unreadable hparse]
    exact .unreadable e hparse
  | .ok s =>
    rw [verifyText_of_parse hparse]
    by_cases hvalid : Valid embedding
    · by_cases hzero : .zeros s.width ∈ s.elements
      · by_cases hcap : s.variableCount ≤ min config.maxVariables.toNat 63
        · obtain ⟨r, hr, hset, hsettings, hnames, hchecked⟩ :=
            exists_verify_of_within hvalid hzero hcap
          rw [hr]
          have htext : r.set = text := hset.trans (SetSpec.text_of_parse hparse)
          exact .report s hparse hvalid hzero hcap r htext hsettings hnames hchecked
        · rw [not_le] at hcap
          rw [verify_of_too_many hvalid hzero hcap]
          exact .tooMany s hparse hvalid hzero hcap
      · have hnot : ∀ x ∈ s.elements, x ≠ .zeros s.width := by
          rintro x hx rfl
          exact hzero hx
        rw [verify_of_not_zero hvalid hnot, SetSpec.text_of_parse hparse]
        exact .shape s hparse hvalid hnot
    · rw [verify_of_not_valid hvalid]
      exact .penalty s hparse hvalid

/-- An error that a rule gives is the one that is returned. -/
theorem Outcome.verifyText_eq_error {e : VerifyError S}
    (h : Outcome text embedding config (.error e)) :
    verifyText text embedding config = .error e := by
  cases h with
  | unreadable e hparse => exact verifyText_of_unreadable hparse
  | penalty s hparse hinvalid => rw [verifyText_of_parse hparse, verify_of_not_valid hinvalid]
  | shape s hparse hvalid hzero =>
    rw [verifyText_of_parse hparse, verify_of_not_zero hvalid hzero, SetSpec.text_of_parse hparse]
  | tooMany s hparse hvalid hzero hcap =>
    rw [verifyText_of_parse hparse, verify_of_too_many hvalid hzero hcap]

/-- Where a rule gives a report, one is returned. -/
theorem Outcome.exists_verifyText_eq_ok {r : Report S}
    (h : Outcome text embedding config (.ok r)) :
    ∃ r', verifyText text embedding config = .ok r' := by
  cases h with
  | report s hparse hvalid hzero hcap =>
    obtain ⟨r', hr', -⟩ := exists_verify_of_within hvalid hzero hcap
    exact ⟨r', (verifyText_of_parse hparse).trans hr'⟩

/-- **A verification comes to what the rules say, and to nothing else.** This holds in any
arithmetic, so among doubles for infinite penalties and for those that are no number, too. -/
theorem outcome_exact (text : String) (embedding : EmbeddingConfig S) (config : SolverConfig S) :
    Outcome text embedding config (verifyText text embedding config) ∧
      (∀ e, verifyText text embedding config = .error e ↔
        Outcome text embedding config (.error e)) ∧
      ((∃ r, verifyText text embedding config = .ok r) ↔
        ∃ r, Outcome text embedding config (.ok r)) := by
  have hcovered := outcome_verifyText text embedding config
  refine ⟨hcovered, ?_, ?_⟩
  · intro e
    refine ⟨fun h => h ▸ hcovered, Outcome.verifyText_eq_error⟩
  · constructor
    · rintro ⟨r, hr⟩
      exact ⟨r, hr ▸ hcovered⟩
    · rintro ⟨r, hr⟩
      exact hr.exists_verifyText_eq_ok

/-- What is no number is refused before it is seen that zero is missing. -/
example (config : SolverConfig Float) :
    verifyText "01|10" ⟨0 / 0⟩ config = .error (.embed (.invalidPenalty (0 / 0))) := by
  rfl

end Verification

end SetQubo
