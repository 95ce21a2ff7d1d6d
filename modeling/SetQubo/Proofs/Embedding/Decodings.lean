import Mathlib
import SetQubo.Proofs.Embedding.Assignments
/-!
# Each element is decoded once

The solver of an embedded set looks at every assignment of its variables once, and those are the
bits and the indicators that the decoder reads, no others. So the decoder pins every variable of an
assignment that it accepts: there are as many accepted assignments as distinct elements, and
decoding is a one-to-one correspondence between the two. Energies do not come into it, so it holds
in any arithmetic.
-/

namespace SetQubo

open Variable

/-- A solver looks at two to the number of variables assignments. -/
theorem Solver.Prepares.length_encodings {V S : Type} [Label V] {m : Model V S}
    {config : SolverConfig S} {solver : Solver V S} (h : Prepares m config solver) :
    solver.encodings.length = 2 ^ m.labels.length := by
  unfold encodings
  rw [List.length_map, List.length_range, h.toNat_assignmentCount, ← solver.length_labels,
    h.labels_eq]

namespace Embedding

variable {s : SetSpec} {S : Type} {solver : Solver Variable S}

/-- The assignments that decode, ascending. -/
def accepted (s : SetSpec) (solver : Solver Variable S) : List UInt64 :=
  solver.encodings.filter fun n => (decoded s solver n).toOption.isSome

/-- There are as many accepted assignments as results. -/
theorem length_accepted (s : SetSpec) (solver : Solver Variable S) :
    (accepted s solver).length = (decodedElements s solver solver.encodings).length := by
  unfold accepted decodedElements
  rw [← List.countP_eq_length_filter, List.length_filterMap_eq_countP]

/-- Decoding is a one-to-one correspondence between the accepted assignments and the elements. -/
structure DecodesEachOnce (s : SetSpec) (solver : Solver Variable S) : Prop where
  /-- The variables are the bits, then the indicators that the decoder reads. -/
  labels : solver.labels = (List.range s.width).map bitAt ++ (Decoder.ofSet s).indicators
  /-- Every assignment of them is looked at. -/
  length_encodings : solver.encodings.length = 2 ^ solver.labels.length
  /-- None is looked at twice. -/
  ascending : solver.encodings.Pairwise (· < ·)
  /-- As many of them are accepted as there are distinct elements. -/
  count : (accepted s solver).length = s.distinctCount
  /-- What they decode to are the distinct elements, each once. -/
  elements : (decodedElements s solver solver.encodings).Perm s.distinct
  /-- Each element is decoded from exactly one assignment. -/
  once : ∀ e ∈ s.elements, ∃! n, n ∈ solver.encodings ∧ decoded s solver n = .ok e
  /-- Nothing but elements is decoded, not even from values that are neither 0 nor 1. -/
  only : ∀ x e, (Decoder.ofSet s).decode x = .ok e → e ∈ s.elements

variable [Scalar S] {penalty : S} {config : SolverConfig S}

section prepared
variable (h : Solver.Prepares (modelOf penalty s.width s.nonzero) config solver)
  (hzero : s.containsZero = true)
include h hzero

/-- No element comes twice among those that are decoded. -/
theorem nodup_decodedElements : (decodedElements s solver solver.encodings).Nodup := by
  have htexts := pairwise_text_decodedElements h hzero solver.pairwise_encodings fun _ hn => hn
  rw [List.pairwise_map] at htexts
  exact htexts.imp fun hlt heq => (ne_of_lt hlt) (congrArg BitVector.text heq)

/-- The elements that are decoded are those of the set. -/
theorem mem_decodedElements_encodings {e : BitVector} :
    e ∈ decodedElements s solver solver.encodings ↔ e ∈ s.elements :=
  ⟨mem_elements_of_mem_decodedElements hzero,
    fun he => mem_decodedElements.mpr (exists_decoded_eq_ok h hzero he)⟩

theorem decodesEachOnce : DecodesEachOnce s solver := by
  have helements : (decodedElements s solver solver.encodings).Perm s.distinct := by
    apply (List.perm_ext_iff_of_nodup (nodup_decodedElements h hzero) s.nodup_distinct).mpr
    intro e
    rw [mem_decodedElements_encodings h hzero, SetSpec.mem_distinct]
  constructor
  case labels => exact labels_solver h
  case length_encodings =>
    rw [h.length_encodings, h.labels_eq]
  case ascending => exact solver.pairwise_encodings
  case count => rw [length_accepted, helements.length_eq, s.length_distinct]
  case elements => exact helements
  case once =>
    intro e he
    obtain ⟨n, hn, hdecoded⟩ := exists_decoded_eq_ok h hzero he
    refine ⟨n, ⟨hn, hdecoded⟩, ?_⟩
    rintro n' ⟨hn', hdecoded'⟩
    exact decoded_inj h hzero hn' hn hdecoded' hdecoded
  case only => exact fun x e hdecode => (Decoder.values_of_decode hzero hdecode).1

end prepared

/-- **Each element is decoded once.** A set that contains zero is embedded for every penalty that is
positive and finite. If the cap admits the variables of the model, then the solver looks at all
their assignments, as many decode as there are distinct elements, and they do so to those elements,
each from one assignment. -/
theorem elements_decoded_once {embedding : EmbeddingConfig S} (hzero : s.containsZero = true)
    (hvalid : Scalar.isFinite embedding.basePenalty = true ∧ 0 < embedding.basePenalty) :
    ∃ m, embed embedding s = .ok m ∧
      ∀ config : SolverConfig S, m.labels.length ≤ config.cap →
        ∃ solver, Solver.prepare m config = .ok solver ∧ DecodesEachOnce s solver := by
  refine ⟨_, embed_of_accepted embedding hzero hvalid, ?_⟩
  intro config hcap
  obtain ⟨solver, hprepare⟩ := Solver.exists_prepare_eq_ok hcap
  exact ⟨solver, hprepare, decodesEachOnce (Solver.prepares_of_prepare hprepare) hzero⟩

/-- Of the sixty-four assignments for the truth table of exclusive or, four decode. -/
theorem exclusiveOr_decoded_once :
    SetSpec.exclusiveOr.containsZero = true ∧
      ∃ m solver, embed (⟨10⟩ : EmbeddingConfig Rat) SetSpec.exclusiveOr = .ok m ∧
        Solver.prepare m ⟨16, 0, 0, false⟩ = .ok solver ∧
        solver.encodings.length = 64 ∧ (accepted SetSpec.exclusiveOr solver).length = 4 ∧
        (decodedElements SetSpec.exclusiveOr solver solver.encodings).Perm
          SetSpec.exclusiveOr.elements := by
  have hzero : SetSpec.exclusiveOr.containsZero = true := by decide
  have hvalid : Scalar.isFinite (10 : Rat) = true ∧ (0 : Rat) < 10 := ⟨rfl, by norm_num⟩
  obtain ⟨m, hembed, hsolved⟩ :=
    @elements_decoded_once SetSpec.exclusiveOr Rat _ ⟨10⟩ hzero hvalid
  obtain ⟨-, -, rfl⟩ := of_embed_eq_ok hembed
  have hlabels := labels_modelOf SetSpec.exclusiveOr.width_le (10 : Rat)
    SetSpec.exclusiveOr.nodup_nonzero
  obtain ⟨solver, hprepare, honce⟩ := hsolved ⟨16, 0, 0, false⟩ (by rw [hlabels]; decide)
  refine ⟨hzero, _, solver, hembed, hprepare, ?_, ?_, ?_⟩
  · rw [honce.length_encodings, honce.labels]
    decide
  · rw [honce.count]
    decide
  · exact honce.elements.trans (by decide)

end Embedding

end SetQubo
