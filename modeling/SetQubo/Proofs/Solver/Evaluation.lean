import SetQubo.Proofs.Solver.Search
import SetQubo.Proofs.Table.Rebuild
/-!
# Two ways to evaluate

An energy is computed either from a valuation, looking up each label, or from the binary digits of
an encoding. The two agree on every encoding, where digits beyond the variables do not count, and on
every valuation, which has exactly one encoding. Nothing is asked of the arithmetic: both add up the
same coefficients in the same order.
-/

namespace SetQubo

namespace Solver

variable {V S : Type} [Label V] {m : Model V S} {config : SolverConfig S} {s : Solver V S}

/-- The encoding without the digits that belong to no variable. -/
def reduced (s : Solver V S) (n : UInt64) : UInt64 := UInt64.ofNat (n.toNat % 2 ^ s.labels.length)

theorem toNat_reduced (s : Solver V S) (n : UInt64) :
    (s.reduced n).toNat = n.toNat % 2 ^ s.labels.length :=
  UInt64.toNat_ofNat_of_lt' (Nat.lt_of_le_of_lt (Nat.mod_le _ _) n.toNat_lt)

namespace Prepares

variable (h : Prepares m config s)
include h

/-- Digits beyond the variables do not show in the value of a label. -/
theorem value_reduced (n : UInt64) {v : V} (hv : v ∈ m.labels) :
    (s.assignment (s.reduced n)).value v = (s.assignment n).value v := by
  obtain ⟨i, -, hlt, hvalue⟩ := h.exists_value_eq_digit hv
  have hdigit : s.numbering.size - 1 - i < s.numbering.size := by omega
  rw [hvalue, hvalue, toNat_reduced, s.length_labels, Nat.testBit_mod_two_pow,
    decide_eq_true hdigit, Bool.true_and]

/-- Two encodings without digits beyond the variables, with the same labels on, are the same. -/
theorem eq_of_value_eq_one_iff {n n' : UInt64} (hn : n ∈ s.encodings) (hn' : n' ∈ s.encodings)
    (hon : ∀ v ∈ m.labels, (s.assignment n).value v = 1 ↔ (s.assignment n').value v = 1) :
    n = n' :=
  h.encoding_inj hn hn' fun v hv => eq_of_binary (Assignment.value_eq_zero_or_one _ v)
    (Assignment.value_eq_zero_or_one _ v) (hon v hv)

end Prepares

/-- **Both ways to evaluate agree.** An energy of either kind is the sum from the left of its
summands. An encoding has the summands, and so the energy, of the assignment that has the encoding
modulo two to the number of variables. And every valuation has exactly one encoding below that, in
which the variables that it has at 1 are on and the others off, and the energy of that encoding. -/
theorem evaluations_agree [Scalar S] (hprepare : prepare m config = .ok s) :
    ((∀ n : UInt64, s.energy n = (s.summands n).foldl (· + ·) 0) ∧
      ∀ x : Valuation V, m.energy x = (m.summands x).foldl (· + ·) 0) ∧
    (∀ n : UInt64, (s.reduced n).toNat = n.toNat % 2 ^ s.labels.length ∧
      s.summands n = m.summands (s.assignment (s.reduced n)).value ∧
      s.energy n = m.energy (s.assignment (s.reduced n)).value) ∧
    ∀ x : Valuation V, ∃ n : UInt64,
      (n.toNat < 2 ^ s.labels.length ∧ ∀ v ∈ s.labels, (s.assignment n).value v = 1 ↔ x v = 1) ∧
      (∀ n' : UInt64, n'.toNat < 2 ^ s.labels.length →
        (∀ v ∈ s.labels, (s.assignment n').value v = 1 ↔ x v = 1) → n' = n) ∧
      m.energy x = s.energy n := by
  have h := prepares_of_prepare hprepare
  refine ⟨⟨s.energy_eq_foldl_summands, m.energy_eq_foldl_summands⟩, ?_, ?_⟩
  · intro n
    have hsummands : s.summands n = m.summands (s.assignment (s.reduced n)).value := by
      rw [h.summands_eq]
      apply Model.summands_congr
      intro v hv
      rw [h.value_reduced n hv]
    refine ⟨s.toNat_reduced n, hsummands, ?_⟩
    rw [energy_eq_foldl_summands, hsummands, ← Model.energy_eq_foldl_summands]
  · intro x
    have hmem := h.encodingOf_mem x
    have hon : ∀ v ∈ s.labels, (s.assignment (s.encodingOf x)).value v = 1 ↔ x v = 1 := by
      rw [h.labels_eq]
      exact fun v hv => h.value_encodingOf_eq_one_iff x hv
    rw [s.length_labels]
    refine ⟨s.encodingOf x, ⟨h.mem_encodings.mp hmem, hon⟩, ?_, (h.energy_encodingOf x).symm⟩
    intro n' hn' hon'
    rw [h.labels_eq] at hon hon'
    exact h.eq_of_value_eq_one_iff (h.mem_encodings.mpr hn') hmem fun v hv =>
      (hon' v hv).trans (hon v hv).symm

/-- A label that is seen first in a pair, and paired with itself. -/
def selfPaired : Model String Rat :=
  .ofTerms [("a", 1)] [(⟨"b", "b"⟩, 2), (⟨"b", "a"⟩, -4)]

/-- Of the digits of seven the leading one belongs to no variable, and the others are those of both
labels on; a value of two hundred is off. -/
theorem selfPaired_evaluations_agree :
    ∃ s, prepare selfPaired (⟨16, 0, 0, false⟩ : SolverConfig Rat) = .ok s ∧
      s.labels = ["a", "b"] ∧
      ((s.reduced 7).toNat = 3 ∧
        s.energy 7 = selfPaired.energy (s.assignment (s.reduced 7)).value) ∧
      ∃ n : UInt64, ((s.assignment n).value "a" ≠ 1 ∧ (s.assignment n).value "b" = 1) ∧
        selfPaired.energy (fun v => if v = "b" then 1 else 200) = s.energy n := by
  have hlinear : selfPaired.linear.toList = [("a", 1)] := Table.toList_ofList (by simp)
  have hquadratic : selfPaired.quadratic.toList = [(⟨"b", "b"⟩, 2), (⟨"b", "a"⟩, -4)] :=
    Table.toList_ofList (by decide)
  have hlabels : selfPaired.labels = ["a", "b"] := by
    simp only [Model.labels, Model.occurrences, Table.keys, hlinear, hquadratic]
    decide
  obtain ⟨s, hprepare⟩ : ∃ s, prepare selfPaired (⟨16, 0, 0, false⟩ : SolverConfig Rat) = .ok s :=
    exists_prepare_eq_ok (by rw [hlabels]; decide)
  have hsame : s.labels = ["a", "b"] := (prepares_of_prepare hprepare).labels_eq.trans hlabels
  obtain ⟨-, hencodings, hvaluations⟩ := evaluations_agree hprepare
  obtain ⟨hreduced, -, henergy⟩ := hencodings 7
  obtain ⟨n, ⟨-, hon⟩, -, henergy'⟩ := hvaluations fun v => if v = "b" then 1 else 200
  rw [hsame] at hreduced hon
  refine ⟨s, hprepare, hsame, ⟨hreduced, henergy⟩, n, ⟨?_, ?_⟩, henergy'⟩
  · rw [ne_eq, hon "a" (by simp)]
    decide
  · rw [hon "b" (by simp)]
    decide

end Solver

end SetQubo
