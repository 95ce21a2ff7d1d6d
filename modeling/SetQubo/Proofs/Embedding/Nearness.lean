import SetQubo.Proofs.Embedding.Coefficients
import SetQubo.Proofs.Model.Labels
import SetQubo.Proofs.Table.Similar
/-!
# Embedded sets in doubles and in exact arithmetic

The model of a set in doubles is built by the same steps as the exact one, so both have the same
terms in the same order. Step by step the coefficients stay near each other; with at most sixteen
variables there are at most 256 steps. Therefore every energy in doubles is within a quarter of a
millionth of the penalty of the exact one.
-/

namespace SetQubo

namespace Embedding

open Double Variable

/-- After `j` steps the two models have the same terms, at most `j`, and near coefficients. A
coefficient grows by at most 32 penalties a step. -/
structure Near (p : Rat) (j : ℕ) (m : Model Variable Float) (m' : Model Variable Rat) : Prop where
  /-- The coefficients of single variables are near. -/
  linear : m.linear.Similar (Approximates p (32 * j) j) m'.linear
  /-- The coefficients of pairs are near. -/
  quadratic : m.quadratic.Similar (Approximates p (32 * j) j) m'.quadratic
  /-- There is at most one term for each step. -/
  size_le : m.linear.size + m.quadratic.size ≤ j

namespace Near

variable {p : Rat} {j : ℕ} {m : Model Variable Float} {m' : Model Variable Rat} {c : Float}
  {c' : Rat}

theorem empty : Near p j .empty .empty :=
  ⟨Table.similar_empty, Table.similar_empty, Nat.zero_le _⟩

section steps
variable (hp : 0 ≤ p) (hlarge : 2 ^ 24 * p ≤ limit)
include hp

theorem mono (h : Near p j m m') {j' : ℕ} (hj : j ≤ j') : Near p j' m m' := by
  have himp : ∀ a q, Approximates p (32 * j) j a q → Approximates p (32 * j') j' a q :=
    fun a q ha => ha.mono hp (by omega) hj
  exact ⟨h.linear.imp himp, h.quadratic.imp himp, h.size_le.trans hj⟩

/-- What one step does to a coefficient, or brings in as a new one. -/
theorem step_coefficient (hj : 2 ≤ j) (hc : Approximates p 32 2 c c') :
    (∀ a q, Approximates p (32 * j) j a q → Approximates p (32 * (j + 1)) (j + 1) a q) ∧
      Approximates p (32 * (j + 1)) (j + 1) c c' :=
  ⟨fun _ _ ha => ha.mono hp (by omega) (by omega), hc.mono hp (by omega) (by omega)⟩

include hlarge

theorem add_coefficient (hj : 2 ≤ j) (hj' : j < 1000) (hc : Approximates p 32 2 c c') (a : Float)
    (q : Rat) (ha : Approximates p (32 * j) j a q) :
    Approximates p (32 * (j + 1)) (j + 1) (a + c) (q + c') :=
  ha.add hc hp hlarge (by omega) hj (by omega)

theorem addLinear (h : Near p j m m') (hj : 2 ≤ j) (hj' : j < 1000)
    (hc : Approximates p 32 2 c c') (v : Variable) :
    Near p (j + 1) (m.addLinear v c) (m'.addLinear v c') := by
  obtain ⟨himp, hnew⟩ := step_coefficient hp hj hc
  have hsize := Table.size_upsert_le m.linear v (· + c) c
  refine ⟨h.linear.upsert himp v (add_coefficient hp hlarge hj hj' hc) hnew,
    h.quadratic.imp himp, ?_⟩
  have hle := h.size_le
  show (m.linear.upsert v (· + c) c).size + m.quadratic.size ≤ j + 1
  omega

theorem addQuadratic (h : Near p j m m') (hj : 2 ≤ j) (hj' : j < 1000)
    (hc : Approximates p 32 2 c c') (a b : Variable) :
    Near p (j + 1) (m.addQuadratic a b c) (m'.addQuadratic a b c') := by
  obtain ⟨himp, hnew⟩ := step_coefficient hp hj hc
  have hsize := Table.size_upsert_le m.quadratic ⟨a, b⟩ (· + c) c
  refine ⟨h.linear.imp himp,
    h.quadratic.upsert himp ⟨a, b⟩ (add_coefficient hp hlarge hj hj' hc) hnew, ?_⟩
  have hle := h.size_le
  show m.linear.size + (m.quadratic.upsert ⟨a, b⟩ (· + c) c).size ≤ j + 1
  omega

omit hlarge in
theorem setQuadratic (h : Near p j m m') (hj : 2 ≤ j) (hc : Approximates p 32 2 c c')
    (a b : Variable) : Near p (j + 1) (m.setQuadratic a b c) (m'.setQuadratic a b c') := by
  obtain ⟨himp, hnew⟩ := step_coefficient hp hj hc
  have hsize := Table.size_upsert_le m.quadratic ⟨a, b⟩ (fun _ => c) c
  refine ⟨h.linear.imp himp, h.quadratic.upsert himp ⟨a, b⟩ (fun _ _ _ => hnew) hnew, ?_⟩
  have hle := h.size_le
  show m.linear.size + (m.quadratic.upsert ⟨a, b⟩ (fun _ => c) c).size ≤ j + 1
  omega

end steps

/-- Steps that are taken one after the other, each of them worth `d` single ones. -/
theorem foldl {α : Type} (step : Model Variable Float → α → Model Variable Float)
    (step' : Model Variable Rat → α → Model Variable Rat) {d : ℕ} (as : List α)
    (hstep : ∀ a ∈ as, ∀ j m m', 2 ≤ j → j + d ≤ 1000 → Near p j m m' →
      Near p (j + d) (step m a) (step' m' a))
    (h : Near p j m m') (hj : 2 ≤ j) (hj' : j + as.length * d ≤ 1000) :
    Near p (j + as.length * d) (as.foldl step m) (as.foldl step' m') := by
  induction as generalizing j m m' with
  | nil => simpa using h
  | cons a as ih =>
    have hcount : j + (a :: as).length * d = j + d + as.length * d := by
      rw [List.length_cons]
      ring
    rw [hcount] at hj' ⊢
    exact ih (fun b hb => hstep b (List.mem_cons_of_mem _ hb))
      (hstep a List.mem_cons_self j m m' hj (by omega) h) (by omega) hj'

end Near

/-! ## The model of a set -/

section model
variable {penalty : Float} (h : Moderate penalty) {width j : ℕ} {m : Model Variable Float}
  {m' : Model Variable Rat}
include h

theorem near_addBits (hm : Near (value penalty) j m m') (hj : 2 ≤ j) (hj' : j + width ≤ 1000) :
    Near (value penalty) (j + width) (addBits penalty width m)
      (addBits (value penalty) width m') := by
  have hp := h.pos.le
  have hbits := Near.foldl (d := 1) (fun m i => m.addLinear (bitAt i) penalty)
    (fun m i => m.addLinear (bitAt i) (value penalty)) (List.range width)
    (fun i _ j m m' hj hj' hm => hm.addLinear hp h.high hj (by omega)
      (h.approximates.mono hp (by omega) (by omega)) _) hm hj (by simpa using hj')
  rw [List.length_range, mul_one] at hbits
  exact hbits

variable (hwidth : 0 < width) (hwidth' : width ≤ 16) {x : BitVector} (hpos : 0 < x.onesCount)
  (hones : x.onesCount ≤ width)
include hwidth hwidth' hpos hones

theorem approximates_bitTerm (i : ℕ) :
    Approximates (value penalty) 32 2
      (if x.isSet i then -reward penalty x else deterrent penalty width x)
      (if x.isSet i then -reward (value penalty) x else deterrent (value penalty) width x) := by
  have hp := h.pos.le
  split
  · exact (h.approximates_reward hpos (by omega)).neg.mono hp (by omega) le_rfl
  · exact (h.approximates_deterrent hpos (by omega) hwidth (by omega)).mono hp (by omega) le_rfl

theorem near_setBitTerms (hm : Near (value penalty) j m m') (hj : 2 ≤ j) (hj' : j + width ≤ 1000) :
    Near (value penalty) (j + width) (setBitTerms penalty width x m)
      (setBitTerms (value penalty) width x m') := by
  have hterms := Near.foldl (d := 1)
    (fun m i => m.setQuadratic (bitAt i) (indicator x)
      (if x.isSet i then -reward penalty x else deterrent penalty width x))
    (fun m i => m.setQuadratic (bitAt i) (indicator x)
      (if x.isSet i then -reward (value penalty) x else deterrent (value penalty) width x))
    (List.range width)
    (fun i _ j m m' hj _ hm => hm.setQuadratic h.pos.le hj
      (approximates_bitTerm h hwidth hwidth' hpos hones i) _ _) hm hj (by simpa using hj')
  rw [List.length_range, mul_one] at hterms
  exact hterms

theorem near_addGuards (hm : Near (value penalty) j m m') (hj : 2 ≤ j)
    (elements : List BitVector) (hj' : j + elements.length ≤ 1000) :
    Near (value penalty) (j + elements.length) (addGuards penalty width elements x m)
      (addGuards (value penalty) width elements x m') := by
  have hp := h.pos.le
  have hdeterrent : Approximates (value penalty) 32 2 (deterrent penalty width x)
      (deterrent (value penalty) width x) :=
    (h.approximates_deterrent hpos (by omega) hwidth (by omega)).mono hp (by omega) le_rfl
  have hguards := Near.foldl (d := 1)
    (fun m y => if y = x || x.covers y then m
      else m.addQuadratic (indicator x) (indicator y) (deterrent penalty width x))
    (fun m y => if y = x || x.covers y then m
      else m.addQuadratic (indicator x) (indicator y) (deterrent (value penalty) width x))
    elements
    (fun y _ j m m' hj hj' hm => by
      split
      · exact hm.mono hp (by omega)
      · exact hm.addQuadratic hp h.high hj (by omega) hdeterrent _ _) hm hj (by simpa using hj')
  rw [mul_one] at hguards
  exact hguards

theorem near_addIndicator (hm : Near (value penalty) j m m') (hj : 2 ≤ j)
    (elements : List BitVector) (hj' : j + (1 + width + elements.length) ≤ 1000) :
    Near (value penalty) (j + (1 + width + elements.length))
      (addIndicator penalty width elements m x)
      (addIndicator (value penalty) width elements m' x) := by
  have hp := h.pos.le
  have hlinear := hm.addLinear hp h.high hj (by omega)
    (h.approximates.mono hp (by omega) (by omega)) (indicator x)
  have hterms := near_setBitTerms h hwidth hwidth' hpos hones hlinear (by omega) (by omega)
  have hguards := near_addGuards h hwidth hwidth' hpos hones hterms (by omega) elements (by omega)
  have hcount : j + 1 + width + elements.length = j + (1 + width + elements.length) := by ring
  rw [hcount] at hguards
  exact hguards

end model

/-- A set with at most sixteen bits and indicators takes at most 256 steps. -/
theorem steps_le {width k : ℕ} (hwidth : 0 < width) (hcap : width + k ≤ 16) :
    width + k * (1 + width + k) ≤ 256 := by
  have hk : k ≤ 15 := by omega
  calc width + k * (1 + width + k) ≤ width + k * 17 := by gcongr; omega
    _ ≤ 256 := by omega

theorem near_modelOf {penalty : Float} (h : Moderate penalty) {s : SetSpec}
    (hcap : s.width + s.nonzero.length ≤ 16) :
    Near (value penalty) 258 (modelOf penalty s.width s.nonzero)
      (modelOf (value penalty) s.width s.nonzero) := by
  have hsteps := steps_le s.width_pos hcap
  have hbits : Near (value penalty) (2 + s.width) (addBits penalty s.width .empty)
      (addBits (value penalty) s.width .empty) :=
    near_addBits h Near.empty le_rfl (by omega)
  have helements := Near.foldl (d := 1 + s.width + s.nonzero.length)
    (addIndicator penalty s.width s.nonzero) (addIndicator (value penalty) s.width s.nonzero)
    s.nonzero
    (fun x hx j m m' hj hj' hm => by
      have hpos := SetSpec.onesCount_pos_of_mem_nonzero hx
      have hones := BitVector.onesCount_le_width x
      rw [SetSpec.width_of_mem_nonzero hx] at hones
      exact near_addIndicator h s.width_pos (by omega) hpos hones hm hj s.nonzero hj')
    hbits (by omega) (by omega)
  exact helements.mono h.pos.le (by omega)

/-- No coefficient overflows. -/
theorem Moderate.finiteCoefficients {penalty : Float} (h : Moderate penalty) {s : SetSpec}
    (hcap : s.width + s.nonzero.length ≤ 16) :
    (modelOf penalty s.width s.nonzero).FiniteCoefficients := by
  have hnear := near_modelOf h hcap
  exact ⟨hnear.linear.forall_coefficient fun _ _ ha => ha.isFinite,
    hnear.quadratic.forall_coefficient fun _ _ ha => ha.isFinite⟩

/-! ## Energies -/

/-- Energies add up at most 258 coefficients of at most 8256 penalties each. -/
theorem Near.energy {p : Rat} {m : Model Variable Float} {m' : Model Variable Rat}
    (h : Near p 258 m m') (hp : 0 ≤ p) (hlarge : 2 ^ 24 * p ≤ limit) (x : Valuation Variable) :
    Approximates p (258 * 8256) 516 (m.energy x) (m'.energy x) := by
  have hsize := h.size_le
  have hlinear := Approximates.foldl (fun v => decide (x v = 1)) h.linear.entries
    (Approximates.zero (n := 258)) hp hlarge
    (by show 0 + m.linear.size * (32 * 258) ≤ _; omega) le_rfl
    (by show 258 + m.linear.size ≤ _; omega)
  have henergy := Approximates.foldl (fun q : Pair Variable => q.isOn x) h.quadratic.entries
    hlinear hp hlarge
    (by show 0 + m.linear.size * (32 * 258) + m.quadratic.size * (32 * 258) ≤ _; omega) (by omega)
    (by show 258 + m.linear.size + m.quadratic.size ≤ _; omega)
  rw [Model.energy_eq_foldl, Model.energy_eq_foldl]
  simp only [decide_eq_true_iff] at henergy
  apply henergy.mono hp
  · show 0 + m.linear.size * (32 * 258) + m.quadratic.size * (32 * 258) ≤ _
    omega
  · show 258 + m.linear.size + m.quadratic.size ≤ _
    omega

/-- **Energies in doubles are near the exact ones.** -/
theorem Moderate.abs_energy_sub_le {penalty : Float} (h : Moderate penalty) {s : SetSpec}
    (hcap : s.width + s.nonzero.length ≤ 16) (x : Valuation Variable) :
    ((modelOf penalty s.width s.nonzero).energy x).isFinite = true ∧
      |value ((modelOf penalty s.width s.nonzero).energy x) -
        (modelOf (value penalty) s.width s.nonzero).energy x| ≤ value penalty / 4000000 := by
  have henergy := (near_modelOf h hcap).energy h.pos.le h.high x
  refine ⟨henergy.isFinite, henergy.error.trans ?_⟩
  have hp := h.pos
  push_cast
  linarith

end Embedding

end SetQubo
