import Mathlib
import SetQubo.Proofs.Model.SameTerms
import SetQubo.Proofs.Solver.Optimum
import SetQubo.Proofs.Solver.Renaming
/-!
# Solving a model with its terms in another order

The variables of a model are numbered in the order in which they are first seen. If its terms come
in another order, or its pairs are written the other way round, then the variables get other
numbers: every bit mask changes, the assignments are looked at in another order, and every energy
is added up in another order. In exact arithmetic the solver still finds the same. Its levels are
the same, and its solutions are the same assignments, with their values rearranged as the variables
are.
-/

namespace SetQubo

namespace Solver

variable {V : Type} [Label V]

/-! ## Rows of values -/

/-- The row of some labels, taken from the row of others; a label that has no value there is off. -/
def rearrange (vs ws : List V) (row : List UInt8) : List UInt8 :=
  ws.map fun v => row.getD (vs.idxOf v) 0

/-- Rearranging the row of a valuation gives its row for the other labels. -/
theorem rearrange_map {vs ws : List V} (h : ∀ v ∈ ws, v ∈ vs) (x : Valuation V) :
    rearrange vs ws (vs.map x) = ws.map x := by
  unfold rearrange
  apply List.map_congr_left
  intro v hv
  have hlt : vs.idxOf v < vs.length := List.idxOf_lt_length_iff.mpr (h v hv)
  rw [List.getD_eq_getElem?_getD, List.getElem?_map, List.getElem?_eq_getElem hlt,
    List.getElem_idxOf]
  rfl

example : rearrange ["a", "b", "c"] ["c", "a", "b"] [1, 0, 0] = [0, 1, 0] := by decide

/-! ## Results -/

/-- Two results are the same, up to the order of the variables: those of the one are `vs`, those of
the other `vs'`. -/
structure SameUpToOrder (vs vs' : List V) (r r' : SolveResult Rat) : Prop where
  /-- The variables of the one are a rearrangement of those of the other. -/
  labels : vs'.Perm vs
  /-- The best energy is the same. -/
  best : r'.best = r.best
  /-- The second energy is the same. -/
  secondBest : r'.secondBest = r.secondBest
  /-- The gap is the same. -/
  gap : r'.gap = r.gap
  /-- As many assignments were looked at. -/
  evaluated : r'.evaluated = r.evaluated
  /-- The solutions of the one are those of the other, rearranged as the variables are. -/
  solutions : r'.solutions.Perm (r.solutions.map (rearrange vs vs'))

variable {m m' : Model V Rat} {config : SolverConfig Rat} {s s' : Solver V Rat}

/-- No solution comes twice. -/
theorem Prepares.nodup_solutions_solve (h : Prepares m config s) : s.solve.solutions.Nodup := by
  apply h.pairwise_solutions_solve.imp
  rintro row _ hlt rfl
  exact List.lt_irrefl row hlt

/-- Solutions that are the same when rearranged are the same. -/
theorem Prepares.rearrange_inj (h : Prepares m config s) {vs : List V}
    (hvs : ∀ v, v ∈ vs ↔ v ∈ m.labels) {row row' : List UInt8} (hrow : row ∈ s.solve.solutions)
    (hrow' : row' ∈ s.solve.solutions)
    (heq : rearrange m.labels vs row = rearrange m.labels vs row') : row = row' := by
  obtain ⟨x, -, rfl, -⟩ := h.mem_solutions_solve.mp hrow
  obtain ⟨y, -, rfl, -⟩ := h.mem_solutions_solve.mp hrow'
  rw [rearrange_map (fun v hv => (hvs v).mp hv), rearrange_map (fun v hv => (hvs v).mp hv)] at heq
  apply List.map_congr_left
  intro v hv
  exact List.map_inj_left.mp heq v ((hvs v).mpr hv)

section
variable (h : Prepares m config s) (h' : Prepares m' config s')
  (hlabels : ∀ v, v ∈ m'.labels ↔ v ∈ m.labels) (henergy : m'.energy = m.energy)
include h h' henergy

theorem Prepares.best_eq : s'.solve.best = s.solve.best := by
  have hleast := h'.best_isLeast
  rw [henergy] at hleast
  exact hleast.unique h.best_isLeast

theorem Prepares.secondBest_eq : s'.solve.secondBest = s.solve.secondBest := by
  have hcases := h'.secondBest_cases
  rw [henergy, h.best_eq h' henergy] at hcases
  rcases hcases with ⟨hall, hsecond'⟩ | hleast'
  · rcases h.secondBest_cases with ⟨-, hsecond⟩ | ⟨⟨x, hx, hfar⟩, -⟩
    · rw [hsecond', hsecond]
    · -- If every energy is close to the best, then there is no other level.
      rw [← hx, hall x] at hfar
      cases hfar
  · rcases h.secondBest_cases with ⟨hall, -⟩ | hleast
    · obtain ⟨⟨x, hx, hfar⟩, -⟩ := hleast'
      rw [← hx, hall x] at hfar
      cases hfar
    · exact hleast'.unique hleast

include hlabels

/-- A row is a solution exactly when it is a solution rearranged. -/
theorem Prepares.mem_solutions_iff (row : List UInt8) :
    row ∈ s'.solve.solutions ↔
      row ∈ s.solve.solutions.map (rearrange m.labels m'.labels) := by
  have hbinary : ∀ x, m'.IsBinary x ↔ m.IsBinary x := fun x => by
    simp only [Model.IsBinary, hlabels]
  have hrow : ∀ x : Valuation V,
      rearrange m.labels m'.labels (m.labels.map x) = m'.labels.map x :=
    rearrange_map fun v hv => (hlabels v).mp hv
  rw [h'.mem_solutions_solve, henergy, h.best_eq h' henergy, List.mem_map]
  constructor
  · intro hsolution
    obtain ⟨x, hx, rfl, hclose⟩ := hsolution
    exact ⟨m.labels.map x, h.mem_solutions_solve.mpr ⟨x, (hbinary x).mp hx, rfl, hclose⟩, hrow x⟩
  · intro hrearranged
    obtain ⟨row', hsolution, rfl⟩ := hrearranged
    obtain ⟨x, hx, rfl, hclose⟩ := h.mem_solutions_solve.mp hsolution
    exact ⟨x, (hbinary x).mpr hx, (hrow x).symm, hclose⟩

/-- Solvers of models with the same variables and the same energies find the same. -/
theorem Prepares.sameUpToOrder : SameUpToOrder s.labels s'.labels s.solve s'.solve := by
  have hperm : m'.labels.Perm m.labels :=
    (List.perm_ext_iff_of_nodup (nodup_eraseDups _) (nodup_eraseDups _)).mpr hlabels
  have hsecond := h.secondBest_eq h' henergy
  rw [h.labels_eq, h'.labels_eq]
  constructor
  case labels => exact hperm
  case best => exact h.best_eq h' henergy
  case secondBest => exact hsecond
  case gap => rw [gap_solve, gap_solve, hsecond, h.best_eq h' henergy]
  case evaluated =>
    apply UInt64.toNat_inj.mp
    rw [h'.toNat_evaluated_solve, h.toNat_evaluated_solve, hperm.length_eq]
  case solutions =>
    -- Neither list has a row twice, so it is enough that they have the same rows.
    apply (List.perm_ext_iff_of_nodup h'.nodup_solutions_solve _).mpr
      (h.mem_solutions_iff h' hlabels henergy)
    exact h.nodup_solutions_solve.map_on fun row hrow row' hrow' heq =>
      h.rearrange_inj hlabels hrow hrow' heq

end

/-- The second model is solved as the first one is, up to the order of the variables. -/
structure SolvedUpToOrder (m m' : Model V Rat) : Prop where
  /-- One is refused exactly when the other is, with the same number of variables found and
  allowed. -/
  refused (config : SolverConfig Rat) (e : SolverError) :
    prepare m' config = .error e ↔ prepare m config = .error e
  /-- If one is accepted then so is the other, and both find the same. -/
  accepted (config : SolverConfig Rat) (s : Solver V Rat) (h : prepare m config = .ok s) :
    ∃ s', prepare m' config = .ok s' ∧ SameUpToOrder s.labels s'.labels s.solve s'.solve

/-- **The order of the terms does not show.** Two models with the same variables and the same
coefficients are solved alike, whatever the order in which their terms came and whichever way their
pairs are written. Models that compare as equal are two such models, although their variables may
be numbered differently. -/
theorem order_does_not_show (hm : m.Consistent) (hm' : m'.Consistent) :
    (m.SameTerms m' → SolvedUpToOrder m m') ∧ ((m == m') = true → m.SameTerms m') := by
  constructor
  · intro h
    have hlength := h.labels_perm.length_eq
    constructor
    case refused =>
      intro config e
      rw [prepare_eq_error_iff, prepare_eq_error_iff, hlength]
    case accepted =>
      intro config s hprepare
      have hs := prepares_of_prepare hprepare
      have hcap : m'.labels.length ≤ config.cap := by
        rw [hlength, ← hs.labels_eq, s.length_labels]
        exact hs.size_le_cap
      obtain ⟨s', hprepare'⟩ := exists_prepare_eq_ok hcap
      exact ⟨s', hprepare', hs.sameUpToOrder (prepares_of_prepare hprepare') h.mem_labels_iff
        (h.energy_eq hm hm')⟩
  · exact Model.sameTerms_of_beq hm hm'

/-- Two variables that only occur in pairs. -/
def onlyPaired : Model String Rat := .ofTerms [] [(⟨"a", "b"⟩, -1), (⟨"b", "b"⟩, 2)]

/-- The same model with the first pair written the other way round. -/
def onlyPairedReversed : Model String Rat := .ofTerms [] [(⟨"b", "a"⟩, -1), (⟨"b", "b"⟩, 2)]

/-- The two models compare as equal, number their variables differently, and are solved alike. -/
theorem reversed_pair_does_not_show :
    (onlyPaired.Consistent ∧ onlyPairedReversed.Consistent) ∧
      (onlyPaired == onlyPairedReversed) = true ∧
      ∃ s s', prepare onlyPaired ⟨16, 0, 0, false⟩ = .ok s ∧
        prepare onlyPairedReversed ⟨16, 0, 0, false⟩ = .ok s' ∧
        s.labels = ["a", "b"] ∧ s'.labels = ["b", "a"] ∧
        SameUpToOrder ["a", "b"] ["b", "a"] s.solve s'.solve := by
  have hconsistent : onlyPaired.Consistent := Model.consistent_ofTerms _ _
  have hconsistent' : onlyPairedReversed.Consistent := Model.consistent_ofTerms _ _
  have hquadratic : onlyPaired.quadratic.toList = [(⟨"a", "b"⟩, -1), (⟨"b", "b"⟩, 2)] :=
    Table.toList_ofList (by decide)
  have hquadratic' : onlyPairedReversed.quadratic.toList =
      [(⟨"b", "a"⟩, -1), (⟨"b", "b"⟩, 2)] :=
    Table.toList_ofList (by decide)
  have hlabels : onlyPaired.labels = ["a", "b"] := by
    simp only [Model.labels, Model.occurrences, Table.keys, hquadratic]
    decide
  have hlabels' : onlyPairedReversed.labels = ["b", "a"] := by
    simp only [Model.labels, Model.occurrences, Table.keys, hquadratic']
    decide
  have hequal : (onlyPaired == onlyPairedReversed) = true := by
    apply Bool.and_eq_true_iff.mpr
    refine ⟨BEq.rfl (a := ([] : List (String × Rat))), ?_⟩
    show (onlyPaired.quadratic.toList == onlyPairedReversed.quadratic.toList) = true
    rw [hquadratic, hquadratic']
    decide
  obtain ⟨hsolved, hsame⟩ := order_does_not_show hconsistent hconsistent'
  obtain ⟨s, hprepare⟩ : ∃ s, prepare onlyPaired (⟨16, 0, 0, false⟩ : SolverConfig Rat) = .ok s :=
    exists_prepare_eq_ok (by rw [hlabels]; decide)
  obtain ⟨s', hprepare', hfound⟩ := (hsolved (hsame hequal)).accepted _ s hprepare
  have hs : s.labels = ["a", "b"] := (prepares_of_prepare hprepare).labels_eq.trans hlabels
  have hs' : s'.labels = ["b", "a"] := (prepares_of_prepare hprepare').labels_eq.trans hlabels'
  rw [hs, hs'] at hfound
  exact ⟨⟨hconsistent, hconsistent'⟩, hequal, s, s', hprepare, hprepare', hs, hs', hfound⟩

end Solver

end SetQubo
