import SetQubo.Proofs.Model.Renaming
import SetQubo.Proofs.Solver.Search
/-!
# Solving a renamed model

The search does not look at labels. All it has of a model is how many variables there are, and the
digits and the coefficient of each term. Those come from the order in which the labels are first
seen, and that order is the same under other names, as long as different labels get different
names. So whatever a run does on the one model, it does on the other.
-/

namespace SetQubo

variable {V W S : Type} [Label V] [Label W] {f : V → W}

/-! ## Numbers -/

/-- A name has the digit of its label. -/
theorem Numbering.maskOf_map {n : Numbering V} {n' : Numbering W} (h : n.Consistent)
    (h' : n'.Consistent) (hlabels : n'.labels.toList = n.labels.toList.map f) {v : V}
    (hv : v ∈ n.labels.toList) : n'.maskOf (f v) = n.maskOf v := by
  have hsize : n'.size = n.size := by
    unfold size
    rw [← Array.length_toList, hlabels, List.length_map, Array.length_toList]
  cases hi : n.indexOf? v with
  | none => exact absurd hv ((h.indexOf?_eq_none_iff v).mp hi)
  | some i =>
    have hplace : n.labels[i]? = some v := (h v i).mp hi
    have hname : n'.indexOf? (f v) = some i := by
      apply (h' (f v) i).mpr
      show n'.labels[i]? = some (f v)
      rw [← Array.getElem?_toList, hlabels, List.getElem?_map, Array.getElem?_toList, hplace,
        Option.map_some]
    unfold maskOf mask
    rw [hname, hi, hsize]

namespace Solver

/-! ## What a run depends on -/

/-- Two solvers have the same settings, the same number of variables and the same digits and
coefficients, whatever the variables are called. -/
structure Copies (s' : Solver W S) (s : Solver V S) : Prop where
  /-- The settings are the same. -/
  config_eq : s'.config = s.config
  /-- There are as many variables. -/
  size_eq : s'.numbering.size = s.numbering.size
  /-- The linear terms have the same digits and coefficients, in the same order. -/
  linear_eq : s'.linear = s.linear
  /-- The quadratic terms have the same digits and coefficients, in the same order. -/
  quadratic_eq : s'.quadratic = s.quadratic

namespace Copies

variable {s' : Solver W S} {s : Solver V S} (h : Copies s' s)
include h

theorem values_eq (n : UInt64) : (s'.assignment n).values = (s.assignment n).values := by
  have hvalue : (s'.assignment n).valueAt = (s.assignment n).valueAt := by
    funext i
    unfold Assignment.valueAt Numbering.mask assignment
    rw [h.size_eq]
  unfold Assignment.values
  rw [hvalue]
  unfold assignment
  rw [h.size_eq]

theorem summands_eq (n : UInt64) : s'.summands n = s.summands n := by
  unfold summands
  rw [h.linear_eq, h.quadratic_eq]

variable [Scalar S]

/-- Every run gives the same result. -/
theorem solveBy_eq (first second : List S → Option S) (collect : List UInt64 → List UInt64) :
    s'.solveBy first second collect = s.solveBy first second collect := by
  have hcount : s'.assignmentCount = s.assignmentCount := by
    unfold assignmentCount
    rw [h.size_eq]
  have henergy : s'.energy = s.energy := by
    funext n
    rw [energy_eq_foldl_summands, h.summands_eq, ← energy_eq_foldl_summands]
  have hlevels : s'.levels = s.levels := by
    unfold levels encodings
    rw [hcount, henergy]
  have hvalues : (fun n => (s'.assignment n).values) = fun n => (s.assignment n).values :=
    funext h.values_eq
  unfold solveBy
  rw [hlevels, hcount, h.config_eq, hvalues]

theorem solve_eq : s'.solve = s.solve := by
  unfold solve solveScheduled
  rw [h.config_eq]
  split
  · exact h.solveBy_eq _ _ _
  · exact h.solveBy_eq _ _ _

end Copies

/-! ## Preparing under other names -/

variable {m : Model V S} {m' : Model W S} {config : SolverConfig S} {s : Solver V S}
  {s' : Solver W S}

/-- What a model under other names is prepared as copies what the model is prepared as. -/
theorem Prepares.copies (h : Prepares m config s) (h' : Prepares m' config s')
    (hrenamed : m.Renamed f m') : Copies s' s := by
  have hlabels : s'.labels = s.labels.map f := by
    rw [h'.labels_eq, hrenamed.labels_eq, h.labels_eq]
  have hmask : ∀ v ∈ m.labels, s'.numbering.maskOf (f v) = s.numbering.maskOf v := by
    intro v hv
    rw [← h.labels_eq] at hv
    exact Numbering.maskOf_map h.consistent h'.consistent hlabels hv
  constructor
  case config_eq => rw [h'.config_eq, h.config_eq]
  case size_eq => rw [← s'.length_labels, hlabels, List.length_map, s.length_labels]
  case linear_eq =>
    rw [h'.linear_eq, hrenamed.linear, List.map_map, h.linear_eq]
    apply List.map_congr_left
    intro t ht
    exact congrArg (·, t.2) (hmask t.1 (Model.mem_labels_of_linear ht))
  case quadratic_eq =>
    rw [h'.quadratic_eq, hrenamed.quadratic, List.map_map, h.quadratic_eq]
    apply List.map_congr_left
    intro t ht
    obtain ⟨hfirst, hsecond⟩ := Model.mem_labels_of_quadratic ht
    show (s'.numbering.maskOf (f t.1.first) ||| s'.numbering.maskOf (f t.1.second), t.2) = _
    rw [hmask _ hfirst, hmask _ hsecond]

/-! ## Solving under other names -/

/-- The second model is solved as the first one is, with its labels renamed. -/
structure SolvedAlike [Scalar S] (f : V → W) (m : Model V S) (m' : Model W S) : Prop where
  /-- One is refused exactly when the other is, and for the same reason. -/
  refused (config : SolverConfig S) (e : SolverError) :
    prepare m' config = .error e ↔ prepare m config = .error e
  /-- If one is accepted then so is the other. Its variables are the names of the variables, in the
  same order, every energy adds up the same coefficients in the same order, and the result is the
  same. -/
  accepted (config : SolverConfig S) (s : Solver V S) (h : prepare m config = .ok s) :
    ∃ s', prepare m' config = .ok s' ∧ s'.labels = m.labels.map f ∧
      (∀ n, s'.summands n = s.summands n) ∧ s'.solve = s.solve

/-- **A model is solved alike under other names.** -/
theorem solvedAlike_of_renamed [Scalar S] (h : m.Renamed f m') : SolvedAlike f m m' := by
  have hlength : m'.labels.length = m.labels.length := by rw [h.labels_eq, List.length_map]
  constructor
  case refused =>
    intro config e
    rw [prepare_eq_error_iff, prepare_eq_error_iff, hlength]
  case accepted =>
    intro config s hprepare
    have hs := prepares_of_prepare hprepare
    have hcap : m'.labels.length ≤ config.cap := by
      rw [hlength, ← hs.labels_eq, s.length_labels]
      exact hs.size_le_cap
    obtain ⟨s', hprepare'⟩ := exists_prepare_eq_ok hcap
    have hs' := prepares_of_prepare hprepare'
    have hcopies := hs.copies hs' h
    exact ⟨s', hprepare', hs'.labels_eq.trans h.labels_eq, hcopies.summands_eq, hcopies.solve_eq⟩

end Solver

end SetQubo
