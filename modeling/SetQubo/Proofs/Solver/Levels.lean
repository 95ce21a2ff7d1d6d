import Mathlib
import SetQubo.Proofs.Solver.Sharing
/-!
# The levels that a search finds

However a run is shared out, the solutions are the rows of the assignments close to the best
energy, in ascending order. If all energies compare, as they do in exact arithmetic, then the best
energy is the least one, and the second one is the least of those that are not close to it.
-/

namespace SetQubo

namespace Solver

variable {V S : Type} [Label V]

section runs
variable [Scalar S]

/-! ## Solutions -/

/-- The assignments whose energy is close to the best one, ascending. -/
def optimal (s : Solver V S) : List UInt64 := s.closeTo s.solve.best

variable {s : Solver V S}

theorem mem_optimal {n : UInt64} :
    n ∈ s.optimal ↔ n ∈ s.encodings ∧ s.config.isClose (s.energy n) s.solve.best = true :=
  List.mem_filter

theorem pairwise_optimal (s : Solver V S) : s.optimal.Pairwise (· < ·) :=
  s.pairwise_encodings.filter _

/-- **The solutions are the rows of the optimal assignments**, ascending. -/
theorem solutions_solve (s : Solver V S) :
    s.solve.solutions = s.optimal.map fun n => (s.assignment n).values := by
  unfold optimal solve solveScheduled
  split
  · -- A shared run brings together what it has gathered in any order.
    unfold solveShared
    rw [solutions_solveBy, mergeSort_gather]
    exact s.pairwise_encodings.filter _
  · exact solutions_solveBy s _ _ id

/-! ## The two levels -/

theorem gap_solve (s : Solver V S) : s.solve.gap = s.solve.secondBest - s.solve.best := by
  unfold solve solveScheduled solveShared solveInOrder solveBy
  split <;> rfl

/-- The energies that are not close to an energy, one for each assignment that has such. -/
def farFrom (s : Solver V S) (best : S) : List S :=
  (s.encodings.map s.energy).filter fun e => !s.config.isClose e best

theorem mem_farFrom {best e : S} : e ∈ s.farFrom best ↔
    ∃ n ∈ s.encodings, s.config.isClose (s.energy n) best = false ∧ s.energy n = e := by
  unfold farFrom
  rw [List.mem_filter, List.mem_map, Bool.not_eq_true']
  constructor
  · intro hlisted
    obtain ⟨⟨n, hn, rfl⟩, hfar⟩ := hlisted
    exact ⟨n, hn, hfar, rfl⟩
  · intro hother
    obtain ⟨n, hn, hfar, rfl⟩ := hother
    exact ⟨⟨n, hn, rfl⟩, hfar⟩

end runs

/-- Only where there is nothing to reduce is there no result. -/
theorem reduceLeft?_eq_none_iff {op : S → S → S} {es : List S} :
    reduceLeft? op es = none ↔ es = [] := by
  cases es with
  | nil => simp [reduceLeft?]
  | cons a es => simp [reduceLeft?]

section levels
variable [Scalar S] [Scalar.Ordered S] {m : Model V S} {config : SolverConfig S} {s : Solver V S}

/-- If all energies compare, they are reduced to a least one. -/
theorem reduceLeft?_least {es : List S} {r : S} (hes : ∀ e ∈ es, e ≤ e)
    (h : reduceLeft? Scalar.least es = some r) : r ∈ es ∧ ∀ e ∈ es, r ≤ e := by
  cases es with
  | nil => cases h
  | cons a es =>
    obtain rfl := Option.some.inj h
    exact Scalar.foldl_least es (hes a List.mem_cons_self)
      fun e he => hes e (List.mem_cons_of_mem _ he)

/-- **The best energy is the least**: some assignment has it, and none has a lower one. -/
theorem Prepares.best_solve (h : Prepares m config s)
    (hself : ∀ n ∈ s.encodings, s.energy n ≤ s.energy n) :
    (∃ n ∈ s.encodings, s.energy n = s.solve.best) ∧
      ∀ n ∈ s.encodings, s.solve.best ≤ s.energy n := by
  have henergies : s.levels.map Prod.snd = s.encodings.map s.energy := by
    unfold levels
    rw [List.map_map]
    rfl
  have hbest : s.solve.best =
      (reduceLeft? Scalar.least (s.encodings.map s.energy)).getD 0 := by
    rw [s.solve_eq_solveInOrder, ← henergies]
    rfl
  rw [hbest]
  cases hresult : reduceLeft? Scalar.least (s.encodings.map s.energy) with
  | none =>
    -- There is always an assignment, so there is always an energy.
    exact absurd (List.map_eq_nil_iff.mp (reduceLeft?_eq_none_iff.mp hresult)) h.encodings_ne_nil
  | some r =>
    obtain ⟨hmem, hle⟩ := reduceLeft?_least (List.forall_mem_map.mpr hself) hresult
    exact ⟨List.mem_map.mp hmem, fun n hn => hle _ (List.mem_map_of_mem hn)⟩

/-- **The second energy is the least of the others**, or the best one again if there are none. -/
theorem secondBest_solve (s : Solver V S)
    (hself : ∀ n ∈ s.encodings, s.energy n ≤ s.energy n) :
    ((∀ n ∈ s.encodings, s.config.isClose (s.energy n) s.solve.best = true) ∧
        s.solve.secondBest = s.solve.best) ∨
      ((∃ n ∈ s.encodings, s.config.isClose (s.energy n) s.solve.best = false ∧
          s.energy n = s.solve.secondBest) ∧
        ∀ n ∈ s.encodings, s.config.isClose (s.energy n) s.solve.best = false →
          s.solve.secondBest ≤ s.energy n) := by
  have hparted : (s.levels.partition fun l => s.config.isClose l.2 s.solve.best).2.map Prod.snd =
      s.farFrom s.solve.best := by
    unfold levels farFrom
    rw [List.partition_eq_filter_filter]
    dsimp only
    rw [List.filter_map, List.filter_map, List.map_map]
    rfl
  have hsecond : s.solve.secondBest =
      (reduceLeft? Scalar.least (s.farFrom s.solve.best)).getD s.solve.best := by
    rw [← hparted, s.solve_eq_solveInOrder]
    rfl
  rw [hsecond]
  -- Either there are no others, and the best energy stands in, or the least of them is found.
  cases hresult : reduceLeft? Scalar.least (s.farFrom s.solve.best) with
  | none =>
    have hnil := reduceLeft?_eq_none_iff.mp hresult
    refine Or.inl ⟨?_, rfl⟩
    intro n hn
    by_contra hclose
    have hmem := mem_farFrom.mpr ⟨n, hn, Bool.not_eq_true _ ▸ hclose, rfl⟩
    rw [hnil] at hmem
    cases hmem
  | some r =>
    have hcompare : ∀ e ∈ s.farFrom s.solve.best, e ≤ e := by
      intro e he
      obtain ⟨n, hn, -, rfl⟩ := mem_farFrom.mp he
      exact hself n hn
    obtain ⟨hmem, hle⟩ := reduceLeft?_least hcompare hresult
    refine Or.inr ⟨mem_farFrom.mp hmem, ?_⟩
    intro n hn hfar
    exact hle _ (mem_farFrom.mpr ⟨n, hn, hfar, rfl⟩)

end levels

end Solver

end SetQubo
