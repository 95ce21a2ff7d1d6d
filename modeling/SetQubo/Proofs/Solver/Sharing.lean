import SetQubo.Proofs.Scalar
import SetQubo.Proofs.Solver.Search
/-!
# Runs that are shared out

Reducing a list with an associative operation gives the same along any tree as from the left, and
sorting what was gathered brings the ascending encodings back in order. So a run that is shared out
gives what a run from the first assignment to the last gives, wherever each pass is cut. The only
operation reduced with is the least of two numbers, which is associative whether or not all of them
compare.
-/

namespace SetQubo

/-! ## Reductions -/

section reductions
variable {α : Type} {op : α → α → α} [Std.Associative op]

/-- Two ranges are reduced on their own, and the results joined. -/
theorem reduceLeft?_append {as bs : List α} {a b : α} (ha : reduceLeft? op as = some a)
    (hb : reduceLeft? op bs = some b) : reduceLeft? op (as ++ bs) = some (op a b) := by
  match as, bs with
  | [], _ => cases ha
  | _ :: _, [] => cases hb
  | x :: xs, y :: ys =>
    obtain rfl := Option.some.inj ha
    obtain rfl := Option.some.inj hb
    show some ((xs ++ y :: ys).foldl op x) = some (op (xs.foldl op x) (ys.foldl op y))
    rw [List.foldl_append, List.foldl_cons, List.foldl_assoc]

/-- **A reduction along a tree is the reduction of its values from the left.** -/
theorem Bracketing.reduceLeft?_leaves (t : Bracketing α) :
    reduceLeft? op t.leaves = some (t.reduce op) := by
  induction t with
  | leaf a => rfl
  | join l r ihl ihr => exact reduceLeft?_append ihl ihr

/-- The tree that a schedule chooses does not show. -/
theorem Schedule.reduce?_eq_reduceLeft? (schedule : Schedule) (as : List α) :
    schedule.reduce? op as = reduceLeft? op as := by
  have hleaves := schedule.leaves_bracket as
  unfold Schedule.reduce?
  cases hbracket : schedule.bracket as with
  | none =>
    rw [hbracket] at hleaves
    obtain rfl : [] = as := hleaves
    rfl
  | some t =>
    rw [hbracket] at hleaves
    obtain rfl : t.leaves = as := hleaves
    exact t.reduceLeft?_leaves.symm

end reductions

namespace Solver

variable {V S : Type} [Label V] [Scalar S]

/-! ## Solutions -/

/-- The assignments whose energy is close to an energy, ascending. -/
def closeTo (s : Solver V S) (best : S) : List UInt64 :=
  s.encodings.filter fun n => s.config.isClose (s.energy n) best

theorem pairwise_closeTo (s : Solver V S) (best : S) : (s.closeTo best).Pairwise (· < ·) :=
  s.pairwise_encodings.filter _

theorem solutions_solveBy (s : Solver V S) (first second : List S → Option S)
    (collect : List UInt64 → List UInt64) :
    (s.solveBy first second collect).solutions =
      (collect (s.closeTo (s.solveBy first second collect).best)).map
        fun n => (s.assignment n).values := by
  have hclose : ∀ best : S,
      (s.levels.filter fun l => s.config.isClose l.2 best).map Prod.fst = s.closeTo best := by
    intro best
    unfold levels closeTo
    rw [List.filter_map, List.map_map]
    exact List.map_id _
  show (collect ((s.levels.partition fun l => s.config.isClose l.2
    (s.solveBy first second collect).best).1.map Prod.fst)).map _ = _
  rw [List.partition_eq_filter_filter, hclose]

/-- What a shared run gathers, brought in order, is what a run in order finds. -/
theorem mergeSort_gather (schedule : Schedule) {ns : List UInt64} (h : ns.Pairwise (· < ·)) :
    (schedule.gather ns).mergeSort (· ≤ ·) = ns := by
  -- The same encodings in ascending order are the same list.
  have hperm : ((schedule.gather ns).mergeSort (· ≤ ·)).Perm ns :=
    (List.mergeSort_perm _ _).trans (schedule.gather_perm ns)
  have hsorted : ((schedule.gather ns).mergeSort (· ≤ ·)).Pairwise
      fun a b => decide (a ≤ b) = true := by
    apply List.pairwise_mergeSort
    · intro a b c hab hbc
      exact decide_eq_true (UInt64.le_trans (of_decide_eq_true hab) (of_decide_eq_true hbc))
    · intro a b
      rcases UInt64.le_total a b with hab | hba
      · simp [hab]
      · simp [hba]
  have hascending : ns.Pairwise fun a b => decide (a ≤ b) = true :=
    h.imp fun hlt => decide_eq_true (UInt64.le_of_lt hlt)
  refine hperm.eq_of_pairwise ?_ hsorted hascending
  intro a b _ _ hab hba
  exact UInt64.le_antisymm (of_decide_eq_true hab) (of_decide_eq_true hba)

/-- What brings ascending encodings in order can be left out. -/
theorem solveBy_eq_of_ordering (s : Solver V S) (first second : List S → Option S)
    {collect : List UInt64 → List UInt64}
    (hcollect : ∀ ns : List UInt64, ns.Pairwise (· < ·) → collect ns = ns) :
    s.solveBy first second collect = s.solveBy first second id := by
  have hsolutions : (s.solveBy first second collect).solutions =
      (s.solveBy first second id).solutions := by
    rw [solutions_solveBy, hcollect _ (s.pairwise_closeTo _), solutions_solveBy]
    rfl
  -- The levels do not depend on how solutions are brought together.
  show SolveResult.mk (s.solveBy first second collect).solutions _ _ _ _ = _
  rw [hsolutions]
  rfl

/-! ## The whole run -/

variable [Scalar.Ordered S]

/-- **How a run is shared out does not show**: it gives what the run in order gives. -/
theorem solveShared_eq_solveInOrder (s : Solver V S) (first second : Schedule) :
    s.solveShared first second = s.solveInOrder := by
  have hreduce : ∀ schedule : Schedule,
      schedule.reduce? Scalar.least = reduceLeft? (Scalar.least : S → S → S) :=
    fun schedule => funext schedule.reduce?_eq_reduceLeft?
  unfold solveShared solveInOrder
  rw [hreduce, hreduce]
  exact s.solveBy_eq_of_ordering _ _ fun _ hns => mergeSort_gather second hns

/-- Whether a run is shared out, and how, does not show. -/
theorem solveScheduled_eq_solveInOrder (s : Solver V S) (first second : Schedule) :
    s.solveScheduled first second = s.solveInOrder := by
  unfold solveScheduled
  rw [solveShared_eq_solveInOrder, ite_self]

theorem solve_eq_solveInOrder (s : Solver V S) : s.solve = s.solveInOrder :=
  s.solveScheduled_eq_solveInOrder .halving .halving

end Solver

end SetQubo
