import Mathlib
import SetQubo.Proofs.Model.Energy
/-!
# Steps on a model

A model is made from lists of entries and changed by steps, each of which adds to one coefficient or
overwrites it. In exact arithmetic a step does no more than it says: the energy of a valuation
changes by as much as the coefficient does if the step's term is on, and every other coefficient
stays. Since adding is all that the lists of entries do as well, a model that only additions have
made has as its energy the sum of what was added and is on. It does not matter in which order it was
added, how often a key came again, or which way a pair was written.
-/

namespace SetQubo

namespace Model

/-! ## Terms -/

/-- What a coefficient belongs to. -/
inductive Term (V : Type) where
  /-- A variable. -/
  | single (v : V)
  /-- A pair of variables, as written. -/
  | pair (p : Pair V)

/-- Whether the labels of a term are on. -/
def Term.isOn {V : Type} (t : Term V) (x : Valuation V) : Bool :=
  match t with
  | single v => x v = 1
  | pair p => p.isOn x

/-- Two terms match if they have one coefficient, pairs whichever way they are written. -/
def Term.Matches {V : Type} : Term V → Term V → Prop
  | single v, single w => v = w
  | pair p, pair q => p = q ∨ p = q.swap
  | single _, pair _ => False
  | pair _, single _ => False

variable {V S : Type} [Label V]

/-- The coefficient of a term, 0 if it has none. -/
def coefficient [Zero S] (m : Model V S) : Term V → S
  | .single v => m.linearCoefficient v
  | .pair p => m.quadraticCoefficient p.first p.second

/-! ## Steps -/

/-- A change of one coefficient. -/
inductive Step (V S : Type) where
  /-- Adds to the coefficient of a term. -/
  | add (t : Term V) (c : S)
  /-- Overwrites the coefficient of a term. -/
  | set (t : Term V) (c : S)

namespace Step

/-- The term that a step is about. -/
def term : Step V S → Term V
  | add t _ => t
  | set t _ => t

/-- The model after a step. -/
def apply [Add S] (step : Step V S) (m : Model V S) : Model V S :=
  match step with
  | add (.single v) c => m.addLinear v c
  | add (.pair p) c => m.addQuadratic p.first p.second c
  | set (.single v) c => m.setLinear v c
  | set (.pair p) c => m.setQuadratic p.first p.second c

/-- By how much a step changes the coefficient of its term. -/
def change (m : Model V Rat) : Step V Rat → Rat
  | add _ c => c
  | set t c => c - m.coefficient t

end Step

/-- The model after a list of steps. -/
def run [Add S] (m : Model V S) (steps : List (Step V S)) : Model V S :=
  steps.foldl (fun m step => step.apply m) m

theorem Consistent.apply [Add S] {m : Model V S} (h : m.Consistent) (step : Step V S) :
    (step.apply m).Consistent := by
  match step with
  | .add (.single v) c => exact h.addLinear v c
  | .add (.pair p) c => exact h.addQuadratic p.first p.second c
  | .set (.single v) c => exact h.setLinear v c
  | .set (.pair p) c => exact h.setQuadratic p.first p.second c

theorem Consistent.run [Add S] {m : Model V S} (h : m.Consistent) (steps : List (Step V S)) :
    (m.run steps).Consistent :=
  List.foldlRecOn steps _ h fun _ hm step _ => hm.apply step

/-! ## What a step does -/

/-- What a step makes of a model, and no more. -/
structure Step.Effect (step : Step V Rat) (m m' : Model V Rat) : Prop where
  /-- If the step's term is on, then the energy changes as its coefficient does. -/
  energy (x : Valuation V) :
    m'.energy x = m.energy x + if step.term.isOn x then step.change m else 0
  /-- The coefficient of the step's term changes, whichever way a pair is written. -/
  own (t : Term V) (h : step.term.Matches t) :
    m'.coefficient t = m.coefficient step.term + step.change m
  /-- Every other coefficient stays. -/
  other (t : Term V) (h : ¬step.term.Matches t) : m'.coefficient t = m.coefficient t
  /-- A step on a variable leaves the table of pairs as it is. -/
  quadratic (v : V) (h : step.term = .single v) : m'.quadratic = m.quadratic
  /-- A step on a pair leaves the table of variables as it is. -/
  linear (p : Pair V) (h : step.term = .pair p) : m'.linear = m.linear

variable {m : Model V Rat}

/-- A step changes the energy by as much as the coefficient of its term, if that term is on. -/
theorem Consistent.energy_apply (h : m.Consistent) (step : Step V Rat) (x : Valuation V) :
    (step.apply m).energy x = m.energy x + if step.term.isOn x then step.change m else 0 := by
  match step with
  | .add (.single v) c =>
    simpa [Step.apply, Step.term, Step.change, Term.isOn] using h.energy_addLinear v c x
  | .add (.pair p) c =>
    simpa [Step.apply, Step.term, Step.change, Term.isOn, Pair.isOn] using
      h.energy_addQuadratic p.first p.second c x
  | .set (.single v) c =>
    simpa [Step.apply, Step.term, Step.change, Term.isOn, coefficient] using
      h.energy_setLinear v c x
  | .set (.pair p) c =>
    simpa [Step.apply, Step.term, Step.change, Term.isOn, Pair.isOn, coefficient] using
      h.energy_setQuadratic p.first p.second c x

/-- The terms that match the step's own one have its coefficient, changed as the step says. -/
theorem Consistent.coefficient_apply_of_matches (h : m.Consistent) (step : Step V Rat)
    (t : Term V) (ht : step.term.Matches t) :
    (step.apply m).coefficient t = m.coefficient step.term + step.change m := by
  match step, t with
  | .add (.single v) c, .single w =>
    obtain rfl : v = w := ht
    show (m.linear.add v c).get v = m.linear.get v + c
    rw [h.linear.get_add, if_pos BEq.rfl]
  | .set (.single v) c, .single w =>
    obtain rfl : v = w := ht
    show (m.linear.set v c).get v = m.linear.get v + (c - m.linear.get v)
    rw [h.linear.get_set, if_pos BEq.rfl, add_sub_cancel]
  | .add (.pair p) c, .pair q =>
    have hpq : (p == q) = true := Pair.beq_iff.mpr ht
    show (m.quadratic.add p c).get q = m.quadratic.get p + c
    rw [h.quadratic.get_add, if_pos hpq, Table.get_congr _ hpq]
  | .set (.pair p) c, .pair q =>
    have hpq : (p == q) = true := Pair.beq_iff.mpr ht
    show (m.quadratic.set p c).get q = m.quadratic.get p + (c - m.quadratic.get p)
    rw [h.quadratic.get_set, if_pos hpq, add_sub_cancel]

/-- The other terms keep their coefficients. -/
theorem Consistent.coefficient_apply_of_not_matches (h : m.Consistent) (step : Step V Rat)
    (t : Term V) (ht : ¬step.term.Matches t) :
    (step.apply m).coefficient t = m.coefficient t := by
  match step, t with
  | .add (.single v) c, .single w =>
    have hvw : ¬(v == w) = true := fun heq => ht (LawfulBEq.eq_of_beq heq)
    show (m.linear.add v c).get w = m.linear.get w
    rw [h.linear.get_add, if_neg hvw, add_zero]
  | .set (.single v) c, .single w =>
    have hvw : ¬(v == w) = true := fun heq => ht (LawfulBEq.eq_of_beq heq)
    show (m.linear.set v c).get w = m.linear.get w
    rw [h.linear.get_set, if_neg hvw]
  | .add (.pair p) c, .pair q =>
    have hpq : ¬(p == q) = true := fun heq => ht (Pair.beq_iff.mp heq)
    show (m.quadratic.add p c).get q = m.quadratic.get q
    rw [h.quadratic.get_add, if_neg hpq, add_zero]
  | .set (.pair p) c, .pair q =>
    have hpq : ¬(p == q) = true := fun heq => ht (Pair.beq_iff.mp heq)
    show (m.quadratic.set p c).get q = m.quadratic.get q
    rw [h.quadratic.get_set, if_neg hpq]
  -- A step on a variable does not touch the pairs, nor the other way round.
  | .add (.single _) _, .pair _ => rfl
  | .add (.pair _) _, .single _ => rfl
  | .set (.single _) _, .pair _ => rfl
  | .set (.pair _) _, .single _ => rfl

/-- **A step does no more than it says.** -/
theorem Consistent.effect (h : m.Consistent) (step : Step V Rat) :
    step.Effect m (step.apply m) := by
  constructor
  case energy => exact h.energy_apply step
  case own => exact h.coefficient_apply_of_matches step
  case other => exact h.coefficient_apply_of_not_matches step
  case quadratic =>
    intro v hv
    match step with
    | .add (.single _) _ => rfl
    | .set (.single _) _ => rfl
  case linear =>
    intro p hp
    match step with
    | .add (.pair _) _ => rfl
    | .set (.pair _) _ => rfl

/-! ## Adding up -/

/-- The steps that add terms one after the other. -/
def additions (ts : List (Term V × S)) : List (Step V S) := ts.map fun t => .add t.1 t.2

/-- The entries of two lists as terms. -/
def listed (linear : List (V × S)) (quadratic : List (Pair V × S)) : List (Term V × S) :=
  linear.map (fun e => (.single e.1, e.2)) ++ quadratic.map fun e => (.pair e.1, e.2)

/-- The sum of the coefficients whose terms are on, in any order. -/
def sumOn (ts : Multiset (Term V × Rat)) (x : Valuation V) : Rat :=
  (ts.map fun t => if t.1.isOn x then t.2 else 0).sum

theorem run_append [Add S] (m : Model V S) (steps steps' : List (Step V S)) :
    m.run (steps ++ steps') = (m.run steps).run steps' :=
  List.foldl_append

theorem run_additions_single [Add S] (m : Model V S) (es : List (V × S)) :
    m.run (additions (es.map fun e => (.single e.1, e.2))) = ⟨m.linear.addAll es, m.quadratic⟩ := by
  induction es generalizing m with
  | nil => rfl
  | cons e es ih => exact ih (m.addLinear e.1 e.2)

theorem run_additions_pair [Add S] (m : Model V S) (es : List (Pair V × S)) :
    m.run (additions (es.map fun e => (.pair e.1, e.2))) = ⟨m.linear, m.quadratic.addAll es⟩ := by
  induction es generalizing m with
  | nil => rfl
  | cons e es ih => exact ih (m.addQuadratic e.1.first e.1.second e.2)

/-- Lists of entries are loaded by adding them up. -/
theorem ofTerms_eq_run [Add S] (linear : List (V × S)) (quadratic : List (Pair V × S)) :
    ofTerms linear quadratic = empty.run (additions (listed linear quadratic)) := by
  unfold listed
  rw [additions, List.map_append, run_append]
  exact ((congrArg (run · _) (run_additions_single empty linear)).trans
    (run_additions_pair _ quadratic)).symm

/-- Additions change the energy by what they add and is on. -/
theorem Consistent.energy_run_additions (h : m.Consistent) (ts : List (Term V × Rat))
    (x : Valuation V) : (m.run (additions ts)).energy x = m.energy x + sumOn ts x := by
  induction ts generalizing m with
  | nil => exact (add_zero _).symm
  | cons t ts ih =>
    have hstep := h.energy_apply (.add t.1 t.2) x
    have hrest := ih (h.apply (.add t.1 t.2))
    show (((Step.add t.1 t.2).apply m).run (additions ts)).energy x = _
    rw [hrest, hstep, add_assoc]
    rfl

/-- **What a step does to a model, and what additions add up to.**

The model may be loaded from any lists of entries, with repeated keys and reversed pairs, and any
steps may have been made on it since. With no entries it is the one that was started from nothing.
If all the steps were additions, then it does not matter which terms were loaded, which were added
later, or in what order. -/
theorem steps_add_up (linear : List (V × Rat)) (quadratic : List (Pair V × Rat)) :
    (∀ (steps : List (Step V Rat)) (step : Step V Rat),
      Step.Effect step ((ofTerms linear quadratic).run steps)
        (step.apply ((ofTerms linear quadratic).run steps))) ∧
    ∀ (ts : List (Term V × Rat)) (x : Valuation V),
      ((ofTerms linear quadratic).run (additions ts)).energy x =
        sumOn (listed linear quadratic + ts : Multiset (Term V × Rat)) x := by
  constructor
  · intro steps step
    exact ((consistent_ofTerms linear quadratic).run steps).effect step
  · intro ts x
    have hrun : (ofTerms linear quadratic).run (additions ts) =
        empty.run (additions (listed linear quadratic ++ ts)) := by
      rw [ofTerms_eq_run, ← run_append, additions, additions, additions, List.map_append]
    rw [hrun, consistent_empty.energy_run_additions, energy_empty, zero_add, ← Multiset.coe_add]

end Model

end SetQubo
