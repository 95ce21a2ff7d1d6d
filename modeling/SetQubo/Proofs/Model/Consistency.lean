import SetQubo.Model.Basic
import SetQubo.Proofs.Table.Rebuild
/-!
# Consistent models

A model is consistent if both of its tables are. Every model that is built up step by step is. What
its coefficients are is another matter: in doubles they may be infinite, or no number at all.
-/

namespace SetQubo

namespace Model

variable {V S : Type} [Label V] {m : Model V S}

/-- In both tables, index and entries agree. -/
structure Consistent (m : Model V S) : Prop where
  /-- The coefficients of single variables are consistent. -/
  linear : m.linear.Consistent
  /-- The coefficients of pairs are consistent. -/
  quadratic : m.quadratic.Consistent

theorem consistent_empty : (empty : Model V S).Consistent :=
  ⟨Table.consistent_empty, Table.consistent_empty⟩

theorem Consistent.addLinear [Add S] (h : m.Consistent) (v : V) (c : S) :
    (m.addLinear v c).Consistent :=
  ⟨h.linear.add v c, h.quadratic⟩

theorem Consistent.setLinear (h : m.Consistent) (v : V) (c : S) : (m.setLinear v c).Consistent :=
  ⟨h.linear.set v c, h.quadratic⟩

theorem Consistent.addQuadratic [Add S] (h : m.Consistent) (a b : V) (c : S) :
    (m.addQuadratic a b c).Consistent :=
  ⟨h.linear, h.quadratic.add ⟨a, b⟩ c⟩

theorem Consistent.setQuadratic (h : m.Consistent) (a b : V) (c : S) :
    (m.setQuadratic a b c).Consistent :=
  ⟨h.linear, h.quadratic.set ⟨a, b⟩ c⟩

theorem consistent_ofTerms [Add S] (linear : List (V × S)) (quadratic : List (Pair V × S)) :
    (ofTerms linear quadratic).Consistent :=
  ⟨Table.consistent_ofList linear, Table.consistent_ofList quadratic⟩

/-- All coefficients of the model are finite. -/
structure FiniteCoefficients (m : Model V Float) : Prop where
  /-- The coefficients of single variables are finite. -/
  linear : ∀ t ∈ m.linear.toList, t.2.isFinite = true
  /-- The coefficients of pairs are finite. -/
  quadratic : ∀ t ∈ m.quadratic.toList, t.2.isFinite = true

end Model

end SetQubo
