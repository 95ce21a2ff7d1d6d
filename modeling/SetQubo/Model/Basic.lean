import SetQubo.Pair
import SetQubo.Table
/-!
# Quadratic models

A model is a quadratic energy function of variables that are on or off: a table of coefficients
for single variables, and one for unordered pairs. The energy of a valuation is the sum of the
coefficients whose variables are all on. It is added up from the left, linear entries first, each
table in order of insertion; in rounded arithmetic that order matters.

A pair may hold one label twice. Its term then counts when that label is on.
-/

namespace SetQubo

/-- A quadratic energy function over labelled variables. -/
structure Model (V S : Type) [Label V] where
  /-- The coefficients of single variables. -/
  linear : Table V S
  /-- The coefficients of pairs of variables. -/
  quadratic : Table (Pair V) S

namespace Model

variable {V S : Type} [Label V]

/-! ## Construction -/

/-- The model without terms. -/
def empty : Model V S := ⟨.empty, .empty⟩

/-- Adds to the coefficient of a variable. -/
def addLinear [Add S] (m : Model V S) (v : V) (c : S) : Model V S :=
  { m with linear := m.linear.add v c }

/-- Overwrites the coefficient of a variable. -/
def setLinear (m : Model V S) (v : V) (c : S) : Model V S :=
  { m with linear := m.linear.set v c }

/-- Adds to the coefficient of a pair. -/
def addQuadratic [Add S] (m : Model V S) (a b : V) (c : S) : Model V S :=
  { m with quadratic := m.quadratic.add ⟨a, b⟩ c }

/-- Overwrites the coefficient of a pair. -/
def setQuadratic (m : Model V S) (a b : V) (c : S) : Model V S :=
  { m with quadratic := m.quadratic.set ⟨a, b⟩ c }

/-- The model of lists of terms, added one after the other. -/
def ofTerms [Add S] (linear : List (V × S)) (quadratic : List (Pair V × S)) : Model V S :=
  ⟨.ofList linear, .ofList quadratic⟩

/-! ## Reading -/

/-- The coefficient of a variable, 0 if it has none. -/
def linearCoefficient [Zero S] (m : Model V S) (v : V) : S := m.linear.get v

/-- The coefficient of an unordered pair, 0 if it has none. -/
def quadraticCoefficient [Zero S] (m : Model V S) (a b : V) : S := m.quadratic.get ⟨a, b⟩

/-- Every label that occurs in the tables, as often as it occurs: linear keys first, then the
pairs from left to right. -/
def occurrences (m : Model V S) : List V :=
  m.linear.keys ++ m.quadratic.keys.flatMap fun p => [p.first, p.second]

/-- The variables in the order in which they are first seen. -/
def labels (m : Model V S) : List V := m.occurrences.eraseDups

/-- Models are equal if both tables are. -/
instance [BEq S] : BEq (Model V S) where
  beq m n := m.linear == n.linear && m.quadratic == n.quadratic

/-! ## Energy -/

/-- The energy of a valuation. -/
def energy [Scalar S] (m : Model V S) (x : Valuation V) : S :=
  let linear := m.linear.toList.foldl (fun e (v, c) => if x v = 1 then e + c else e) 0
  m.quadratic.toList.foldl (fun e (p, c) => if p.isOn x then e + c else e) linear

/-! ## Renaming -/

/-- Renames every variable. Terms whose labels come to be the same are added up. -/
def mapLabels {W : Type} [Label W] [Add S] (f : V → W) (m : Model V S) : Model W S :=
  .ofTerms (m.linear.toList.map fun (v, c) => (f v, c))
    (m.quadratic.toList.map fun (p, c) => (p.map f, c))

end Model

end SetQubo
