import SetQubo.Scalar
/-!
# How to solve

A configuration caps the number of variables and says when two energies count as equal: when they
differ by no more than a share of the larger one, or by no more than an absolute bound. The
absolute bound takes over near zero, where a share of the energies says nothing.
-/

namespace SetQubo

/-- The most variables whose assignments can be counted in sixty-four bits. -/
def encodingLimit : Nat := 63

/-- The settings of the solver. -/
structure SolverConfig (S : Type) where
  /-- The most variables that a model may have. -/
  maxVariables : UInt64
  /-- The tolerance as a share of the larger energy. -/
  relativeTolerance : S
  /-- The tolerance in absolute terms. -/
  absoluteTolerance : S
  /-- Whether the enumeration is shared out. The result is the same. -/
  parallel : Bool
  deriving Repr, BEq

namespace SolverConfig

/-- Whether two energies count as equal. -/
def isClose {S : Type} [Scalar S] (c : SolverConfig S) (a b : S) : Bool :=
  Scalar.magnitude (a - b) ≤
    Scalar.greatest
      (c.relativeTolerance * Scalar.greatest (Scalar.magnitude a) (Scalar.magnitude b))
      c.absoluteTolerance

/-- The cap that applies, which never exceeds the limit of the encoding. -/
def cap {S : Type} (c : SolverConfig S) : Nat := min c.maxVariables.toNat encodingLimit

/-- The settings that are used unless others are given. -/
def default : SolverConfig Float where
  maxVariables := 16
  relativeTolerance := 1e-6
  absoluteTolerance := 1e-9
  parallel := false

end SolverConfig

end SetQubo
