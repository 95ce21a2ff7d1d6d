/-!
# Scalars

Coefficients and energies are computed over any type that has the four operations and the two
comparisons below. No law is asked of them: rounded doubles and exact rationals are both scalars,
so one definition of a model, of its energy and of the search over it serves both.

* **`Float`** is what the program computes with.
* **`Rat`** is exact; statements about sums that must not depend on rounding are made there.

`least`, `greatest` and `magnitude` are defined from the comparisons alone. They give an
incomparable operand (a NaN) up for the other one, and prefer the left of two equal operands.
-/

namespace SetQubo

/-- A type of numbers to compute coefficients and energies with. -/
class Scalar (S : Type) extends
    Zero S, NatCast S, Add S, Sub S, Mul S, Div S, Neg S, LE S, LT S where
  /-- `≤` can be tested. -/
  decidableLE : DecidableLE S
  /-- `<` can be tested. -/
  decidableLT : DecidableLT S
  /-- Neither an infinity nor a NaN. -/
  isFinite : S → Bool

attribute [reducible, instance] Scalar.decidableLE Scalar.decidableLT

namespace Scalar

variable {S : Type} [Scalar S]

/-- The smaller operand, or the comparable one if the other is a NaN. -/
@[inline] def least (a b : S) : S :=
  if a ≤ b then a else if b ≤ b then b else a

/-- The larger operand, or the comparable one if the other is a NaN. -/
@[inline] def greatest (a b : S) : S :=
  if b ≤ a then a else if b ≤ b then b else a

/-- The absolute value. -/
@[inline] def magnitude (a : S) : S :=
  if a < 0 then -a else a

end Scalar

/-! ## The two number types -/

instance : Scalar Float where
  zero := 0
  natCast := Float.ofNat
  decidableLE := inferInstance
  decidableLT := inferInstance
  isFinite := Float.isFinite

instance : Scalar Rat where
  zero := (0 : Rat)
  decidableLE := inferInstance
  decidableLT := inferInstance
  isFinite := fun _ => true

end SetQubo
