/-!
# Doubles as exact numbers

A finite double is a natural number times a power of two. Everything the library writes or reads
about doubles is computed from that exact value, in natural numbers.
-/

namespace SetQubo.Decimal

/-- The absolute value of a finite double, `significand · 2 ^ exponent`. -/
structure Magnitude where
  /-- The significand, below `2 ^ 53`. -/
  significand : Nat
  /-- The power of two that the significand counts. -/
  exponent : Int
  /-- The next double below is half as far away as the next one above. -/
  narrowBelow : Bool
  deriving DecidableEq, Repr

/-- What a double stands for. -/
inductive Reading where
  /-- Not a number. -/
  | nan
  /-- One of the two infinities. -/
  | infinite (negative : Bool)
  /-- A real number with its sign; zero has two signs. -/
  | finite (negative : Bool) (magnitude : Magnitude)
  deriving DecidableEq, Repr

namespace Magnitude

/-- The exact value is `numerator / denominator`. -/
def numerator (x : Magnitude) : Nat :=
  x.significand <<< x.exponent.toNat

/-- The denominator of the exact value, a power of two. -/
def denominator (x : Magnitude) : Nat :=
  1 <<< (-x.exponent).toNat

end Magnitude

/-- The sign, exponent and fraction fields of a double, put together. -/
def Reading.ofFloat (x : Float) : Reading :=
  let bits := x.toBits
  let negative := bits >>> 63 == 1
  let biased := ((bits >>> 52) &&& 0x7FF).toNat
  let fraction := (bits &&& 0xFFFFFFFFFFFFF).toNat
  if biased = 0x7FF then
    if fraction = 0 then .infinite negative else .nan
  else if biased = 0 then
    .finite negative ⟨fraction, -1074, false⟩
  else
    .finite negative ⟨1 <<< 52 + fraction, biased - 1075, fraction == 0 && biased > 1⟩

end SetQubo.Decimal
