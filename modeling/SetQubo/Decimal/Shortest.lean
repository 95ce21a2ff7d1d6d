import SetQubo.Decimal.Binary
/-!
# The fewest digits that read back

The reals that round to a given double form an interval around it. Of all decimals in that
interval, `Magnitude.shortest` picks one with the fewest digits, and of those the one nearest to
the double. Two may be equally near; the format at hand says which of them it takes (`Tie`).

## How it searches

The decimals with `n` digits lie on a grid, and if any point of the grid is in the interval, then
one of the double's two neighbours on the grid is. So for `n = 1, 2, …` the two neighbours are
tried, in exact arithmetic, and the first grid with a hit wins.
-/

namespace SetQubo.Decimal

/-- The number `0.d₁d₂…dₙ · 10 ^ point`, for the decimal digits `d₁ … dₙ`. -/
structure Digits where
  /-- The digit characters, most significant first. -/
  digits : List Char
  /-- The position of the decimal point, counted from the left of the first digit. -/
  point : Int
  deriving DecidableEq, Repr

/-- Which of two equally near decimals is taken. -/
inductive Tie where
  /-- The larger one. -/
  | up
  /-- The one whose last digit is even. -/
  | even
  deriving DecidableEq, Repr

namespace Magnitude

/-! ## The interval of a double -/

/-- Compares `c · 10 ^ grid` with `bound / (4 · denominator)`, without division. -/
def compareOnGrid (x : Magnitude) (c : Nat) (grid : Int) (bound : Nat) : Ordering :=
  compare (c * Nat.pow 10 grid.toNat * (4 * x.denominator)) (bound * Nat.pow 10 (-grid).toNat)

/-- Whether `c · 10 ^ grid` rounds to `x`: it lies between the midpoints to the two neighbouring
doubles. A midpoint itself rounds to the even significand. -/
def readsBack (x : Magnitude) (c : Nat) (grid : Int) : Bool :=
  let scale := x.exponent.toNat
  let lower := (if x.narrowBelow then 4 * x.significand - 1 else 4 * x.significand - 2) <<< scale
  let upper := (4 * x.significand + 2) <<< scale
  let closed := x.significand % 2 = 0
  let below := x.compareOnGrid c grid lower
  let above := x.compareOnGrid c grid upper
  (below = .gt || (closed && below = .eq)) && (above = .lt || (closed && above = .eq))

/-! ## The search -/

/-- The least `k` with `x < 10 ^ k`, for a positive `x`. -/
def decimalPoint (x : Magnitude) : Int :=
  if x.denominator ≤ x.numerator then
    (Nat.toDigits 10 (x.numerator / x.denominator)).length
  else
    1 - ((Nat.toDigits 10 ((x.denominator - 1) / x.numerator)).length : Int)

/-- The better of the two neighbours of `x` on a grid, if one of them reads back. -/
def onGrid? (x : Magnitude) (tie : Tie) (grid : Int) : Option Nat :=
  let num := x.numerator * Nat.pow 10 (-grid).toNat
  let den := x.denominator * Nat.pow 10 grid.toNat
  let c := num / den
  match x.readsBack c grid, x.readsBack (c + 1) grid with
  | false, false => none
  | true, false => some c
  | false, true => some (c + 1)
  | true, true =>
    match compare (2 * num) ((2 * c + 1) * den), tie with
    | .lt, _ => some c
    | .gt, _ => some (c + 1)
    | .eq, .up => some (c + 1)
    | .eq, .even => some (if c % 2 = 0 then c else c + 1)

/-- The exact value as a count on a grid. -/
def exact (x : Magnitude) : Nat × Int :=
  if x.exponent < 0 then (x.significand * Nat.pow 5 (-x.exponent).toNat, x.exponent)
  else (x.numerator, 0)

/-- A count on the first grid that has a decimal reading back as `x`. Seventeen digits always
have one; the exact value stands behind the search so that it never guesses. -/
def shortestCount (x : Magnitude) (tie : Tie) : Nat × Int :=
  let point := x.decimalPoint
  let hit? := (List.range 17).findSome? fun (n : Nat) =>
    let grid := point - (n + 1)
    (x.onGrid? tie grid).map fun c => (c, grid)
  hit?.getD x.exact

end Magnitude

namespace Digits

/-- The digits of a natural number of units of `10 ^ grid`, without trailing zeros. -/
def ofCount (c : Nat) (grid : Int) : Digits :=
  let all := Nat.toDigits 10 c
  ⟨(all.reverse.dropWhile (· = '0')).reverse, all.length + grid⟩

/-- The digit zero, in front of the point. -/
def zero : Digits := ⟨['0'], 1⟩

end Digits

/-- The fewest digits that read back as `x`, the nearest of those, ties as `tie` says. -/
def Magnitude.shortest (x : Magnitude) (tie : Tie) : Digits :=
  if x.significand = 0 then .zero
  else
    let (c, grid) := x.shortestCount tie
    .ofCount c grid

end SetQubo.Decimal
