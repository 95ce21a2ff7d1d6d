import SetQubo.Decimal.Shortest
/-!
# Plain texts of doubles

Two forms appear in messages, reports and summaries:

* `display` writes the fewest digits that read back, always positionally and without a fraction
  for whole numbers: `10`, `-0`, `0.0000001`;
* `displayWhole` rounds the exact value to a whole number, a half going to the even neighbour:
  `-0.4` is `-0` and `2.5` is `2`.

Both keep the sign of zero, and write `inf`, `-inf` and `NaN` for what is not a number.
-/

namespace SetQubo.Decimal

/-- The digits in front of the point and those behind it. -/
def Digits.split (d : Digits) : List Char × List Char :=
  if d.point ≤ 0 then (['0'], List.replicate (-d.point).toNat '0' ++ d.digits)
  else
    let n := d.point.toNat
    (d.digits.take n ++ List.replicate (n - d.digits.length) '0', d.digits.drop n)

/-- Positional notation, without a point when nothing stands behind it. -/
def Digits.positional (d : Digits) : List Char :=
  match d.split with
  | (whole, []) => whole
  | (whole, fraction) => whole ++ '.' :: fraction

/-- A sign in front of the text of a magnitude. -/
def signed (negative : Bool) (text : List Char) : String :=
  String.ofList (if negative then '-' :: text else text)

/-- The text of a double, given how magnitudes are written. -/
def Reading.render (write : Magnitude → List Char) : Reading → String
  | .nan => "NaN"
  | .infinite negative => signed negative ['i', 'n', 'f']
  | .finite negative x => signed negative (write x)

/-- The fewest digits that read back, in positional notation; of two equally near decimals the
larger magnitude. -/
def display (x : Float) : String :=
  (Reading.ofFloat x).render fun m => (m.shortest .up).positional

/-- The nearest natural number to `num / den`, a half going to the even one. -/
def roundHalfEven (num den : Nat) : Nat :=
  let q := num / den
  match compare (2 * (num % den)) den with
  | .lt => q
  | .gt => q + 1
  | .eq => q + q % 2

/-- The exact value rounded to a whole number. -/
def displayWhole (x : Float) : String :=
  (Reading.ofFloat x).render fun m => Nat.toDigits 10 (roundHalfEven m.numerator m.denominator)

end SetQubo.Decimal
