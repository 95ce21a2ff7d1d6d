/-!
# Reading decimals

A decimal is read as the double nearest to it, the even one of two. `nearest` takes the number as
a whole count of a power of ten, whatever its size; `ofText?` takes it as text.

The text is a sign, then either `inf`, `infinity` or `nan` in any letter case, or digits with an
optional point and an optional exponent. At least one digit stands before or behind the point.
-/

namespace SetQubo.Decimal

/-- The double nearest to `count · 10 ^ exponent`, an infinity beyond the finite range.

The decimal point is located first, so that no power of ten is computed which only confirms that
the number is far beyond the largest double or far below the smallest. -/
def nearest (count : Nat) (exponent : Int) : Float :=
  if count = 0 then 0
  else
    let point := (Nat.toDigits 10 count).length + exponent
    if point > 400 then 1 / 0
    else if point < -400 then 0
    else Float.ofScientific count (exponent < 0) exponent.natAbs

/-- `nearest` with a sign; zero keeps its sign. -/
def nearestSigned (negative : Bool) (count : Nat) (exponent : Int) : Float :=
  if negative then -nearest count exponent else nearest count exponent

/-- A leading sign and the characters after it. -/
def takeSign : List Char → Bool × List Char
  | '-' :: cs => (true, cs)
  | '+' :: cs => (false, cs)
  | cs => (false, cs)

/-- The exponent after a decimal's digits: nothing, or `e` with a signed run of digits. -/
def exponent? : List Char → Option Int
  | [] => some 0
  | e :: cs =>
    if e = 'e' ∨ e = 'E' then
      let (negative, digits) := takeSign cs
      if digits ≠ [] ∧ digits.all Char.isDigit then
        let n : Int := Nat.ofDigitChars 10 digits 0
        some (if negative then -n else n)
      else none
    else none

/-- Digits with an optional point and an optional exponent, as a count and a power of ten. -/
def unsigned? (cs : List Char) : Option (Nat × Int) :=
  let whole := cs.takeWhile Char.isDigit
  let rest := cs.dropWhile Char.isDigit
  let (fraction, tail) :=
    match rest with
    | '.' :: ds => (ds.takeWhile Char.isDigit, ds.dropWhile Char.isDigit)
    | _ => ([], rest)
  if whole = [] ∧ fraction = [] then none
  else (exponent? tail).map fun e =>
    (Nat.ofDigitChars 10 (whole ++ fraction) 0, e - fraction.length)

/-- The double that a text denotes. -/
def ofText? (text : String) : Option Float :=
  let (negative, cs) := takeSign text.toList
  let word := cs.map Char.toLower
  if word = "nan".toList then some (0 / 0)
  else if word = "inf".toList ∨ word = "infinity".toList then
    some (if negative then -(1 / 0) else 1 / 0)
  else (unsigned? cs).map fun (count, e) => nearestSigned negative count e

end SetQubo.Decimal
