import SetQubo.Decimal.Nearest
import SetQubo.Decimal.Notation
/-!
# JSON values

The tree that JSON text is read into and written from. Numbers keep the form in which they are
written, since `1`, `1.0` and `-0` are different numbers to a reader that wants an integer.

Text that breaks the grammar still has a tree: everything in front of the break, and `malformed`
in place of the rest. A reader walks the tree in text order, so the first fault of the text is
the one it finds, whether it lies in the grammar or in the values.
-/

namespace SetQubo

/-- A number as JSON writes it: a sign, a whole part without leading zeros, the digits behind the
point, and the exponent if there is one. -/
structure Json.Number where
  /-- Whether a minus sign is written. -/
  negative : Bool
  /-- The whole part. -/
  whole : Nat
  /-- The digit characters behind the point; empty when there is no point. -/
  fraction : List Char
  /-- The power of ten behind the mark `e`. -/
  exponent : Option Int
  deriving DecidableEq, Repr

/-- A JSON value, or what is left of one. -/
inductive Json where
  /-- The word `null`. -/
  | null
  /-- One of the words `true` and `false`. -/
  | bool (value : Bool)
  /-- A number. -/
  | number (value : Json.Number)
  /-- A string. There is no text (`none`) if an escape names half of a surrogate pair. -/
  | string (text : Option String)
  /-- An array. -/
  | array (items : List Json)
  /-- An object, with its members in text order and repeated names kept. -/
  | object (members : List (Option String × Json))
  /-- The place where the text stops being JSON. -/
  | malformed
  deriving Repr

namespace Json

/-! ## Numbers -/

namespace Number

/-- A natural number, written without point and exponent. -/
def ofNat (n : Nat) : Number := ⟨false, n, [], none⟩

/-- An integer, written without point and exponent. -/
def ofInt (n : Int) : Number := ⟨n < 0, n.natAbs, [], none⟩

/-- The natural number that is written; a sign, a point or an exponent makes it none. -/
def toNat? : Number → Option Nat
  | ⟨false, n, [], none⟩ => some n
  | _ => none

/-- The integer that is written; `-0` is none. -/
def toInt? : Number → Option Int
  | ⟨false, n, [], none⟩ => some n
  | ⟨true, n + 1, [], none⟩ => some (-(n + 1))
  | _ => none

/-- The nearest double, infinite beyond the finite range. A reader that scales the digits by a power
of ten in doubles, as JSON readers do by default for speed, differs from this one at some numbers:
there `31.245270191439438` becomes the double next to the nearest one, and `17976931348623158e292` is
out of range, although the nearest double is finite. -/
def toFloat (n : Number) : Float :=
  Decimal.nearestSigned n.negative
    (Nat.ofDigitChars 10 n.fraction n.whole) (n.exponent.getD 0 - n.fraction.length)

/-- The fewest digits that read back; of two equally near decimals the one with the even last
digit. Numbers whose leading digit stands between the fifth place behind the point and the
sixteenth in front of it are written positionally, always with a fraction. All others have one
digit in front of the point, and an exponent. -/
def ofDigits (negative : Bool) (d : Decimal.Digits) : Number :=
  let leading := d.point - 1
  if -5 ≤ leading ∧ leading ≤ 15 then
    let (whole, fraction) := d.split
    ⟨negative, Nat.ofDigitChars 10 whole 0, if fraction = [] then ['0'] else fraction, none⟩
  else
    ⟨negative, Nat.ofDigitChars 10 (d.digits.take 1) 0, d.digits.drop 1, some leading⟩

/-- The number that stands for a double; an infinity or a NaN has none. -/
def ofFloat? (x : Float) : Option Number :=
  match Decimal.Reading.ofFloat x with
  | .finite negative m => some (ofDigits negative (m.shortest .even))
  | _ => none

end Number

/-! ## Building values -/

/-- A string value. -/
def ofString (s : String) : Json := .string (some s)

/-- A natural number value. -/
def ofNat (n : Nat) : Json := .number (.ofNat n)

/-- An integer value. -/
def ofInt (n : Int) : Json := .number (.ofInt n)

/-- A double value; `null` stands for an infinity or a NaN. -/
def ofFloat (x : Float) : Json :=
  match Number.ofFloat? x with
  | some n => .number n
  | none => .null

/-- An object with the given names and values. -/
def record (members : List (String × Json)) : Json :=
  .object (members.map fun (name, value) => (some name, value))

/-- An array with one item for each element. -/
def ofList {α : Type} (item : α → Json) (xs : List α) : Json :=
  .array (xs.map item)

/-! ## Checks on whole trees -/

mutual

/-- The text from which the value was read kept to the grammar. -/
def grammatical : Json → Bool
  | .array items => grammaticalItems items
  | .object members => grammaticalMembers members
  | .malformed => false
  | _ => true

/-- `grammatical` for all items of an array. -/
def grammaticalItems : List Json → Bool
  | [] => true
  | item :: items => item.grammatical && grammaticalItems items

/-- `grammatical` for all members of an object. -/
def grammaticalMembers : List (Option String × Json) → Bool
  | [] => true
  | (_, value) :: members => value.grammatical && grammaticalMembers members

end

mutual

/-- The value can be held in memory: the text kept to the grammar, every string is text, every
number is in the range of doubles, and arrays and objects are nested at most `depth` deep. -/
def storable (depth : Nat) : Json → Bool
  | .number n => n.toFloat.isFinite
  | .string text => text.isSome
  | .array items => depth ≠ 0 && storableItems (depth - 1) items
  | .object members => depth ≠ 0 && storableMembers (depth - 1) members
  | .malformed => false
  | _ => true

/-- `storable` for all items of an array. -/
def storableItems (depth : Nat) : List Json → Bool
  | [] => true
  | item :: items => item.storable depth && storableItems depth items

/-- `storable` for all members of an object. -/
def storableMembers (depth : Nat) : List (Option String × Json) → Bool
  | [] => true
  | (name, value) :: members =>
    name.isSome && value.storable depth && storableMembers depth members

end

end Json

end SetQubo
