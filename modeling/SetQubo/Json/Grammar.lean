import SetQubo.Json.Basic
/-!
# Reading JSON

`Json.parse` reads one value from the front of a text and returns the rest. It never fails: where
the text breaks the grammar, the tree ends in `malformed` and the rest is dropped, so that the
containers around the break end there as well.

The grammar is the strict one. There are no comments, no trailing commas, no leading zeros or plus
signs, and no control characters inside strings; white space is the space, the tab, the line feed
and the carriage return.
-/

namespace SetQubo.Json

/-! ## Tokens -/

/-- White space between tokens. -/
def isBlank (c : Char) : Bool :=
  c = ' ' || c = '\t' || c = '\n' || c = '\r'

/-- The text after its leading white space. -/
def skipBlank (cs : List Char) : List Char :=
  cs.dropWhile isBlank

/-- The value of a hexadecimal digit, of either letter case. -/
def hexDigit? (c : Char) : Option Nat :=
  if c.isDigit then some (c.toNat - '0'.toNat)
  else if 'a' ≤ c ∧ c ≤ 'f' then some (c.toNat - 'a'.toNat + 10)
  else if 'A' ≤ c ∧ c ≤ 'F' then some (c.toNat - 'A'.toNat + 10)
  else none

/-- The number that four hexadecimal digits name. -/
def hexUnit? (a b c d : Char) : Option Nat := do
  return (← hexDigit? a) * 4096 + (← hexDigit? b) * 256 + (← hexDigit? c) * 16 + (← hexDigit? d)

/-- The character that a one-letter escape stands for. -/
def escaped? (c : Char) : Option Char :=
  if c = '"' ∨ c = '\\' ∨ c = '/' then some c
  else if c = 'b' then some '\x08'
  else if c = 'f' then some '\x0c'
  else if c = 'n' then some '\n'
  else if c = 'r' then some '\r'
  else if c = 't' then some '\t'
  else none

/-- The numbers of the characters of a string up to its closing quotation mark, and the rest of
the text. Each numeric escape counts on its own, so halves of surrogate pairs occur here. -/
def stringUnits? : List Char → Option (List Nat × List Char)
  | [] => none
  | '"' :: cs => some ([], cs)
  | '\\' :: 'u' :: a :: b :: c :: d :: cs => do
    let unit ← hexUnit? a b c d
    let (units, rest) ← stringUnits? cs
    return (unit :: units, rest)
  | '\\' :: c :: cs => do
    let char ← escaped? c
    let (units, rest) ← stringUnits? cs
    return (char.toNat :: units, rest)
  | c :: cs =>
    if c.toNat < 0x20 ∨ c = '\\' then none
    else do
      let (units, rest) ← stringUnits? cs
      return (c.toNat :: units, rest)

/-- The first half of a surrogate pair. -/
def isLeading (unit : Nat) : Bool := 0xD800 ≤ unit && unit < 0xDC00

/-- The second half of a surrogate pair. -/
def isTrailing (unit : Nat) : Bool := 0xDC00 ≤ unit && unit < 0xE000

/-- The characters of a string, each surrogate pair joined into one; none if a half is alone. -/
def joinUnits? : List Nat → Option (List Char)
  | [] => some []
  | unit :: units =>
    if isLeading unit then
      match units with
      | next :: units =>
        if isTrailing next then
          (joinUnits? units).map
            (Char.ofNat (0x10000 + (unit - 0xD800) * 0x400 + (next - 0xDC00)) :: ·)
        else none
      | [] => none
    else if isTrailing unit then none
    else (joinUnits? units).map (Char.ofNat unit :: ·)

/-- The content of a string behind its opening quotation mark, and the rest of the text. -/
def stringBody? (cs : List Char) : Option (Option String × List Char) :=
  (stringUnits? cs).map fun (units, rest) => ((joinUnits? units).map String.ofList, rest)

/-- The digits behind a point, if there is a point. -/
def fraction? : List Char → Option (List Char × List Char)
  | '.' :: cs =>
    let digits := cs.takeWhile Char.isDigit
    if digits = [] then none else some (digits, cs.dropWhile Char.isDigit)
  | cs => some ([], cs)

/-- The exponent behind its mark, if there is a mark. -/
def exponent? : List Char → Option (Option Int × List Char)
  | [] => some (none, [])
  | c :: cs =>
    if c = 'e' ∨ c = 'E' then
      let (negative, cs) := Decimal.takeSign cs
      let digits := cs.takeWhile Char.isDigit
      let n : Int := Nat.ofDigitChars 10 digits 0
      if digits = [] then none
      else some (some (if negative then -n else n), cs.dropWhile Char.isDigit)
    else some (none, c :: cs)

/-- A number and the rest of the text. -/
def number? (cs : List Char) : Option (Number × List Char) := do
  let (negative, cs) := match cs with
    | '-' :: cs => (true, cs)
    | cs => (false, cs)
  let whole := cs.takeWhile Char.isDigit
  guard (whole = ['0'] ∨ (whole ≠ [] ∧ whole.head? ≠ some '0'))
  let (fraction, cs) ← fraction? (cs.dropWhile Char.isDigit)
  let (exponent, cs) ← exponent? cs
  return (⟨negative, Nat.ofDigitChars 10 whole 0, fraction, exponent⟩, cs)

/-! ## Values -/

mutual

/-- The value at the front of a text and the rest, by at most `fuel` nested calls. -/
def parseValue : Nat → List Char → Json × List Char
  | 0, _ => (.malformed, [])
  | fuel + 1, cs =>
    match skipBlank cs with
    | 'n' :: 'u' :: 'l' :: 'l' :: cs => (.null, cs)
    | 't' :: 'r' :: 'u' :: 'e' :: cs => (.bool true, cs)
    | 'f' :: 'a' :: 'l' :: 's' :: 'e' :: cs => (.bool false, cs)
    | '"' :: cs =>
      match stringBody? cs with
      | some (text, cs) => (.string text, cs)
      | none => (.malformed, [])
    | '[' :: cs =>
      match skipBlank cs with
      | ']' :: cs => (.array [], cs)
      | cs =>
        let (items, cs) := parseItems fuel cs
        (.array items, cs)
    | '{' :: cs =>
      match skipBlank cs with
      | '}' :: cs => (.object [], cs)
      | cs =>
        let (members, cs) := parseMembers fuel cs
        (.object members, cs)
    | cs =>
      match number? cs with
      | some (n, cs) => (.number n, cs)
      | none => (.malformed, [])

/-- The items of an array up to its closing bracket, at least one. -/
def parseItems : Nat → List Char → List Json × List Char
  | 0, _ => ([.malformed], [])
  | fuel + 1, cs =>
    let (item, cs) := parseValue fuel cs
    match skipBlank cs with
    | ']' :: cs => ([item], cs)
    | ',' :: cs =>
      let (items, cs) := parseItems fuel cs
      (item :: items, cs)
    | _ => ([item, .malformed], [])

/-- The members of an object up to its closing brace, at least one. -/
def parseMembers : Nat → List Char → List (Option String × Json) × List Char
  | 0, _ => ([(none, .malformed)], [])
  | fuel + 1, cs =>
    match skipBlank cs with
    | '"' :: cs =>
      match stringBody? cs with
      | none => ([(none, .malformed)], [])
      | some (name, cs) =>
        match skipBlank cs with
        | ':' :: cs =>
          let (value, cs) := parseValue fuel cs
          match skipBlank cs with
          | '}' :: cs => ([(name, value)], cs)
          | ',' :: cs =>
            let (members, cs) := parseMembers fuel cs
            ((name, value) :: members, cs)
          | _ => ([(name, value), (none, .malformed)], [])
        | _ => ([(name, .malformed)], [])
    | _ => ([(none, .malformed)], [])

end

/-- The value at the front of a text and the rest. Every second nested call takes a character, so
the fuel lasts. -/
def parse (cs : List Char) : Json × List Char :=
  parseValue (2 * cs.length + 2) cs

end SetQubo.Json
