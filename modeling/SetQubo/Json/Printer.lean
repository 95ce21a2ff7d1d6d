import SetQubo.Json.Basic
/-!
# Writing JSON

A value has two written forms, which differ in white space alone (`Layout`): compact text has
none, and indented text puts every item and member on a line of its own, two spaces further in
than its container. An empty array or object is written without anything inside in both.

Strings escape the quotation mark, the backslash and the characters below the space, and nothing
else. Exponents are always signed.
-/

namespace SetQubo.Json

/-! ## Numbers and strings -/

/-- An exponent, with its sign always written. -/
def writeExponent : Option Int → List Char
  | none => []
  | some e => 'e' :: (if e < 0 then '-' else '+') :: Nat.toDigits 10 e.natAbs

/-- The text of a number. -/
def writeNumber (n : Number) : List Char :=
  let sign := if n.negative then ['-'] else []
  let fraction := if n.fraction = [] then [] else '.' :: n.fraction
  sign ++ Nat.toDigits 10 n.whole ++ fraction ++ writeExponent n.exponent

/-- A character inside a string. -/
def writeChar (c : Char) : List Char :=
  if c = '"' then ['\\', '"']
  else if c = '\\' then ['\\', '\\']
  else if c = '\x08' then ['\\', 'b']
  else if c = '\t' then ['\\', 't']
  else if c = '\n' then ['\\', 'n']
  else if c = '\x0c' then ['\\', 'f']
  else if c = '\r' then ['\\', 'r']
  else if c.toNat < 0x20 then
    ['\\', 'u', '0', '0', Nat.digitChar (c.toNat / 16), Nat.digitChar (c.toNat % 16)]
  else [c]

/-- A string in quotation marks. One that has no text is written as half of a surrogate pair. -/
def writeString : Option String → List Char
  | some s => '"' :: s.toList.flatMap writeChar ++ ['"']
  | none => "\"\\ud800\"".toList

/-! ## White space -/

/-- The white space between the tokens of a value. -/
structure Layout where
  /-- What starts a line at a nesting depth. -/
  line : Nat → List Char
  /-- What follows a member's colon. -/
  afterColon : List Char

/-- No white space at all. -/
def Layout.compact : Layout := ⟨fun _ => [], []⟩

/-- A line for each item and member, indented by two spaces a level. -/
def Layout.indented : Layout := ⟨fun depth => '\n' :: List.replicate (2 * depth) ' ', [' ']⟩

/-! ## Values -/

mutual

/-- The text of a value that stands at a nesting depth. -/
def write (layout : Layout) (depth : Nat) : Json → List Char
  | .null => ['n', 'u', 'l', 'l']
  | .bool true => ['t', 'r', 'u', 'e']
  | .bool false => ['f', 'a', 'l', 's', 'e']
  | .number n => writeNumber n
  | .string text => writeString text
  | .array [] => ['[', ']']
  | .array (item :: items) =>
    '[' :: (layout.line (depth + 1) ++ write layout (depth + 1) item ++
      writeItems layout (depth + 1) items ++ layout.line depth ++ [']'])
  | .object [] => ['{', '}']
  | .object ((name, value) :: members) =>
    '{' :: (layout.line (depth + 1) ++ writeString name ++ ':' :: layout.afterColon ++
      write layout (depth + 1) value ++ writeMembers layout (depth + 1) members ++
      layout.line depth ++ ['}'])
  | .malformed => []

/-- The items of an array after the first one. -/
def writeItems (layout : Layout) (depth : Nat) : List Json → List Char
  | [] => []
  | item :: items =>
    ',' :: (layout.line depth ++ write layout depth item ++ writeItems layout depth items)

/-- The members of an object after the first one. -/
def writeMembers (layout : Layout) (depth : Nat) : List (Option String × Json) → List Char
  | [] => []
  | (name, value) :: members =>
    ',' :: (layout.line depth ++ writeString name ++ ':' :: layout.afterColon ++
      write layout depth value ++ writeMembers layout depth members)

end

/-- The text of a value without white space. -/
def compact (value : Json) : String :=
  String.ofList (write .compact 0 value)

/-- The text of a value on indented lines. -/
def indented (value : Json) : String :=
  String.ofList (write .indented 0 value)

end SetQubo.Json
