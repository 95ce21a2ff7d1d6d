import SetQubo.Json.Basic
import SetQubo.SetSpec.Basic
/-!
# Reading set specifications

The written form of a set is its elements with bars between them, such as `00|10|11`. The parts
between the bars are checked from left to right, each first for its width and then for its
characters; the width is that of the first part, and is checked before all else.
-/

namespace SetQubo

/-- Why a text does not describe a set. -/
inductive SetError where
  /-- The first part is empty. -/
  | emptySet
  /-- A part is not as wide as the first one. -/
  | widthMismatch (element first : String)
  /-- A part holds a character other than 0 and 1. -/
  | invalidCharacter (char : Char)
  /-- A value that is no text was given. -/
  | unsupportedInput (kind : String)
  /-- The first part is wider than an encoding. -/
  | widthTooLarge (width : Nat)
  deriving DecidableEq, Repr

/-- The message for an error. -/
def SetError.message : SetError → String
  | emptySet => "boolean set input cannot be empty"
  | widthMismatch element first =>
    "boolean set requires all elements have the same number of bits: element '" ++ element ++
      "' doesn't match first element '" ++ first ++ "'"
  | invalidCharacter char =>
    "boolean set element contains invalid character '" ++ char.toString ++ "'"
  | unsupportedInput kind => "boolean set currently does not support input type " ++ kind
  | widthTooLarge width =>
    "boolean set width " ++ toString width ++ " exceeds the maximum of " ++
      toString BitVector.maxWidth ++ " bits"

namespace SetSpec

/-- The characters of an element. -/
def isBinary (c : Char) : Bool := c = '0' || c = '1'

/-- The element that one part denotes, next to the first part of the text. -/
def readElement (first part : List Char) :
    Except SetError { x : BitVector // x.width = first.length } :=
  if h : part.length = first.length then
    match part.find? (!isBinary ·) with
    | some c => .error (.invalidCharacter c)
    | none => .ok ⟨⟨part.map (· = '1')⟩, by simp [BitVector.width, h]⟩
  else
    .error (.widthMismatch (String.ofList part) (String.ofList first))

/-- The set that a list of parts denotes. -/
def ofParts : List (List Char) → Except SetError SetSpec
  | [] => .error .emptySet
  | first :: others =>
    if hpos : first.length = 0 then .error .emptySet
    else if hle : first.length ≤ BitVector.maxWidth then do
      let elements ← (first :: others).mapM (readElement first)
      return {
        width := first.length
        elements := elements.map (·.val)
        width_pos := by omega
        width_le := hle
        width_eq := by
          intro x hx
          obtain ⟨y, _, rfl⟩ := List.mem_map.1 hx
          exact y.property }
    else .error (.widthTooLarge first.length)

/-- The set that a text describes. -/
def parse (text : String) : Except SetError SetSpec :=
  ofParts (text.toList.splitOn '|')

/-- The set that a JSON value describes, which must be a text. Numbers written as integers that
fit in sixty-four bits, with or without a sign, are called integers, and all others floats. -/
def ofJson : Json → Except SetError SetSpec
  | .string (some text) => parse text
  | .string none => .error (.unsupportedInput "string")
  | .null => .error (.unsupportedInput "null")
  | .bool _ => .error (.unsupportedInput "bool")
  | .number n =>
    match n.toInt? with
    | some i =>
      if Int64.minValue.toInt ≤ i ∧ i < UInt64.size then .error (.unsupportedInput "int")
      else .error (.unsupportedInput "float")
    | none => .error (.unsupportedInput "float")
  | .array _ => .error (.unsupportedInput "array")
  | .object _ => .error (.unsupportedInput "object")
  | .malformed => .error (.unsupportedInput "text")

end SetSpec

end SetQubo
