import SetQubo.Json.Grammar
/-!
# Reading values from JSON

A reader turns a tree into a value of the library, or names the first fault in text order. The
readers below are the building blocks; each type that has a JSON form puts its own together from
them.

## Records

A record is an object with a member for each field, in any order, or an array with the fields in
their order of declaration. Members with other names are passed over, and checked for nothing but
the grammar. A `Record` collects its fields; of several faults it reports the one that stands
first in the text, and a missing field counts as a fault at the end.
-/

namespace SetQubo.Json

/-- Why a text does not denote a value of the wanted type. -/
inductive Fault where
  /-- The text is not JSON. -/
  | malformed
  /-- A value of another kind, or outside the range of its type. -/
  | unexpected
  /-- A field is not there. -/
  | missing (field : String)
  /-- A field is there twice. -/
  | repeated (field : String)
  /-- A bit vector holds a value other than 0 and 1. -/
  | notBinary
  deriving DecidableEq, Repr

/-- The message for a fault, where the fault has one of its own. -/
def Fault.message? : Fault → Option String
  | .notBinary => some "bit vector values must be 0 or 1"
  | _ => none

/-- Reads a value of type `α` from a tree. -/
abbrev Reader (α : Type) := Json → Except Fault α

/-- The fault of a value that is not of the wanted kind. -/
def faultOf : Json → Fault
  | .malformed => .malformed
  | _ => .unexpected

/-! ## Single values -/

/-- A truth value. -/
def toBool : Reader Bool
  | .bool b => .ok b
  | other => .error (faultOf other)

/-- A text. -/
def toText : Reader String
  | .string (some s) => .ok s
  | other => .error (faultOf other)

/-- A natural number below `bound`, written as an integer. -/
def toNat (bound : Nat) : Reader Nat
  | .number n =>
    match n.toNat? with
    | some k => if k < bound then .ok k else .error .unexpected
    | none => .error .unexpected
  | other => .error (faultOf other)

/-- A number that fits in eight bits. -/
def toByte : Reader UInt8 := fun json => (toNat UInt8.size json).map UInt8.ofNat

/-- A number that fits in sixty-four bits. -/
def toWord : Reader UInt64 := fun json => (toNat UInt64.size json).map UInt64.ofNat

/-- A signed number that fits in sixty-four bits. -/
def toInteger : Reader Int
  | .number n =>
    match n.toInt? with
    | some k => if Int64.minValue.toInt ≤ k ∧ k ≤ Int64.maxValue.toInt then .ok k else .error .unexpected
    | none => .error .unexpected
  | other => .error (faultOf other)

/-- A finite double. -/
def toFloat : Reader Float
  | .number n => if n.toFloat.isFinite then .ok n.toFloat else .error .unexpected
  | other => .error (faultOf other)

/-! ## Sequences -/

/-- An array of values of one type. -/
def toList {α : Type} (item : Reader α) : Reader (List α)
  | .array items => items.mapM item
  | other => .error (faultOf other)

/-- An array of exactly two values. -/
def toPair {α β : Type} (first : Reader α) (second : Reader β) : Reader (α × β)
  | .array (a :: rest) => do
    let x ← first a
    match rest with
    | b :: rest =>
      let y ← second b
      if rest = [] then return (x, y) else throw .unexpected
    | [] => throw .unexpected
  | other => .error (faultOf other)

/-! ## Choices -/

/-- Where a value is read from. -/
inductive Source where
  /-- A text, which is read as it goes. -/
  | text
  /-- The memory, where the whole value is at hand. -/
  | memory
  deriving DecidableEq, Repr

/-- An object with exactly one member, the name of which says how its value is read.

In a text the member is read before it is known whether another one follows, so a fault inside it
comes first. In memory the shape is checked first, and a repeated name has only its last value. -/
def toChoice {α : Type} (source : Source) (alternative : Option String → Reader α) : Reader α
  | .object members =>
    match source with
    | .text =>
      match members with
      | (name, value) :: others => do
        let a ← alternative name value
        if others.isEmpty then return a else throw .unexpected
      | [] => throw .unexpected
    | .memory =>
      match members.getLast? with
      | some (name, value) =>
        if members.all fun (other, _) => other == name then alternative name value
        else throw .unexpected
      | none => throw .unexpected
  | other => .error (faultOf other)

/-! ## Records -/

/-- A member of a record: its place in the text, its name and its value. -/
abbrev Member := Nat × Option String × Json

/-- Reads the fields of a record, each by its name. -/
structure Record (α : Type) where
  /-- The names of the fields, in their order of declaration. -/
  names : List String
  /-- The value of the record, or a fault and its place. -/
  read : List Member → Except (Nat × Fault) α

namespace Record

/-- Joins two results; of two faults the one that stands first remains. -/
def combine {α β γ : Type} (f : α → β → γ) :
    Except (Nat × Fault) α → Except (Nat × Fault) β → Except (Nat × Fault) γ
  | .ok a, .ok b => .ok (f a b)
  | .error e, .ok _ => .error e
  | .ok _, .error e => .error e
  | .error e, .error e' => .error (if e'.1 < e.1 then e' else e)

instance : Applicative Record where
  pure a := ⟨[], fun _ => .ok a⟩
  seq f x :=
    let x := x ()
    ⟨f.names ++ x.names, fun members => combine id (f.read members) (x.read members)⟩

/-- The field with a name, which must be there once. -/
def field {α : Type} (name : String) (decode : Reader α) : Record α where
  names := [name]
  read members :=
    match members.filter fun (_, key, _) => key == some name with
    | [] => .error (members.length, .missing name)
    | (place, _, value) :: others =>
      match decode value, others with
      | .error fault, _ => .error (place, fault)
      | .ok a, [] => .ok a
      | .ok _, (place, _) :: _ => .error (place, .repeated name)

/-- The members that are no fields: their names must be text, and their values keep to the
grammar. -/
def strays (names : List String) (members : List Member) : Except (Nat × Fault) Unit :=
  let faulty := members.find? fun (_, key, value) =>
    match key with
    | some name => !names.contains name && !value.grammatical
    | none => true
  match faulty with
  | some (place, _) => .error (place, .malformed)
  | none => .ok ()

/-- The members of a record in text order. In an array the fields stand without their names, and
what stands behind the last field has none. -/
def members? (names : List String) : Json → Except Fault (List (Option String × Json))
  | .object members => .ok members
  | .array items =>
    .ok (items.zipIdx.map fun (item, i) => (names[i]?, item))
  | other => .error (faultOf other)

/-- The reader of a record. -/
def decode {α : Type} (record : Record α) : Reader α := fun json => do
  let members := (← members? record.names json).zipIdx.map fun ((key, value), place) =>
    (place, key, value)
  match combine (fun a _ => a) (record.read members) (strays record.names members) with
  | .ok a => return a
  | .error (_, fault) => throw fault

end Record

/-! ## Whole texts -/

/-- Decodes a text that holds one value and nothing else but white space. -/
def decodeText {α : Type} (decode : Reader α) (text : String) : Except Fault α := do
  let (json, rest) := parse text.toList
  let a ← decode json
  if skipBlank rest = [] then return a else throw .malformed

/-- How deep a value that is held in memory may be nested. -/
def nestingLimit : Nat := 127

/-- Any value that can be held in memory. -/
def toValue : Reader Json := fun json =>
  if json.storable nestingLimit then .ok json else .error .malformed

end SetQubo.Json
