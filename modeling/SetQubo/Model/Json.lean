import SetQubo.Json.Codec
import SetQubo.Json.Printer
import SetQubo.Model.Basic
/-!
# The JSON form of models

A table is an array of entries `[key, coefficient]`, so that the order of insertion survives, and
a pair is the array of its two labels. A model is a record of its two tables. When a table is
read, repeated keys accumulate and the first written form of a pair remains.
-/

namespace SetQubo

open Json (Codec Reader Fault Record)

instance {V : Type} [Codec V] : Codec (Pair V) where
  encode p := .array [Codec.encode p.first, Codec.encode p.second]
  decode json := (Json.toPair Codec.decode Codec.decode json).map fun (a, b) => ⟨a, b⟩
  decode_encode p := by
    simp only [Json.toPair, Codec.decode_encode, bind, Except.bind]
    rfl

namespace Table

variable {K : Type} [Key K] [Codec K]

/-- The array of the entries. -/
def toJson (t : Table K Float) : Json :=
  Json.ofList (fun (k, c) => .array [Codec.encode k, .ofFloat c]) t.toList

/-- Reads an array of entries and adds them up. -/
def ofJson : Reader (Table K Float) := fun json =>
  (Json.toList (Json.toPair Codec.decode Json.toFloat) json).map ofList

/-- Reads the text of a table. -/
def ofText (text : String) : Except Fault (Table K Float) :=
  Json.decodeText ofJson text

end Table

namespace Model

variable {V : Type} [Label V] [Codec V]

/-- The record of both tables. -/
def toJson (m : Model V Float) : Json :=
  .record [("linear", m.linear.toJson), ("quadratic", m.quadratic.toJson)]

/-- The fields of a model. -/
def record : Record (Model V Float) :=
  Model.mk <$> .field "linear" Table.ofJson <*> .field "quadratic" Table.ofJson

/-- The indented text of a model. -/
def toText (m : Model V Float) : String := m.toJson.indented

/-- The text of a model on one line. -/
def toCompactText (m : Model V Float) : String := m.toJson.compact

/-- Reads the text of a model. -/
def ofText (text : String) : Except Fault (Model V Float) :=
  Json.decodeText record.decode text

end Model

end SetQubo
