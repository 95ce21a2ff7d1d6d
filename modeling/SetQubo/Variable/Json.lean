import SetQubo.BitVector.Json
import SetQubo.Variable.Basic
/-!
# The JSON form of variables

A variable is an object with one member, named `bit` or `indicator` after its kind.
-/

namespace SetQubo.Variable

open Json (Reader Fault)

/-- The object for a variable. -/
def toJson : Variable → Json
  | bit i => .record [("bit", .ofNat i.toNat)]
  | indicator x => .record [("indicator", x.toJson)]

/-- Reads the value of the member with a given name. -/
def ofMember (name : Option String) : Reader Variable := fun json =>
  match name with
  | some "bit" => (Json.toWord json).map .bit
  | some "indicator" => (BitVector.ofJson json).map .indicator
  | _ => .error .unexpected

/-- Reads a variable from the tree of a text. -/
def ofJson : Reader Variable := Json.toChoice .text ofMember

/-- Reads a variable from a value in memory. -/
def ofValue : Reader Variable := Json.toChoice .memory ofMember

/-- A written variable reads back, wherever it is read from. -/
theorem toChoice_toJson (source : Json.Source) (v : Variable) :
    Json.toChoice source ofMember v.toJson = .ok v := by
  cases v with
  | bit i =>
    have hi : ofMember (some "bit") (.ofNat i.toNat) = .ok (.bit i) := by
      simp only [ofMember, Json.toWord_ofNat]
      rfl
    cases source with
    | text =>
      simp only [toJson, Json.record, List.map_cons, List.map_nil, Json.toChoice, hi]
      rfl
    | memory => exact hi
  | indicator x =>
    have hx : ofMember (some "indicator") x.toJson = .ok (.indicator x) := by
      have hread : BitVector.ofJson x.toJson = .ok x := Json.Codec.decode_encode x
      simp only [ofMember, hread]
      rfl
    cases source with
    | text =>
      simp only [toJson, Json.record, List.map_cons, List.map_nil, Json.toChoice, hx]
      rfl
    | memory => exact hx

instance : Json.Codec Variable where
  encode := toJson
  decode := ofJson
  decode_encode := toChoice_toJson .text

end SetQubo.Variable
