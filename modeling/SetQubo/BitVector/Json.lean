import SetQubo.BitVector.Basic
import SetQubo.Json.Codec
/-!
# The JSON form of bit vectors

A bit vector is an array of its values. An array of bytes with another value than 0 and 1 has a
fault of its own, found at the end of the array.
-/

namespace SetQubo.BitVector

open Json (Reader Fault)

/-- The array of the values. -/
def toJson (x : BitVector) : Json := Json.ofList (fun b => .ofNat (valueOf b).toNat) x.bits

/-- Reads an array of zeros and ones. -/
def ofJson : Reader BitVector := fun json => do
  match ofValues? (← Json.toList Json.toByte json) with
  | some x => return x
  | none => throw .notBinary

/-- The bytes of a written vector. -/
theorem toList_toJson (x : BitVector) :
    Json.toList Json.toByte x.toJson = .ok x.values := by
  obtain ⟨bits⟩ := x
  simp only [toJson, values, Json.ofList, Json.toList]
  induction bits with
  | nil => rfl
  | cons b bits ih =>
    have hb : Json.toByte (.ofNat (valueOf b).toNat) = .ok (valueOf b) := by
      cases b <;> rfl
    simp only [List.map_cons, List.mapM_cons, hb, ih]
    rfl

/-- The values of a vector make up the vector. -/
theorem ofValues?_values (x : BitVector) : ofValues? x.values = some x := by
  obtain ⟨bits⟩ := x
  have hall : (bits.map valueOf).all (· ≤ 1) = true := by
    simp only [List.all_map, List.all_eq_true]
    intro b _
    cases b <;> rfl
  have hbits : (bits.map valueOf).map (fun n => decide (n = 1)) = bits := by
    rw [List.map_map]
    refine (List.map_congr_left fun b _ => ?_).trans (List.map_id bits)
    cases b <;> rfl
  simp only [ofValues?, values, if_pos hall, hbits]

instance : Json.Codec BitVector where
  encode := toJson
  decode := ofJson
  decode_encode x := by
    simp only [ofJson, toList_toJson, bind, Except.bind, ofValues?_values]
    rfl

end SetQubo.BitVector
