import SetQubo.Json.Reader
/-!
# Types with a JSON form

A `Codec` writes the values of a type as JSON and reads them back. What it writes is what it
reads: `decode_encode` is part of it, so a label keeps its identity through a text.
-/

namespace SetQubo.Json

/-- A type whose values have a JSON form that reads back. -/
class Codec (α : Type) where
  /-- The JSON form of a value. -/
  encode : α → Json
  /-- Reads a JSON form. -/
  decode : Reader α
  /-- What is written reads back. -/
  decode_encode (a : α) : decode (encode a) = .ok a

instance : Codec String where
  encode := ofString
  decode := toText
  decode_encode _ := rfl

/-- Writing an integer and reading it back changes nothing. -/
theorem Number.toInt?_ofInt (n : Int) : (Number.ofInt n).toInt? = some n := by
  cases n with
  | ofNat k =>
    have hsign : decide (Int.ofNat k < 0) = false := decide_eq_false (by simp)
    rw [Number.ofInt, hsign]
    rfl
  | negSucc k =>
    have hsign : decide (Int.negSucc k < 0) = true := decide_eq_true (Int.negSucc_lt_zero k)
    rw [Number.ofInt, hsign]
    rfl

/-- Writing a number below the bound and reading it back changes nothing. -/
theorem toNat_ofNat {bound n : Nat} (h : n < bound) : toNat bound (ofNat n) = .ok n :=
  if_pos h

/-- Writing a word and reading it back changes nothing. -/
theorem toWord_ofNat (n : UInt64) : toWord (ofNat n.toNat) = .ok n := by
  rw [toWord, toNat_ofNat n.toNat_lt]
  exact congrArg Except.ok n.ofNat_toNat

/-- Writing a byte and reading it back changes nothing. -/
theorem toByte_ofNat (n : UInt8) : toByte (ofNat n.toNat) = .ok n := by
  rw [toByte, toNat_ofNat n.toNat_lt]
  exact congrArg Except.ok n.ofNat_toNat

instance : Codec Int64 where
  encode i := ofInt i.toInt
  decode json := (toInteger json).map Int64.ofInt
  decode_encode i := by
    have hread : toInteger (ofInt i.toInt) = .ok i.toInt := by
      simp only [toInteger, ofInt, Number.toInt?_ofInt]
      exact if_pos ⟨i.minValue_le_toInt, i.toInt_le⟩
    rw [hread]
    exact congrArg Except.ok i.ofInt_toInt

end SetQubo.Json
