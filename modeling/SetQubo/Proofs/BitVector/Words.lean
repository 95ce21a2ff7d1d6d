import Mathlib.Data.Finset.Card
import Mathlib.Data.List.Basic
import SetQubo.BitVector.Json
import SetQubo.Proofs.BitVector.Encoding
import SetQubo.Proofs.BitVector.Ones
import SetQubo.Proofs.BitVector.Values
import SetQubo.Proofs.Digits
/-!
# Vectors and words

A vector that is not wider than a word is encoded without loss: the positions of its ones are the
places of the digits that are on. So whatever is asked of vectors of one width can be asked of their
encodings instead, and a word that is read at a width is encoded again as its lowest digits.

Vectors come from several sources, some of which may hold other numbers than 0 and 1. `MadeOf` lists
the sources together with the numbers that they hold; whatever vector comes out has those values, so
all of them are zeros and ones.
-/

namespace SetQubo

namespace BitVector

variable {x y : BitVector} {width : Nat}

/-! ## What vectors are made of -/

/-- The sources of vectors, and the values that each vector is made of. -/
inductive MadeOf : List UInt8 → BitVector → Prop where
  /-- A row of truth values, with a one for each that is true. -/
  | bits (bits : List Bool) : MadeOf (bits.map fun b => if b then 1 else 0) ⟨bits⟩
  /-- As many zeros as the width says. -/
  | zeros (width : Nat) : MadeOf (List.replicate width 0) (zeros width)
  /-- A row of numbers, if it is accepted. -/
  | values {values : List UInt8} {x : BitVector} (h : ofValues? values = some x) : MadeOf values x
  /-- The digits of a word, each shifted to the end. -/
  | digits (n : UInt64) {width : Nat} (hwidth : width ≤ maxWidth) :
    MadeOf ((List.range width).map fun i => ((n >>> UInt64.ofNat i) &&& 1).toUInt8)
      (decode n width)
  /-- The bytes of a JSON array, if a vector is read from it. -/
  | read {json : Json} {values : List UInt8} {x : BitVector}
    (hbytes : Json.toList Json.toByte json = .ok values) (h : ofJson json = .ok x) :
    MadeOf values x

theorem valueOf_eq_zero_or_one (b : Bool) : valueOf b = 0 ∨ valueOf b = 1 := by
  cases b
  · exact Or.inl rfl
  · exact Or.inr rfl

/-- Numbers are accepted if they are the values of a vector, which is made of them then. -/
theorem ofValues?_eq_some_iff {values : List UInt8} :
    ofValues? values = some x ↔ x.values = values := by
  constructor
  · intro h
    unfold ofValues? at h
    split at h
    · next hall =>
      obtain rfl := Option.some.inj h
      rw [List.all_eq_true] at hall
      show (values.map fun value => decide (value = 1)).map valueOf = values
      rw [List.map_map]
      refine (List.map_congr_left fun value hvalue => ?_).trans (List.map_id values)
      rcases le_one_iff.mp (of_decide_eq_true (hall value hvalue)) with rfl | rfl
      · rfl
      · rfl
    · cases h
  · rintro rfl
    exact ofValues?_values x

/-- The digits of a word are the values of the vector that is read from it. -/
theorem values_decode (n : UInt64) (hwidth : width ≤ maxWidth) :
    (decode n width).values =
      (List.range width).map fun i => ((n >>> UInt64.ofNat i) &&& 1).toUInt8 := by
  rw [values_eq_map_range (width_decode n width)]
  apply List.map_congr_left
  intro i hi
  rw [List.mem_range] at hi
  have hset : (decode n width).isSet i = n.toNat.testBit i := by
    show (decodeBits n width)[i]?.getD false = _
    rw [getElem?_decodeBits, if_pos hi]
    rfl
  rw [hset, shiftRight_and_one n (Nat.lt_of_lt_of_le hi hwidth)]
  cases n.toNat.testBit i with
  | false => rfl
  | true => rfl

/-- **A vector has the values that it was made of**, whichever its source. -/
theorem MadeOf.values_eq {values : List UInt8} (h : MadeOf values x) : x.values = values := by
  cases h with
  | bits bits => rfl
  | zeros width => exact List.map_replicate
  | values h => exact ofValues?_eq_some_iff.mp h
  | digits n hwidth => exact values_decode n hwidth
  | read hbytes h =>
    -- The bytes are accepted as values, or else nothing would have been read.
    apply ofValues?_eq_some_iff.mp
    simp only [ofJson, hbytes, bind, Except.bind] at h
    split at h
    · next hvalues =>
      cases h
      exact hvalues
    · cases h

/-! ## Digits -/

/-- A position that is too far on the right holds no one. -/
theorem isSet_eq_false {i : Nat} (hi : x.width ≤ i) : x.isSet i = false := by
  unfold isSet
  rw [List.getElem?_eq_none hi]
  rfl

/-- Position 0 is the least significant one. -/
theorem testBit_encode (hwidth : x.width ≤ maxWidth) (i : Nat) :
    x.encode.toNat.testBit i = x.isSet i := by
  show (encodeBits x.bits).toNat.testBit i = _
  rw [testBit_encodeBits]
  by_cases hi : i < 64
  · simp [hi, isSet]
  · have hbehind : x.width ≤ i := hwidth.trans (Nat.not_lt.mp hi)
    simp [hi, isSet_eq_false hbehind]

/-- An encoding has the digits on which stand at the positions of the ones. -/
theorem encode_eq_wordOf (hwidth : x.width ≤ maxWidth) :
    x.encode = wordOf ((List.range x.width).filter x.isSet) := by
  apply eq_of_testBit_toNat
  intro i
  have hplaces : ∀ j ∈ (List.range x.width).filter x.isSet, j < 64 := by
    intro j hj
    exact Nat.lt_of_lt_of_le (List.mem_range.mp (List.mem_filter.mp hj).1) hwidth
  rw [testBit_encode hwidth, testBit_wordOf hplaces, Bool.eq_iff_iff, List.contains_iff_mem,
    List.mem_filter, List.mem_range, and_iff_right_of_imp]
  intro hset
  by_contra hi
  rw [isSet_eq_false (Nat.not_lt.mp hi)] at hset
  cases hset

/-- **A word that is read at a width is encoded again as its lowest digits.** -/
theorem toNat_encode_decode (n : UInt64) (hwidth : width ≤ maxWidth) :
    (decode n width).encode.toNat = n.toNat % 2 ^ width := by
  apply Nat.eq_of_testBit_eq
  intro i
  rw [testBit_encode ((width_decode n width).le.trans hwidth), Nat.testBit_mod_two_pow]
  show (decodeBits n width)[i]?.getD false = _
  rw [getElem?_decodeBits]
  by_cases hi : i < width
  · simp [hi]
  · simp [hi]

/-- There are as many ones as digits that are on. -/
theorem onesCount_eq_cpop (hwidth : x.width ≤ maxWidth) :
    x.onesCount = x.encode.toBitVec.cpop.toNat := by
  have hones : x.ones = (Finset.range 64).filter fun i => x.encode.toNat.testBit i := by
    ext i
    rw [mem_ones, Finset.mem_filter, Finset.mem_range, testBit_encode hwidth,
      and_iff_right_of_imp]
    intro hset
    by_contra hi
    rw [isSet_eq_false (hwidth.trans (Nat.not_lt.mp hi))] at hset
    cases hset
  rw [← card_ones, toNat_cpop, hones]

theorem isZero_iff_encode (hwidth : x.width ≤ maxWidth) : x.isZero = true ↔ x.encode = 0 := by
  rw [isZero_iff]
  constructor
  · intro hzero
    rw [hzero, encode_zeros]
  · intro hencode
    exact encode_inj (width_zeros x.width).symm hwidth (hencode.trans (encode_zeros _).symm)

/-- A vector covers another one if its encoding contains the other's. -/
theorem covers_iff_encode (hwidth : x.width = y.width) (hle : x.width ≤ maxWidth) :
    x.covers y = true ↔ y.encode &&& x.encode = y.encode := by
  rw [covers_iff hwidth, UInt64.and_comm, and_eq_right_iff, Finset.subset_iff]
  simp only [mem_ones, testBit_encode hle, testBit_encode (hwidth ▸ hle : y.width ≤ maxWidth)]

/-! ## Vectors of one width -/

/-- Vectors of one width and words are two forms of the same. -/
structure InWords (width : Nat) : Prop where
  /-- A vector has the values that it was made of, and these are zeros and ones. -/
  binary {values : List UInt8} {x : BitVector} (h : MadeOf values x) (hx : x.width = width) :
    x.values = values ∧ ∀ value ∈ values, value = 0 ∨ value = 1
  /-- The encoding is made up of the digits at the positions of the ones. -/
  encode_eq {x : BitVector} (hx : x.width = width) :
    x.encode = wordOf ((List.range width).filter x.isSet)
  /-- Read back, the encoding is the vector. -/
  decode_encode {x : BitVector} (hx : x.width = width) : decode x.encode width = x
  /-- A vector that is read from a word has the width. -/
  width_decode (n : UInt64) : (decode n width).width = width
  /-- Encoded again, it gives the lowest digits of the word, as many as the width says. -/
  encode_decode (n : UInt64) : (decode n width).encode.toNat = n.toNat % 2 ^ width
  /-- There are as many ones as digits that are on. -/
  onesCount_eq {x : BitVector} (hx : x.width = width) :
    x.onesCount = x.encode.toBitVec.cpop.toNat
  /-- The zero vector is the one with the encoding 0. -/
  isZero_iff {x : BitVector} (hx : x.width = width) : x.isZero = true ↔ x.encode = 0
  /-- A vector covers another one if its encoding contains the other's. -/
  covers_iff {x y : BitVector} (hx : x.width = width) (hy : y.width = width) :
    x.covers y = true ↔ y.encode &&& x.encode = y.encode
  /-- Each vector covers itself. -/
  covers_refl {x : BitVector} (hx : x.width = width) : x.covers x = true
  /-- What a covered vector covers is covered. -/
  covers_trans {x y z : BitVector} (hx : x.width = width) (hy : y.width = width)
    (hz : z.width = width) (hxy : x.covers y = true) (hyz : y.covers z = true) :
    x.covers z = true
  /-- No two different vectors cover each other. -/
  covers_antisymm {x y : BitVector} (hx : x.width = width) (hy : y.width = width) (hne : x ≠ y) :
    ¬(x.covers y = true ∧ y.covers x = true)

/-- **Vectors are no wider than words, so nothing is lost in them**: up to the widest one, vectors
of each width are told by their encodings, and covering is the order of containment. -/
theorem vectors_in_words (hwidth : width ≤ maxWidth) : InWords width := by
  constructor
  case binary =>
    intro values x h _
    refine ⟨h.values_eq, ?_⟩
    rw [← h.values_eq]
    intro value hvalue
    obtain ⟨b, -, rfl⟩ := List.mem_map.mp hvalue
    exact valueOf_eq_zero_or_one b
  case encode_eq =>
    rintro x rfl
    exact encode_eq_wordOf hwidth
  case decode_encode =>
    rintro x rfl
    exact BitVector.decode_encode x hwidth
  case width_decode => exact fun n => BitVector.width_decode n width
  case encode_decode => exact fun n => toNat_encode_decode n hwidth
  case onesCount_eq =>
    rintro x rfl
    exact onesCount_eq_cpop hwidth
  case isZero_iff =>
    rintro x rfl
    exact isZero_iff_encode hwidth
  case covers_iff =>
    rintro x y rfl hy
    exact covers_iff_encode hy.symm hwidth
  case covers_refl =>
    intro x _
    exact (BitVector.covers_iff rfl).mpr (Finset.Subset.refl _)
  case covers_trans =>
    rintro x y z rfl hy hz hxy hyz
    rw [BitVector.covers_iff hy.symm] at hxy
    rw [BitVector.covers_iff (hy.trans hz.symm)] at hyz
    exact (BitVector.covers_iff hz.symm).mpr (hyz.trans hxy)
  case covers_antisymm =>
    rintro x y rfl hy hne ⟨hxy, hyx⟩
    exact hne (BitVector.covers_antisymm hy.symm hxy hyx)

/-- The widest vector without a zero. -/
def allOnes : BitVector := ⟨List.replicate maxWidth true⟩

/-- At the full width no shift loses a digit: the largest word is the vector without a zero. -/
theorem vectors_in_words_full_width :
    maxWidth ≤ maxWidth ∧ allOnes.width = maxWidth ∧ allOnes.encode = 0xFFFFFFFFFFFFFFFF ∧
      decode 0xFFFFFFFFFFFFFFFF maxWidth = allOnes ∧
      (decode 0xFFFFFFFFFFFFFFFF maxWidth).encode.toNat = 2 ^ 64 - 1 := by
  have h := vectors_in_words (le_refl maxWidth)
  have hwidth : allOnes.width = maxWidth := List.length_replicate
  have hencode : allOnes.encode = 0xFFFFFFFFFFFFFFFF := by decide +kernel
  refine ⟨le_refl maxWidth, hwidth, hencode, ?_, ?_⟩
  · rw [← hencode]
    exact h.decode_encode hwidth
  · rw [h.encode_decode]
    decide

end BitVector

end SetQubo
