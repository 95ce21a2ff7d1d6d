import Mathlib.Data.List.Basic
import SetQubo.BitVector.Basic
import SetQubo.Proofs.Digits
/-!
# Encodings identify vectors

The encoding of a row has the row's bits as its binary digits, position 0 least significant. So up
to sixty-four positions an encoding determines the row of its width, and reading it back at that
width gives the row. The list of distinct encodings is strictly ascending, which is the order in
which elements are reported.
-/

namespace SetQubo

namespace BitVector

/-! ## Digits -/

/-- The binary digits of an encoding are the bits, as far as sixty-four digits reach. -/
theorem testBit_encodeBits (bits : List Bool) (i : Nat) :
    (encodeBits bits).toNat.testBit i = (decide (i < 64) && bits[i]?.getD false) := by
  -- Each bit is put behind the others as the last digit, so the digits move up by one.
  induction bits generalizing i with
  | nil => simp [encodeBits]
  | cons b bits ih =>
    simp only [encodeBits, UInt64.toNat_or, Nat.testBit_or]
    cases i with
    | zero => cases b <;> simp [UInt64.toNat_shiftLeft]
    | succ i =>
      have hlast : (if b then (1 : UInt64) else 0).toNat.testBit (i + 1) = false := by
        cases b <;> simp [Nat.testBit_succ]
      rw [testBit_double, ih i, hlast]
      by_cases hi : i + 1 < 64
      · simp [hi, show i < 64 by omega]
      · simp [hi]

/-- The bits read from an integer are its lowest binary digits. -/
theorem getElem?_decodeBits (n : UInt64) (width i : Nat) :
    (decodeBits n width)[i]? = if i < width then some (n.toNat.testBit i) else none := by
  -- The last digit is read and shifted out, so the integer changes along the induction.
  induction width generalizing n i with
  | zero => simp [decodeBits]
  | succ width ih =>
    cases i with
    | zero =>
      have hlast : (n &&& 1 == 1) = n.toNat.testBit 0 := by
        rw [Nat.testBit_zero, Bool.eq_iff_iff, beq_iff_eq, ← UInt64.toNat_inj]
        simp [Nat.and_one_is_mod]
      simp [decodeBits, hlast]
    | succ i =>
      have hshift : (n >>> 1).toNat.testBit i = n.toNat.testBit (i + 1) := by
        rw [UInt64.toNat_shiftRight, show (1 : UInt64).toNat % 64 = 1 from rfl,
          Nat.testBit_shiftRight, Nat.add_comm]
      rw [decodeBits, List.getElem?_cons_succ, ih, hshift]
      simp

@[simp] theorem width_decode (n : UInt64) (width : Nat) : (decode n width).width = width := by
  show (decodeBits n width).length = width
  induction width generalizing n with
  | zero => rfl
  | succ width ih => simp [decodeBits, ih]

/-! ## Encodings and vectors of one width -/

/-- An encoding read back at the vector's width is the vector. -/
theorem decode_encode (x : BitVector) (hwidth : x.width ≤ maxWidth) :
    decode x.encode x.width = x := by
  have hbits : decodeBits x.encode x.width = x.bits := by
    apply List.ext_getElem?
    intro i
    rw [getElem?_decodeBits]
    by_cases hi : i < x.width
    · have hlt : i < x.bits.length := hi
      have h64 : i < 64 := Nat.lt_of_lt_of_le hi hwidth
      simp [hi, encode, testBit_encodeBits, h64, List.getElem?_eq_getElem hlt]
    · have hge : x.bits.length ≤ i := Nat.not_lt.mp hi
      simp [hi, List.getElem?_eq_none hge]
  cases x
  exact congrArg BitVector.mk hbits

/-- Two vectors of one width that fits have the same encoding only if they are the same. -/
theorem encode_inj {x y : BitVector} (hwidth : x.width = y.width) (hle : x.width ≤ maxWidth)
    (h : x.encode = y.encode) : x = y := by
  rw [← decode_encode x hle, ← decode_encode y (hwidth ▸ hle), h, hwidth]

/-- The zero vector of any width has the encoding 0. -/
theorem encode_zeros (width : Nat) : (zeros width).encode = 0 := by
  have hbits : ∀ n : Nat, encodeBits (List.replicate n false) = 0 := by
    intro n
    induction n with
    | zero => rfl
    | succ n ih =>
      rw [List.replicate_succ, encodeBits, ih]
      rfl
  exact hbits width

end BitVector

/-! ## Ascending lists of encodings -/

/-- Putting in an encoding adds that one and no other. -/
theorem mem_insertAscending {m n : UInt64} {ms : List UInt64} :
    m ∈ insertAscending n ms ↔ m = n ∨ m ∈ ms := by
  induction ms with
  | nil => simp [insertAscending]
  | cons k ks ih =>
    unfold insertAscending
    split
    · simp
    · split
      · next heq => subst heq; simp
      · rw [List.mem_cons, ih, List.mem_cons]
        tauto

/-- Putting in an encoding keeps a list strictly ascending. -/
theorem pairwise_insertAscending {n : UInt64} {ms : List UInt64} (h : ms.Pairwise (· < ·)) :
    (insertAscending n ms).Pairwise (· < ·) := by
  induction ms with
  | nil => simp [insertAscending]
  | cons k ks ih =>
    obtain ⟨hk, hks⟩ := List.pairwise_cons.mp h
    unfold insertAscending
    split
    · next hlt =>
      refine List.pairwise_cons.mpr ⟨?_, h⟩
      intro m hm
      rcases List.mem_cons.mp hm with rfl | hm
      · exact hlt
      · exact UInt64.lt_trans hlt (hk m hm)
    · split
      · exact h
      · next hlt hne =>
        refine List.pairwise_cons.mpr ⟨?_, ih hks⟩
        intro m hm
        -- A member is the new encoding, which is larger than the first one, or was there.
        rcases mem_insertAscending.mp hm with rfl | hm
        · exact UInt64.lt_of_le_of_ne (UInt64.not_lt.mp hlt) (Ne.symm hne)
        · exact hk m hm

/-- The ascending list holds the encodings that occur. -/
@[simp] theorem mem_ascending {n : UInt64} {ns : List UInt64} : n ∈ ascending ns ↔ n ∈ ns := by
  induction ns with
  | nil => simp [ascending]
  | cons m ms ih =>
    show n ∈ insertAscending m (ascending ms) ↔ n ∈ m :: ms
    rw [mem_insertAscending, ih, List.mem_cons]

/-- The ascending list is strictly ascending. -/
theorem pairwise_ascending (ns : List UInt64) : (ascending ns).Pairwise (· < ·) := by
  induction ns with
  | nil => exact List.Pairwise.nil
  | cons m ms ih => exact pairwise_insertAscending ih

end SetQubo
