import SetQubo.Proofs.BitVector.Encoding
import SetQubo.Proofs.Digits
import SetQubo.Proofs.Solver.Numbering
import SetQubo.Solver.Assignment
/-!
# Assignments as binary numbers

The value of a numbered variable is a binary digit of the encoding, the first variable having the
most significant one. So the row of values determines the encoding up to the digits that belong to
no variable, and ascending encodings have ascending rows.
-/

namespace SetQubo

/-! ## Digits of masks -/

/-- All digits of two masks are on exactly when those of both are. -/
theorem and_or_eq_iff (n a b : UInt64) : n &&& (a ||| b) = a ||| b ↔ n &&& a = a ∧ n &&& b = b := by
  rw [and_eq_right_iff, and_eq_right_iff, and_eq_right_iff]
  simp only [UInt64.toNat_or, Nat.testBit_or, Bool.or_eq_true]
  constructor
  · intro h
    exact ⟨fun j hj => h j (Or.inl hj), fun j hj => h j (Or.inr hj)⟩
  · rintro ⟨ha, hb⟩ j (hj | hj)
    · exact ha j hj
    · exact hb j hj

namespace Numbering

variable {V : Type} [Label V] {n : Numbering V} {i : Nat}

/-- The mask of a number is a power of two, and no digit is lost by its shift. -/
theorem toNat_mask (hsize : n.size ≤ 64) (hi : i < n.size) :
    (n.mask i).toNat = 2 ^ (n.size - 1 - i) :=
  toNat_one_shiftLeft (by omega)

/-- The mask of a number is a single digit, counted from the end. -/
theorem testBit_mask (hsize : n.size ≤ 64) (hi : i < n.size) (j : Nat) :
    (n.mask i).toNat.testBit j = decide (n.size - 1 - i = j) := by
  rw [toNat_mask hsize hi, Nat.testBit_two_pow]

/-- A mask meets an integer exactly when its digit is on. -/
theorem and_mask_ne_zero_iff (hsize : n.size ≤ 64) (hi : i < n.size) (m : UInt64) :
    m &&& n.mask i ≠ 0 ↔ m.toNat.testBit (n.size - 1 - i) = true := by
  constructor
  · intro h
    by_contra hoff
    rw [Bool.not_eq_true] at hoff
    apply h
    apply eq_of_testBit_toNat
    intro j
    rw [UInt64.toNat_and, Nat.testBit_and, testBit_mask hsize hi]
    by_cases hj : n.size - 1 - i = j
    · simp [← hj, hoff]
    · simp [hj]
  · intro hon h
    have hdigit : (m &&& n.mask i).toNat.testBit (n.size - 1 - i) = true := by
      rw [UInt64.toNat_and, Nat.testBit_and, testBit_mask hsize hi, hon]
      simp
    rw [h] at hdigit
    simp at hdigit

/-- A mask is contained in an integer exactly when it meets it. -/
theorem and_mask_eq_iff (hsize : n.size ≤ 64) (hi : i < n.size) (m : UInt64) :
    m &&& n.mask i = n.mask i ↔ m &&& n.mask i ≠ 0 := by
  rw [and_mask_ne_zero_iff hsize hi, and_eq_right_iff]
  simp [testBit_mask hsize hi]

end Numbering

namespace Assignment

variable {V : Type} [Label V] {a b : Assignment V} {v : V}

/-! ## Values -/

/-- A label is on exactly when its mask meets the encoding. -/
theorem value_eq_one_iff (a : Assignment V) (v : V) :
    a.value v = 1 ↔ a.encoding &&& a.numbering.maskOf v ≠ 0 := by
  unfold value Numbering.maskOf
  cases a.numbering.indexOf? v with
  | none => simp
  | some i =>
    show a.valueAt i = 1 ↔ a.encoding &&& a.numbering.mask i ≠ 0
    unfold valueAt
    by_cases h : a.encoding &&& a.numbering.mask i ≠ 0
    · simp [h]
    · simp [h]

theorem value_eq_zero_or_one (a : Assignment V) (v : V) : a.value v = 0 ∨ a.value v = 1 := by
  unfold value
  cases a.numbering.indexOf? v with
  | none => exact Or.inl rfl
  | some i =>
    show a.valueAt i = 0 ∨ a.valueAt i = 1
    unfold valueAt
    split
    · exact Or.inr rfl
    · exact Or.inl rfl

/-- The value of a numbered variable is a binary digit of the encoding. -/
theorem valueAt_eq (hsize : a.numbering.size ≤ 64) {i : Nat} (hi : i < a.numbering.size) :
    a.valueAt i =
      BitVector.valueOf (a.encoding.toNat.testBit (a.numbering.size - 1 - i)) := by
  have hmask := Numbering.and_mask_ne_zero_iff hsize hi a.encoding
  unfold valueAt BitVector.valueOf
  by_cases h : a.encoding &&& a.numbering.mask i ≠ 0
  · rw [if_pos h, if_pos (hmask.mp h)]
  · rw [if_neg h, if_neg (fun hon => h (hmask.mpr hon))]

/-- The row of values holds the value of every label. -/
theorem values_eq_map_value (hconsistent : a.numbering.Consistent) :
    a.values = a.numbering.labels.toList.map a.value := by
  apply List.ext_getElem
  · simp [values, Numbering.size]
  · intro i hi _
    have hlt : i < a.numbering.labels.size := by simpa [values, Numbering.size] using hi
    have hlabel : a.numbering.label? i = some a.numbering.labels[i] :=
      Array.getElem?_eq_getElem hlt
    have hindex := (hconsistent _ i).mpr hlabel
    simp [values, value, hindex]

/-! ## Rows of digits -/

/-- The lowest binary digits of an integer, the most significant first. -/
def row (size n : Nat) : List UInt8 :=
  (List.range size).map fun i => BitVector.valueOf (n.testBit (size - 1 - i))

theorem row_succ (size n : Nat) :
    row (size + 1) n = BitVector.valueOf (n.testBit size) :: row size n := by
  unfold row
  rw [List.range_succ_eq_map, List.map_cons, List.map_map]
  congr 1
  apply List.map_congr_left
  intro i _
  show BitVector.valueOf (n.testBit (size + 1 - 1 - (i + 1))) = _
  rw [show size + 1 - 1 - (i + 1) = size - 1 - i by omega]

/-- One more digit adds its place value. -/
theorem mod_two_pow_succ (n size : Nat) :
    n % 2 ^ (size + 1) = n % 2 ^ size + 2 ^ size * (n.testBit size).toNat := by
  rw [Nat.mod_pow_succ, Nat.toNat_testBit]

/-- **Rows are ordered as the integers are**: the first digit in which two rows differ decides. -/
theorem row_lt_row_iff (size m n : Nat) :
    row size m < row size n ↔ m % 2 ^ size < n % 2 ^ size := by
  induction size with
  | zero => simp [row, Nat.mod_one]
  | succ size ih =>
    have hm := Nat.mod_lt m (Nat.two_pow_pos size)
    have hn := Nat.mod_lt n (Nat.two_pow_pos size)
    rw [row_succ, row_succ, List.cons_lt_cons_iff, ih, mod_two_pow_succ, mod_two_pow_succ]
    -- The most significant digits decide unless they are equal.
    cases m.testBit size <;> cases n.testBit size <;> simp [BitVector.valueOf] <;> omega

theorem row_eq_row_iff (size m n : Nat) :
    row size m = row size n ↔ m % 2 ^ size = n % 2 ^ size := by
  induction size with
  | zero => simp [row, Nat.mod_one]
  | succ size ih =>
    have hm := Nat.mod_lt m (Nat.two_pow_pos size)
    have hn := Nat.mod_lt n (Nat.two_pow_pos size)
    rw [row_succ, row_succ, List.cons.injEq, ih, mod_two_pow_succ, mod_two_pow_succ]
    cases m.testBit size <;> cases n.testBit size <;> simp [BitVector.valueOf] <;> omega

/-- The values of an assignment are the lowest digits of its encoding. -/
theorem values_eq_row (hsize : a.numbering.size ≤ 64) :
    a.values = row a.numbering.size a.encoding.toNat := by
  unfold values row
  apply List.map_congr_left
  intro i hi
  exact valueAt_eq hsize (List.mem_range.mp hi)

/-- A row that holds a vector's values is written as the vector is. -/
theorem rowText_values (x : BitVector) : rowText x.values = x.text := by
  have hdigit : ∀ b : Bool, (toString (BitVector.valueOf b).toNat).toList =
      [if b then '1' else '0'] := by
    intro b
    cases b <;> decide
  unfold rowText BitVector.text BitVector.values
  apply String.toList_injective
  rw [String.toList_join, String.toList_ofList, List.flatMap_map, List.flatMap_map]
  induction x.bits with
  | nil => rfl
  | cons b bits ih => rw [List.flatMap_cons, ih, hdigit, List.map_cons, List.singleton_append]

end Assignment

end SetQubo
