import Mathlib.Data.Finset.Card
import Mathlib.Data.Finset.Range
import Mathlib.Data.Nat.Bitwise
/-!
# Digits of words

A word is a number of sixty-four binary digits, and everything that is asked of a word here is asked
of its digits one by one: whether two words are the same, whether one is contained in another, which
digit a shift brings to the end, and how many digits are on.
-/

namespace SetQubo

/-- Two words with the same digits are the same. -/
theorem eq_of_testBit_toNat {m n : UInt64} (h : ∀ i, m.toNat.testBit i = n.toNat.testBit i) :
    m = n :=
  UInt64.toNat_inj.mp (Nat.eq_of_testBit_eq h)

/-- A word is contained in another one if all of its digits are on there. -/
theorem and_eq_right_iff (n m : UInt64) :
    n &&& m = m ↔ ∀ i, m.toNat.testBit i = true → n.toNat.testBit i = true := by
  constructor
  · intro h i hi
    rw [← h, UInt64.toNat_and, Nat.testBit_and, Bool.and_eq_true] at hi
    exact hi.1
  · intro h
    apply eq_of_testBit_toNat
    intro i
    rw [UInt64.toNat_and, Nat.testBit_and]
    cases hi : m.toNat.testBit i with
    | false => exact Bool.and_false _
    | true => rw [h i hi, Bool.and_true]

/-! ## Shifts -/

/-- Doubling moves every digit up by one place. -/
theorem testBit_double (n : UInt64) (i : Nat) :
    (n <<< 1).toNat.testBit (i + 1) = (decide (i + 1 < 64) && n.toNat.testBit i) := by
  rw [UInt64.toNat_shiftLeft, show (1 : UInt64).toNat % 64 = 1 from rfl,
    Nat.testBit_mod_two_pow, Nat.testBit_shiftLeft]
  simp

/-- A place within a word is the same place when it is taken for the length of a shift. -/
theorem toNat_place {i : Nat} (hi : i < 64) : (UInt64.ofNat i).toNat % 64 = i := by
  rw [UInt64.toNat_ofNat_of_lt' (Nat.lt_trans hi (by decide)), Nat.mod_eq_of_lt hi]

/-- The digit 1 is not lost when it is shifted to a place within the word. -/
theorem toNat_one_shiftLeft {i : Nat} (hi : i < 64) :
    ((1 : UInt64) <<< UInt64.ofNat i).toNat = 2 ^ i := by
  rw [UInt64.toNat_shiftLeft, toNat_place hi, show (1 : UInt64).toNat = 1 from rfl,
    Nat.one_shiftLeft, Nat.mod_eq_of_lt (Nat.pow_lt_pow_right (by omega) hi)]

/-- The digit at a place is what the word ends in when that place is shifted to the end. -/
theorem shiftRight_and_one (n : UInt64) {i : Nat} (hi : i < 64) :
    (n >>> UInt64.ofNat i) &&& 1 = if n.toNat.testBit i then 1 else 0 := by
  apply UInt64.toNat_inj.mp
  rw [UInt64.toNat_and, UInt64.toNat_shiftRight, toNat_place hi,
    show (1 : UInt64).toNat = 1 from rfl, Nat.and_one_is_mod, Nat.shiftRight_eq_div_pow,
    ← Nat.toNat_testBit]
  cases n.toNat.testBit i <;> rfl

/-! ## The digits that are on -/

/-- The word in which the digits at the given places are on. -/
def wordOf (places : List Nat) : UInt64 :=
  places.foldl (fun n i => n ||| 1 <<< UInt64.ofNat i) 0

/-- No other digits are on there. -/
theorem testBit_wordOf {places : List Nat} (hplaces : ∀ i ∈ places, i < 64) (j : Nat) :
    (wordOf places).toNat.testBit j = places.contains j := by
  -- Digits that are on already stay on, so the induction goes from any word.
  have hfold : ∀ (is : List Nat) (n : UInt64), (∀ i ∈ is, i < 64) →
      (is.foldl (fun n i => n ||| 1 <<< UInt64.ofNat i) n).toNat.testBit j =
        (n.toNat.testBit j || is.contains j) := by
    intro is
    induction is with
    | nil =>
      intro n _
      simp
    | cons i is ih =>
      intro n hplaces
      obtain ⟨hi, his⟩ := List.forall_mem_cons.mp hplaces
      rw [List.foldl_cons, ih _ his, UInt64.toNat_or, Nat.testBit_or, toNat_one_shiftLeft hi,
        Nat.testBit_two_pow, List.contains_cons, Bool.or_assoc]
      congr 2
      rw [Bool.eq_iff_iff, decide_eq_true_iff, beq_iff_eq]
      exact eq_comm
  exact (hfold places 0 hplaces).trans (by simp)

/-- The digits that are on are as many as their places. -/
theorem toNat_cpop (n : UInt64) :
    n.toBitVec.cpop.toNat = ((Finset.range 64).filter fun i => n.toNat.testBit i).card := by
  have hcount : ∀ k, n.toBitVec.cpopNatRec k 0 =
      ((Finset.range k).filter fun i => n.toNat.testBit i).card := by
    intro k
    induction k with
    | zero => rfl
    | succ k ih =>
      have hdigit : n.toBitVec.getLsbD k = n.toNat.testBit k := rfl
      rw [BitVec.cpopNatRec_succ, BitVec.cpopNatRec_add, ih, hdigit, Finset.range_add_one,
        Finset.filter_insert]
      cases n.toNat.testBit k with
      | false => rfl
      | true => simp
  rw [BitVec.toNat_cpop, hcount]

/-! ## Bytes that hold a digit -/

/-- A byte that is not above 1 holds a digit. -/
theorem le_one_iff {a : UInt8} : a ≤ 1 ↔ a = 0 ∨ a = 1 := by
  have hzero : (0 : UInt8).toNat = 0 := rfl
  have hone : (1 : UInt8).toNat = 1 := rfl
  rw [UInt8.le_iff_toNat_le, ← UInt8.toNat_inj, ← UInt8.toNat_inj, hzero, hone]
  omega

end SetQubo
