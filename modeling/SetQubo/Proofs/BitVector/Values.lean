import Mathlib.Data.List.Basic
import SetQubo.BitVector.Basic
/-!
# Values and written forms

The row of values and the written form of a vector show its bits one by one. Each of them
determines the vector, and both are ordered as the rows of bits are: the first difference decides.
-/

namespace SetQubo

/-- Of two rows that differ first in their beginnings, the beginnings decide. -/
theorem lt_or_eq_of_append_lt_append {α : Type} [LT α] {as bs cs ds : List α}
    (hlength : as.length = bs.length) (h : as ++ cs < bs ++ ds) : as < bs ∨ as = bs := by
  -- The first members decide, unless they are equal and the rest does.
  induction as generalizing bs with
  | nil =>
    have hnil : bs = [] := List.eq_nil_of_length_eq_zero hlength.symm
    exact Or.inr hnil.symm
  | cons a as ih =>
    cases bs with
    | nil => cases hlength
    | cons b bs =>
      rw [List.cons_append, List.cons_append, List.cons_lt_cons_iff] at h
      rcases h with hlt | ⟨rfl, hlt⟩
      · exact Or.inl (List.cons_lt_cons_iff.mpr (Or.inl hlt))
      · rcases ih (Nat.succ.inj hlength) hlt with hlt | rfl
        · exact Or.inl (List.cons_lt_cons_iff.mpr (Or.inr ⟨rfl, hlt⟩))
        · exact Or.inr rfl

namespace BitVector

/-! ## Values -/

/-- A value read with 0 behind the end is a one exactly where the vector has one. -/
theorem getD_get? (e : BitVector) (i : Nat) : (e.get? i).getD 0 = valueOf (e.isSet i) := by
  unfold get? values isSet
  rw [List.getElem?_map]
  cases e.bits[i]? with
  | none => rfl
  | some b => rfl

/-- The values of a vector are read off position by position. -/
theorem values_eq_map_range {e : BitVector} {width : Nat} (hwidth : e.width = width) :
    e.values = (List.range width).map fun i => valueOf (e.isSet i) := by
  subst hwidth
  apply List.ext_getElem
  · simp [values, BitVector.width]
  · intro i hi _
    have hlt : i < e.bits.length := by simpa [values] using hi
    simp [values, isSet, List.getElem?_eq_getElem hlt]

theorem length_values (x : BitVector) : x.values.length = x.width := List.length_map _

/-- The values determine the vector. -/
theorem values_inj {x y : BitVector} (h : x.values = y.values) : x = y := by
  have hinj : Function.Injective valueOf := by
    intro b c
    cases b <;> cases c <;> simp [valueOf]
  cases x
  cases y
  exact congrArg BitVector.mk (List.map_injective_iff.mpr hinj h)

/-! ## Written forms -/

/-- The written form determines the vector, whatever its width. -/
theorem text_inj {x y : BitVector} (h : x.text = y.text) : x = y := by
  have hchars : x.bits.map (fun b => if b then '1' else '0') =
      y.bits.map (fun b => if b then '1' else '0') := String.ofList_injective h
  have hinj : Function.Injective fun b : Bool => if b then '1' else '0' := by
    intro b c
    cases b <;> cases c <;> simp
  cases x
  cases y
  exact congrArg BitVector.mk (List.map_injective_iff.mpr hinj hchars)

/-- **Written forms are ordered as the rows of values are.** -/
theorem text_lt_text_iff (x y : BitVector) : x.text < y.text ↔ x.values < y.values := by
  -- The digits 0 and 1 are ordered as the values 0 and 1.
  have hbits : ∀ bs cs : List Bool,
      bs.map (fun b => if b then '1' else '0') < cs.map (fun b => if b then '1' else '0') ↔
        bs.map valueOf < cs.map valueOf := by
    intro bs
    induction bs with
    | nil =>
      intro cs
      cases cs with
      | nil => simp
      | cons c cs => simp
    | cons b bs ih =>
      intro cs
      cases cs with
      | nil => simp
      | cons c cs =>
        simp only [List.map_cons, List.cons_lt_cons_iff, ih cs]
        cases b <;> cases c <;> simp [valueOf]
  unfold text values
  rw [String.lt_iff, String.toList_ofList, String.toList_ofList]
  exact hbits x.bits y.bits

end BitVector

end SetQubo
