import SetQubo.Scalar
/-!
# The least of several numbers

Comparing numbers is transitive, and whatever compares with itself compares with everything else
that does. A NaN is what does not compare with itself. No more is needed for the least of several
numbers not to depend on how they are bracketed: it is the leftmost of the least ones, and a NaN
only where there is nothing else. Nor is more needed for it to be a least one, if all compare.
-/

namespace SetQubo

namespace Scalar

/-- The comparison is a total preorder of what compares with itself. -/
class Ordered (S : Type) [Scalar S] : Prop where
  /-- What compares with anything compares with itself. -/
  le_self_of_le {a b : S} : a ≤ b → a ≤ a ∧ b ≤ b
  /-- Comparing is transitive. -/
  le_trans {a b c : S} : a ≤ b → b ≤ c → a ≤ c
  /-- Of two numbers that compare with themselves one is at most the other. -/
  le_total {a b : S} : a ≤ a → b ≤ b → a ≤ b ∨ b ≤ a

instance : Ordered Rat where
  le_self_of_le _ := ⟨Rat.le_refl, Rat.le_refl⟩
  le_trans := Rat.le_trans
  le_total _ _ := Rat.le_total

variable {S : Type} [Scalar S] {a b c : S}

theorem least_eq_left (h : a ≤ b) : least a b = a := if_pos h

/-- An operand that does not compare gives way. -/
theorem least_of_not_le_self (h : ¬b ≤ b) : least a b = a := by
  unfold least
  rw [if_neg h, ite_self]

theorem least_eq_right (h : ¬a ≤ b) (hb : b ≤ b) : least a b = b := by
  unfold least
  rw [if_neg h, if_pos hb]

/-- Whatever the operands are, one of them is taken. -/
theorem least_eq_or_eq (a b : S) : least a b = a ∨ least a b = b := by
  unfold least
  split
  · exact Or.inl rfl
  · split
    · exact Or.inr rfl
    · exact Or.inl rfl

/-- What is taken is at most the other operand, -/
theorem least_le_right (a : S) (hb : b ≤ b) : least a b ≤ b := by
  by_cases hab : a ≤ b
  · rw [least_eq_left hab]
    exact hab
  · rw [least_eq_right hab hb]
    exact hb

variable [Ordered S]

/-- on either side. -/
theorem least_le_left (ha : a ≤ a) (hb : b ≤ b) : least a b ≤ a := by
  by_cases hab : a ≤ b
  · rw [least_eq_left hab]
    exact ha
  · rw [least_eq_right hab hb]
    exact (Ordered.le_total ha hb).resolve_left hab

/-- **A least one of several numbers is found**, if all of them compare. -/
theorem foldl_least (es : List S) {a : S} (ha : a ≤ a) (hes : ∀ e ∈ es, e ≤ e) :
    es.foldl least a ∈ a :: es ∧ ∀ e ∈ a :: es, es.foldl least a ≤ e := by
  -- The least of the first two takes their place, so the start changes along the induction.
  induction es generalizing a with
  | nil => exact ⟨List.mem_cons_self, fun e he => List.mem_singleton.mp he ▸ ha⟩
  | cons b es ih =>
    have hb : b ≤ b := hes b List.mem_cons_self
    have hstart : least a b ≤ least a b := (Ordered.le_self_of_le (least_le_right a hb)).1
    obtain ⟨hmem, hle⟩ := ih hstart fun e he => hes e (List.mem_cons_of_mem _ he)
    have hfirst := hle _ List.mem_cons_self
    rw [List.foldl_cons]
    refine ⟨?_, fun e he => ?_⟩
    · rcases List.mem_cons.mp hmem with heq | hmem
      · rw [heq]
        rcases least_eq_or_eq a b with hleast | hleast
        · rw [hleast]
          exact List.mem_cons_self
        · rw [hleast]
          exact List.mem_cons_of_mem _ List.mem_cons_self
      · exact List.mem_cons_of_mem _ (List.mem_cons_of_mem _ hmem)
    · rcases List.mem_cons.mp he with rfl | he
      · exact Ordered.le_trans hfirst (least_le_left ha hb)
      · rcases List.mem_cons.mp he with rfl | he
        · exact Ordered.le_trans hfirst (least_le_right a hb)
        · exact hle e (List.mem_cons_of_mem _ he)

/-- **The least of three numbers does not depend on the brackets.** -/
theorem least_assoc (a b c : S) : least (least a b) c = least a (least b c) := by
  by_cases hb : b ≤ b
  · by_cases hc : c ≤ c
    · by_cases hab : a ≤ b
      · rw [least_eq_left hab]
        by_cases hbc : b ≤ c
        · rw [least_eq_left hbc, least_eq_left hab, least_eq_left (Ordered.le_trans hab hbc)]
        · rw [least_eq_right hbc hc]
      · rw [least_eq_right hab hb]
        by_cases hbc : b ≤ c
        · rw [least_eq_left hbc, least_eq_right hab hb]
        · -- What is less than the middle number is so much the less than the left one.
          have hcb : c ≤ b := (Ordered.le_total hb hc).resolve_left hbc
          have hac : ¬a ≤ c := fun hac => hab (Ordered.le_trans hac hcb)
          rw [least_eq_right hbc hc, least_eq_right hac hc]
    · rw [least_of_not_le_self hc, least_of_not_le_self hc]
  · -- Without the number in the middle the two sides are the same.
    have hleft : least a b = a := least_of_not_le_self hb
    have hbc : ¬b ≤ c := fun hbc => hb (Ordered.le_self_of_le hbc).1
    rw [hleft]
    by_cases hc : c ≤ c
    · rw [least_eq_right hbc hc]
    · rw [least_of_not_le_self hc, least_of_not_le_self hc, hleft]

instance : Std.Associative (least : S → S → S) := ⟨least_assoc⟩

end Scalar

end SetQubo
