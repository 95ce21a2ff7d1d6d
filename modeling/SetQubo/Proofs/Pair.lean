import Mathlib.Data.Sym.Sym2
import SetQubo.Pair
/-!
# Pairs as keys

Two pairs are one key exactly when they hold the same labels, in the same orientation or in the
other one. What is said of a pair without regard to its orientation, such as whether both labels
are on, is therefore said of the key.

Pairs are compared by their normal forms, so their order is an order of unordered pairs: it is total,
and two pairs are equal in it exactly when they are one key.
-/

namespace SetQubo

namespace Pair

variable {V : Type} [Label V]

/-- Both orientations of a pair have one normal form. -/
theorem key_swap (p : Pair V) : p.swap.key = p.key := by
  unfold key swap
  by_cases h : (compare p.first p.second).isLE
  · by_cases h' : (compare p.second p.first).isLE
    · -- The labels compare both ways only if they are the same.
      have heq : p.first = p.second :=
        Std.LawfulEqCmp.eq_of_compare (Std.OrientedCmp.isLE_antisymm h h')
      simp [heq]
    · simp [h, h']
  · have hlt := Std.OrientedCmp.lt_of_not_isLE h
    have h' : (compare p.second p.first).isLE := by rw [hlt]; rfl
    simp [h, h']

/-- The normal form holds the labels of the pair, in one order or the other. -/
theorem key_eq_or (p : Pair V) :
    p.key = (p.first, p.second) ∨ p.key = (p.second, p.first) := by
  unfold key
  split
  · exact Or.inl rfl
  · exact Or.inr rfl

/-- Two pairs are one key if they have the same normal form. -/
theorem beq_iff_key {p q : Pair V} : (p == q) = true ↔ p.key = q.key :=
  beq_iff_eq (a := p.key) (b := q.key)

/-- Two pairs are one key exactly when they hold the same labels. -/
theorem beq_iff {p q : Pair V} : (p == q) = true ↔ p = q ∨ p = q.swap := by
  rw [beq_iff_key]
  constructor
  · intro h
    have hp := key_eq_or p
    have hq := key_eq_or q
    cases p
    cases q
    rw [h] at hp
    simp only [swap, Pair.mk.injEq]
    -- Either pair may be in normal form already, or reversed.
    rcases hp with hp | hp <;> rcases hq with hq | hq <;>
      (rw [hp] at hq; obtain ⟨rfl, rfl⟩ := Prod.mk.inj hq)
    · exact Or.inl ⟨rfl, rfl⟩
    · exact Or.inr ⟨rfl, rfl⟩
    · exact Or.inr ⟨rfl, rfl⟩
    · exact Or.inl ⟨rfl, rfl⟩
  · rintro (rfl | rfl)
    · rfl
    · exact key_swap q

/-- The two labels without their order. -/
def unordered (p : Pair V) : Sym2 V := s(p.first, p.second)

/-- Two pairs are one key if they are the same without their order. -/
theorem beq_iff_unordered {p q : Pair V} : (p == q) = true ↔ p.unordered = q.unordered := by
  rw [beq_iff]
  cases p
  cases q
  simp [unordered, swap]

/-- Whether both labels are on does not depend on the orientation. -/
theorem isOn_congr {p q : Pair V} (h : (p == q) = true) (x : Valuation V) :
    p.isOn x = q.isOn x := by
  rcases beq_iff.mp h with rfl | rfl
  · rfl
  · exact Bool.and_comm _ _

/-! ## The order -/

instance : Std.TransCmp (compare : Pair V → Pair V → Ordering) :=
  inferInstanceAs (Std.TransCmp
    (compareLex (compareOn fun p : Pair V => p.key.1) (compareOn fun p : Pair V => p.key.2)))

/-- Pairs are equal in the order if they are one key. -/
theorem compare_eq_iff {p q : Pair V} : compare p q = .eq ↔ (p == q) = true := by
  show (compare p.key.1 q.key.1).then (compare p.key.2 q.key.2) = .eq ↔ _
  rw [Ordering.then_eq_eq, Std.LawfulEqCmp.compare_eq_iff_eq, Std.LawfulEqCmp.compare_eq_iff_eq,
    beq_iff_key, Prod.ext_iff]

/-- The order does not depend on the orientation. -/
theorem compare_congr {p p' q q' : Pair V} (hp : (p == p') = true) (hq : (q == q') = true) :
    compare p q = compare p' q' := by
  show (compare p.key.1 q.key.1).then (compare p.key.2 q.key.2) = _
  rw [beq_iff_key.mp hp, beq_iff_key.mp hq]
  rfl

end Pair

end SetQubo
