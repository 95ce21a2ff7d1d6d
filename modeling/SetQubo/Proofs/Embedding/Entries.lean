import Mathlib
import SetQubo.Proofs.Embedding.Terms
import SetQubo.Proofs.SetSpec.Distinct
import SetQubo.Proofs.Table.Lookup
/-!
# The entries of an embedded set

What stands in the table of pairs is followed through the construction, in any arithmetic. Between a
bit and an indicator stands what was written there when that indicator was added; no other element
touches it. Between two indicators stand their guards, each of which there may be or not: the one of
the element that comes first in the list, and then that of the other one added to it.
-/

namespace SetQubo

namespace Variable

/-- Two pairs of indicators are one key if they hold the same two elements. -/
theorem beq_indicators {x y z w : BitVector} :
    ((⟨indicator x, indicator y⟩ : Pair Variable) == ⟨indicator z, indicator w⟩) = true ↔
      (x = z ∧ y = w) ∨ (x = w ∧ y = z) := by
  rw [Pair.beq_iff]
  simp [Pair.swap]

theorem beq_indicators_swap (x y : BitVector) :
    ((⟨indicator x, indicator y⟩ : Pair Variable) == ⟨indicator y, indicator x⟩) = true :=
  beq_indicators.mpr (Or.inr ⟨rfl, rfl⟩)

end Variable

namespace Embedding

open Variable

variable {S : Type} {m : Model Variable S} {k : Pair Variable}

/-! ## Following one key through a construction -/

section folds
variable {α : Type} {step : Model Variable S → α → Model Variable S}
  (hconsistent : ∀ a m, m.Consistent → (step m a).Consistent)
include hconsistent

/-- Steps that each leave a key alone leave it alone together. -/
theorem lookup_foldl_of_forall (as : List α)
    (hkeep : ∀ a ∈ as, ∀ m, m.Consistent → (step m a).quadratic.lookup k = m.quadratic.lookup k)
    (hm : m.Consistent) :
    (as.foldl step m).Consistent ∧
      (as.foldl step m).quadratic.lookup k = m.quadratic.lookup k := by
  induction as generalizing m with
  | nil => exact ⟨hm, rfl⟩
  | cons a as ih =>
    obtain ⟨hend, hlookup⟩ := ih (fun b hb => hkeep b (List.mem_cons_of_mem _ hb))
      (hconsistent a m hm)
    exact ⟨hend, hlookup.trans (hkeep a List.mem_cons_self m hm)⟩

/-- If one step alone touches a key, then its effect is what becomes of the key. -/
theorem lookup_foldl_of_mem {as : List α} (hnodup : as.Nodup) {a : α} (ha : a ∈ as)
    (effect : Option S → Option S)
    (hown : ∀ m, m.Consistent → (step m a).quadratic.lookup k = effect (m.quadratic.lookup k))
    (hkeep : ∀ b ∈ as, b ≠ a → ∀ m, m.Consistent →
      (step m b).quadratic.lookup k = m.quadratic.lookup k)
    (hm : m.Consistent) :
    (as.foldl step m).Consistent ∧
      (as.foldl step m).quadratic.lookup k = effect (m.quadratic.lookup k) := by
  obtain ⟨before, after, rfl⟩ := List.append_of_mem ha
  obtain ⟨-, hafter, hapart⟩ := List.nodup_append.mp hnodup
  obtain ⟨hnot, -⟩ := List.nodup_cons.mp hafter
  obtain ⟨hmiddle, hbefore⟩ := lookup_foldl_of_forall hconsistent before
    (fun b hb => hkeep b (List.mem_append_left _ hb) (hapart b hb a List.mem_cons_self)) hm
  obtain ⟨hend, hrest⟩ := lookup_foldl_of_forall hconsistent after
    (fun b hb => hkeep b (List.mem_append_right _ (List.mem_cons_of_mem _ hb))
      fun heq => hnot (heq ▸ hb))
    (hconsistent a _ hmiddle)
  rw [List.foldl_append, List.foldl_cons]
  exact ⟨hend, by rw [hrest, hown _ hmiddle, hbefore]⟩

end folds

variable [Scalar S] {penalty : S} {width : Nat} {x y z : BitVector}

/-! ## One indicator -/

/-- What stands between a bit and the indicator of an element. -/
def bitEntry (penalty : S) (width : Nat) (x : BitVector) (i : Nat) : S :=
  if x.isSet i then -reward penalty x else deterrent penalty width x

/-- The guard of the indicator of `x` against the one of `y`, if there is one. -/
def guard? (penalty : S) (width : Nat) (x y : BitVector) : Option S :=
  if x.covers y then none else some (deterrent penalty width x)

omit [Scalar S] in
/-- A key is touched by writing to it only. -/
theorem lookup_setQuadratic_of_ne (hm : m.Consistent) {a b : Variable} (c : S)
    (hne : ((⟨a, b⟩ : Pair Variable) == k) = false) :
    (m.setQuadratic a b c).quadratic.lookup k = m.quadratic.lookup k := by
  show (m.quadratic.upsert ⟨a, b⟩ _ c).lookup k = _
  rw [hm.quadratic.lookup_upsert, hne, if_neg Bool.false_ne_true]

omit [Scalar S] in
theorem lookup_addQuadratic_of_ne [Add S] (hm : m.Consistent) {a b : Variable} (c : S)
    (hne : ((⟨a, b⟩ : Pair Variable) == k) = false) :
    (m.addQuadratic a b c).quadratic.lookup k = m.quadratic.lookup k := by
  show (m.quadratic.upsert ⟨a, b⟩ _ c).lookup k = _
  rw [hm.quadratic.lookup_upsert, hne, if_neg Bool.false_ne_true]

/-- Every bit gets its entry with the indicator. -/
theorem lookup_setBitTerms (hwidth : width ≤ 64) (hm : m.Consistent) {i : Nat} (hi : i < width) :
    (setBitTerms penalty width x m).quadratic.lookup ⟨bitAt i, indicator x⟩ =
      some (bitEntry penalty width x i) := by
  unfold setBitTerms
  apply (lookup_foldl_of_mem (fun j m hm => hm.setQuadratic _ _ _) List.nodup_range
    (List.mem_range.mpr hi) (fun _ => some (bitEntry penalty width x i)) ?_ ?_ hm).2
  · intro m hm
    show (m.quadratic.upsert _ (fun _ => bitEntry penalty width x i) _).lookup _ = _
    rw [hm.quadratic.lookup_upsert, BEq.rfl, if_pos rfl]
    cases m.quadratic.lookup ⟨bitAt i, indicator x⟩ <;> rfl
  · -- Two positions below the width are two bits.
    intro j hj hne m hm
    apply lookup_setQuadratic_of_ne hm
    rw [← Bool.not_eq_true, beq_bit_indicator, bitAt_inj (by rw [List.mem_range] at hj; omega)
      (by omega)]
    exact fun hboth => hne hboth.1

/-- The entries of one indicator with the bits are all that it writes. -/
theorem lookup_setBitTerms_of_ne (hm : m.Consistent)
    (hne : ∀ i < width, ((⟨bitAt i, indicator x⟩ : Pair Variable) == k) = false) :
    (setBitTerms penalty width x m).quadratic.lookup k = m.quadratic.lookup k := by
  unfold setBitTerms
  apply (lookup_foldl_of_forall (fun j m hm => hm.setQuadratic _ _ _) _ ?_ hm).2
  intro i hi m hm
  exact lookup_setQuadratic_of_ne hm _ (hne i (List.mem_range.mp hi))

variable {elements : List BitVector}

/-- The step that adds one guard keeps index and entries in step. -/
theorem consistent_guardStep (x : BitVector) (y : BitVector) (m : Model Variable S)
    (hm : m.Consistent) :
    (if y = x || x.covers y then m
      else m.addQuadratic (indicator x) (indicator y) (deterrent penalty width x)).Consistent := by
  split
  · exact hm
  · exact hm.addQuadratic _ _ _

/-- The guard of an indicator against another one is added to what stands there. -/
theorem lookup_addGuards (hm : m.Consistent) (hnodup : elements.Nodup) (hy : y ∈ elements)
    (hne : x ≠ y) :
    (addGuards penalty width elements x m).quadratic.lookup ⟨indicator x, indicator y⟩ =
      Option.merge (· + ·) (m.quadratic.lookup ⟨indicator x, indicator y⟩)
        (guard? penalty width x y) := by
  unfold addGuards
  apply (lookup_foldl_of_mem (consistent_guardStep x) hnodup hy
    (fun o => Option.merge (· + ·) o (guard? penalty width x y)) ?_ ?_ hm).2
  · intro m hm
    unfold guard?
    by_cases hcovers : x.covers y = true
    · rw [if_pos (by simp [hcovers]), if_pos hcovers]
      cases m.quadratic.lookup ⟨indicator x, indicator y⟩ <;> rfl
    · rw [if_neg (by simp [hcovers, hne.symm]), if_neg hcovers]
      show (m.quadratic.upsert _ (· + deterrent penalty width x) _).lookup _ = _
      rw [hm.quadratic.lookup_upsert, BEq.rfl, if_pos rfl]
      cases m.quadratic.lookup ⟨indicator x, indicator y⟩ <;> rfl
  · intro z _ hz m hm
    split
    · rfl
    · apply lookup_addQuadratic_of_ne hm
      rw [← Bool.not_eq_true, beq_indicators]
      rintro (⟨-, rfl⟩ | ⟨rfl, -⟩)
      · exact hz rfl
      · exact hne rfl

/-- The guards of one indicator are all that they touch. -/
theorem lookup_addGuards_of_ne (hm : m.Consistent)
    (hne : ∀ y, ((⟨indicator x, indicator y⟩ : Pair Variable) == k) = false) :
    (addGuards penalty width elements x m).quadratic.lookup k = m.quadratic.lookup k := by
  unfold addGuards
  apply (lookup_foldl_of_forall (consistent_guardStep x) _ ?_ hm).2
  intro y _ m hm
  split
  · rfl
  · exact lookup_addQuadratic_of_ne hm _ (hne y)

/-! ## Adding an indicator -/

/-- A new indicator gets its entries with the bits. -/
theorem lookup_addIndicator_bit (hwidth : width ≤ 64) (hm : m.Consistent) {i : Nat}
    (hi : i < width) :
    (addIndicator penalty width elements m x).quadratic.lookup ⟨bitAt i, indicator x⟩ =
      some (bitEntry penalty width x i) := by
  have hlinear := hm.addLinear (indicator x) penalty
  unfold addIndicator
  rw [lookup_addGuards_of_ne (consistent_setBitTerms hlinear x) fun y => beq_indicators_bit,
    lookup_setBitTerms hwidth hlinear hi]

/-- Other indicators keep theirs. -/
theorem lookup_addIndicator_bit_of_ne (hm : m.Consistent) (hne : y ≠ x) (i : Nat) :
    (addIndicator penalty width elements m y).quadratic.lookup ⟨bitAt i, indicator x⟩ =
      m.quadratic.lookup ⟨bitAt i, indicator x⟩ := by
  have hlinear := hm.addLinear (indicator y) penalty
  unfold addIndicator
  rw [lookup_addGuards_of_ne (consistent_setBitTerms hlinear y) fun z => beq_indicators_bit,
    lookup_setBitTerms_of_ne hlinear fun j _ => ?_]
  · rfl
  · rw [← Bool.not_eq_true, beq_bit_indicator]
    exact fun hboth => hne hboth.2

/-- A bit and an indicator are no pair of indicators. -/
theorem beq_bit_indicators {i : Nat} :
    ((⟨bitAt i, indicator z⟩ : Pair Variable) == ⟨indicator x, indicator y⟩) = false := by
  rw [← Bool.not_eq_true]
  intro h
  have hfalse := beq_indicators_bit (i := i) (x := x) (y := y) (z := z)
  rw [BEq.symm h] at hfalse
  cases hfalse

/-- A new indicator adds its guard against another one. -/
theorem lookup_addIndicator_pair (hm : m.Consistent) (hnodup : elements.Nodup)
    (hy : y ∈ elements) (hne : x ≠ y) :
    (addIndicator penalty width elements m x).quadratic.lookup ⟨indicator x, indicator y⟩ =
      Option.merge (· + ·) (m.quadratic.lookup ⟨indicator x, indicator y⟩)
        (guard? penalty width x y) := by
  have hlinear := hm.addLinear (indicator x) penalty
  unfold addIndicator
  rw [lookup_addGuards (consistent_setBitTerms hlinear x) hnodup hy hne,
    lookup_setBitTerms_of_ne hlinear fun _ _ => beq_bit_indicators]
  rfl

/-- It leaves the other pairs of indicators alone. -/
theorem lookup_addIndicator_pair_of_ne (hm : m.Consistent) (hx : z ≠ x) (hy : z ≠ y) :
    (addIndicator penalty width elements m z).quadratic.lookup ⟨indicator x, indicator y⟩ =
      m.quadratic.lookup ⟨indicator x, indicator y⟩ := by
  have hlinear := hm.addLinear (indicator z) penalty
  unfold addIndicator
  rw [lookup_addGuards_of_ne (consistent_setBitTerms hlinear z) fun w => ?_,
    lookup_setBitTerms_of_ne hlinear fun _ _ => beq_bit_indicators]
  · rfl
  · rw [← Bool.not_eq_true, beq_indicators]
    rintro (⟨rfl, -⟩ | ⟨rfl, -⟩)
    · exact hx rfl
    · exact hy rfl

/-! ## All indicators -/

/-- The bits alone have no entry in the table of pairs. -/
theorem lookup_addBits (penalty : S) (width : Nat) (k : Pair Variable) :
    (addBits penalty width .empty).quadratic.lookup k = none := by
  unfold addBits
  exact List.foldlRecOn (motive := fun m : Model Variable S => m.quadratic.lookup k = none) _ _
    (Table.lookup_empty k) fun m h i _ => h

/-- **Between a bit and an indicator** stands the reward or the deterrent of its element. -/
theorem lookup_bit_indicator (hwidth : width ≤ 64) (penalty : S) (hnodup : elements.Nodup)
    (hx : x ∈ elements) {i : Nat} (hi : i < width) :
    (modelOf penalty width elements).quadratic.lookup ⟨bitAt i, indicator x⟩ =
      some (bitEntry penalty width x i) := by
  unfold modelOf
  exact (lookup_foldl_of_mem (fun e m hm => consistent_addIndicator hm elements e) hnodup hx
    (fun _ => some (bitEntry penalty width x i))
    (fun m hm => lookup_addIndicator_bit hwidth hm hi)
    (fun y _ hne m hm => lookup_addIndicator_bit_of_ne hm hne i)
    (consistent_addBits Model.consistent_empty)).2

/-- **Between two indicators** stand their guards, that of the first element in front. -/
theorem lookup_indicators (penalty : S) (width : Nat) (hnodup : elements.Nodup)
    (horder : [x, y].Sublist elements) :
    (modelOf penalty width elements).quadratic.lookup ⟨indicator x, indicator y⟩ =
      Option.merge (· + ·) (guard? penalty width x y) (guard? penalty width y x) := by
  have hx : x ∈ elements := horder.mem List.mem_cons_self
  have hy : y ∈ elements := horder.mem (List.mem_cons_of_mem _ List.mem_cons_self)
  -- The list is cut so that one element stands in either part.
  obtain ⟨before, after, hlist, hxBefore, hyAfter⟩ := List.cons_sublist_iff.mp horder
  rw [List.singleton_sublist] at hyAfter
  have hparts := hnodup
  rw [hlist] at hparts
  obtain ⟨hbefore, hafter, hapart⟩ := List.nodup_append.mp hparts
  have hne : x ≠ y := hapart x hxBefore y hyAfter
  have hconsistent : ∀ (e : BitVector) (m : Model Variable S), m.Consistent →
      (addIndicator penalty width elements m e).Consistent :=
    fun e m hm => consistent_addIndicator hm elements e
  have hstart : (addBits penalty width (.empty : Model Variable S)).Consistent :=
    consistent_addBits Model.consistent_empty
  obtain ⟨hmiddle, hfirst⟩ := lookup_foldl_of_mem (k := ⟨indicator x, indicator y⟩) hconsistent
    hbefore hxBefore (fun o => Option.merge (· + ·) o (guard? penalty width x y))
    (fun m hm => lookup_addIndicator_pair hm hnodup hy hne)
    (fun z hz hzx m hm => lookup_addIndicator_pair_of_ne hm hzx (hapart z hz y hyAfter))
    hstart
  obtain ⟨-, hsecond⟩ := lookup_foldl_of_mem (k := ⟨indicator y, indicator x⟩) hconsistent
    hafter hyAfter (fun o => Option.merge (· + ·) o (guard? penalty width y x))
    (fun m hm => lookup_addIndicator_pair hm hnodup hx hne.symm)
    (fun z hz hzy m hm => lookup_addIndicator_pair_of_ne hm hzy (hapart x hxBefore z hz).symm)
    hmiddle
  have hswap := beq_indicators_swap y x
  rw [Table.lookup_congr _ hswap, Table.lookup_congr _ hswap, hfirst, lookup_addBits] at hsecond
  have hall : modelOf penalty width elements =
      after.foldl (addIndicator penalty width elements)
        (before.foldl (addIndicator penalty width elements) (addBits penalty width .empty)) := by
    rw [← List.foldl_append, ← hlist]
    rfl
  rw [hall, hsecond]
  cases guard? penalty width x y <;> rfl

end Embedding

end SetQubo
