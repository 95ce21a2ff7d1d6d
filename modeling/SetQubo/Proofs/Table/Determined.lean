import Mathlib
import SetQubo.Proofs.Table.Rebuild
import SetQubo.Proofs.Table.Total
/-!
# A table and its coefficients

What a consistent table adds up to depends on the coefficients that a lookup finds, and on nothing
else: not on the order of the entries, not on how their keys are written, and not on whether a
coefficient of 0 has an entry. Two tables with the same coefficients therefore have the same
totals. To see it, the entries of the one are taken away from the other: what is left reads as 0
everywhere, so it adds up to 0.
-/

namespace SetQubo

namespace Table

variable {K : Type} [Key K] {t u : Table K Rat} {on : K → Bool}

/-! ## Totals of what is not there -/

/-- If every coefficient that is on reads as 0, then they add up to 0. -/
theorem Consistent.total_eq_zero (h : t.Consistent) (hzero : ∀ k, on k = true → t.get k = 0) :
    t.total on = 0 := by
  unfold total
  apply List.sum_eq_zero
  intro c hc
  obtain ⟨e, he, rfl⟩ := List.mem_map.mp hc
  by_cases hon : on e.1 = true
  · rw [if_pos hon, ← h.get_of_mem he BEq.rfl, hzero e.1 hon]
  · rw [if_neg hon]

/-- Keys that are one with a given key are on together. -/
theorem beq_congr (j k k' : K) (h : (k == k') = true) : (k == j) = (k' == j) := BEq.congr_left h

/-- A coefficient is the total of its key. -/
theorem Consistent.total_beq (h : t.Consistent) (k : K) : t.total (· == k) = t.get k := by
  -- With the coefficient overwritten by 0 nothing is left of that total.
  have hnothing : (t.set k 0).total (· == k) = 0 := by
    apply (h.set k 0).total_eq_zero
    intro j hj
    rw [h.get_set, if_pos (BEq.symm hj)]
  rw [h.total_set (beq_congr k), if_pos BEq.rfl] at hnothing
  linarith

/-! ## Adding lists of entries -/

/-- Added entries change the total by those of them that are on. -/
theorem Consistent.total_addAll (h : t.Consistent)
    (hon : ∀ k k' : K, (k == k') = true → on k = on k') (es : List (K × Rat)) :
    (t.addAll es).total on = t.total on + (es.map fun e => if on e.1 then e.2 else 0).sum := by
  induction es generalizing t with
  | nil => exact (add_zero _).symm
  | cons e es ih =>
    have hrest := ih (h.add e.1 e.2)
    have hstep := h.total_add hon e.1 e.2
    show ((t.add e.1 e.2).addAll es).total on = _
    rw [hrest, hstep, List.map_cons, List.sum_cons, add_assoc]

/-- The table from which the entries of another one have been taken away. -/
def without (t u : Table K Rat) : Table K Rat := t.addAll (u.toList.map fun e => (e.1, -e.2))

theorem Consistent.total_without (h : t.Consistent)
    (hon : ∀ k k' : K, (k == k') = true → on k = on k') :
    (t.without u).total on = t.total on - u.total on := by
  have hentries : ((u.toList.map fun e => (e.1, -e.2)).map fun e => if on e.1 then e.2 else 0) =
      (u.toList.map fun e => if on e.1 then e.2 else 0).map Neg.neg := by
    rw [List.map_map, List.map_map]
    apply List.map_congr_left
    intro e _
    show (if on e.1 then -e.2 else 0) = -(if on e.1 then e.2 else 0)
    split
    · rfl
    · exact neg_zero.symm
  unfold without
  rw [h.total_addAll hon, hentries, ← List.sum_neg, ← sub_eq_add_neg]
  rfl

/-! ## Tables with the same coefficients -/

/-- **Totals depend on the coefficients only.** -/
theorem Consistent.total_congr (ht : t.Consistent) (hu : u.Consistent)
    (hon : ∀ k k' : K, (k == k') = true → on k = on k')
    (h : ∀ k, on k = true → t.get k = u.get k) : t.total on = u.total on := by
  have hconsistent : (t.without u).Consistent := ht.addAll _
  have hnothing : (t.without u).total on = 0 := by
    apply hconsistent.total_eq_zero
    intro k hk
    rw [← hconsistent.total_beq, ht.total_without (beq_congr k), ht.total_beq, hu.total_beq,
      h k hk, sub_self]
  rw [ht.total_without hon] at hnothing
  exact sub_eq_zero.mp hnothing

/-! ## Equal tables -/

/-- Two entries have one key and the same coefficient. -/
def SameEntry (e e' : K × Rat) : Prop := (e.1 == e'.1) = true ∧ e.2 = e'.2

/-- Tables are equal exactly when they have the same entries, one by one. -/
theorem beq_iff : (t == u) = true ↔ List.Forall₂ SameEntry t.toList u.toList := by
  show (t.toList == u.toList) = true ↔ _
  generalize t.toList = es, u.toList = es'
  induction es generalizing es' with
  | nil => cases es' <;> simp
  | cons e es ih =>
    cases es' with
    | nil => simp
    | cons e' es' =>
      have hentry : (e == e') = true ↔ SameEntry e e' := by
        show (e.1 == e'.1 && e.2 == e'.2) = true ↔ _
        rw [Bool.and_eq_true, beq_iff_eq (a := e.2)]
        rfl
      rw [List.cons_beq_cons, Bool.and_eq_true, hentry, ih, List.forall₂_cons]

/-- A key has the same coefficient in equal lists of entries. -/
theorem find?_congr {es es' : List (K × Rat)} (h : List.Forall₂ SameEntry es es') (k : K) :
    (es.find? fun e => e.1 == k).map Prod.snd = (es'.find? fun e => e.1 == k).map Prod.snd := by
  induction h with
  | nil => rfl
  | @cons e e' es es' hfirst _ ih =>
    rw [List.find?_cons, List.find?_cons, beq_congr k e.1 e'.1 hfirst.1]
    cases e'.1 == k with
    | false => exact ih
    | true => exact congrArg some hfirst.2

/-- Equal tables have the same coefficients. -/
theorem Consistent.get_congr_of_beq (ht : t.Consistent) (hu : u.Consistent)
    (h : (t == u) = true) (k : K) : t.get k = u.get k := by
  rw [ht.get_eq_lookup, hu.get_eq_lookup]
  unfold lookup
  rw [find?_congr (beq_iff.mp h)]

/-- Every key of a table is a key of a table that is equal to it. -/
theorem exists_key_of_beq (h : (t == u) = true) {k : K} (hk : k ∈ t.keys) :
    ∃ k' ∈ u.keys, (k == k') = true := by
  obtain ⟨e, he, rfl⟩ := List.mem_map.mp hk
  obtain ⟨i, hi, rfl⟩ := List.mem_iff_getElem.mp he
  obtain ⟨hlength, hentries⟩ := List.forall₂_iff_get.mp (beq_iff.mp h)
  have hi' : i < u.toList.length := hlength ▸ hi
  exact ⟨(u.toList[i]).1, List.mem_map_of_mem (List.getElem_mem hi'), (hentries i hi hi').1⟩

theorem beq_symm (h : (t == u) = true) : (u == t) = true :=
  beq_iff.mpr ((beq_iff.mp h).flip.imp fun _ _ he => ⟨BEq.symm he.1, he.2.symm⟩)

end Table

end SetQubo
