import Mathlib.Data.List.Induction
import SetQubo.Proofs.FirstOccurrences
import SetQubo.Solver.Numbering
/-!
# Numbers and labels

A numbering is consistent if the number of a label is the place where it stands. Every numbering
that is built up label by label is, so no label has two numbers, and a list of labels is numbered
in the order of its first occurrences.
-/

namespace SetQubo

namespace Numbering

variable {V : Type} [Label V] {n : Numbering V}

/-- The number of a label is the place where it stands. -/
def Consistent (n : Numbering V) : Prop := ∀ v i, n.indexOf? v = some i ↔ n.label? i = some v

/-! ## What consistency says -/

theorem Consistent.contains_iff (h : n.Consistent) (v : V) :
    n.index.contains v = true ↔ v ∈ n.labels.toList := by
  rw [Std.HashMap.contains_eq_isSome_getElem?, Option.isSome_iff_exists]
  constructor
  · intro hplace
    obtain ⟨i, hi⟩ := hplace
    have hlabel : n.labels[i]? = some v := (h v i).mp hi
    exact Array.mem_toList_iff.mpr (Array.mem_of_getElem? hlabel)
  · intro hv
    obtain ⟨i, hi⟩ := Array.getElem?_of_mem (Array.mem_toList_iff.mp hv)
    exact ⟨i, (h v i).mpr hi⟩

/-- A label without number does not stand anywhere. -/
theorem Consistent.indexOf?_eq_none_iff (h : n.Consistent) (v : V) :
    n.indexOf? v = none ↔ v ∉ n.labels.toList := by
  rw [← h.contains_iff, Std.HashMap.contains_eq_isSome_getElem?]
  unfold indexOf?
  simp

/-- A number that is given is one of those below the size. -/
theorem Consistent.lt_size (h : n.Consistent) {v : V} {i : Nat} (hi : n.indexOf? v = some i) :
    i < n.size := by
  have hlabel : n.labels[i]? = some v := (h v i).mp hi
  exact (Array.getElem?_eq_some_iff.mp hlabel).1

/-! ## Building up -/

theorem consistent_empty : (empty : Numbering V).Consistent := by
  intro v i
  unfold indexOf? label? empty
  simp

/-- A label that has no number is put behind the others. -/
theorem Consistent.labels_insert (h : n.Consistent) (v : V) :
    (n.insert v).labels.toList =
      if n.labels.toList.contains v then n.labels.toList else n.labels.toList ++ [v] := by
  have hcontains : n.index.contains v = n.labels.toList.contains v := by
    rw [Bool.eq_iff_iff, h.contains_iff, List.contains_iff_mem]
  unfold insert
  rw [hcontains]
  split
  · rfl
  · exact Array.toList_push

theorem Consistent.insert (h : n.Consistent) (v : V) : (n.insert v).Consistent := by
  cases hv : n.index.contains v with
  | true =>
    unfold Numbering.insert
    rw [hv]
    exact h
  | false =>
    -- The new label stands at the end, and at no other place.
    have hnew : v ∉ n.labels.toList := by
      rw [← h.contains_iff, hv]
      exact Bool.false_ne_true
    intro w i
    have hw := h w i
    unfold Numbering.insert
    rw [hv]
    unfold indexOf? label? at hw ⊢
    show (n.index.insert v n.labels.size)[w]? = some i ↔ (n.labels.push v)[i]? = some w
    rw [Std.HashMap.getElem?_insert, Array.getElem?_push]
    cases hvw : v == w with
    | true =>
      obtain rfl : v = w := LawfulBEq.eq_of_beq hvw
      by_cases hi : i = n.labels.size
      · simp [hi]
      · -- It would have had a number if it had stood anywhere.
        have hnot : n.labels[i]? ≠ some v := by
          intro hi
          exact hnew (Array.mem_toList_iff.mpr (Array.mem_of_getElem? hi))
        simp [hi, hnot, Ne.symm hi]
    | false =>
      have hne : v ≠ w := by
        rintro rfl
        simp at hvw
      by_cases hi : i = n.labels.size
      · rw [if_pos hi, hi, if_neg Bool.false_ne_true]
        subst hi
        simp [hw, hne]
      · rw [if_neg hi, if_neg Bool.false_ne_true]
        exact hw

/-! ## Numbering a list -/

theorem consistent_ofList (vs : List V) : (ofList vs).Consistent := by
  unfold ofList
  exact List.foldlRecOn _ _ consistent_empty fun n hn v _ => hn.insert v

/-- **Labels are numbered in the order of their first occurrences.** -/
theorem labels_ofList (vs : List V) : (ofList vs).labels.toList = vs.eraseDups := by
  -- Labels are numbered from the left, so the last one of the list is the last one numbered.
  induction vs using List.reverseRecOn with
  | nil => rfl
  | append_singleton vs v ih =>
    have hstep : ofList (vs ++ [v]) = (ofList vs).insert v := by
      unfold ofList
      rw [List.foldl_append, List.foldl_cons, List.foldl_nil]
    rw [hstep, (consistent_ofList vs).labels_insert, ih, eraseDups_concat]
    simp

theorem size_ofList (vs : List V) : (ofList vs).size = vs.eraseDups.length := by
  rw [← labels_ofList, Array.length_toList]
  rfl

end Numbering

end SetQubo
