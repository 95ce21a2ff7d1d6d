import Mathlib.Data.List.Forall2
import Mathlib.Data.List.Perm.Basic
import SetQubo.Proofs.Pair
import SetQubo.Proofs.Table.Writing
/-!
# The orientation of pairs

A pair is written from one side or from the other, and keeps the form in which it was written. The
equality, the order and the hash of pairs each look through that form in a way of their own. They do
so together: pairs are equal when they hold the same labels, the order is a total order of pairs that
are taken so, and equal pairs are hashed as the same data. Whatever is done with pairs by way of
these three, looking up and changing a table of pairs, or sorting a list of them and removing what is
repeated, comes out the same for a pair and its reversal, up to the form in which pairs are kept.
-/

namespace SetQubo

/-- A map that keeps members apart as they are apart may be applied before or after removing
neighbours that are equal. -/
theorem map_eraseReps {α β : Type} [BEq α] [BEq β] {f : α → β}
    (hf : ∀ a b, (f a == f b) = (a == b)) (l : List α) :
    l.eraseReps.map f = (l.map f).eraseReps := by
  -- What has been kept is accumulated, so the induction is on what is still to come.
  have hloop : ∀ (as : List α) (a : α) (kept : List α),
      (List.eraseRepsBy.loop (· == ·) a as kept).map f =
        List.eraseRepsBy.loop (· == ·) (f a) (as.map f) (kept.map f) := by
    intro as
    induction as with
    | nil =>
      intro a kept
      simp [List.eraseRepsBy.loop]
    | cons b as ih =>
      intro a kept
      rw [List.map_cons, List.eraseRepsBy.loop, List.eraseRepsBy.loop, hf]
      split
      · exact ih a kept
      · exact ih b (a :: kept)
  cases l with
  | nil => rfl
  | cons a as => exact hloop as a []

namespace Pair

variable {V : Type} [Label V] {p q : Pair V} {ps ps' qs qs' : List (Pair V)}

/-! ## Lists of pairs -/

/-- Two lists hold the same pairs, place by place, but may have them written differently. -/
def Alike (ps qs : List (Pair V)) : Prop := List.Forall₂ (fun p q => (p == q) = true) ps qs

theorem alike_iff_map_key : Alike ps qs ↔ ps.map key = qs.map key := by
  rw [← List.forall₂_eq_eq_eq, List.forall₂_map_left_iff, List.forall₂_map_right_iff]
  simp only [Alike, beq_iff_key]

/-- Equal neighbours are removed at the same places. -/
theorem Alike.eraseReps (h : Alike ps qs) : Alike ps.eraseReps qs.eraseReps := by
  have hkey : ∀ p q : Pair V, (p.key == q.key) = (p == q) := fun _ _ => rfl
  rw [alike_iff_map_key] at h ⊢
  rw [map_eraseReps hkey, map_eraseReps hkey, h]

/-! ## Sorting -/

/-- A list has been sorted, by any method. -/
structure Sorts (ps ps' : List (Pair V)) : Prop where
  /-- The members are the same. -/
  perm : ps'.Perm ps
  /-- They stand in ascending order. -/
  ascending : ps'.Pairwise fun p q => (compare p q).isLE = true

theorem isLE_total (p q : Pair V) :
    (compare p q).isLE = true ∨ (compare q p).isLE = true := by
  have hswap : compare q p = (compare p q).swap := Std.OrientedCmp.eq_swap
  rw [hswap]
  cases compare p q with
  | lt => exact Or.inl rfl
  | eq => exact Or.inl rfl
  | gt => exact Or.inr rfl

theorem beq_of_isLE (hpq : (compare p q).isLE = true) (hqp : (compare q p).isLE = true) :
    (p == q) = true :=
  compare_eq_iff.mp (Std.OrientedCmp.isLE_antisymm hpq hqp)

/-- Every list can be sorted, since the order is transitive and total. -/
theorem sorts_mergeSort (ps : List (Pair V)) :
    Sorts ps (ps.mergeSort fun p q => (compare p q).isLE) where
  perm := List.mergeSort_perm _ _
  ascending := by
    apply List.pairwise_mergeSort
    · exact fun _ _ _ => Std.TransCmp.isLE_trans
    · intro p q
      rw [Bool.or_eq_true]
      exact isLE_total p q

/-- **Lists that are alike are so after sorting**, also if they are sorted by different methods. -/
theorem Sorts.alike (h : Alike ps qs) (hps : Sorts ps ps') (hqs : Sorts qs qs') :
    Alike ps' qs' := by
  rw [alike_iff_map_key] at h ⊢
  -- After sorting, the normal forms of both lists are still the same up to their order.
  have hperm : (ps'.map key).Perm (qs'.map key) := by
    have hbefore : (ps'.map key).Perm (qs.map key) := h ▸ hps.perm.map key
    exact hbefore.trans (hqs.perm.map key).symm
  have hascending : ∀ {rs rs' : List (Pair V)}, Sorts rs rs' → (rs'.map key).Pairwise fun k l =>
      ((compare k.1 l.1).then (compare k.2 l.2)).isLE = true :=
    fun hrs => List.pairwise_map.mpr hrs.ascending
  -- Both are in ascending order, and only one list is.
  refine List.Perm.eq_of_pairwise ?_ (hascending hps) (hascending hqs) hperm
  intro k l hk hl hkl hlk
  obtain ⟨p, -, rfl⟩ := List.mem_map.mp hk
  obtain ⟨q, -, rfl⟩ := List.mem_map.mp hl
  exact beq_iff_key.mp (beq_of_isLE hkl hlk)

/-! ## Pairs without their orientation -/

/-- Nothing that is found out about pairs depends on the side from which they are written. -/
structure Unoriented (V : Type) [Label V] : Prop where
  /-- Pairs are equal if they hold the same labels without their order. -/
  beq_iff (p q : Pair V) : (p == q) = true ↔ p.unordered = q.unordered
  /-- In particular a pair equals its reversal. -/
  beq_swap (p : Pair V) : (p.swap == p) = true
  /-- Pairs are equal in the order if they are equal. -/
  compare_eq_iff (p q : Pair V) : compare p q = .eq ↔ (p == q) = true
  /-- Equal pairs have the same place in the order. -/
  compare_congr {p p' q q' : Pair V} (hp : (p == p') = true) (hq : (q == q') = true) :
    compare p q = compare p' q'
  /-- The order is the same from both sides, -/
  compare_swap (p q : Pair V) : compare q p = (compare p q).swap
  /-- reflexive, -/
  isLE_refl (p : Pair V) : (compare p p).isLE = true
  /-- antisymmetric up to equality, -/
  isLE_antisymm {p q : Pair V} (hpq : (compare p q).isLE = true)
    (hqp : (compare q p).isLE = true) : (p == q) = true
  /-- transitive -/
  isLE_trans {p q r : Pair V} (hpq : (compare p q).isLE = true)
    (hqr : (compare q r).isLE = true) : (compare p r).isLE = true
  /-- and total. -/
  isLE_total (p q : Pair V) : (compare p q).isLE = true ∨ (compare q p).isLE = true
  /-- Equal pairs are hashed as the same labels in the same order, so they have the same hash. -/
  hash_congr {p q : Pair V} (h : (p == q) = true) : p.key = q.key ∧ hash p = hash q
  /-- Equal pairs are looked up at the same place of a table, or of tables that are alike. -/
  looked_up {S : Type} [Zero S] {t u : Table (Pair V) S} (h : t.Alike u) {p q : Pair V}
    (hpq : (p == q) = true) :
    u.index[q]? = t.index[p]? ∧ u.contains q = t.contains p ∧ u.get q = t.get p
  /-- They are put in and changed at the same place, -/
  changed {S : Type} [Add S] {t u : Table (Pair V) S} (h : t.Alike u) {p q : Pair V}
    (hpq : (p == q) = true) (edit : Table.Edit S) :
    (Table.Change.apply t ⟨p, edit⟩).Alike (Table.Change.apply u ⟨q, edit⟩)
  /-- and so are those in a list of changes, each of which may be reversed or not. -/
  replayed {S : Type} [Add S] {changes changes' : List (Table.Change (Pair V) S)}
    (h : List.Forall₂ Table.Change.Alike changes changes') :
    (Table.replay changes).Alike (Table.replay changes')
  /-- Every list of pairs can be sorted. -/
  sortable (ps : List (Pair V)) : Sorts ps (ps.mergeSort fun p q => (compare p q).isLE)
  /-- Sorting lists of equal pairs, and then removing equal neighbours, leaves equal pairs. -/
  sorted {ps ps' qs qs' : List (Pair V)} (h : Alike ps qs) (hps : Sorts ps ps')
    (hqs : Sorts qs qs') : Alike ps'.eraseReps qs'.eraseReps

/-- **The orientation of pairs does not show**, for labels of any type: equality, order and hash agree
in what they see of a pair. -/
theorem orientation_does_not_show (V : Type) [Label V] : Unoriented V where
  beq_iff _ _ := beq_iff_unordered
  beq_swap p := beq_iff_key.mpr (key_swap p)
  compare_eq_iff _ _ := Pair.compare_eq_iff
  compare_congr hp hq := Pair.compare_congr hp hq
  compare_swap _ _ := Std.OrientedCmp.eq_swap
  isLE_refl _ := Std.ReflCmp.isLE_rfl
  isLE_antisymm hpq hqp := beq_of_isLE hpq hqp
  isLE_trans hpq hqr := Std.TransCmp.isLE_trans hpq hqr
  isLE_total p q := Pair.isLE_total p q
  hash_congr h := ⟨beq_iff_key.mp h, LawfulHashable.hash_eq _ _ h⟩
  looked_up h _ _ hpq := ⟨h.place_congr hpq, h.contains_congr hpq, h.get_congr hpq⟩
  changed h _ _ hpq _ := h.applyChange ⟨hpq, rfl⟩
  replayed h := Table.alike_replay h
  sortable ps := sorts_mergeSort ps
  sorted h hps hqs := (Sorts.alike h hps hqs).eraseReps

end Pair

end SetQubo
