import Mathlib
import SetQubo.Proofs.Table.Lookup
/-!
# What a step does to a table

Two readings of a table are followed through a step, with exact coefficients: the coefficient of a
key, and the **total** of the coefficients whose keys are on. A step changes the coefficient of its
own key only, and the total by as much as that coefficient if the key is on.

Both kinds of step read a missing entry as 0: adding to it gives what is added, and overwriting it
gives what is written. So one statement, with `update 0 = new`, covers both.
-/

namespace SetQubo

namespace Table

variable {K : Type} [Key K]

/-! ## The coefficient of a key -/

/-- Keys that are one have one coefficient. -/
theorem get_congr (t : Table K Rat) {k k' : K} (h : (k == k') = true) : t.get k = t.get k' := by
  unfold get
  rw [Std.HashMap.getElem?_congr h]

/-- A step changes the coefficient of its own key and of no other one. -/
theorem Consistent.get_upsert {t : Table K Rat} (h : t.Consistent) (k j : K)
    (update : Rat → Rat) {new : Rat} (hnew : update 0 = new) :
    (t.upsert k update new).get j = if k == j then update (t.get j) else t.get j := by
  rw [(h.upsert k update new).get_eq_lookup, h.get_eq_lookup, h.lookup_upsert]
  cases hj : k == j with
  | false => rfl
  | true =>
    -- A key without an entry is given the new one, which reads as a step on 0.
    rw [t.lookup_congr hj]
    cases t.lookup j with
    | none => exact hnew.symm
    | some c => rfl

theorem Consistent.get_add {t : Table K Rat} (h : t.Consistent) (k j : K) (c : Rat) :
    (t.add k c).get j = t.get j + if k == j then c else 0 := by
  rw [Table.add, h.get_upsert k j (· + c) (zero_add c)]
  cases k == j <;> simp

theorem Consistent.get_set {t : Table K Rat} (h : t.Consistent) (k j : K) (c : Rat) :
    (t.set k c).get j = if k == j then c else t.get j :=
  h.get_upsert k j (fun _ => c) rfl

/-! ## The total of what is on -/

/-- The sum of the coefficients whose keys are on. -/
def total (t : Table K Rat) (on : K → Bool) : Rat :=
  (t.toList.map fun e => if on e.1 then e.2 else 0).sum

/-- Adding up from the left, and passing over what is off, gives the total. -/
theorem foldl_eq_total (t : Table K Rat) (on : K → Bool) (e : Rat) :
    t.toList.foldl (fun e (k, c) => if on k then e + c else e) e = e + t.total on := by
  unfold total
  induction t.toList generalizing e with
  | nil => simp
  | cons entry entries ih =>
    obtain ⟨k, c⟩ := entry
    rw [List.foldl_cons, ih, List.map_cons, List.sum_cons]
    by_cases hk : on k = true
    · simp [hk, add_assoc]
    · simp [hk]

/-- A step changes the total by as much as the coefficient of its key, if that key is on. -/
theorem Consistent.total_upsert {t : Table K Rat} (h : t.Consistent) {on : K → Bool}
    (hon : ∀ k k' : K, (k == k') = true → on k = on k') (k : K) (update : Rat → Rat) {new : Rat}
    (hnew : update 0 = new) :
    (t.upsert k update new).total on =
      t.total on + if on k then update (t.get k) - t.get k else 0 := by
  unfold total
  rcases h.upsert_cases k update new with ⟨before, after, k', c, hk, ht, ht'⟩ | ⟨hk, ht'⟩
  · -- The entries before and behind contribute the same to both totals.
    have hget : t.get k = c := h.get_of_mem (e := (k', c)) (by simp [ht]) hk
    rw [ht', ht, hget, ← hon k' k hk]
    by_cases hk' : on k' = true
    · simp [hk']
      abel
    · simp [hk']
  · have hget : t.get k = 0 := h.get_of_forall_ne hk
    rw [ht', hget, hnew]
    simp

theorem Consistent.total_add {t : Table K Rat} (h : t.Consistent) {on : K → Bool}
    (hon : ∀ k k' : K, (k == k') = true → on k = on k') (k : K) (c : Rat) :
    (t.add k c).total on = t.total on + if on k then c else 0 := by
  rw [Table.add, h.total_upsert hon k (· + c) (zero_add c), add_sub_cancel_left]

theorem Consistent.total_set {t : Table K Rat} (h : t.Consistent) {on : K → Bool}
    (hon : ∀ k k' : K, (k == k') = true → on k = on k') (k : K) (c : Rat) :
    (t.set k c).total on = t.total on + if on k then c - t.get k else 0 :=
  h.total_upsert hon k (fun _ => c) rfl

end Table

end SetQubo
