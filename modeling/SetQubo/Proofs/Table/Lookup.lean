import Mathlib.Data.List.Basic
import SetQubo.Proofs.Table.Consistency
/-!
# Looking up entries

A table is read as a partial function: a key has a coefficient or it has none, and a coefficient
of 0 is not the same as none. A step gives its own key the updated coefficient, or the new one if
there was none, and keeps every other key as it is. Nothing is asked of the arithmetic.
-/

namespace SetQubo

namespace Table

variable {K S : Type} [Key K] {t : Table K S}

/-- The coefficient of a key, if it has an entry. -/
def lookup (t : Table K S) (k : K) : Option S := (t.toList.find? fun e => e.1 == k).map Prod.snd

@[simp] theorem lookup_empty (k : K) : (empty : Table K S).lookup k = none := rfl

/-- Keys that are one have one coefficient. -/
theorem lookup_congr (t : Table K S) {k k' : K} (h : (k == k') = true) :
    t.lookup k = t.lookup k' := by
  unfold lookup
  congr 2
  funext e
  exact BEq.congr_right h

/-- A coefficient is found only in an entry. -/
theorem exists_mem_of_lookup_eq_some {k : K} {c : S} (h : t.lookup k = some c) :
    ∃ k', (k' == k) = true ∧ (k', c) ∈ t.toList := by
  obtain ⟨e, hfind, rfl⟩ := Option.map_eq_some_iff.mp h
  exact ⟨e.1, List.find?_some (p := fun e : K × S => e.1 == k) hfind,
    List.mem_of_find?_eq_some hfind⟩

/-- An entry is found under its key. -/
theorem Consistent.lookup_of_mem (h : t.Consistent) {e : K × S} (he : e ∈ t.toList) :
    t.lookup e.1 = some e.2 := by
  obtain ⟨before, after, hlist⟩ := List.append_of_mem he
  have hdistinct := h.distinct
  rw [hlist, List.pairwise_append] at hdistinct
  -- No earlier entry has the key.
  have hbefore : before.find? (fun e' => e'.1 == e.1) = none := by
    rw [List.find?_eq_none]
    intro e' he'
    rw [hdistinct.2.2 e' he' e List.mem_cons_self]
    exact Bool.false_ne_true
  unfold lookup
  rw [hlist, List.find?_append, hbefore, Option.none_or, List.find?_cons, BEq.rfl]
  rfl

/-- A key that no entry has is not found. -/
theorem lookup_eq_none_iff {k : K} :
    t.lookup k = none ↔ ∀ e ∈ t.toList, (e.1 == k) = false := by
  unfold lookup
  rw [Option.map_eq_none_iff, List.find?_eq_none]
  simp only [Bool.not_eq_true]

/-- What is read for a key is what its entry holds, and 0 without an entry. -/
theorem Consistent.get_eq_lookup [Zero S] (h : t.Consistent) (k : K) :
    t.get k = (t.lookup k).getD 0 := by
  cases hlookup : t.lookup k with
  | none => exact h.get_of_forall_ne (lookup_eq_none_iff.mp hlookup)
  | some c =>
    obtain ⟨k', hk', hmem⟩ := exists_mem_of_lookup_eq_some hlookup
    exact h.get_of_mem hmem hk'

/-- A key is contained if an entry has it. -/
theorem Consistent.contains_iff (h : t.Consistent) (k : K) :
    t.contains k = true ↔ ∃ e ∈ t.toList, (e.1 == k) = true := by
  unfold contains
  rw [Std.HashMap.contains_eq_isSome_getElem?, Option.isSome_iff_exists]
  constructor
  · intro ⟨i, hi⟩
    obtain ⟨e, he, hk⟩ := (h k i).mp hi
    exact ⟨e, Array.mem_toList_iff.mpr (Array.mem_of_getElem? he), hk⟩
  · intro ⟨e, he, hk⟩
    obtain ⟨i, hi, rfl⟩ := List.mem_iff_getElem.mp he
    exact ⟨i, (h k i).mpr ⟨_, by simp [toList], hk⟩⟩

/-- **A step changes what is found under its own key**, and nothing else. -/
theorem Consistent.lookup_upsert (h : t.Consistent) (k j : K) (update : S → S) (new : S) :
    (t.upsert k update new).lookup j =
      if k == j then some ((t.lookup k).elim new update) else t.lookup j := by
  have hafter := h.upsert k update new
  rcases h.upsert_cases k update new with ⟨before, after, k', c, hk, ht, ht'⟩ | ⟨hk, ht'⟩
  · have hfound : t.lookup k = some c := by
      rw [← t.lookup_congr hk]
      exact h.lookup_of_mem (e := (k', c)) (by simp [ht])
    cases hj : k == j with
    | true =>
      have hkj : (k' == j) = true := BEq.trans hk hj
      rw [if_pos rfl, hfound, ← lookup_congr _ hkj]
      exact hafter.lookup_of_mem (e := (k', update c)) (by simp [ht'])
    | false =>
      -- The entry of the step is passed over, before it as after it.
      have hkj : (k' == j) = false := by rw [BEq.congr_left hk, hj]
      rw [if_neg Bool.false_ne_true]
      unfold lookup
      rw [ht, ht', List.find?_append, List.find?_append, List.find?_cons, List.find?_cons, hkj]
  · cases hj : k == j with
    | true =>
      rw [if_pos rfl, lookup_eq_none_iff.mpr hk, ← lookup_congr _ hj]
      exact hafter.lookup_of_mem (e := (k, new)) (by simp [ht'])
    | false =>
      rw [if_neg Bool.false_ne_true]
      unfold lookup
      rw [ht', List.find?_append, List.find?_singleton, hj]
      simp

end Table

end SetQubo
