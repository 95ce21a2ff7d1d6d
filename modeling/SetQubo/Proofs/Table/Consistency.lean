import Mathlib.Data.List.Basic
import Mathlib.Data.List.Pairwise
import SetQubo.Table
/-!
# Index and entries agree

A table keeps an index next to its entries. The two are **consistent** if the index has a place for
a key exactly when the entry at that place has an equal key. Every step keeps this, so for every
table that is built up step by step:

* no two entries have equal keys;
* a lookup finds the entry with the key, wherever it stands;
* a step on a key either changes the coefficient of the one entry with that key, or appends an
  entry. This is `Consistent.upsert_cases`, from which all else about a step follows.
-/

namespace SetQubo

namespace Table

variable {K S : Type} [Key K]

/-- The index has a place for a key exactly when the entry at that place has an equal key. -/
def Consistent (t : Table K S) : Prop :=
  ∀ (k : K) (i : Nat), t.index[k]? = some i ↔
    ∃ e : K × S, t.entries[i]? = some e ∧ (e.1 == k) = true

theorem consistent_empty : (empty : Table K S).Consistent := by
  intro k i
  simp [empty]

/-! ## Steps keep the index right -/

/-- Changing a coefficient in place keeps the keys at their places. -/
theorem Consistent.modify {t : Table K S} (h : t.Consistent) (i : Nat) (update : S → S) :
    Consistent { t with entries := t.entries.modify i fun (key, c) => (key, update c) } := by
  intro k j
  show t.index[k]? = some j ↔ _
  rw [h k j, Array.getElem?_modify]
  by_cases hij : i = j
  · subst hij
    simp only [if_true, Option.map_eq_some_iff]
    constructor
    · intro hentry
      obtain ⟨e, he, hk⟩ := hentry
      exact ⟨(e.1, update e.2), ⟨e, he, rfl⟩, hk⟩
    · intro hentry
      obtain ⟨_, ⟨e, he, rfl⟩, hk⟩ := hentry
      exact ⟨e, he, hk⟩
  · simp [hij]

/-- Appending an entry for a key that has no place keeps index and entries in step. -/
theorem Consistent.push {t : Table K S} (h : t.Consistent) {k : K} (hk : t.index[k]? = none)
    (c : S) : Consistent ⟨t.index.insert k t.entries.size, t.entries.push (k, c)⟩ := by
  intro k' i
  show (t.index.insert k t.entries.size)[k']? = some i ↔ _
  rw [Std.HashMap.getElem?_insert, Array.getElem?_push]
  cases hkk : k == k' with
  | true =>
    -- An equal key had no place either, so the new entry is the only one for it.
    have hnone : t.index[k']? = none := by rw [← Std.HashMap.getElem?_congr hkk, hk]
    rw [if_pos rfl]
    constructor
    · intro hi
      obtain rfl : t.entries.size = i := Option.some.inj hi
      exact ⟨(k, c), by simp, hkk⟩
    · intro hentry
      obtain ⟨e, he, hek⟩ := hentry
      split at he
      · next heq => rw [heq]
      · have hplace := (h k' i).mpr ⟨e, he, hek⟩
        rw [hnone] at hplace
        cases hplace
  | false =>
    -- The places of other keys are those of the entries that were there.
    rw [if_neg Bool.false_ne_true, h k' i]
    constructor
    · intro hentry
      obtain ⟨e, he, hek⟩ := hentry
      obtain ⟨hlt, -⟩ := Array.getElem?_eq_some_iff.mp he
      exact ⟨e, by rw [if_neg (Nat.ne_of_lt hlt), he], hek⟩
    · intro hentry
      obtain ⟨e, he, hek⟩ := hentry
      split at he
      · cases he
        rw [hkk] at hek
        cases hek
      · exact ⟨e, he, hek⟩

/-- Every step keeps a table consistent. -/
theorem Consistent.upsert {t : Table K S} (h : t.Consistent) (k : K) (update : S → S) (new : S) :
    (t.upsert k update new).Consistent := by
  unfold Table.upsert
  split
  · exact h.modify _ update
  · next hk => exact h.push hk new

theorem Consistent.add [Add S] {t : Table K S} (h : t.Consistent) (k : K) (c : S) :
    (t.add k c).Consistent :=
  h.upsert k _ c

theorem Consistent.set {t : Table K S} (h : t.Consistent) (k : K) (c : S) :
    (t.set k c).Consistent :=
  h.upsert k _ c

/-! ## What consistency gives -/

/-- No two entries have equal keys. -/
theorem Consistent.distinct {t : Table K S} (h : t.Consistent) :
    t.toList.Pairwise fun e e' => (e.1 == e'.1) = false := by
  rw [List.pairwise_iff_getElem]
  intro i j hi hj hij
  rw [← Bool.not_eq_true]
  intro heq
  -- Two entries with equal keys would give the key two places.
  have hplace := (h t.toList[j].1 j).mpr ⟨t.toList[j], by simp [toList], BEq.rfl⟩
  have hplace' := (h t.toList[j].1 i).mpr ⟨t.toList[i], by simp [toList], heq⟩
  rw [hplace] at hplace'
  exact absurd (Option.some.inj hplace') (Nat.ne_of_gt hij)

/-- The coefficient of a key is that of the entry which has it. -/
theorem Consistent.get_of_mem [Zero S] {t : Table K S} (h : t.Consistent) {e : K × S} {k : K}
    (he : e ∈ t.toList) (hk : (e.1 == k) = true) : t.get k = e.2 := by
  obtain ⟨i, hi, rfl⟩ := List.mem_iff_getElem.mp he
  have hentry : t.entries[i]? = some t.toList[i] := by simp [toList]
  have hplace := (h k i).mpr ⟨_, hentry, hk⟩
  unfold get
  rw [hplace, Option.bind_some, hentry]

/-- A key that no entry has reads as 0. -/
theorem Consistent.get_of_forall_ne [Zero S] {t : Table K S} (h : t.Consistent) {k : K}
    (hk : ∀ e ∈ t.toList, (e.1 == k) = false) : t.get k = 0 := by
  have hplace : t.index[k]? = none := by
    cases hi : t.index[k]? with
    | none => rfl
    | some i =>
      obtain ⟨e, he, hek⟩ := (h k i).mp hi
      have hmem : e ∈ t.toList := by
        rw [toList, Array.mem_toList_iff]
        exact Array.mem_of_getElem? he
      rw [hk e hmem] at hek
      cases hek
  unfold get
  rw [hplace]
  rfl

/-- A step changes the coefficient of the one entry with the key, or appends an entry. -/
theorem Consistent.upsert_cases {t : Table K S} (h : t.Consistent) (k : K) (update : S → S)
    (new : S) :
    (∃ before after k' c, (k' == k) = true ∧ t.toList = before ++ (k', c) :: after ∧
      (t.upsert k update new).toList = before ++ (k', update c) :: after) ∨
    ((∀ e ∈ t.toList, (e.1 == k) = false) ∧
      (t.upsert k update new).toList = t.toList ++ [(k, new)]) := by
  unfold Table.upsert
  split
  · next i hi =>
    -- The index names the place of the entry, and the list is cut there.
    left
    obtain ⟨⟨k', c⟩, he, hk⟩ := (h k i).mp hi
    have hentry : t.toList[i]? = some (k', c) := by simpa [toList] using he
    obtain ⟨hlt, hget⟩ := List.getElem?_eq_some_iff.mp hentry
    refine ⟨t.toList.take i, t.toList.drop (i + 1), k', c, hk, ?_, ?_⟩
    · rw [← hget, List.getElem_cons_drop, List.take_append_drop]
    · show (t.entries.modify i _).toList = _
      rw [Array.toList_modify, List.modify_eq_take_cons_drop (by simpa [toList] using hlt)]
      have hin : i < t.entries.toList.length := hlt
      have hhere : t.entries.toList[i] = (k', c) := hget
      rw [hhere]
      rfl
  · next hnone =>
    -- The index has no place for the key, so no entry has it.
    right
    refine ⟨?_, by simp [toList]⟩
    intro e he
    rw [← Bool.not_eq_true]
    intro hk
    obtain ⟨i, hi, rfl⟩ := List.mem_iff_getElem.mp he
    have hplace := (h k i).mpr ⟨_, by simp [toList], hk⟩
    rw [hnone] at hplace
    cases hplace

/-! ## The list of keys -/

/-- A step keeps the list of keys if an equal key is there, and else appends its own. -/
theorem Consistent.keys_upsert_cases {t : Table K S} (h : t.Consistent) (k : K) (update : S → S)
    (new : S) :
    ((∃ k' ∈ t.keys, (k' == k) = true) ∧ (t.upsert k update new).keys = t.keys) ∨
    ((∀ k' ∈ t.keys, (k' == k) = false) ∧ (t.upsert k update new).keys = t.keys ++ [k]) := by
  unfold keys
  rcases h.upsert_cases k update new with ⟨before, after, k', c, hk, ht, ht'⟩ | ⟨hk, ht'⟩
  · refine Or.inl ⟨⟨k', ?_, hk⟩, ?_⟩
    · simp [ht]
    · simp [ht, ht']
  · refine Or.inr ⟨?_, by simp [ht']⟩
    intro k' hk'
    obtain ⟨e, he, rfl⟩ := List.mem_map.mp hk'
    exact hk e he

/-- A step brings in no key but its own. -/
theorem Consistent.mem_keys_upsert {t : Table K S} (h : t.Consistent) {k k' : K}
    {update : S → S} {new : S} (hk' : k' ∈ (t.upsert k update new).keys) :
    k' ∈ t.keys ∨ k' = k := by
  rcases h.keys_upsert_cases k update new with ⟨-, hkeys⟩ | ⟨-, hkeys⟩
  · rw [hkeys] at hk'
    exact Or.inl hk'
  · rw [hkeys, List.mem_append, List.mem_singleton] at hk'
    exact hk'

/-- Adding to keys that are new, and pairwise different, appends them all. -/
theorem Consistent.keys_foldl_add {V : Type} [Label V] [Add S] {t : Table V S}
    (h : t.Consistent) (ks : List V) (c : S) (hnodup : (t.keys ++ ks).Nodup) :
    (ks.foldl (fun t k => t.add k c) t).keys = t.keys ++ ks := by
  induction ks generalizing t with
  | nil => simp
  | cons k ks ih =>
    -- An equal key cannot be there already, since labels that are equal are the same.
    have hkeys : (t.add k c).keys = t.keys ++ [k] := by
      rcases h.keys_upsert_cases k (· + c) c with ⟨⟨k', hmem, hk⟩, -⟩ | ⟨-, hkeys⟩
      · obtain rfl := LawfulBEq.eq_of_beq hk
        exact absurd rfl ((List.nodup_append.mp hnodup).2.2 k' hmem k' List.mem_cons_self)
      · exact hkeys
    rw [List.foldl_cons, ih (h.add k c) (by rw [hkeys]; simpa using hnodup), hkeys]
    simp

end Table

end SetQubo
