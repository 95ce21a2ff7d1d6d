import Mathlib
import SetQubo.Proofs.FirstOccurrences
import SetQubo.Proofs.Table.Determined
/-!
# Tables of entries with repeated keys

A table is made from a list of entries by adding them up, and what it then holds is known entry by
entry: its keys are the first occurrences among the keys of the list, written as they are there, and
the coefficient of a key is the sum of what was listed for it. The index follows from the keys, so
two tables made in this way are one as soon as they have the same entries.

The main result is that keys may be translated in two steps or in one. Translated keys can come to
be one, in either step; what is added up first makes no difference to the sum, and the key that
comes first in the end came first in the beginning.
-/

namespace SetQubo

namespace Table

/-! ## Keys -/

section entries
variable {K S : Type} [Key K] {t u : Table K S}

/-- A step puts its key behind the others, unless it is one of them. -/
theorem Consistent.keys_upsert (h : t.Consistent) (k : K) (update : S → S) (new : S) :
    (t.upsert k update new).keys = if t.keys.contains k then t.keys else t.keys ++ [k] := by
  rcases h.keys_upsert_cases k update new with ⟨⟨j, hj, hjk⟩, hkeys⟩ | ⟨hnew, hkeys⟩
  · have hfound : t.keys.contains k = true :=
      List.contains_iff_exists_mem_beq.mpr ⟨j, hj, BEq.symm hjk⟩
    rw [hkeys, if_pos hfound]
  · have hnone : ¬t.keys.contains k = true := by
      intro hfound
      obtain ⟨j, hj, hkj⟩ := List.contains_iff_exists_mem_beq.mp hfound
      have hjk : (j == k) = true := BEq.symm hkj
      rw [hnew j hj] at hjk
      cases hjk
    rw [hkeys, if_neg hnone]

/-- One more step keeps the keys in the order in which they first came. -/
theorem Consistent.keys_upsert_of_firstOccurrences (h : t.Consistent) {ks : List K}
    (hkeys : t.keys = firstOccurrences ks) (k : K) (update : S → S) (new : S) :
    (t.upsert k update new).keys = firstOccurrences (ks ++ [k]) := by
  rw [h.keys_upsert, hkeys, contains_firstOccurrences, firstOccurrences_concat]

/-- **The keys of a table are the first occurrences** among the keys that it was made from. -/
theorem keys_ofList [Add S] (es : List (K × S)) :
    (ofList es).keys = firstOccurrences (es.map Prod.fst) := by
  induction es using List.reverseRecOn with
  | nil => rfl
  | append_singleton es e ih =>
    have hlast : ofList (es ++ [e]) = (ofList es).add e.1 e.2 := by
      simp [ofList, addAll]
    rw [hlast, List.map_append, List.map_singleton]
    exact (consistent_ofList es).keys_upsert_of_firstOccurrences ih _ _ _

/-! ## The index -/

/-- Each key was given the next place when it came. -/
def Indexed (t : Table K S) : Prop :=
  t.index = t.keys.zipIdx.foldl (fun index e => index.insert e.1 e.2) ∅

/-- Coefficients may change, as long as the keys stay. -/
theorem Indexed.of_keys_eq (h : t.Indexed) {entries : Array (K × S)}
    (hkeys : (Table.mk t.index entries).keys = t.keys) : (Table.mk t.index entries).Indexed := by
  unfold Indexed at h ⊢
  rw [hkeys]
  exact h

theorem Indexed.upsert (h : t.Indexed) (k : K) (update : S → S) (new : S) :
    (t.upsert k update new).Indexed := by
  unfold Table.upsert
  split
  · next i _ =>
    -- A coefficient is changed in place, and the keys are not.
    apply h.of_keys_eq
    apply List.ext_getElem?
    intro j
    simp only [keys, toList, Array.toList_modify, List.getElem?_map, List.getElem?_modify]
    by_cases hij : i = j
    · simp [hij, Function.comp_def]
    · simp [hij]
  · have hkeys : (Table.mk (t.index.insert k t.entries.size) (t.entries.push (k, new))).keys =
        t.keys ++ [k] := by
      simp [keys, toList]
    have hlength : t.keys.length = t.entries.size := by simp [keys, toList]
    unfold Indexed at h ⊢
    rw [hkeys, List.zipIdx_append, List.foldl_append, ← h, hlength]
    simp

theorem indexed_ofList [Add S] (es : List (K × S)) : (ofList es).Indexed := by
  unfold ofList addAll
  exact List.foldlRecOn _ _ (rfl : (empty : Table K S).Indexed) fun t h e _ => h.upsert e.1 _ e.2

/-- If the index of two tables follows from their keys, then they are the same as soon as their
entries are. -/
theorem Indexed.eq_of_toList_eq (ht : t.Indexed) (hu : u.Indexed) (h : t.toList = u.toList) :
    t = u := by
  have hentries : t.entries = u.entries := Array.toList_inj.mp h
  have hindex : t.index = u.index := by rw [ht, hu, keys, keys, h]
  cases t
  cases u
  cases hentries
  cases hindex
  rfl

/-- A table is read off from its keys and their coefficients. -/
theorem Consistent.toList_eq_map_get [Zero S] (h : t.Consistent) :
    t.toList = t.keys.map fun k => (k, t.get k) := by
  have hget : ∀ e ∈ t.toList, (e.1, t.get e.1) = e := fun e he => by rw [h.get_of_mem he BEq.rfl]
  rw [keys, List.map_map]
  exact (List.map_id _).symm.trans (List.map_congr_left fun e he => (hget e he).symm)

end entries

/-! ## Sums -/

section sums
variable {K K' : Type} [Key K] [Key K']

/-- A table adds up to what it was made from. -/
theorem total_ofList {on : K → Bool} (hon : ∀ j k : K, (j == k) = true → on j = on k)
    (es : List (K × Rat)) :
    (ofList es).total on = (es.map fun e => if on e.1 then e.2 else 0).sum := by
  unfold ofList
  rw [consistent_empty.total_addAll hon]
  exact zero_add _

/-- Lists make the same table if the first occurrences among their keys are the same, and each key
has the same sum. -/
theorem ofList_eq_ofList {es es' : List (K × Rat)}
    (hkeys : firstOccurrences (es.map Prod.fst) = firstOccurrences (es'.map Prod.fst))
    (hsum : ∀ k, (es.map fun e => if e.1 == k then e.2 else 0).sum =
      (es'.map fun e => if e.1 == k then e.2 else 0).sum) : ofList es = ofList es' := by
  have hget : ∀ k, (ofList es).get k = (ofList es').get k := by
    intro k
    rw [← (consistent_ofList es).total_beq, ← (consistent_ofList es').total_beq,
      total_ofList (beq_congr k), total_ofList (beq_congr k), hsum]
  apply (indexed_ofList es).eq_of_toList_eq (indexed_ofList es')
  rw [(consistent_ofList es).toList_eq_map_get, (consistent_ofList es').toList_eq_map_get,
    keys_ofList, keys_ofList, hkeys]
  exact List.map_congr_left fun k _ => by rw [hget]

/-- **Keys are translated in two steps or in one**, with the same result. -/
theorem ofList_map_ofList {f : K → K'} (hf : ∀ j k : K, (j == k) = true → (f j == f k) = true)
    (es : List (K × Rat)) :
    ofList ((ofList es).toList.map fun e => (f e.1, e.2)) =
      ofList (es.map fun e => (f e.1, e.2)) := by
  have hfst : ∀ es : List (K × Rat),
      (es.map fun e => (f e.1, e.2)).map Prod.fst = (es.map Prod.fst).map f := by
    simp [Function.comp_def]
  apply ofList_eq_ofList
  · rw [hfst, hfst, ← keys, keys_ofList, firstOccurrences_map_firstOccurrences hf]
  · -- A key gets a sum over all entries, whether they are added up in between or not.
    intro k
    have hon : ∀ i j : K, (i == j) = true → (f i == k) = (f j == k) :=
      fun i j hij => BEq.congr_left (hf i j hij)
    rw [List.map_map, List.map_map]
    exact total_ofList hon es

end sums

end Table

end SetQubo
