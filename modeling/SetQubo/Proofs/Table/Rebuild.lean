import SetQubo.Proofs.Table.Consistency
/-!
# Reading a table back from its entries

Adding entries one after the other appends them, as long as their keys are new. So a list without
repeated keys is the list of entries of the table made from it, and every consistent table is made
again from its entries, in their order and with their keys as written.
-/

namespace SetQubo

namespace Table

variable {K S : Type} [Key K] [Add S]

theorem Consistent.addAll {t : Table K S} (h : t.Consistent) (es : List (K × S)) :
    (t.addAll es).Consistent := by
  induction es generalizing t with
  | nil => exact h
  | cons e es ih => exact ih (h.add e.1 e.2)

theorem consistent_ofList (es : List (K × S)) : (ofList es).Consistent :=
  consistent_empty.addAll es

/-- A key that no entry has is appended with its coefficient. -/
theorem Consistent.toList_add {t : Table K S} (h : t.Consistent) {k : K} (c : S)
    (hnew : ∀ e ∈ t.toList, (e.1 == k) = false) : (t.add k c).toList = t.toList ++ [(k, c)] := by
  rcases h.upsert_cases k (· + c) c with ⟨before, after, k', c', hk, ht, -⟩ | ⟨-, ht⟩
  · have hmem : (k', c') ∈ t.toList := by simp [ht]
    rw [hnew _ hmem] at hk
    cases hk
  · exact ht

theorem Consistent.toList_addAll {t : Table K S} (h : t.Consistent) {es : List (K × S)}
    (hdistinct : (t.toList ++ es).Pairwise fun e e' => (e.1 == e'.1) = false) :
    (t.addAll es).toList = t.toList ++ es := by
  induction es generalizing t with
  | nil => simp [Table.addAll]
  | cons e es ih =>
    have hnew : ∀ e' ∈ t.toList, (e'.1 == e.1) = false := fun e' he' =>
      (List.pairwise_append.mp hdistinct).2.2 e' he' e List.mem_cons_self
    have hadd := h.toList_add e.2 hnew
    have hstep : ((t.add e.1 e.2).addAll es).toList = (t.add e.1 e.2).toList ++ es := by
      apply ih (h.add e.1 e.2)
      rw [hadd]
      simpa using hdistinct
    show ((t.add e.1 e.2).addAll es).toList = _
    rw [hstep, hadd]
    simp

/-- **A list without repeated keys is kept as it stands.** -/
theorem toList_ofList {es : List (K × S)}
    (hdistinct : es.Pairwise fun e e' => (e.1 == e'.1) = false) : (ofList es).toList = es :=
  consistent_empty.toList_addAll hdistinct

/-- If different keys have different images, then the images are the keys of the table made from
them. -/
theorem Consistent.toList_ofList_map {K' : Type} [Key K'] {t : Table K S} (h : t.Consistent)
    {f : K → K'} (hf : ∀ k ∈ t.keys, ∀ k' ∈ t.keys, (f k == f k') = true → (k == k') = true) :
    (ofList (t.toList.map fun e => (f e.1, e.2))).toList =
      t.toList.map fun e => (f e.1, e.2) := by
  apply toList_ofList
  rw [List.pairwise_map]
  apply h.distinct.imp_of_mem
  intro e e' he he' hne
  rw [← Bool.not_eq_true] at hne ⊢
  exact fun heq => hne (hf e.1 (List.mem_map_of_mem he) e'.1 (List.mem_map_of_mem he') heq)

/-- Two tables have the same entries, in the same order and with their keys as written, and find
them at the same places. Every operation treats them alike. -/
structure Same (t u : Table K S) : Prop where
  /-- The entries are the same. -/
  toList_eq : t.toList = u.toList
  /-- Every key has the same place. -/
  place_eq (k : K) : t.index[k]? = u.index[k]?

omit [Add S] in
/-- The places of a consistent table follow from its entries. -/
theorem Consistent.same {t u : Table K S} (ht : t.Consistent) (hu : u.Consistent)
    (h : t.toList = u.toList) : t.Same u where
  toList_eq := h
  place_eq k := by
    have hentries : t.entries = u.entries := Array.toList_inj.mp h
    apply Option.ext
    intro i
    rw [ht k i, hu k i, hentries]

/-- **A consistent table is made again from its entries.** -/
theorem Consistent.same_ofList_toList {t : Table K S} (h : t.Consistent) :
    (ofList t.toList).Same t :=
  (consistent_ofList t.toList).same h (toList_ofList h.distinct)

end Table

end SetQubo
