import Mathlib.Data.List.Forall2
import SetQubo.Proofs.Table.History
import SetQubo.Proofs.Table.Similar
/-!
# Tables and the written form of their keys

Keys that are one may be written differently, as a pair of labels may be from either side. Two tables
are **alike** if they differ in nothing else: every key has the same place in both, and at each place
they hold one key and the same coefficient. A table that is looked into, or changed, is so at the
place of the key, and the place does not depend on how the key is written. So the same changes of
the same keys keep tables alike, whichever way the keys are written each time.

Index and entries need not agree for this.
-/

namespace SetQubo

namespace Table

variable {K S : Type} [Key K] {t u : Table K S} {k k' : K}

/-- Two tables differ in how their keys are written, and in nothing else. -/
structure Alike (t u : Table K S) : Prop where
  /-- Every key has the same place. -/
  place_eq (k : K) : u.index[k]? = t.index[k]?
  /-- At each place there is one key with the same coefficient. -/
  entries : List.Forall₂ (fun e e' => (e.1 == e'.1) = true ∧ e.2 = e'.2) t.toList u.toList

theorem alike_refl (t : Table K S) : t.Alike t where
  place_eq _ := rfl
  entries := List.forall₂_same.mpr fun _ _ => ⟨BEq.rfl, rfl⟩

/-! ## Looking up -/

/-- A key has one place, however it is written. -/
theorem Alike.place_congr (h : t.Alike u) (hk : (k == k') = true) :
    u.index[k']? = t.index[k]? := by
  rw [← Std.HashMap.getElem?_congr hk, h.place_eq]

theorem Alike.size_eq (h : t.Alike u) : u.size = t.size := h.entries.length_eq.symm

theorem Alike.contains_congr (h : t.Alike u) (hk : (k == k') = true) :
    u.contains k' = t.contains k := by
  unfold contains
  rw [Std.HashMap.contains_eq_isSome_getElem?, Std.HashMap.contains_eq_isSome_getElem?,
    h.place_congr hk]

/-- A coefficient is read at the place of its key, whatever key stands there. -/
theorem get_eq_getD [Zero S] (t : Table K S) (k : K) :
    t.get k = (t.index[k]?.bind fun i => (t.toList.map Prod.snd)[i]?).getD 0 := by
  unfold get
  cases t.index[k]? with
  | none => rfl
  | some i =>
    simp only [Option.bind_some, List.getElem?_map, toList, Array.getElem?_toList]
    cases t.entries[i]? with
    | none => rfl
    | some e => rfl

theorem Alike.get_congr [Zero S] (h : t.Alike u) (hk : (k == k') = true) :
    u.get k' = t.get k := by
  have hcoefficients : t.toList.map Prod.snd = u.toList.map Prod.snd := by
    rw [← List.forall₂_eq_eq_eq, List.forall₂_map_left_iff, List.forall₂_map_right_iff]
    exact h.entries.imp fun _ _ he => he.2
  rw [get_eq_getD, get_eq_getD, h.place_congr hk, hcoefficients]

/-! ## Changing -/

/-- **A step on one key** keeps tables alike, however the key is written for each of them. -/
theorem Alike.upsert (h : t.Alike u) (hk : (k == k') = true) (update : S → S) (new : S) :
    (t.upsert k update new).Alike (u.upsert k' update new) := by
  unfold Table.upsert
  rw [h.place_congr hk]
  split
  · next i _ =>
    constructor
    case place_eq => exact h.place_eq
    case entries =>
      show List.Forall₂ _ (t.entries.modify i _).toList (u.entries.modify i _).toList
      rw [Array.toList_modify, Array.toList_modify]
      apply forall₂_modify h.entries (fun _ _ he => he)
      intro e e' he
      exact ⟨he.1, congrArg update he.2⟩
  · constructor
    case place_eq =>
      -- The new entry has the next place, which is the same in both.
      intro j
      show (u.index.insert k' u.size)[j]? = (t.index.insert k t.size)[j]?
      rw [Std.HashMap.getElem?_insert, Std.HashMap.getElem?_insert, BEq.congr_left hk,
        h.size_eq, h.place_eq]
    case entries =>
      show List.Forall₂ _ (t.entries.push (k, new)).toList (u.entries.push (k', new)).toList
      rw [Array.toList_push, Array.toList_push]
      exact List.rel_append h.entries (.cons ⟨hk, rfl⟩ .nil)

section changes
variable [Add S]

/-- Two changes are the same, except that their key may be written differently. -/
def Change.Alike (change change' : Change K S) : Prop :=
  (change.key == change'.key) = true ∧ change.edit = change'.edit

/-- One change keeps tables alike. -/
theorem Alike.applyChange (h : t.Alike u) {change change' : Change K S}
    (hchange : change.Alike change') : (change.apply t).Alike (change'.apply u) := by
  obtain ⟨k, edit⟩ := change
  obtain ⟨k', edit'⟩ := change'
  obtain ⟨hk, rfl⟩ := hchange
  cases edit with
  | set c => exact h.upsert hk (fun _ => c) c
  | add c => exact h.upsert hk (· + c) c

/-- **A list of changes** makes tables that are alike, however the keys are written in it. -/
theorem alike_replay {changes changes' : List (Change K S)}
    (h : List.Forall₂ Change.Alike changes changes') :
    (replay changes).Alike (replay changes') := by
  -- The changes go from the left, so the induction is on tables that are alike already.
  have hfold : ∀ t u : Table K S, t.Alike u →
      (changes.foldl Change.apply t).Alike (changes'.foldl Change.apply u) := by
    induction h with
    | nil => exact fun _ _ h => h
    | cons hchange _ ih => exact fun _ _ h => ih _ _ (h.applyChange hchange)
  exact hfold _ _ (alike_refl _)

end changes

end Table

end SetQubo
