import Mathlib.Data.List.Basic
import Mathlib.Data.List.Induction
import Mathlib.Data.Set.Function
/-!
# First occurrences

The distinct elements of a set, the variables of a model and the keys of a table are the first
occurrences in a list. They are without repetition, a list without repetition is its own, and a part
that brings nothing new adds nothing.

`List.eraseDups` and `firstOccurrences` both give them. The first one is what is computed where equal
members are the same; the second one says place by place what a first occurrence is, also where
equal members may be written differently.
-/

namespace SetQubo

variable {α : Type} [BEq α]

/-- First occurrences do not repeat. -/
theorem nodup_eraseDups [LawfulBEq α] (l : List α) : l.eraseDups.Nodup := by
  match l with
  | [] => simp
  | a :: as =>
    rw [List.eraseDups_cons, List.nodup_cons]
    refine ⟨?_, nodup_eraseDups (as.filter fun b => !b == a)⟩
    simp
termination_by l.length
decreasing_by
  exact Nat.lt_succ_of_le (List.length_filter_le _ _)

/-- A list without repetition is the list of its first occurrences. -/
theorem eraseDups_of_nodup [LawfulBEq α] {l : List α} (h : l.Nodup) : l.eraseDups = l := by
  induction l with
  | nil => rfl
  | cons a as ih =>
    obtain ⟨ha, has⟩ := List.nodup_cons.mp h
    have hfilter : (as.filter fun b => !b == a) = as := by
      rw [List.filter_eq_self]
      intro b hb
      have hne : b ≠ a := fun heq => ha (heq ▸ hb)
      simp [hne]
    rw [List.eraseDups_cons, hfilter, ih has]

/-- A part that brings nothing new adds nothing. -/
theorem eraseDups_append_of_subset [LawfulBEq α] {l l' : List α} (hl : l.Nodup) (h : l' ⊆ l) :
    (l ++ l').eraseDups = l := by
  -- What is appended has occurred before, member by member.
  have hnothing : l'.removeAll l = [] := by
    unfold List.removeAll
    rw [List.filter_eq_nil_iff]
    intro b hb
    simp [h hb]
  rw [List.eraseDups_append, eraseDups_of_nodup hl, hnothing, List.eraseDups_nil, List.append_nil]

/-- One more member at the end is a first occurrence unless it has occurred. -/
theorem eraseDups_concat [LawfulBEq α] (l : List α) (a : α) :
    (l ++ [a]).eraseDups = if l.contains a then l.eraseDups else l.eraseDups ++ [a] := by
  rw [List.eraseDups_append]
  unfold List.removeAll
  by_cases ha : a ∈ l
  · simp [ha]
  · simp [ha, List.eraseDups_cons]

/-- The members that stand at places before which they do not occur, in the order of the places. -/
def firstOccurrences (l : List α) : List α :=
  (l.zipIdx.filter fun p => !(l.take p.2).contains p.1).map Prod.fst

/-- One more member at the end takes no place from the others. -/
theorem firstOccurrences_concat (l : List α) (a : α) :
    firstOccurrences (l ++ [a]) =
      if l.contains a then firstOccurrences l else firstOccurrences l ++ [a] := by
  have hbefore : l.zipIdx.filter (fun p => !((l ++ [a]).take p.2).contains p.1) =
      l.zipIdx.filter fun p => !(l.take p.2).contains p.1 := by
    apply List.filter_congr
    intro p hp
    rw [List.take_append_of_le_length (List.mem_zipIdx' hp).1.le]
  unfold firstOccurrences
  rw [List.zipIdx_append, List.filter_append, hbefore, List.zipIdx_singleton, Nat.zero_add,
    List.filter_singleton, List.take_left]
  cases l.contains a <;> simp

/-- What occurs, however it is written, is among the first occurrences. -/
theorem contains_firstOccurrences [EquivBEq α] (l : List α) (a : α) :
    (firstOccurrences l).contains a = l.contains a := by
  induction l using List.reverseRecOn with
  | nil => rfl
  | append_singleton l b ih =>
    have happend : ∀ as : List α, (as ++ [b]).contains a = (as.contains a || a == b) := by
      simp
    rw [firstOccurrences_concat, happend, ← ih]
    by_cases hb : l.contains b = true
    · -- The last member has occurred before, so it is found there if it is the one looked for.
      rw [if_pos hb, ih]
      cases hab : a == b with
      | false => simp
      | true =>
        obtain ⟨c, hc, hbc⟩ := List.contains_iff_exists_mem_beq.mp hb
        rw [List.contains_iff_exists_mem_beq.mpr ⟨c, hc, BEq.trans hab hbc⟩, Bool.true_or]
    · rw [if_neg hb, happend]

/-- First occurrences may be taken before members are translated, as long as equal ones have equal
translations. -/
theorem firstOccurrences_map_firstOccurrences {β : Type} [BEq β] [EquivBEq β]
    {f : α → β} (hf : ∀ a b : α, (a == b) = true → (f a == f b) = true) (l : List α) :
    firstOccurrences ((firstOccurrences l).map f) = firstOccurrences (l.map f) := by
  induction l using List.reverseRecOn with
  | nil => rfl
  | append_singleton l a ih =>
    rw [firstOccurrences_concat, List.map_append, List.map_singleton, firstOccurrences_concat, ← ih]
    by_cases ha : l.contains a = true
    · -- What has occurred in the first step has occurred in the second.
      obtain ⟨b, hb, hab⟩ := List.contains_iff_exists_mem_beq.mp ha
      have hcame : (l.map f).contains (f a) = true :=
        List.contains_iff_exists_mem_beq.mpr ⟨f b, List.mem_map_of_mem hb, hf a b hab⟩
      rw [if_pos ha, if_pos hcame]
    · rw [if_neg ha, List.map_append, List.map_singleton, firstOccurrences_concat]
      -- An image may still have occurred, as that of another member.
      have hsame : ((firstOccurrences l).map f).contains (f a) = (l.map f).contains (f a) := by
        rw [← contains_firstOccurrences, ih, contains_firstOccurrences]
      rw [hsame]

/-- The first occurrences that are computed are those. -/
theorem eraseDups_eq_firstOccurrences [LawfulBEq α] (l : List α) :
    l.eraseDups = firstOccurrences l := by
  induction l using List.reverseRecOn with
  | nil => rfl
  | append_singleton l a ih => rw [eraseDups_concat, firstOccurrences_concat, ih]

/-- If different members have different images, then the images occur first where the members do. -/
theorem eraseDups_map_of_injOn {β : Type} [BEq β] [LawfulBEq α] [LawfulBEq β] {f : α → β}
    {l : List α} (hf : Set.InjOn f {a | a ∈ l}) : (l.map f).eraseDups = l.eraseDups.map f := by
  induction l using List.reverseRecOn with
  | nil => rfl
  | append_singleton l a ih =>
    have hprefix : Set.InjOn f {b | b ∈ l} :=
      hf.mono fun b hb => List.mem_append_left _ hb
    -- The image of the last member has occurred exactly when that member has.
    have hcontains : (l.map f).contains (f a) = l.contains a := by
      rw [Bool.eq_iff_iff, List.contains_iff_mem, List.contains_iff_mem]
      constructor
      · intro himage
        obtain ⟨b, hb, heq⟩ := List.mem_map.mp himage
        have hba : b = a := hf (List.mem_append_left _ hb) (by simp) heq
        exact hba ▸ hb
      · exact List.mem_map_of_mem
    rw [List.map_append, List.map_singleton, eraseDups_concat, eraseDups_concat, hcontains,
      ih hprefix]
    split
    · rfl
    · rw [List.map_append, List.map_singleton]

/-- A test that tells the members of a list apart finds the same first occurrences as equality. -/
theorem eraseDupsBy_eq_eraseDups {r : α → α → Bool} (l : List α)
    (h : ∀ a ∈ l, ∀ b ∈ l, r a b = (a == b)) : l.eraseDupsBy r = l.eraseDups := by
  match l with
  | [] => rfl
  | a :: as =>
    -- Both remove the same later members, and what is left is shorter.
    have hfilter : (as.filter fun b => r b a = false) = as.filter fun b => !b == a := by
      apply List.filter_congr
      intro b hb
      rw [h b (List.mem_cons_of_mem _ hb) a List.mem_cons_self]
      cases b == a <;> rfl
    rw [List.eraseDupsBy_cons, List.eraseDups_cons, hfilter]
    congr 1
    apply eraseDupsBy_eq_eraseDups
    intro b hb c hc
    exact h b (List.mem_cons_of_mem _ (List.mem_of_mem_filter hb))
      c (List.mem_cons_of_mem _ (List.mem_of_mem_filter hc))
termination_by l.length
decreasing_by
  exact Nat.lt_succ_of_le (List.length_filter_le _ _)

end SetQubo
