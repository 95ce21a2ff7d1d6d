import SetQubo.Model.Json
import SetQubo.Proofs.FirstOccurrences
import SetQubo.Proofs.Json.Record
import SetQubo.Proofs.Table.Lookup
import SetQubo.Proofs.Table.Merging
/-!
# Tables and their histories

A table is changed one key at a time, by overwriting a coefficient or adding to it, and it may be
read anew from a text. A text that can be read comes to the additions of its entries, so whatever
has been done to a table, a list of changes tells what it holds: the keys, their order and written
form, and every coefficient can be read off that list.

The changes of a key are its edits. What a list of edits comes to is said by `Settles`, which looks
for the last one that overwrites; the table knows nothing of it and updates in place.
-/

namespace SetQubo

namespace Table

open Json (Codec Fault)

/-! ## Edits of a coefficient -/

/-- What is done to a coefficient. -/
inductive Edit (S : Type) where
  /-- It is overwritten. -/
  | set (c : S)
  /-- Something is added to it. -/
  | add (c : S)

/-- The coefficient after an edit, `none` as long as there is none. -/
def Edit.apply {S : Type} [Add S] : Edit S → Option S → S
  | set c, _ => c
  | add c, old => old.elim c (· + c)

section settles
variable {S : Type} [Add S]

/-- What the edits of a coefficient come to: the last value that it was set to with all that was
added since, in order. If it never was set, the first addition stands for that value. -/
inductive Settles : List (Edit S) → Option S → Prop where
  /-- It was never touched. -/
  | untouched : Settles [] none
  /-- There were additions only. -/
  | added (c : S) (cs : List S) :
    Settles (.add c :: cs.map .add) (some (cs.foldl (· + ·) c))
  /-- It was set, and then there were additions only. -/
  | set (before : List (Edit S)) (c : S) (cs : List S) :
    Settles (before ++ .set c :: cs.map .add) (some (cs.foldl (· + ·) c))

/-- One more edit takes effect on what the others came to. -/
theorem Settles.concat {edits : List (Edit S)} {old : Option S} (h : Settles edits old)
    (e : Edit S) : Settles (edits ++ [e]) (some (e.apply old)) := by
  cases e with
  | set c => exact .set edits c []
  | add c =>
    have hsnoc : ∀ (cs : List S) (c' : S),
        (cs ++ [c]).foldl (· + ·) c' = cs.foldl (· + ·) c' + c := by simp
    -- An addition joins those made since the value that they stand on.
    cases h with
    | untouched => exact .added c []
    | added c' cs =>
      have hlater := Settles.added c' (cs ++ [c])
      rw [hsnoc, List.map_append] at hlater
      exact hlater
    | set before c' cs =>
      have hlater := Settles.set before c' (cs ++ [c])
      rw [hsnoc, List.map_append] at hlater
      rw [List.append_assoc]
      exact hlater

end settles

/-! ## A step on one key -/

section upsert
variable {K S : Type} [Key K] {t : Table K S}

/-- A step leaves the places of other keys as they are. -/
theorem index_upsert_of_ne (t : Table K S) {k j : K} (hk : (k == j) = false) (update : S → S)
    (new : S) : (t.upsert k update new).index[j]? = t.index[j]? := by
  unfold upsert
  split
  · rfl
  · show (t.index.insert k t.entries.size)[j]? = _
    rw [Std.HashMap.getElem?_insert, hk, if_neg Bool.false_ne_true]

/-- An entry with another key stays where it is. -/
theorem Consistent.getElem?_upsert_of_ne (h : t.Consistent) {k : K} {i : Nat} {e : K × S}
    (he : t.toList[i]? = some e) (hk : (k == e.1) = false) (update : S → S) (new : S) :
    (t.upsert k update new).toList[i]? = some e := by
  have hi : i < t.toList.length := (List.getElem?_eq_some_iff.mp he).1
  rcases h.upsert_cases k update new with ⟨before, after, k', c, hk', ht, ht'⟩ | ⟨-, ht'⟩
  · -- The key has an entry, which is changed in place.
    rw [ht] at he
    rw [ht']
    -- The entry that is changed is another one, since its key is.
    rcases Nat.lt_trichotomy i before.length with hlt | rfl | hgt
    · rwa [List.getElem?_append_left hlt] at he ⊢
    · rw [List.getElem?_append_right le_rfl, Nat.sub_self] at he
      obtain rfl : (k', c) = e := Option.some.inj he
      rw [BEq.comm, hk'] at hk
      cases hk
    · obtain ⟨d, rfl⟩ : ∃ d, i = before.length + (d + 1) := ⟨i - before.length - 1, by omega⟩
      rw [List.getElem?_append_right (Nat.le_add_right _ _), Nat.add_sub_cancel_left,
        List.getElem?_cons_succ] at he ⊢
      exact he
  · -- The key has no entry and gets one at the end.
    rw [ht', List.getElem?_append_left hi, he]

end upsert

/-! ## Changes of a table -/

/-- An edit of the coefficient of a key. -/
structure Change (K S : Type) where
  /-- The key, as written. -/
  key : K
  /-- What is done to its coefficient. -/
  edit : Edit S

variable {K S : Type} [Key K]

/-- The table after a change. -/
def Change.apply [Add S] (t : Table K S) (change : Change K S) : Table K S :=
  match change.edit with
  | .set c => t.set change.key c
  | .add c => t.add change.key c

/-- The table that a list of changes makes. -/
def replay [Add S] (changes : List (Change K S)) : Table K S := changes.foldl Change.apply empty

/-- The edits of a key among the changes, whichever way the key is written there. -/
def editsOf (k : K) (changes : List (Change K S)) : List (Edit S) :=
  (changes.filter fun change => change.key == k).map Change.edit

section change
variable [Add S] {t : Table K S}

/-- Both kinds of change are steps of one kind. -/
theorem exists_apply_eq_upsert (t : Table K S) (change : Change K S) :
    ∃ update new, change.apply t = t.upsert change.key update new ∧
      ∀ old : Option S, old.elim new update = change.edit.apply old := by
  obtain ⟨k, edit⟩ := change
  cases edit with
  | set c => exact ⟨fun _ => c, c, rfl, fun old => by cases old <;> rfl⟩
  | add c => exact ⟨(· + c), c, rfl, fun old => by cases old <;> rfl⟩

theorem Consistent.applyChange (h : t.Consistent) (change : Change K S) :
    (change.apply t).Consistent := by
  obtain ⟨update, new, hupsert, -⟩ := exists_apply_eq_upsert t change
  rw [hupsert]
  exact h.upsert _ _ _

/-- A change keeps the keys in the order in which they first came. -/
theorem Consistent.keys_applyChange (h : t.Consistent) {ks : List K}
    (hkeys : t.keys = firstOccurrences ks) (change : Change K S) :
    (change.apply t).keys = firstOccurrences (ks ++ [change.key]) := by
  obtain ⟨update, new, hupsert, -⟩ := exists_apply_eq_upsert t change
  rw [hupsert]
  exact h.keys_upsert_of_firstOccurrences hkeys _ _ _

/-- A change edits what is found under its own key, and nothing else. -/
theorem Consistent.lookup_applyChange (h : t.Consistent) (change : Change K S) (k : K) :
    (change.apply t).lookup k =
      if change.key == k then some (change.edit.apply (t.lookup k)) else t.lookup k := by
  obtain ⟨update, new, hupsert, hedit⟩ := exists_apply_eq_upsert t change
  rw [hupsert, h.lookup_upsert, hedit]
  split
  · next hk => rw [t.lookup_congr hk]
  · rfl

variable [Zero S]

/-- What a change leaves alone. -/
structure Change.Frame (change : Change K S) (t t' : Table K S) : Prop where
  /-- Every other key keeps its coefficient, -/
  get_eq (k : K) (hk : (change.key == k) = false) : t'.get k = t.get k
  /-- and its place in the index. -/
  index_eq (k : K) (hk : (change.key == k) = false) : t'.index[k]? = t.index[k]?
  /-- Every entry with another key stays where it is, as it is. -/
  entry_eq (i : Nat) (e : K × S) (he : t.toList[i]? = some e)
    (hk : (change.key == e.1) = false) : t'.toList[i]? = some e

/-- **A change of one key leaves every other key alone.** -/
theorem Consistent.frame (h : t.Consistent) (change : Change K S) :
    change.Frame t (change.apply t) := by
  obtain ⟨update, new, hupsert, -⟩ := exists_apply_eq_upsert t change
  constructor
  case get_eq =>
    intro k hk
    rw [(h.applyChange change).get_eq_lookup, h.lookup_applyChange, hk,
      if_neg Bool.false_ne_true, h.get_eq_lookup]
  case index_eq =>
    intro k hk
    rw [hupsert]
    exact t.index_upsert_of_ne hk update new
  case entry_eq =>
    intro i e he hk
    rw [hupsert]
    exact h.getElem?_upsert_of_ne he hk update new

end change

/-! ## What a list of changes makes -/

section replay
variable [Add S]

theorem replay_concat (changes : List (Change K S)) (change : Change K S) :
    replay (changes ++ [change]) = change.apply (replay changes) := by
  simp [replay]

theorem consistent_replay (changes : List (Change K S)) : (replay changes).Consistent :=
  List.foldlRecOn changes _ consistent_empty fun _ h change _ => h.applyChange change

/-- The keys stand in the order in which they were first changed, as they were written then. -/
theorem keys_replay (changes : List (Change K S)) :
    (replay changes).keys = firstOccurrences (changes.map Change.key) := by
  -- From the last change backwards, since that is the one the table was just given.
  induction changes using List.reverseRecOn with
  | nil => rfl
  | append_singleton changes change ih =>
    rw [replay_concat, List.map_append, List.map_singleton]
    exact (consistent_replay changes).keys_applyChange ih change

/-- What is found under a key is what its edits come to. -/
theorem settles_lookup_replay (changes : List (Change K S)) (k : K) :
    Settles (editsOf k changes) ((replay changes).lookup k) := by
  induction changes using List.reverseRecOn with
  | nil => exact .untouched
  | append_singleton changes change ih =>
    have hedits : editsOf k (changes ++ [change]) =
        editsOf k changes ++ if change.key == k then [change.edit] else [] := by
      unfold editsOf
      rw [List.filter_append, List.map_append, List.filter_singleton]
      cases change.key == k <;> rfl
    rw [replay_concat, (consistent_replay changes).lookup_applyChange, hedits]
    cases hk : change.key == k with
    | true => exact ih.concat change.edit
    | false =>
      rw [if_neg Bool.false_ne_true, if_neg Bool.false_ne_true, List.append_nil]
      exact ih

/-- Adding the entries of a list in turn is a list of changes. -/
theorem ofList_eq_replay (es : List (K × S)) :
    ofList es = replay (es.map fun e => ⟨e.1, .add e.2⟩) := by
  unfold replay
  rw [List.foldl_map]
  rfl

end replay

/-! ## Steps -/

/-- What can be done to a table. The keys are of any type; a text is read by way of a JSON form that
they have. -/
inductive Step (K : Type) where
  /-- Changes a coefficient. -/
  | change (made : Change K Float)
  /-- Reads the table anew from a text, or keeps it if the text cannot be read. -/
  | load (codec : Codec K) (text : String)

/-- The table after a step. -/
def Step.apply (t : Table K Float) : Step K → Table K Float
  | .change made => made.apply t
  | .load _ text =>
    match ofText text with
    | .ok u => u
    | .error _ => t

/-- The table after a list of steps, from the one without entries. -/
def run (steps : List (Step K)) : Table K Float := steps.foldl Step.apply empty

/-- The entries that a text lists, one after the other. -/
def listed [Codec K] (text : String) : Except Fault (List (K × Float)) :=
  Json.decodeText (Json.toList (Json.toPair Codec.decode Json.toFloat)) text

/-- The changes that count after a step, given those that counted before. A text that can be read
makes all earlier ones void, and counts as the additions of its entries. -/
def Step.record (past : List (Change K Float)) : Step K → List (Change K Float)
  | .change made => past ++ [made]
  | .load _ text =>
    match listed text with
    | .ok es => es.map fun e => ⟨e.1, .add e.2⟩
    | .error _ => past

/-- The changes that count after a list of steps. -/
def history (steps : List (Step K)) : List (Change K Float) := steps.foldl Step.record []

/-- A text is read by adding up the entries that it lists. -/
theorem ofText_eq [Codec K] (text : String) :
    (ofText text : Except Fault (Table K Float)) = (listed text).map ofList :=
  Json.decodeText_map _ _ _

theorem run_eq_replay (steps : List (Step K)) : run steps = replay (history steps) := by
  induction steps using List.reverseRecOn with
  | nil => rfl
  | append_singleton steps step ih =>
    have hrun : run (steps ++ [step]) = step.apply (run steps) := by simp [run]
    have hhistory : history (steps ++ [step]) = step.record (history steps) := by simp [history]
    rw [hrun, hhistory, ih]
    cases step with
    | change made => exact (replay_concat _ _).symm
    | load codec text =>
      -- Table and history both start anew, or both stay.
      simp only [Step.apply, Step.record, ofText_eq]
      cases (listed text : Except Fault (List (K × Float))) with
      | error fault => rfl
      | ok es => exact ofList_eq_replay es

/-! ## What the history tells -/

/-- Everything that can be asked of a table has the answer that a list of changes gives. -/
structure Recounts {K S : Type} [Key K] [Add S] [Zero S] (changes : List (Change K S))
    (t : Table K S) : Prop where
  /-- The index has a place for a key exactly when the entry at that place has an equal key. -/
  consistent : t.Consistent
  /-- No two entries have equal keys. -/
  distinct : t.toList.Pairwise fun e e' => (e.1 == e'.1) = false
  /-- The keys stand in the order in which they were first changed, as they were written then. -/
  keys_eq : t.keys = firstOccurrences (changes.map Change.key)
  /-- The coefficient of a key is what its edits come to, and 0 if there are none. -/
  get_eq (k : K) : ∃ c, Settles (editsOf k changes) c ∧ t.get k = c.getD 0
  /-- A key is contained if an entry has it. -/
  contains_iff (k : K) : t.contains k = true ↔ ∃ e ∈ t.toList, (e.1 == k) = true
  /-- The size is the number of entries. -/
  size_eq : t.size = t.toList.length
  /-- The table is empty if there are no entries. -/
  isEmpty_iff : t.isEmpty = true ↔ t.toList = []

theorem recounts_replay {K S : Type} [Key K] [Add S] [Zero S] (changes : List (Change K S)) :
    Recounts changes (replay changes) where
  consistent := consistent_replay changes
  distinct := (consistent_replay changes).distinct
  keys_eq := keys_replay changes
  get_eq k := ⟨_, settles_lookup_replay changes k, (consistent_replay changes).get_eq_lookup k⟩
  contains_iff := (consistent_replay changes).contains_iff
  size_eq := rfl
  isEmpty_iff := by simp [isEmpty, toList]

/-- **A table tells its history.** After any steps, all that can be asked of the table has the
answer that the changes that count give, and one more change leaves every other key alone. -/
theorem history_tells (steps : List (Step K)) :
    Recounts (history steps) (run steps) ∧
      ∀ change : Change K Float, change.Frame (run steps) (change.apply (run steps)) := by
  rw [run_eq_replay]
  exact ⟨recounts_replay _, (consistent_replay _).frame⟩

end Table

end SetQubo
