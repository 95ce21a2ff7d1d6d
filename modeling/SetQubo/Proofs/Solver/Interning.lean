import Mathlib.Data.List.Forall2
import SetQubo.Proofs.Solver.Search
/-!
# One numbering in two passes

The variables of a model are listed in one pass, which leaves out a label that it has seen. A solver
numbers them in another pass, label by label. Both give the first occurrences of the labels in the
tables, so a solver has the variables of its model, in that order, and a model is refused for the
length of the list that it shows.

Label by label a numbering only grows: `Extends` is what one call preserves, and therefore any
sequence of calls. So a number that was returned for a label is its number ever after.
-/

namespace SetQubo

namespace Numbering

variable {V : Type} [Label V] {n n' n'' : Numbering V} {v w : V} {i : Nat}

/-! ## One call -/

/-- Asking for the number of a label leaves what putting it in does. -/
theorem getOrInsert_snd (n : Numbering V) (v : V) : (n.getOrInsert v).2 = n.insert v := by
  unfold getOrInsert insert
  rw [Std.HashMap.contains_eq_isSome_getElem?]
  cases n.index[v]? with
  | none => rfl
  | some i => rfl

/-- What is returned is the number of the label from then on. -/
theorem indexOf?_getOrInsert (n : Numbering V) (v : V) :
    (n.getOrInsert v).2.indexOf? v = some (n.getOrInsert v).1 := by
  unfold getOrInsert
  cases hi : n.index[v]? with
  | some i => exact hi
  | none => exact Std.HashMap.getElem?_insert_self

/-- A label that has a number gets that one. -/
theorem getOrInsert_fst_of_indexOf? (hi : n.indexOf? v = some i) : (n.getOrInsert v).1 = i := by
  unfold indexOf? at hi
  unfold getOrInsert
  rw [hi]

/-! ## Growing numberings -/

/-- Every label that has a number keeps it. -/
def Extends (n n' : Numbering V) : Prop :=
  ∀ v i, n.indexOf? v = some i → n'.indexOf? v = some i

theorem Extends.refl (n : Numbering V) : n.Extends n := fun _ _ hi => hi

theorem Extends.trans (h : n.Extends n') (h' : n'.Extends n'') : n.Extends n'' :=
  fun v i hi => h' v i (h v i hi)

theorem extends_getOrInsert (n : Numbering V) (v : V) : n.Extends (n.getOrInsert v).2 := by
  intro w i hi
  unfold getOrInsert
  cases hv : n.index[v]? with
  | some j => exact hi
  | none =>
    -- The label that is new is another one.
    have hne : (v == w) = false := by
      rw [← Bool.not_eq_true]
      intro heq
      obtain rfl := LawfulBEq.eq_of_beq heq
      unfold indexOf? at hi
      rw [hv] at hi
      cases hi
    unfold indexOf?
    rw [Std.HashMap.getElem?_insert, hne]
    exact hi

/-! ## A sequence of calls -/

/-- The numbers that are returned for the labels of a list in turn, and the numbering after that. -/
def getOrInsertAll (n : Numbering V) : List V → List Nat × Numbering V
  | [] => ([], n)
  | v :: vs =>
    let call := n.getOrInsert v
    let rest := call.2.getOrInsertAll vs
    (call.1 :: rest.1, rest.2)

theorem getOrInsertAll_snd (n : Numbering V) (vs : List V) :
    (n.getOrInsertAll vs).2 = vs.foldl insert n := by
  induction vs generalizing n with
  | nil => rfl
  | cons v vs ih =>
    rw [List.foldl_cons, ← getOrInsert_snd]
    exact ih (n.getOrInsert v).2

theorem getOrInsertAll_empty_snd (vs : List V) :
    ((empty : Numbering V).getOrInsertAll vs).2 = ofList vs := getOrInsertAll_snd empty vs

theorem extends_getOrInsertAll (n : Numbering V) (vs : List V) :
    n.Extends (n.getOrInsertAll vs).2 := by
  induction vs generalizing n with
  | nil => exact Extends.refl n
  | cons v vs ih => exact (extends_getOrInsert n v).trans (ih (n.getOrInsert v).2)

/-- Each number that was returned is the number of its label in the end. -/
theorem forall₂_getOrInsertAll (n : Numbering V) (vs : List V) :
    List.Forall₂ (fun v i => (n.getOrInsertAll vs).2.indexOf? v = some i) vs
      (n.getOrInsertAll vs).1 := by
  induction vs generalizing n with
  | nil => exact List.Forall₂.nil
  | cons v vs ih =>
    refine List.Forall₂.cons ?_ (ih (n.getOrInsert v).2)
    exact extends_getOrInsertAll (n.getOrInsert v).2 vs v _ (indexOf?_getOrInsert n v)

/-- What holds after labels have been numbered in turn. -/
structure Numbered (vs : List V) (returned : List Nat) (n : Numbering V) : Prop where
  /-- The labels are the first occurrences. -/
  labels_eq : n.labels.toList = firstOccurrences vs
  /-- No label has two numbers. -/
  nodup_labels : n.labels.toList.Nodup
  /-- The number of a label is the place where it stands. -/
  indexOf?_iff : ∀ v i, n.indexOf? v = some i ↔ n.label? i = some v
  /-- The numbers that were returned are still those of their labels. -/
  returned_eq : List.Forall₂ (fun v i => n.indexOf? v = some i) vs returned
  /-- They stay so, whatever labels come next, -/
  stays : ∀ v i, n.indexOf? v = some i → ∀ ws, (n.getOrInsertAll ws).2.indexOf? v = some i
  /-- and are returned again. -/
  returned_again : ∀ v i, n.indexOf? v = some i →
    ∀ ws, ((n.getOrInsertAll ws).2.getOrInsert v).1 = i

theorem numbered_getOrInsertAll (vs : List V) :
    Numbered vs ((empty : Numbering V).getOrInsertAll vs).1
      ((empty : Numbering V).getOrInsertAll vs).2 where
  labels_eq := by rw [getOrInsertAll_empty_snd, labels_ofList, eraseDups_eq_firstOccurrences]
  nodup_labels := by
    rw [getOrInsertAll_empty_snd, labels_ofList]
    exact nodup_eraseDups vs
  indexOf?_iff := by
    rw [getOrInsertAll_empty_snd]
    exact consistent_ofList vs
  returned_eq := forall₂_getOrInsertAll empty vs
  stays := fun v i hi ws => extends_getOrInsertAll _ ws v i hi
  returned_again := fun v i hi ws =>
    getOrInsert_fst_of_indexOf? (extends_getOrInsertAll _ ws v i hi)

end Numbering

namespace Solver

variable {V S : Type} [Label V] {m : Model V S} {config : SolverConfig S} {s : Solver V S}

/-- How a model and its solver list the variables. -/
structure ListsVariables (m : Model V S) (config : SolverConfig S) : Prop where
  /-- They are the first occurrences among the keys of the linear table and then the labels of the
  pairs, each pair from left to right as it was written. -/
  labels_eq : m.labels =
    firstOccurrences (m.linear.keys ++ m.quadratic.keys.flatMap fun p => [p.first, p.second])
  /-- No label is lost, and none comes in. -/
  mem_labels_iff : ∀ v, v ∈ m.labels ↔
    v ∈ m.linear.keys ∨ ∃ p ∈ m.quadratic.keys, v = p.first ∨ v = p.second
  /-- None is repeated. -/
  nodup_labels : m.labels.Nodup
  /-- A model is refused exactly if it has more variables than the settings and the encoding
  allow. -/
  refused_iff : ∀ e, prepare m config = .error e ↔
    min config.maxVariables.toNat 63 < m.labels.length ∧
      e = .tooManyVariables m.labels.length (min config.maxVariables.toNat 63)
  /-- Any other model is accepted. -/
  accepted_iff : (∃ s, prepare m config = .ok s) ↔
    m.labels.length ≤ min config.maxVariables.toNat 63
  /-- A solver has the variables of its model in the same order. -/
  labels_of_accepted : ∀ s, prepare m config = .ok s → s.labels = m.labels
  /-- It has numbered them as they occur, one call for each occurrence. -/
  numbering_of_accepted : ∀ s, prepare m config = .ok s →
    s.numbering = (Numbering.empty.getOrInsertAll m.occurrences).2

/-- **Both passes give one numbering**, for every model and at every cap, and what has once been
numbered keeps its number. -/
theorem variables_numbered (m : Model V S) (config : SolverConfig S) :
    ListsVariables m config ∧
      ∀ vs : List V, Numbering.Numbered vs (Numbering.empty.getOrInsertAll vs).1
        (Numbering.empty.getOrInsertAll vs).2 := by
  refine ⟨?_, Numbering.numbered_getOrInsertAll⟩
  constructor
  case labels_eq => exact eraseDups_eq_firstOccurrences m.occurrences
  case mem_labels_iff =>
    intro v
    rw [Model.mem_labels_iff]
    simp [Model.occurrences]
  case nodup_labels => exact nodup_eraseDups m.occurrences
  case refused_iff => exact fun e => prepare_eq_error_iff
  case accepted_iff =>
    constructor
    · rintro ⟨s, hs⟩
      have h := prepares_of_prepare hs
      rw [← h.labels_eq, s.length_labels]
      exact h.size_le_cap
    · exact exists_prepare_eq_ok
  case labels_of_accepted => exact fun s hs => (prepares_of_prepare hs).labels_eq
  case numbering_of_accepted =>
    intro s hs
    rw [Numbering.getOrInsertAll_empty_snd]
    exact (prepares_of_prepare hs).numbering_eq

end Solver

end SetQubo
