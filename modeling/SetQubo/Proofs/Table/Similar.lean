import Mathlib.Data.List.Forall2
import SetQubo.Table
/-!
# Tables that differ in their coefficients only

Two tables over different types of numbers are **similar** if they have the same keys at the same
places, and their coefficients correspond one by one. What steps do to the keys does not depend on
the coefficients, so the same step taken on both tables keeps them similar, as long as it keeps the
correspondence.
-/

namespace SetQubo

/-- Changing the members at one place keeps the others. -/
theorem forall₂_modify {α β : Type} {P Q : α → β → Prop} {as : List α} {bs : List β}
    (h : List.Forall₂ P as bs) (himp : ∀ a b, P a b → Q a b) {f : α → α} {g : β → β}
    (hchange : ∀ a b, P a b → Q (f a) (g b)) (i : Nat) :
    List.Forall₂ Q (as.modify i f) (bs.modify i g) := by
  induction h generalizing i with
  | nil => simp
  | cons hfirst hrest ih =>
    cases i with
    | zero => exact .cons (hchange _ _ hfirst) (hrest.imp himp)
    | succ i => exact .cons (himp _ _ hfirst) (ih i)

namespace Table

variable {K S T : Type} [Key K]

/-- The keys and their places are the same, and the coefficients correspond. -/
structure Similar (R : S → T → Prop) (t : Table K S) (u : Table K T) : Prop where
  /-- Every key has the same place. -/
  index_eq : t.index = u.index
  /-- The entries correspond, one by one. -/
  entries : List.Forall₂ (fun e e' => e.1 = e'.1 ∧ R e.2 e'.2) t.toList u.toList

variable {R R' : S → T → Prop} {t : Table K S} {u : Table K T}

theorem similar_empty : Similar R (empty : Table K S) (empty : Table K T) :=
  ⟨rfl, .nil⟩

theorem Similar.imp (h : Similar R t u) (himp : ∀ a b, R a b → R' a b) : Similar R' t u :=
  ⟨h.index_eq, h.entries.imp fun _ _ he => ⟨he.1, himp _ _ he.2⟩⟩

theorem Similar.size_eq (h : Similar R t u) : t.size = u.size := h.entries.length_eq

/-- As many keys have a property in one table as in the other. -/
theorem Similar.countP_eq (h : Similar R t u) (p : K → Bool) :
    t.toList.countP (fun e => p e.1) = u.toList.countP (fun e => p e.1) := by
  have hentries := h.entries
  generalize t.toList = es, u.toList = es' at hentries ⊢
  induction hentries with
  | nil => rfl
  | cons he _ ih => rw [List.countP_cons, List.countP_cons, ih, he.1]

/-- What a coefficient has because another one corresponds to it, all have. -/
theorem Similar.forall_coefficient (h : Similar R t u) {p : S → Prop} (hp : ∀ a b, R a b → p a) :
    ∀ e ∈ t.toList, p e.2 := by
  have hentries := h.entries
  generalize t.toList = es, u.toList = es' at hentries
  induction hentries with
  | nil => simp
  | cons he _ ih => exact List.forall_mem_cons.mpr ⟨hp _ _ he.2, ih⟩

/-- **The same step on similar tables** keeps them similar. -/
theorem Similar.upsert (h : Similar R t u) (himp : ∀ a b, R a b → R' a b) (k : K)
    {update : S → S} {update' : T → T} (hupdate : ∀ a b, R a b → R' (update a) (update' b))
    {new : S} {new' : T} (hnew : R' new new') :
    Similar R' (t.upsert k update new) (u.upsert k update' new') := by
  have hsize := h.size_eq
  unfold Table.upsert
  rw [← h.index_eq]
  split
  · next i _ =>
    constructor
    · rfl
    · show List.Forall₂ _ (t.entries.modify i _).toList (u.entries.modify i _).toList
      rw [Array.toList_modify, Array.toList_modify]
      exact forall₂_modify h.entries (fun _ _ he => ⟨he.1, himp _ _ he.2⟩)
        (fun _ _ he => ⟨he.1, hupdate _ _ he.2⟩) i
  · constructor
    · show t.index.insert k t.size = t.index.insert k u.size
      rw [hsize]
    · show List.Forall₂ _ (t.entries.push (k, new)).toList (u.entries.push (k, new')).toList
      rw [Array.toList_push, Array.toList_push]
      exact List.rel_append (h.entries.imp fun _ _ he => ⟨he.1, himp _ _ he.2⟩)
        (.cons ⟨rfl, hnew⟩ .nil)

/-- A step appends at most one entry. -/
theorem size_upsert_le (t : Table K S) (k : K) (update : S → S) (new : S) :
    (t.upsert k update new).size ≤ t.size + 1 := by
  unfold Table.upsert
  split <;> simp [size]

end Table

end SetQubo
