import Mathlib.Data.List.Forall2
/-!
# The first failure

A step that may fail is run over a list, from left to right. The run succeeds if every step does,
with the results in order. Otherwise it fails as the first step that fails, and what stands behind
that one is not looked at.
-/

namespace SetQubo

variable {α β ε : Type} {f : α → Except ε β} {as : List α} {bs : List β} {a : α} {b : β} {e : ε}

theorem mapM_cons_of_ok (ha : f a = .ok b) : (a :: as).mapM f = (as.mapM f).map (b :: ·) := by
  rw [List.mapM_cons, ha]
  cases as.mapM f <;> rfl

theorem mapM_cons_of_error (ha : f a = .error e) : (a :: as).mapM f = .error e := by
  rw [List.mapM_cons, ha]
  rfl

/-- A run succeeds exactly with the results of its steps. -/
theorem mapM_eq_ok_iff :
    as.mapM f = .ok bs ↔ List.Forall₂ (fun a b => f a = .ok b) as bs := by
  constructor
  · intro h
    induction as generalizing bs with
    | nil =>
      obtain rfl : [] = bs := Except.ok.inj h
      exact List.Forall₂.nil
    | cons a as ih =>
      cases ha : f a with
      | error e =>
        rw [mapM_cons_of_error ha] at h
        cases h
      | ok b =>
        rw [mapM_cons_of_ok ha] at h
        cases hrest : as.mapM f with
        | error e =>
          rw [hrest] at h
          cases h
        | ok bs' =>
          rw [hrest] at h
          obtain rfl : b :: bs' = bs := Except.ok.inj h
          exact List.Forall₂.cons ha (ih hrest)
  · intro h
    induction h with
    | nil => rfl
    | cons ha _ ih =>
      rw [mapM_cons_of_ok ha, ih]
      rfl

theorem forall_of_mapM_eq_ok (h : as.mapM f = .ok bs) : ∀ a ∈ as, ∃ b, f a = .ok b := by
  have hsteps := mapM_eq_ok_iff.mp h
  clear h
  induction hsteps with
  | nil => simp
  | cons hstep _ ih => exact List.forall_mem_cons.mpr ⟨⟨_, hstep⟩, ih⟩

/-- A run of which one step fails does not succeed. -/
theorem exists_mapM_eq_error (ha : a ∈ as) (he : f a = .error e) :
    ∃ e', as.mapM f = .error e' := by
  cases hall : as.mapM f with
  | error e' => exact ⟨e', rfl⟩
  | ok bs =>
    obtain ⟨b, hb⟩ := forall_of_mapM_eq_ok hall a ha
    rw [he] at hb
    cases hb

/-- A run fails exactly as its first step that fails. -/
theorem mapM_eq_error_iff :
    as.mapM f = .error e ↔ ∃ before a after, as = before ++ a :: after ∧
      (∀ b ∈ before, ∃ c, f b = .ok c) ∧ f a = .error e := by
  constructor
  · intro h
    induction as with
    | nil => cases h
    | cons a as ih =>
      cases ha : f a with
      | error e' =>
        rw [mapM_cons_of_error ha] at h
        obtain rfl : e' = e := Except.error.inj h
        exact ⟨[], a, as, rfl, by simp, ha⟩
      | ok b =>
        rw [mapM_cons_of_ok ha] at h
        cases hrest : as.mapM f with
        | ok bs =>
          rw [hrest] at h
          cases h
        | error e' =>
          rw [hrest] at h
          obtain rfl : e' = e := Except.error.inj h
          obtain ⟨before, a', after, rfl, hbefore, ha'⟩ := ih hrest
          exact ⟨a :: before, a', after, rfl, List.forall_mem_cons.mpr ⟨⟨b, ha⟩, hbefore⟩, ha'⟩
  · rintro ⟨before, a, after, rfl, hbefore, ha⟩
    induction before with
    | nil => exact mapM_cons_of_error ha
    | cons b before ih =>
      obtain ⟨⟨c, hc⟩, hothers⟩ := List.forall_mem_cons.mp hbefore
      rw [List.cons_append, mapM_cons_of_ok hc, ih hothers]
      rfl

end SetQubo
