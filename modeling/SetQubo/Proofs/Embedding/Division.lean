import Mathlib
import SetQubo.Proofs.Embedding.Spectrum
/-!
# No division by zero

The arithmetic that a model is computed in need not give a result for a division by zero. To see
that none is attempted, a set is embedded in an arithmetic that has no result there, and none for
whatever uses a missing one. The model is the same then, and all of its coefficients are there.

What makes this work is that an embedding only looks at its coefficients to add them up. So a map
between two arithmetics that respects sums, negatives, and the rewards and deterrents of a set takes
the model of the set in one of them to the model in the other.
-/

namespace SetQubo

/-! ## Coefficients in another arithmetic -/

section tables
variable {K S T : Type} [Key K]

/-- The same entries with translated coefficients. -/
def Table.mapCoefficients (f : S → T) (t : Table K S) : Table K T :=
  ⟨t.index, t.entries.map fun (k, c) => (k, f c)⟩

/-- A step may be taken before coefficients are translated or afterwards. -/
theorem Table.mapCoefficients_upsert (t : Table K S) (k : K) {f : S → T} (update : S → S)
    (update' : T → T) (hupdate : ∀ c, f (update c) = update' (f c)) (new : S) :
    (t.upsert k update new).mapCoefficients f =
      (t.mapCoefficients f).upsert k update' (f new) := by
  unfold upsert mapCoefficients
  -- Both tables have the same index, so they take the same branch.
  cases t.index[k]? with
  | some i =>
    have hentries : (t.entries.modify i fun (k, c) => (k, update c)).map (fun (k, c) => (k, f c)) =
        (t.entries.map fun (k, c) => (k, f c)).modify i fun (k, c) => (k, update' c) := by
      apply Array.ext_getElem?
      intro j
      rw [Array.getElem?_map, Array.getElem?_modify, Array.getElem?_modify, Array.getElem?_map]
      by_cases hij : i = j
      · simp [hij, Function.comp_def, hupdate]
      · simp [hij]
    simp only [hentries]
  | none => simp

end tables

namespace Model

variable {V S T : Type} [Label V]

/-- The same terms with translated coefficients. -/
def mapCoefficients (f : S → T) (m : Model V S) : Model V T :=
  ⟨m.linear.mapCoefficients f, m.quadratic.mapCoefficients f⟩

variable {f : S → T} (m : Model V S) (a b : V) (c : S)

theorem mapCoefficients_addLinear [Add S] [Add T] (hadd : ∀ c d, f (c + d) = f c + f d) :
    (m.addLinear a c).mapCoefficients f = (m.mapCoefficients f).addLinear a (f c) := by
  have hstep := m.linear.mapCoefficients_upsert a (· + c) (· + f c) (fun d => hadd d c) c
  exact congrArg (Model.mk · (m.quadratic.mapCoefficients f)) hstep

theorem mapCoefficients_setQuadratic :
    (m.setQuadratic a b c).mapCoefficients f = (m.mapCoefficients f).setQuadratic a b (f c) := by
  have hstep := m.quadratic.mapCoefficients_upsert ⟨a, b⟩ (fun _ => c) (fun _ => f c) (fun _ => rfl) c
  exact congrArg (Model.mk (m.linear.mapCoefficients f)) hstep

theorem mapCoefficients_addQuadratic [Add S] [Add T] (hadd : ∀ c d, f (c + d) = f c + f d) :
    (m.addQuadratic a b c).mapCoefficients f = (m.mapCoefficients f).addQuadratic a b (f c) := by
  have hstep := m.quadratic.mapCoefficients_upsert ⟨a, b⟩ (· + c) (· + f c) (fun d => hadd d c) c
  exact congrArg (Model.mk (m.linear.mapCoefficients f)) hstep

end Model

namespace Embedding

open Variable

variable {S T : Type} [Scalar S] [Scalar T]

/-- A map between two arithmetics respects what an embedding computes with. -/
structure Respects (f : S → T) (penalty : S) (width : Nat) (elements : List BitVector) : Prop where
  /-- Sums. -/
  add : ∀ c d, f (c + d) = f c + f d
  /-- Negatives. -/
  neg : ∀ c, f (-c) = -f c
  /-- What an indicator is paid. -/
  reward : ∀ x ∈ elements, f (reward penalty x) = Embedding.reward (f penalty) x
  /-- What an indicator costs. -/
  deterrent : ∀ x ∈ elements, f (deterrent penalty width x) = Embedding.deterrent (f penalty) width x

variable {f : S → T} {penalty : S} {width : Nat} {elements : List BitVector} {x : BitVector}

namespace Respects

variable (h : Respects f penalty width elements)
include h

theorem mapCoefficients_addBits (m : Model Variable S) :
    (addBits penalty width m).mapCoefficients f =
      addBits (f penalty) width (m.mapCoefficients f) := by
  unfold addBits
  exact (List.foldl_hom (Model.mapCoefficients f) fun m i =>
    (m.mapCoefficients_addLinear _ _ h.add).symm).symm

theorem mapCoefficients_setBitTerms (hx : x ∈ elements) (m : Model Variable S) :
    (setBitTerms penalty width x m).mapCoefficients f =
      setBitTerms (f penalty) width x (m.mapCoefficients f) := by
  unfold setBitTerms
  refine (List.foldl_hom (Model.mapCoefficients f) fun m i => ?_).symm
  rw [m.mapCoefficients_setQuadratic, apply_ite f, h.neg, h.reward x hx, h.deterrent x hx]

theorem mapCoefficients_addGuards (hx : x ∈ elements) (m : Model Variable S) :
    (addGuards penalty width elements x m).mapCoefficients f =
      addGuards (f penalty) width elements x (m.mapCoefficients f) := by
  unfold addGuards
  refine (List.foldl_hom (Model.mapCoefficients f) fun m y => ?_).symm
  rw [apply_ite (Model.mapCoefficients f), m.mapCoefficients_addQuadratic _ _ _ h.add,
    h.deterrent x hx]

theorem mapCoefficients_addIndicator (hx : x ∈ elements) (m : Model Variable S) :
    (addIndicator penalty width elements m x).mapCoefficients f =
      addIndicator (f penalty) width elements (m.mapCoefficients f) x := by
  unfold addIndicator
  rw [h.mapCoefficients_addGuards hx, h.mapCoefficients_setBitTerms hx,
    m.mapCoefficients_addLinear _ _ h.add]

/-- **The model of a set is translated as a whole.** -/
theorem mapCoefficients_modelOf :
    (modelOf penalty width elements).mapCoefficients f = modelOf (f penalty) width elements := by
  -- The elements still to come are among those of the set, all of which the guards look at.
  have hfold : ∀ (es : List BitVector), es ⊆ elements → ∀ m : Model Variable S,
      (es.foldl (addIndicator penalty width elements) m).mapCoefficients f =
        es.foldl (addIndicator (f penalty) width elements) (m.mapCoefficients f) := by
    intro es
    induction es with
    | nil => exact fun _ m => rfl
    | cons e es ih =>
      intro hes m
      obtain ⟨he, hrest⟩ := List.cons_subset.mp hes
      rw [List.foldl_cons, List.foldl_cons, ih hrest, h.mapCoefficients_addIndicator he]
  unfold modelOf
  rw [hfold elements (List.Subset.refl _), h.mapCoefficients_addBits]
  simp [Model.mapCoefficients, Table.mapCoefficients, Model.empty, Table.empty]

end Respects

end Embedding

/-! ## Checked division -/

/-- A rational number, or nothing. -/
structure Checked where
  /-- The number, if there is one. -/
  number? : Option Rat

namespace Checked

/-- A number that is there. -/
def of (a : Rat) : Checked := ⟨some a⟩

/-- Nothing. -/
def missing : Checked := ⟨none⟩

/-- Whether two numbers are there, in a relation to each other. -/
def Related (r : Rat → Rat → Prop) (a b : Checked) : Prop :=
  ∃ x ∈ a.number?, ∃ y ∈ b.number?, r x y

instance (r : Rat → Rat → Prop) [DecidableRel r] (a b : Checked) : Decidable (Related r a b) :=
  inferInstanceAs (Decidable (∃ x ∈ a.number?, ∃ y ∈ b.number?, r x y))

/-- Nothing comes out of a division by zero, nor of an operation on nothing. -/
instance : Scalar Checked where
  zero := of 0
  natCast n := of n
  add a b := ⟨Option.map₂ (· + ·) a.number? b.number?⟩
  sub a b := ⟨Option.map₂ (· - ·) a.number? b.number?⟩
  mul a b := ⟨Option.map₂ (· * ·) a.number? b.number?⟩
  div a b := ⟨a.number?.bind fun x => b.number?.bind fun y => if y = 0 then none else some (x / y)⟩
  neg a := ⟨a.number?.map (- ·)⟩
  le := Related (· ≤ ·)
  lt := Related (· < ·)
  decidableLE a b := inferInstanceAs (Decidable (Related (· ≤ ·) a b))
  decidableLT a b := inferInstanceAs (Decidable (Related (· < ·) a b))
  isFinite a := a.number?.isSome

theorem div_zero (a : Checked) : a / of 0 = missing := by
  show Checked.mk _ = _
  cases a.number? <;> rfl

theorem div_of_ne_zero (a : Rat) {b : Rat} (hb : b ≠ 0) : of a / of b = of (a / b) := by
  show Checked.mk (if b = 0 then none else some (a / b)) = _
  rw [if_neg hb]
  rfl

end Checked

namespace Embedding

theorem reward_of {x : BitVector} (hones : 0 < x.onesCount) (penalty : Rat) :
    reward (Checked.of penalty) x = .of (reward penalty x) := by
  have hne : (x.onesCount : Rat) ≠ 0 := by exact_mod_cast hones.ne'
  exact Checked.div_of_ne_zero _ hne

/-- **No division by zero is attempted.** With checked division a set has the model that it has with
unchecked division. -/
theorem modelOf_checked (s : SetSpec) (penalty : Rat) :
    modelOf (Checked.of penalty) s.width s.nonzero =
      (modelOf penalty s.width s.nonzero).mapCoefficients .of := by
  have hreward : ∀ x ∈ s.nonzero, reward (Checked.of penalty) x = .of (reward penalty x) :=
    fun x hx => reward_of (SetSpec.onesCount_pos_of_mem_nonzero hx) penalty
  have hrespects : Respects Checked.of penalty s.width s.nonzero := by
    constructor
    case add => exact fun _ _ => rfl
    case neg => exact fun _ => rfl
    case reward => exact fun x hx => (hreward x hx).symm
    case deterrent =>
      intro x hx
      unfold deterrent
      rw [hreward x hx]
      rfl
  exact hrespects.mapCoefficients_modelOf.symm

end Embedding

end SetQubo
