import Mathlib
import SetQubo.Proofs.Json.Printable
/-!
# Where a number is missing

JSON has no word for an infinity or a NaN, so the printer writes `null` in their place, and a reader
that wants a double does not take it. Nothing else is written as `null`, so the places at which it
stands in a form tell which doubles were not finite: a form **shows** doubles at some places if
`null` stands at those of them that are not finite, and nowhere else.
-/

namespace SetQubo

/-! ## Doubles -/

namespace Decimal

open Float.Model Float.Model.UnpackedFloat

/-- The exponent field, as the model of doubles cuts it out. -/
theorem toNat_unpackExponent (x : Float) :
    (@unpackExponent Format.binary64 x.toBits.toBitVec).toNat =
      ((x.toBits >>> 52) &&& 0x7FF).toNat := by
  have hmask : (2047 : Nat) = 2 ^ 11 - 1 := by norm_num
  unfold unpackExponent
  rw [BitVec.toNat_cast, BitVec.extractLsb_toNat, UInt64.toNat_and, UInt64.toNat_shiftRight]
  show x.toBits.toBitVec.toNat >>> 52 % 2 ^ 11 = x.toBits.toNat >>> 52 &&& 2047
  rw [hmask, Nat.and_two_pow_sub_one_eq_mod]
  rfl

/-- The exponent field is full exactly if the double is not finite. -/
theorem exponent_eq_iff (x : Float) :
    ((x.toBits >>> 52) &&& 0x7FF).toNat = 0x7FF ↔ x.isFinite = false := by
  have hfull : @unpackExponent Format.binary64 x.toBits.toBitVec = -1#11 ↔
      ((x.toBits >>> 52) &&& 0x7FF).toNat = 0x7FF := by
    rw [← toNat_unpackExponent, BitVec.toNat_eq]
    exact Iff.rfl
  rw [← hfull]
  show _ ↔ (UnpackedFloat.unpack Format.binary64 x.toBits.toBitVec).isFinite = false
  unfold UnpackedFloat.unpack
  dsimp only
  constructor
  · intro h
    rw [if_pos h]
    split <;> rfl
  · intro h
    by_contra hne
    rw [if_neg hne] at h
    split at h
    · split at h <;> cases h
    · cases h

/-- A double is read as a number exactly if it is finite. -/
theorem exists_ofFloat_eq_finite_iff (x : Float) :
    (∃ negative m, Reading.ofFloat x = .finite negative m) ↔ x.isFinite = true := by
  rw [← Bool.not_eq_false, ← exponent_eq_iff]
  unfold Reading.ofFloat
  dsimp only
  constructor
  · intro h hfull
    obtain ⟨negative, m, hreading⟩ := h
    rw [if_pos hfull] at hreading
    split at hreading <;> cases hreading
  · intro hpartial
    rw [if_neg hpartial]
    split <;> exact ⟨_, _, rfl⟩

end Decimal

namespace Json

/-- A double has a number exactly if it is finite. -/
theorem Number.ofFloat?_eq_none_iff (x : Float) : ofFloat? x = none ↔ x.isFinite = false := by
  rw [← Bool.not_eq_true, ← Decimal.exists_ofFloat_eq_finite_iff]
  unfold ofFloat?
  cases Decimal.Reading.ofFloat x <;> simp

/-- `null` stands for what is not finite, and for nothing else. -/
theorem ofFloat_eq_null_iff (x : Float) : ofFloat x = .null ↔ x.isFinite = false := by
  rw [← Number.ofFloat?_eq_none_iff]
  unfold ofFloat
  cases Number.ofFloat? x <;> simp

/-- Somewhere in a value stands `null`. -/
inductive HoldsNull : Json → Prop where
  /-- The value is `null`. -/
  | null : HoldsNull .null
  /-- An item of an array holds one. -/
  | array {items : List Json} {v : Json} (hv : v ∈ items) (h : HoldsNull v) :
    HoldsNull (.array items)
  /-- A member of an object holds one. -/
  | object {members : List (Option String × Json)} {m : Option String × Json} (hm : m ∈ members)
    (h : HoldsNull m.2) : HoldsNull (.object members)

theorem holdsNull_array_iff {items : List Json} :
    HoldsNull (.array items) ↔ ∃ v ∈ items, HoldsNull v := by
  constructor
  · intro h
    cases h with
    | array hv h => exact ⟨_, hv, h⟩
  · rintro ⟨v, hv, h⟩
    exact .array hv h

theorem holdsNull_record_iff {members : List (String × Json)} :
    HoldsNull (record members) ↔ ∃ m ∈ members, HoldsNull m.2 := by
  constructor
  · intro h
    cases h with
    | object hm h =>
      obtain ⟨m, hm', rfl⟩ := List.mem_map.mp hm
      exact ⟨m, hm', h⟩
  · rintro ⟨m, hm, h⟩
    exact .object (List.mem_map_of_mem hm) h

theorem holdsNull_ofFloat_iff {x : Float} : HoldsNull (ofFloat x) ↔ x.isFinite = false := by
  rw [← ofFloat_eq_null_iff]
  constructor
  · intro h
    unfold ofFloat at h ⊢
    cases hx : Number.ofFloat? x with
    | none => rfl
    | some n =>
      rw [hx] at h
      cases h
  · intro h
    rw [h]
    exact .null

theorem not_holdsNull_string (text : Option String) : ¬HoldsNull (.string text) := by
  intro h
  cases h

/-- What is not finite is not read. -/
theorem toFloat_ofFloat_of_not_isFinite {x : Float} (h : x.isFinite = false) :
    toFloat (ofFloat x) = .error .unexpected := by
  rw [(ofFloat_eq_null_iff x).mpr h]
  rfl

/-! ## The places of `null` -/

/-- A step into a value. -/
inductive Place where
  /-- To the item of an array with a number. -/
  | item (i : Nat)
  /-- To a member of an object with a name. -/
  | member (name : Option String)
  deriving DecidableEq, Repr

mutual

/-- Where `null` stands in a value: the steps that lead there, place by place in text order. -/
def nulls : Json → List (List Place)
  | .null => [[]]
  | .array items => nullsOfItems 0 items
  | .object members => nullsOfMembers members
  | _ => []

/-- `nulls` for the items of an array from a number on. -/
def nullsOfItems (i : Nat) : List Json → List (List Place)
  | [] => []
  | item :: items => item.nulls.map (.item i :: ·) ++ nullsOfItems (i + 1) items

/-- `nulls` for all members of an object. -/
def nullsOfMembers : List (Option String × Json) → List (List Place)
  | [] => []
  | (name, value) :: members =>
    value.nulls.map (.member name :: ·) ++ nullsOfMembers members

end

/-- Doubles and their places, seen from one level further out. -/
def within (place : Place) (doubles : List (List Place × Float)) : List (List Place × Float) :=
  doubles.map fun (path, x) => (place :: path, x)

/-- The doubles of each item of an array and their places. -/
def withinItems {α : Type} (doubles : α → List (List Place × Float)) (xs : List α) :
    List (List Place × Float) :=
  xs.zipIdx.flatMap fun (x, i) => within (.item i) (doubles x)

/-- `null` stands at the places of the doubles that are not finite, and nowhere else. -/
def Shows (form : Json) (doubles : List (List Place × Float)) : Prop :=
  form.nulls = (doubles.filter fun d => !d.2.isFinite).map Prod.fst

theorem shows_ofFloat (x : Float) : Shows (ofFloat x) [([], x)] := by
  unfold Shows
  cases hx : x.isFinite with
  | true =>
    have hnumber : Number.ofFloat? x ≠ none := by rw [Ne, Number.ofFloat?_eq_none_iff, hx]; simp
    obtain ⟨n, hn⟩ := Option.ne_none_iff_exists'.mp hnumber
    rw [ofFloat, hn]
    simp [nulls, hx]
  | false =>
    rw [(ofFloat_eq_null_iff x).mpr hx]
    simp [nulls, hx]

theorem nulls_within (place : Place) (doubles : List (List Place × Float)) :
    ((within place doubles).filter fun d => !d.2.isFinite).map Prod.fst =
      ((doubles.filter fun d => !d.2.isFinite).map Prod.fst).map (place :: ·) := by
  simp [within, List.filter_map, Function.comp_def]

theorem shows_record_nil : Shows (record []) [] := rfl

theorem Shows.record_cons {value : Json} {members : List (String × Json)}
    {doubles doubles' : List (List Place × Float)} (hvalue : Shows value doubles)
    (hmembers : Shows (record members) doubles') (name : String) :
    Shows (record ((name, value) :: members)) (within (.member name) doubles ++ doubles') := by
  unfold Shows at *
  rw [List.filter_append, List.map_append, nulls_within, ← hvalue, ← hmembers]
  rfl

/-- A member without `null` shows nothing. -/
theorem Shows.record_skip {value : Json} {members : List (String × Json)}
    {doubles : List (List Place × Float)} (hmembers : Shows (record members) doubles)
    (name : String) (hvalue : value.nulls = []) :
    Shows (record ((name, value) :: members)) doubles :=
  (show Shows value [] from hvalue).record_cons hmembers name

theorem shows_ofList {α : Type} {form : α → Json} {doubles : α → List (List Place × Float)}
    (xs : List α) (h : ∀ x, Shows (form x) (doubles x)) :
    Shows (ofList form xs) (withinItems doubles xs) := by
  suffices hfrom : ∀ k, nullsOfItems k (xs.map form) =
      ((((xs.zipIdx k).flatMap fun (x, i) => within (.item i) (doubles x)).filter
        fun d => !d.2.isFinite).map Prod.fst) from hfrom 0
  induction xs with
  | nil => exact fun _ => rfl
  | cons x xs ih =>
    intro k
    rw [List.map_cons, nullsOfItems, h x, ih, List.zipIdx_cons, List.flatMap_cons,
      List.filter_append, List.map_append, nulls_within]

/-- An array of forms without `null` has none. -/
theorem nulls_ofList_eq_nil {α : Type} {form : α → Json} (xs : List α)
    (h : ∀ x, (form x).nulls = []) : (ofList form xs).nulls = [] := by
  have hnone : Shows (ofList form xs) (withinItems (fun _ => []) xs) := shows_ofList xs h
  unfold Shows at hnone
  rw [hnone]
  simp [withinItems, within]

/-! ## What holds of all doubles -/

theorem forall_within {P : Float → Prop} {place : Place} {doubles : List (List Place × Float)} :
    (∀ d ∈ within place doubles, P d.2) ↔ ∀ d ∈ doubles, P d.2 := by
  unfold within
  rw [List.forall_mem_map]

theorem forall_withinItems {α : Type} {P : Float → Prop}
    {doubles : α → List (List Place × Float)} {xs : List α} :
    (∀ d ∈ withinItems doubles xs, P d.2) ↔ ∀ x ∈ xs, ∀ d ∈ doubles x, P d.2 := by
  unfold withinItems
  simp only [List.forall_mem_flatMap, forall_within]
  constructor
  · intro h x hx
    obtain ⟨i, hi⟩ := List.mem_iff_getElem?.mp hx
    exact h (x, i) (List.mem_zipIdx_iff_getElem?.mpr hi)
  · intro h e he
    exact h e.1 (List.fst_mem_of_mem_zipIdx he)

end Json

end SetQubo
