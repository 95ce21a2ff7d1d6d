import SetQubo.BitVector.Basic
import SetQubo.Label
/-!
# Variables of an embedded set

An embedded set has two kinds of variables. The **bits** are the positions of a vector, and each
**indicator** selects one element other than zero. An indicator is identified by its element, so
model and decoder agree on it without a table of names.

Every bit comes before every indicator; bits are ordered by position, indicators by element.
-/

namespace SetQubo

/-- A variable of an embedded set. -/
inductive Variable where
  /-- The bit at a position. -/
  | bit (position : UInt64)
  /-- The indicator of an element. -/
  | indicator (element : BitVector)
  deriving DecidableEq, Hashable, Repr

namespace Variable

/-- Whether the variable is a bit. -/
def isBit : Variable → Bool
  | bit _ => true
  | indicator _ => false

/-- Whether the variable is an indicator. -/
def isIndicator : Variable → Bool
  | bit _ => false
  | indicator _ => true

/-- The position of a bit. -/
def position? : Variable → Option UInt64
  | bit i => some i
  | indicator _ => none

/-- The element that an indicator selects. -/
def element? : Variable → Option BitVector
  | bit _ => none
  | indicator x => some x

/-- The bit at a position of an element. -/
def bitAt (i : Nat) : Variable := .bit (UInt64.ofNat i)

/-- The display name: `bit_3`, `ind_101`. -/
def name : Variable → String
  | bit i => "bit_" ++ toString i.toNat
  | indicator x => "ind_" ++ x.text

instance : ToString Variable := ⟨name⟩

instance : Ord Variable where
  compare
    | bit i, bit j => compare i j
    | bit _, indicator _ => .lt
    | indicator _, bit _ => .gt
    | indicator x, indicator y => compare x y

/-! ## The order is total -/

instance : Std.TransCmp (compare : Variable → Variable → Ordering) where
  eq_swap {a b} := by
    cases a with
    | bit i =>
      cases b with
      | bit j => exact (Std.OrientedCmp.eq_swap : compare i j = (compare j i).swap)
      | indicator y => rfl
    | indicator x =>
      cases b with
      | bit j => rfl
      | indicator y => exact (Std.OrientedCmp.eq_swap : compare x y = (compare y x).swap)
  isLE_trans {a b c} hab hbc := by
    cases a with
    | bit i =>
      cases b with
      | bit j =>
        cases c with
        | bit k =>
          exact (Std.TransCmp.isLE_trans :
            (compare i j).isLE → (compare j k).isLE → (compare i k).isLE) hab hbc
        | indicator z => rfl
      | indicator y =>
        cases c with
        | bit k => cases hbc
        | indicator z => rfl
    | indicator x =>
      cases b with
      | bit j => cases hab
      | indicator y =>
        cases c with
        | bit k => cases hbc
        | indicator z =>
          exact (Std.TransCmp.isLE_trans :
            (compare x y).isLE → (compare y z).isLE → (compare x z).isLE) hab hbc

instance : Std.LawfulEqCmp (compare : Variable → Variable → Ordering) where
  compare_self {a} := by
    cases a with
    | bit i => exact (Std.ReflCmp.compare_self : compare i i = .eq)
    | indicator x => exact (Std.ReflCmp.compare_self : compare x x = .eq)
  eq_of_compare {a b} h := by
    cases a with
    | bit i =>
      cases b with
      | bit j => exact congrArg bit (Std.LawfulEqOrd.eq_of_compare (h : compare i j = .eq))
      | indicator y => cases h
    | indicator x =>
      cases b with
      | bit j => cases h
      | indicator y =>
        exact congrArg indicator (Std.LawfulEqOrd.eq_of_compare (h : compare x y = .eq))

instance : Label Variable where

end Variable

end SetQubo
