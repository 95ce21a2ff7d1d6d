import SetQubo.Solver.Numbering
/-!
# Assignments

An assignment gives each numbered variable the value 0 or 1. It is held as an integer that has one
binary digit for each variable, and it is a valuation in which all other labels are off.
-/

namespace SetQubo

/-- An assignment of numbered variables. -/
structure Assignment (V : Type) [Label V] where
  /-- The variables. -/
  numbering : Numbering V
  /-- The values as one integer. -/
  encoding : UInt64

namespace Assignment

variable {V : Type} [Label V]

/-- The value of the variable with a number. -/
def valueAt (a : Assignment V) (i : Nat) : UInt8 :=
  if a.encoding &&& a.numbering.mask i ≠ 0 then 1 else 0

/-- The values in the order of the numbers. -/
def values (a : Assignment V) : List UInt8 := (List.range a.numbering.size).map a.valueAt

/-- The value of a label, 0 if it has no number. -/
def value (a : Assignment V) : Valuation V := fun v =>
  match a.numbering.indexOf? v with
  | some i => a.valueAt i
  | none => 0

/-- The variables that are on, in the order of their numbers. -/
def active (a : Assignment V) : List V :=
  (a.numbering.labels.toList.zipIdx.filter fun (_, i) => a.valueAt i = 1).map Prod.fst

/-- The written form of a row of values. -/
def rowText (row : List UInt8) : String :=
  String.join (row.map fun x => toString x.toNat)

/-- The values in a row. -/
def text (a : Assignment V) : String := rowText a.values

instance : ToString (Assignment V) := ⟨text⟩

end Assignment

end SetQubo
