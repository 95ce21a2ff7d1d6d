import Std.Data.HashMap
import SetQubo.Label
/-!
# Numbering variables

Labels are numbered from 0 in the order in which they are first seen. A number, once given, never
changes.

An assignment of `k` numbered variables is encoded as an integer of `k` binary digits, of which
the first variable has the most significant one. So ascending encodings run through the rows of
values in the order of their written forms.
-/

namespace SetQubo

/-- Labels with the numbers given to them. -/
structure Numbering (V : Type) [Label V] where
  /-- The number of each label. -/
  index : Std.HashMap V Nat
  /-- The labels in the order of their numbers. -/
  labels : Array V

namespace Numbering

variable {V : Type} [Label V]

/-- No label has a number yet. -/
def empty : Numbering V := ⟨∅, #[]⟩

/-- Gives a label the next number, unless it has one. -/
def insert (n : Numbering V) (v : V) : Numbering V :=
  if n.index.contains v then n else ⟨n.index.insert v n.labels.size, n.labels.push v⟩

/-- The number of a label, which is given the next one unless it has one, and the numbering after
that. -/
def getOrInsert (n : Numbering V) (v : V) : Nat × Numbering V :=
  match n.index[v]? with
  | some i => (i, n)
  | none => (n.labels.size, ⟨n.index.insert v n.labels.size, n.labels.push v⟩)

/-- Numbers the labels of a list in turn. -/
def ofList (vs : List V) : Numbering V := vs.foldl insert empty

/-- The number of a label. -/
def indexOf? (n : Numbering V) (v : V) : Option Nat := n.index[v]?

/-- The label with a number. -/
def label? (n : Numbering V) (i : Nat) : Option V := n.labels[i]?

/-- How many labels have numbers. -/
def size (n : Numbering V) : Nat := n.labels.size

/-- Whether no label has a number. -/
def isEmpty (n : Numbering V) : Bool := n.labels.isEmpty

/-- The binary digit of the variable with a number. -/
def mask (n : Numbering V) (i : Nat) : UInt64 := 1 <<< UInt64.ofNat (n.size - 1 - i)

/-- The binary digit of a label; a label without number has none. -/
def maskOf (n : Numbering V) (v : V) : UInt64 :=
  match n.indexOf? v with
  | some i => n.mask i
  | none => 0

end Numbering

end SetQubo
