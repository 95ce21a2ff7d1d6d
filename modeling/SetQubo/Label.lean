/-!
# Labels and keys

A **label** names a variable of a model. Any type whose values can be hashed and put in a total
order will do. A **key** addresses an entry of a table. It needs no order, and its equality may
identify values that differ: an unordered pair of labels is one key, whichever way it is written.

Both classes collect what a type already has. What a concrete type has of its own comes first when
an equality, a hash or an order is looked up; the classes serve the types that are variables, so
their instances have a low priority.
-/

namespace SetQubo

/-! ## Keys -/

/-- A type of table keys: an equality, and hashes that respect it. -/
class Key (K : Type) where
  /-- When two keys are one. -/
  [equality : BEq K]
  /-- The hash of a key. -/
  [hashing : Hashable K]
  /-- The equality is an equivalence. -/
  [equivalence : EquivBEq K]
  /-- Keys that are one have the same hash. -/
  [lawfulHash : LawfulHashable K]

namespace Key

variable {K : Type} [Key K]

instance (priority := 50) : BEq K := equality

instance (priority := 50) : Hashable K := hashing

instance (priority := 50) : EquivBEq K := equivalence

instance (priority := 50) : LawfulHashable K := lawfulHash

end Key

/-! ## Labels -/

/-- A type of variable labels: equal labels are the same, and `compare` is a total order. -/
class Label (V : Type) where
  /-- When two labels are the same. -/
  [equality : BEq V]
  /-- The hash of a label. -/
  [hashing : Hashable V]
  /-- The order of labels. -/
  [order : Ord V]
  /-- The equality is the one of the type. -/
  [lawfulEquality : LawfulBEq V]
  /-- The order is transitive. -/
  [transitive : Std.TransCmp (compare : V → V → Ordering)]
  /-- Labels that compare as equal are the same. -/
  [lawfulOrder : Std.LawfulEqCmp (compare : V → V → Ordering)]

namespace Label

variable {V : Type} [Label V]

instance (priority := 50) : BEq V := equality

instance (priority := 50) : Hashable V := hashing

instance (priority := 50) : Ord V := order

instance (priority := 50) : LawfulBEq V := lawfulEquality

instance (priority := 50) : Std.TransCmp (compare : V → V → Ordering) := transitive

instance (priority := 50) : Std.LawfulEqCmp (compare : V → V → Ordering) := lawfulOrder

end Label

instance {V : Type} [Label V] : Key V where

instance : Label String where

instance : Label Int64 where

/-- The value of each variable. Only the value 1 counts as on. -/
abbrev Valuation (V : Type) := V → UInt8

end SetQubo
