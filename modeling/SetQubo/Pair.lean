import SetQubo.Label
/-!
# Unordered pairs

A `Pair` names a quadratic term. Equality, order and hash all go through its `key`, the same two
labels with the smaller one first, so `(a, b)` and `(b, a)` are one entry of a table. The pair
still keeps the orientation in which it was written, since variables are numbered in the order in
which they are first seen.
-/

namespace SetQubo

/-- Two labels whose order does not matter, in the order in which they were written. -/
structure Pair (V : Type) where
  /-- The left label as written. -/
  first : V
  /-- The right label as written. -/
  second : V
  deriving DecidableEq, Repr

namespace Pair

variable {V : Type}

/-- The labels with the smaller one first. -/
def key [Ord V] (p : Pair V) : V × V :=
  if (compare p.first p.second).isLE then (p.first, p.second) else (p.second, p.first)

/-- The same pair written the other way round. -/
def swap (p : Pair V) : Pair V := ⟨p.second, p.first⟩

/-- The pair of the images of both labels. -/
def map {W : Type} (f : V → W) (p : Pair V) : Pair W := ⟨f p.first, f p.second⟩

/-- Whether both labels are on. -/
def isOn (p : Pair V) (x : Valuation V) : Bool := x p.first = 1 && x p.second = 1

instance [Label V] : BEq (Pair V) where
  beq p q := p.key == q.key

instance [Label V] : Hashable (Pair V) where
  hash p := hash p.key

instance [Label V] : Ord (Pair V) where
  compare p q := (compare p.key.1 q.key.1).then (compare p.key.2 q.key.2)

instance [Label V] : EquivBEq (Pair V) where
  symm {p q} h := (BEq.symm h : (q.key == p.key) = true)
  trans {p _ r} h h' := (BEq.trans h h' : (p.key == r.key) = true)
  rfl {p} := (BEq.rfl : (p.key == p.key) = true)

instance [Label V] : LawfulHashable (Pair V) where
  hash_eq p q h := LawfulHashable.hash_eq p.key q.key h

instance [Label V] : Key (Pair V) where

end Pair

end SetQubo
