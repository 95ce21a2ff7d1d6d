/-!
# Sharing out a reduction

Reducing a list with an operation needs no fixed order of steps: the list can be cut into
consecutive ranges, each range reduced on its own, and the results joined. A `Bracketing` is the
binary tree of such a run. A `Schedule` says how a run is shared out, which is all that the result
of a run may depend on: the tree along which values are combined, and the order in which the
elements that were picked out arrive. If a run passes over some of the values, then the others are
combined along what is left of its tree, which is a tree over them.
-/

namespace SetQubo

/-- A binary tree over consecutive values. -/
inductive Bracketing (α : Type) where
  /-- A range of one value. -/
  | leaf (value : α)
  /-- Two adjacent ranges. -/
  | join (left right : Bracketing α)

namespace Bracketing

variable {α : Type}

/-- The values in order. -/
def leaves : Bracketing α → List α
  | leaf a => [a]
  | join l r => l.leaves ++ r.leaves

/-- Combines the values along the tree. -/
def reduce (op : α → α → α) : Bracketing α → α
  | leaf a => a
  | join l r => op (l.reduce op) (r.reduce op)

/-- The tree that always cuts in the middle; an empty list has none. -/
def halving : List α → Option (Bracketing α)
  | [] => none
  | [a] => some (leaf a)
  | a :: b :: rest =>
    let all := a :: b :: rest
    let n := all.length / 2
    match halving (all.take n), halving (all.drop n) with
    | some l, some r => some (join l r)
    | some l, none => some l
    | none, r => r
  termination_by xs => xs.length
  decreasing_by
    all_goals simp +zetaDelta only [List.length_take, List.length_drop, List.length_cons]
    all_goals omega

/-- The values that are brought into a tree are those of the list, in order. -/
theorem leaves_halving (xs : List α) : ((halving xs).map leaves).getD [] = xs := by
  fun_induction halving xs with
  | case1 => rfl
  | case2 a => rfl
  | case3 a b rest all n l r hr hl ihl ihr =>
    have hleft : l.leaves = all.take n := by simpa [hl] using ihl
    have hright : r.leaves = all.drop n := by simpa [hr] using ihr
    change l.leaves ++ r.leaves = all
    rw [hleft, hright, List.take_append_drop]
  | case4 a b rest all n l hr hl ihl ihr =>
    have hleft : l.leaves = all.take n := by simpa [hl] using ihl
    have hright : [] = all.drop n := by simpa [hr] using ihr
    change l.leaves = all
    rw [hleft, ← List.append_nil (all.take n), hright, List.take_append_drop]
  | case5 a b rest all n hl ihl ihr =>
    have hleft : [] = all.take n := by simpa [hl] using ihl
    change _ = all
    rw [ihr, ← List.nil_append (all.drop n), hleft, List.take_append_drop]

end Bracketing

/-- Combines the values of a list from the left; an empty list has no result. -/
def reduceLeft? {α : Type} (op : α → α → α) : List α → Option α
  | [] => none
  | a :: as => some (as.foldl op a)

/-- How an enumeration is shared out. -/
structure Schedule where
  /-- The tree along which the values of a list are combined. -/
  bracket : {α : Type} → List α → Option (Bracketing α)
  /-- The tree has the values of the list, in order. -/
  leaves_bracket : ∀ {α : Type} (xs : List α), ((bracket xs).map Bracketing.leaves).getD [] = xs
  /-- The order in which elements that were picked out arrive. -/
  gather : List UInt64 → List UInt64
  /-- None is lost and none comes twice. -/
  gather_perm : ∀ ns, (gather ns).Perm ns

namespace Schedule

/-- Combines the values of a list along the tree for it; an empty list has no result. -/
def reduce? {α : Type} (schedule : Schedule) (op : α → α → α) (as : List α) : Option α :=
  (schedule.bracket as).map (Bracketing.reduce op)

/-- Cuts every range in the middle and gathers in order. -/
def halving : Schedule where
  bracket := Bracketing.halving
  leaves_bracket := Bracketing.leaves_halving
  gather := id
  gather_perm := List.Perm.refl

end Schedule

end SetQubo
