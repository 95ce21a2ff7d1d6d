import SetQubo.Json.Reader
/-!
# Fully connected tiles

A tile is a rectangular patch of variable slots. Each row has a slot on its left and one on its
right, each column one on top and one at the bottom, and there are internal slots besides. Slots
are handed out in that order, and every two of them are coupled.
-/

namespace SetQubo

/-- A patch of slots that are all coupled. -/
structure Tile where
  /-- The number of rows. -/
  width : Nat
  /-- The number of columns. -/
  height : Nat
  /-- The number of internal slots. -/
  internalCount : Nat
  /-- The left slot of each row. -/
  left : List Nat
  /-- The right slot of each row. -/
  right : List Nat
  /-- The top slot of each column. -/
  top : List Nat
  /-- The bottom slot of each column. -/
  bottom : List Nat
  /-- The internal slots. -/
  internal : List Nat
  /-- The number of slots. -/
  slotCount : Nat
  /-- The couplings `(a, b)` with `a < b`, ordered by `a` and then by `b`. -/
  couplings : List (Nat × Nat)
  deriving DecidableEq, Repr

namespace Tile

/-- All pairs of numbers below `n`, the smaller one first, in ascending order. -/
def pairsBelow (n : Nat) : List (Nat × Nat) :=
  (List.range n).flatMap fun a => (List.range' (a + 1) (n - (a + 1))).map fun b => (a, b)

/-! ## Handing out slots

A counter holds the next slot that is free. -/

/-- Hands out the next slot. -/
def takeSlot : StateM Nat Nat := modifyGet fun next => (next, next + 1)

/-- Hands out two slots for each of a number of lines, one line after the other: the slots at the
first ends of the lines, and those at the second ends. -/
def takeEnds : Nat → StateM Nat (List Nat × List Nat)
  | 0 => return ([], [])
  | lines + 1 => do
    let first ← takeSlot
    let second ← takeSlot
    let (firsts, seconds) ← takeEnds lines
    return (first :: firsts, second :: seconds)

/-- Hands out a number of slots. -/
def takeSlots : Nat → StateM Nat (List Nat)
  | 0 => return []
  | count + 1 => do
    let slot ← takeSlot
    let slots ← takeSlots count
    return slot :: slots

/-- Hands out the slots of a tile with the given numbers of rows, columns and internal slots. -/
def allocate (width height internalCount : Nat) : StateM Nat Tile := do
  let (left, right) ← takeEnds width
  let (top, bottom) ← takeEnds height
  let internal ← takeSlots internalCount
  let slotCount := 2 * width + 2 * height + internalCount
  return {
    width
    height
    internalCount
    left
    right
    top
    bottom
    internal
    slotCount
    couplings := pairsBelow slotCount }

/-- The tile with the given numbers of rows, columns and internal slots. -/
def new (width height internalCount : Nat) : Tile :=
  ((allocate width height internalCount).run 0).1

/-! ## Slots and couplings -/

/-- The slots on the boundary: the ends of each row, then those of each column. -/
def boundary (t : Tile) : List Nat :=
  ((t.left.zip t.right) ++ (t.top.zip t.bottom)).flatMap fun (a, b) => [a, b]

/-- Whether two slots are coupled. -/
def isCoupled (t : Tile) (a b : Nat) : Bool :=
  a ≠ b && a < t.slotCount && b < t.slotCount

/-! ## JSON form -/

/-- The record of a tile. -/
def toJson (t : Tile) : Json :=
  .record [
    ("width", .ofNat t.width),
    ("height", .ofNat t.height),
    ("internal_bit_count", .ofNat t.internalCount),
    ("left", .ofList .ofNat t.left),
    ("right", .ofList .ofNat t.right),
    ("top", .ofList .ofNat t.top),
    ("bottom", .ofList .ofNat t.bottom),
    ("internal", .ofList .ofNat t.internal),
    ("var_count", .ofNat t.slotCount),
    ("coefficients", .ofList (fun (a, b) => .array [.ofNat a, .ofNat b]) t.couplings)]

/-- The fields of a tile. Slots fit in sixty-four bits. -/
def record : Json.Record Tile :=
  let slot := Json.toNat UInt64.size
  let slots := Json.toList slot
  Tile.mk <$> .field "width" slot <*> .field "height" slot <*>
    .field "internal_bit_count" slot <*> .field "left" slots <*> .field "right" slots <*>
    .field "top" slots <*> .field "bottom" slots <*> .field "internal" slots <*>
    .field "var_count" slot <*> .field "coefficients" (Json.toList (Json.toPair slot slot))

end Tile

end SetQubo
