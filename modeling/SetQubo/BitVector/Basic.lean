/-!
# Bit vectors

A bit vector is a finite row of zeros and ones. It is the value of every set element and of every
indicator variable. Positions count from the left of the written form, and the integer encoding
takes position 0 as the least significant bit.

Rows are ordered by their first difference, as their written forms are; a row comes after its own
beginnings.
-/

namespace SetQubo

/-- A row of zeros and ones. -/
structure BitVector where
  /-- The values from the left; `true` is a one. -/
  bits : List Bool
  deriving DecidableEq, Hashable, Repr

namespace BitVector

/-- The widest vector whose encoding fits in sixty-four bits. -/
def maxWidth : Nat := 64

/-! ## Construction -/

/-- The row of zeros of a width. -/
def zeros (width : Nat) : BitVector := ⟨List.replicate width false⟩

/-- The row with the given values, if they are all 0 or 1. -/
def ofValues? (values : List UInt8) : Option BitVector :=
  if values.all (· ≤ 1) then some ⟨values.map (· = 1)⟩ else none

/-! ## Positions and counts -/

/-- The number of positions. -/
def width (x : BitVector) : Nat := x.bits.length

/-- A bit as a number. -/
def valueOf (b : Bool) : UInt8 := if b then 1 else 0

/-- The values as numbers, from the left. -/
def values (x : BitVector) : List UInt8 := x.bits.map valueOf

/-- The value at a position; there is none behind the last one. -/
def get? (x : BitVector) (i : Nat) : Option UInt8 := x.values[i]?

/-- Whether a position holds a one. -/
def isSet (x : BitVector) (i : Nat) : Bool := x.bits[i]?.getD false

/-- The number of ones. -/
def onesCount (x : BitVector) : Nat := x.bits.countP id

/-- The number of zeros. -/
def zerosCount (x : BitVector) : Nat := x.width - x.onesCount

/-- Whether there is no one. -/
def isZero (x : BitVector) : Bool := x.bits.all not

/-! ## Encoding -/

/-- The integer whose binary digits are the given bits, the first one least significant. -/
def encodeBits : List Bool → UInt64
  | [] => 0
  | b :: bits => (encodeBits bits <<< 1) ||| (if b then 1 else 0)

/-- The integer encoding. It identifies the vector among those of its width, which is at most
`maxWidth`. -/
def encode (x : BitVector) : UInt64 := encodeBits x.bits

/-- The `width` low binary digits of an integer, the least significant first. -/
def decodeBits (n : UInt64) : Nat → List Bool
  | 0 => []
  | width + 1 => (n &&& 1 == 1) :: decodeBits (n >>> 1) width

/-- The vector of a width with the given encoding. -/
def decode (n : UInt64) (width : Nat) : BitVector := ⟨decodeBits n width⟩

/-! ## Comparison -/

/-- `x` covers `y` if it has a one wherever `y` has one. Only positions that both have count. -/
def covers (x y : BitVector) : Bool :=
  (x.bits.zip y.bits).all fun (mine, theirs) => mine || !theirs

instance : Ord BitVector where
  compare x y := compare x.bits y.bits

instance : Std.TransCmp (compare : BitVector → BitVector → Ordering) where
  eq_swap {x y} :=
    (Std.OrientedCmp.eq_swap : compare x.bits y.bits = (compare y.bits x.bits).swap)
  isLE_trans {x y z} :=
    (Std.TransCmp.isLE_trans : (compare x.bits y.bits).isLE → (compare y.bits z.bits).isLE →
      (compare x.bits z.bits).isLE)

instance : Std.LawfulEqCmp (compare : BitVector → BitVector → Ordering) where
  compare_self {x} := (Std.ReflCmp.compare_self : compare x.bits x.bits = .eq)
  eq_of_compare {x y} h := by
    have hbits : x.bits = y.bits :=
      Std.LawfulEqOrd.eq_of_compare (h : compare x.bits y.bits = .eq)
    cases x
    cases y
    cases hbits
    rfl

/-! ## Written form -/

/-- The written form, one digit a position. -/
def text (x : BitVector) : String :=
  String.ofList (x.bits.map fun b => if b then '1' else '0')

instance : ToString BitVector := ⟨text⟩

end BitVector

/-! ## Sets of encodings -/

/-- Puts an encoding into a strictly ascending list. -/
def insertAscending (n : UInt64) : List UInt64 → List UInt64
  | [] => [n]
  | m :: ms => if n < m then n :: m :: ms else if n = m then m :: ms else m :: insertAscending n ms

/-- The encodings that occur in a list, each once, in ascending order. -/
def ascending (ns : List UInt64) : List UInt64 := ns.foldr insertAscending []

end SetQubo
