import SetQubo.BitVector.Basic
/-!
# Set specifications

A set specification lists the elements of a finite set of bit vectors of one width. The list keeps
the order in which the elements were given, and repetitions; what depends on the set alone
(membership, the distinct elements, their encodings) is derived from it.
-/

namespace SetQubo

/-- The elements of a set of bit vectors, in the order given and with repetitions. -/
structure SetSpec where
  /-- The number of bits of each element. -/
  width : Nat
  /-- The elements as given. -/
  elements : List BitVector
  /-- There is at least one bit. -/
  width_pos : 0 < width
  /-- Encodings fit in sixty-four bits. -/
  width_le : width ≤ BitVector.maxWidth
  /-- All elements have the width of the set. -/
  width_eq : ∀ x ∈ elements, x.width = width
  deriving DecidableEq

namespace SetSpec

/-- The number of elements as given. -/
def size (s : SetSpec) : Nat := s.elements.length

/-- Whether no element is given. -/
def isEmpty (s : SetSpec) : Bool := s.elements.isEmpty

/-- The encodings of the elements, each once, in ascending order. -/
def encodings (s : SetSpec) : List UInt64 := ascending (s.elements.map BitVector.encode)

/-- Whether the zero vector is an element. -/
def containsZero (s : SetSpec) : Bool := s.elements.any BitVector.isZero

/-- Membership, decided by width and encoding. -/
def contains (s : SetSpec) (x : BitVector) : Bool :=
  x.width = s.width && s.encodings.contains x.encode

/-- The number of distinct elements. -/
def distinctCount (s : SetSpec) : Nat := s.encodings.length

/-- The first occurrence of each element, in the order given. -/
def distinct (s : SetSpec) : List BitVector :=
  s.elements.eraseDupsBy fun x y => x.encode == y.encode

/-- The distinct elements other than zero, in the order given. -/
def nonzero (s : SetSpec) : List BitVector := s.distinct.filter (!·.isZero)

/-- The written forms of the elements, each once, in ascending order. -/
def elementTexts (s : SetSpec) : List String :=
  (s.elements.map BitVector.text).eraseDups.mergeSort (· ≤ ·)

/-- The written form of the set: the elements as given, with bars between them. -/
def text (s : SetSpec) : String := String.intercalate "|" (s.elements.map BitVector.text)

instance : ToString SetSpec := ⟨text⟩

end SetSpec

end SetQubo
