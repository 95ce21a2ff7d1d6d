import SetQubo.SetSpec.Basic
import SetQubo.Variable.Basic
/-!
# Decoding a valuation

A valuation of an embedded set's variables stands for an element if at most one indicator is on
and the bits agree with it: with that indicator's element, or with the zero vector if none is on.
Everything else is refused, with the reason.
-/

namespace SetQubo

/-- Why a valuation does not stand for an element. -/
inductive DecodeError where
  /-- More than one indicator is on. -/
  | multipleIndicators (active : List BitVector)
  /-- A bit does not agree with the element. -/
  | bitMismatch (element : BitVector) (position : Nat) (expected found : UInt8)
  /-- No indicator is on, and the zero vector is not an element. -/
  | noIndicator
  deriving DecidableEq, Repr

/-- The message for an error. -/
def DecodeError.message : DecodeError → String
  | multipleIndicators active =>
    toString active.length ++ " indicator variables are active (" ++
      String.intercalate ", " (active.map fun x => (Variable.indicator x).name) ++
      "), at most one may be"
  | bitMismatch element position expected found =>
    "bit_" ++ toString position ++ " is " ++ toString found.toNat ++ " but element " ++
      element.text ++ " requires " ++ toString expected.toNat
  | noIndicator => "no indicator is active and the all-zero vector is not a set element"

/-- What a decoder knows of its set. -/
structure Decoder where
  /-- The number of bits. -/
  width : Nat
  /-- The elements as given. -/
  elements : List BitVector
  /-- The elements that have indicators. -/
  selectable : List BitVector
  /-- Whether the zero vector is an element. -/
  containsZero : Bool

namespace Decoder

/-- The decoder of a set. -/
def ofSet (s : SetSpec) : Decoder := ⟨s.width, s.elements, s.nonzero, s.containsZero⟩

/-- The indicator variables. -/
def indicators (d : Decoder) : List Variable := d.selectable.map .indicator

/-- The elements whose indicators are on. -/
def active (d : Decoder) (x : Valuation Variable) : List BitVector :=
  d.selectable.filter fun e => x (.indicator e) = 1

/-- The element that the indicators select. -/
def selected (d : Decoder) (x : Valuation Variable) : Except DecodeError BitVector :=
  match d.active x with
  | [] => if d.containsZero then .ok (.zeros d.width) else .error .noIndicator
  | [e] => .ok e
  | es => .error (.multipleIndicators es)

/-- The first position where the bits differ from an element. -/
def mismatch? (d : Decoder) (x : Valuation Variable) (e : BitVector) : Option Nat :=
  (List.range d.width).find? fun i => x (.bitAt i) ≠ (e.get? i).getD 0

/-- The element that a valuation stands for. -/
def decode (d : Decoder) (x : Valuation Variable) : Except DecodeError BitVector := do
  let e ← d.selected x
  match d.mismatch? x e with
  | some i => throw (.bitMismatch e i ((e.get? i).getD 0) (x (.bitAt i)))
  | none => return e

end Decoder

/-- The confirmation for a decoded element. -/
def decodedMessage (e : BitVector) : String := "assignment decodes to set element " ++ e.text

end SetQubo
