import SetQubo.Decimal.Notation
import SetQubo.Model.Basic
import SetQubo.SetSpec.Basic
import SetQubo.Variable.Basic
/-!
# Embedding a set as a model

The embedding of a set is a model over the set's bits and the indicators of its elements other
than zero. Its ground states are the elements: the zero vector with every variable off, and each
other element with its bits and its own indicator on.

## Coefficients

With base penalty `P`, width `w`, and an element `x` that has `n` ones:

* every bit and every indicator costs `P`;
* `x`'s indicator is paid `(n + 1) · P / n` for each bit that is one in `x` and on, and costs `w`
  times as much for each bit that is zero in `x` and on;
* next to the indicator of an element that `x` does not cover, `x`'s indicator costs
  `w · (n + 1) · P / n`. Without this a second indicator could be gained on bits that already
  match the first.

The scheme needs the zero vector as an element, since that is what all variables off stand for.
-/

namespace SetQubo

/-- Why a set has no embedding. -/
inductive EmbedError (S : Type) where
  /-- The zero vector is not an element of the set with the given text. -/
  | unsupportedShape (set : String)
  /-- The base penalty is not positive, or not finite. -/
  | invalidPenalty (penalty : S)
  deriving Repr

/-- The settings of the embedding. -/
structure EmbeddingConfig (S : Type) where
  /-- The cost of every bit and every indicator. It scales all energies. -/
  basePenalty : S
  deriving Repr, BEq

/-- The settings that are used unless others are given. -/
def EmbeddingConfig.default : EmbeddingConfig Float := ⟨10⟩

namespace Embedding

variable {S : Type} [Scalar S]

/-- What the indicator of `x` is paid for each of its ones. -/
def reward (penalty : S) (x : BitVector) : S :=
  (Nat.cast x.onesCount + Nat.cast 1) * penalty / Nat.cast x.onesCount

/-- What the indicator of `x` costs next to something that contradicts it. -/
def deterrent (penalty : S) (width : Nat) (x : BitVector) : S :=
  reward penalty x * Nat.cast width

/-- Adds the cost of every bit. -/
def addBits (penalty : S) (width : Nat) (m : Model Variable S) : Model Variable S :=
  (List.range width).foldl (fun m i => m.addLinear (.bitAt i) penalty) m

/-- Sets the coefficients between every bit and the indicator of `x`. -/
def setBitTerms (penalty : S) (width : Nat) (x : BitVector) (m : Model Variable S) :
    Model Variable S :=
  (List.range width).foldl
    (fun m i => m.setQuadratic (.bitAt i) (.indicator x)
      (if x.isSet i then -reward penalty x else deterrent penalty width x)) m

/-- Adds the cost of the indicator of `x` next to each other one that `x` does not cover. -/
def addGuards (penalty : S) (width : Nat) (elements : List BitVector) (x : BitVector)
    (m : Model Variable S) : Model Variable S :=
  elements.foldl
    (fun m y =>
      if y = x || x.covers y then m
      else m.addQuadratic (.indicator x) (.indicator y) (deterrent penalty width x)) m

/-- Adds everything that concerns the indicator of `x`. -/
def addIndicator (penalty : S) (width : Nat) (elements : List BitVector)
    (m : Model Variable S) (x : BitVector) : Model Variable S :=
  addGuards penalty width elements x
    (setBitTerms penalty width x (m.addLinear (.indicator x) penalty))

/-- The model of a set of a width with the given distinct elements other than zero. -/
def modelOf (penalty : S) (width : Nat) (elements : List BitVector) : Model Variable S :=
  elements.foldl (addIndicator penalty width elements) (addBits penalty width .empty)

/-- The model of a set. The penalty is checked first, then the shape of the set. -/
def embed (config : EmbeddingConfig S) (s : SetSpec) :
    Except (EmbedError S) (Model Variable S) :=
  let penalty := config.basePenalty
  if ¬(Scalar.isFinite penalty ∧ 0 < penalty) then .error (.invalidPenalty penalty)
  else if ¬s.containsZero then .error (.unsupportedShape s.text)
  else .ok (modelOf penalty s.width s.nonzero)

/-- The model with variables renamed to their display names. -/
def named (m : Model Variable S) : Model String S := m.mapLabels Variable.name

end Embedding

/-- The message for an error. -/
def EmbedError.message : EmbedError Float → String
  | unsupportedShape set =>
    "embedding is only implemented for sets containing the all-zero vector, '" ++ set ++
      "' does not"
  | invalidPenalty penalty =>
    "base penalty must be positive and finite, got " ++ Decimal.display penalty

end SetQubo
