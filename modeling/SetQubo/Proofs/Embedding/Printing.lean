import Mathlib
import SetQubo.CommandLine.Run
import SetQubo.Proofs.Embedding.Naming
import SetQubo.Proofs.Embedding.Weights
import SetQubo.Proofs.Model.Unreadable
/-!
# Printing the model of a set

What is printed for a set is the text of its model under display names. If all weights are finite
the text holds a number for every coefficient, and the model is read back from it. But the embedding
checks only that the penalty is finite. It multiplies the penalty before it divides, so a weight may
overflow, even where the quotient itself is within the range of doubles. Then the text holds `null`,
and nothing is read from it.
-/

namespace SetQubo

/-! ## Equal models -/

/-- Tables with the same entries are equal, if their coefficients are finite: a coefficient that is
no number would not be equal to itself. -/
theorem Table.beq_of_toList_eq {K : Type} [Key K] {t u : Table K Float} (h : t.toList = u.toList)
    (hfinite : ∀ e ∈ u.toList, e.2.isFinite = true) : (t == u) = true := by
  show (t.toList == u.toList) = true
  rw [h]
  generalize u.toList = es at hfinite
  induction es with
  | nil => rfl
  | cons e es ih =>
    have hnumber := Double.isNumber_of_isFinite (hfinite e List.mem_cons_self)
    have hentry : (e == e) = true :=
      Bool.and_eq_true_iff.mpr ⟨BEq.rfl, (Double.beq_iff hnumber hnumber).mpr rfl⟩
    have hrest := ih fun e' he' => hfinite e' (List.mem_cons_of_mem _ he')
    exact Bool.and_eq_true_iff.mpr ⟨hentry, hrest⟩

namespace Model

variable {V W : Type} [Label V] [Label W]

/-- What is restored from a model with finite coefficients is equal to it. -/
theorem Restored.beq [Json.Codec V] {m m' : Model V Float} (h : m'.Restored m)
    (hfinite : m.FiniteCoefficients) : (m' == m) = true :=
  Bool.and_eq_true_iff.mpr ⟨Table.beq_of_toList_eq h.linear.toList_eq hfinite.linear,
    Table.beq_of_toList_eq h.quadratic.toList_eq hfinite.quadratic⟩

/-- Names do not change which coefficients are finite. -/
theorem Renamed.finiteCoefficients_iff {f : V → W} {m : Model V Float} {m' : Model W Float}
    (h : m.Renamed f m') : m'.FiniteCoefficients ↔ m.FiniteCoefficients := by
  refine ⟨fun hm' => ?_, h.finiteCoefficients⟩
  have hlinear := hm'.linear
  have hquadratic := hm'.quadratic
  rw [h.linear, List.forall_mem_map] at hlinear
  rw [h.quadratic, List.forall_mem_map] at hquadratic
  exact ⟨hlinear, hquadratic⟩

/-- A line break behind the text of a model does not matter. -/
theorem ofText_append_newline [Json.Codec V] [Json.Printable V] (m : Model V Float)
    {layout : Json.Layout} (hlayout : layout.Blank) :
    ofText (V := V) (String.ofList (m.toJson.write layout 0) ++ "\n") =
      ofText (String.ofList (m.toJson.write layout 0)) := by
  have happend : String.ofList (m.toJson.write layout 0) ++ "\n" =
      String.ofList (m.toJson.write layout 0 ++ ['\n']) := by
    rw [String.ofList_append]
  have hbreak : ∀ c ∈ ['\n'], Json.isBlank c := by simp [Json.isBlank]
  unfold ofText
  rw [happend, Json.decodeText_write_append _ hlayout m.wellFormed_toJson 0 hbreak,
    Json.decodeText_write _ hlayout m.wellFormed_toJson]

end Model

namespace Embedding

open Double

/-! ## What is printed -/

/-- What is printed for a model, on indented lines or on one. -/
def printed (m : Model Variable Float) (compact : Bool) : String :=
  (if compact then (named m).toCompactText else (named m).toText) ++ "\n"

/-- The command prints the model of the set that it is given. -/
theorem runEmbed_of_embed {text : String} {s : SetSpec} (hparse : SetSpec.parse text = .ok s)
    {penalty : Float} {m : Model Variable Float} (hembed : embed ⟨penalty⟩ s = .ok m)
    (compact : Bool) :
    CommandLine.runEmbed text penalty compact = .ok ⟨printed m compact, true⟩ := by
  simp only [CommandLine.runEmbed, CommandLine.embedProgram, CommandLine.attempt, hparse, pure_bind,
    hembed]
  show Except.ok (CommandLine.Success.mk ("" ++ _ ++ "\n") true) = _
  rw [String.empty_append, printed]

/-- Reading what is printed is reading the text in one of its layouts. -/
theorem exists_ofText_printed_eq (m : Model Variable Float) (compact : Bool) :
    ∃ layout : Json.Layout, layout.Blank ∧
      Model.ofText (V := String) (printed m compact) =
        Model.ofText (String.ofList ((named m).toJson.write layout 0)) := by
  cases compact with
  | true => exact ⟨_, Json.Layout.blank_compact,
      (named m).ofText_append_newline Json.Layout.blank_compact⟩
  | false => exact ⟨_, Json.Layout.blank_indented,
      (named m).ofText_append_newline Json.Layout.blank_indented⟩

section named
variable {m : Model Variable Float} (hm : m.Consistent)
include hm

theorem finiteCoefficients_named_iff : (named m).FiniteCoefficients ↔ m.FiniteCoefficients :=
  (hm.renamed_mapLabels Variable.name_injective.injOn).finiteCoefficients_iff

/-- The text under display names holds `null` exactly if a coefficient is not finite. -/
theorem holdsNull_named_iff : (named m).toJson.HoldsNull ↔ ¬m.FiniteCoefficients := by
  rw [Model.holdsNull_toJson_iff fun name => Json.not_holdsNull_string _,
    finiteCoefficients_named_iff hm]

/-- Whatever is read from what was printed, the coefficients were finite. -/
theorem finiteCoefficients_of_ofText_printed {compact : Bool} {m' : Model String Float}
    (h : Model.ofText (printed m compact) = .ok m') : m.FiniteCoefficients := by
  obtain ⟨layout, hlayout, hread⟩ := exists_ofText_printed_eq m compact
  rw [hread] at h
  exact (finiteCoefficients_named_iff hm).mp (Model.finiteCoefficients_of_ofText_eq_ok hlayout h)

/-- From finite coefficients an equal model is read. -/
theorem exists_ofText_printed (hfinite : m.FiniteCoefficients) (hkeeps : m.KeepsCoefficients)
    (compact : Bool) : ∃ m', Model.ofText (printed m compact) = .ok m' ∧
      m'.Restored (named m) ∧ (m' == named m) = true := by
  obtain ⟨layout, hlayout, hread⟩ := exists_ofText_printed_eq m compact
  have hnamed : (named m).FiniteCoefficients := (finiteCoefficients_named_iff hm).mpr hfinite
  have hconsistent : (named m).Consistent := Model.consistent_ofTerms _ _
  have hkeeps' : (named m).KeepsCoefficients :=
    (hm.renamed_mapLabels Variable.name_injective.injOn).keepsCoefficients hkeeps
  obtain ⟨m', htext, hrestored⟩ := hconsistent.exists_ofText_eq_ok hnamed hkeeps' hlayout
  exact ⟨m', hread.trans htext, hrestored, hrestored.beq hnamed⟩

end named

/-! ## Printing and reading -/

/-- What is printed for the model of a set, and when it can be used. -/
structure Printing (penalty : Float) (s : SetSpec) (m : Model Variable Float) : Prop where
  /-- From any text of the set, the model is printed. -/
  command (text : String) (compact : Bool) (h : SetSpec.parse text = .ok s) :
    CommandLine.runEmbed text penalty compact = .ok ⟨printed m compact, true⟩
  /-- The coefficients are finite exactly if the weights of the set are. -/
  finite_iff : m.FiniteCoefficients ↔ FiniteWeights penalty s
  /-- It is enough that the penalty, times four times the width, is within the range of doubles. -/
  finite_of_le (h : 4 * s.width * value penalty ≤ largest) : m.FiniteCoefficients
  /-- If a coefficient is not finite, and only then, the text holds `null`. -/
  holdsNull_iff : (named m).toJson.HoldsNull ↔ ¬m.FiniteCoefficients
  /-- Nothing is read from the text then. -/
  finite_of_read (compact : Bool) (m' : Model String Float)
    (h : Model.ofText (printed m compact) = .ok m') : m.FiniteCoefficients
  /-- Otherwise an equal model is read, given that the digits of each coefficient stand for it. -/
  read_of_finite (compact : Bool) (hfinite : m.FiniteCoefficients) (hkeeps : m.KeepsCoefficients) :
    ∃ m', Model.ofText (printed m compact) = .ok m' ∧ m'.Restored (named m) ∧
      (m' == named m) = true

/-- **What is printed for a set can be read exactly if its weights are finite.** -/
theorem printed_can_be_read {s : SetSpec} {penalty : Float} (hzero : s.containsZero = true)
    (hfinite : penalty.isFinite = true) (hpositive : 0 < penalty) :
    ∃ m, embed ⟨penalty⟩ s = .ok m ∧ Printing penalty s m := by
  have hembed := embed_of_accepted ⟨penalty⟩ hzero ⟨hfinite, hpositive⟩
  have hm := consistent_modelOf penalty s.width s.nonzero
  have hvalue : 0 < value penalty := by
    rw [lt_iff (isNumber_of_isFinite isFinite_zero) (isNumber_of_isFinite hfinite), value_zero]
      at hpositive
    exact hpositive
  refine ⟨_, hembed, ?_⟩
  constructor
  case command => exact fun text compact hparse => runEmbed_of_embed hparse hembed compact
  case finite_iff => exact finiteCoefficients_modelOf_iff hfinite
  case finite_of_le =>
    exact fun hbound =>
      (finiteCoefficients_modelOf_iff hfinite).mpr (.of_le hfinite hvalue hbound)
  case holdsNull_iff => exact holdsNull_named_iff hm
  case finite_of_read => exact fun _ _ => finiteCoefficients_of_ofText_printed hm
  case read_of_finite =>
    exact fun compact hcoefficients hkeeps => exists_ofText_printed hm hcoefficients hkeeps compact

/-- The model of zero and one is printed with a penalty of ten, and read back. -/
theorem zeroOrOne_can_be_read :
    (zeroOrOne.containsZero = true ∧ (10 : Float).isFinite = true ∧ (0 : Float) < 10) ∧
      ∃ m, embed ⟨10⟩ zeroOrOne = .ok m ∧ Printing 10 zeroOrOne m ∧
        ∀ compact, ∃ m', Model.ofText (printed m compact) = .ok m' ∧ (m' == named m) = true := by
  have haccepted : zeroOrOne.containsZero = true ∧ (10 : Float).isFinite = true ∧
      (0 : Float) < 10 := ⟨by decide, by decide, by decide +kernel⟩
  obtain ⟨m, hembed, hprinting⟩ :=
    printed_can_be_read haccepted.1 haccepted.2.1 haccepted.2.2
  refine ⟨haccepted, m, hembed, hprinting, ?_⟩
  intro compact
  obtain ⟨-, -, rfl⟩ := of_embed_eq_ok hembed
  have hnonzero : zeroOrOne.nonzero = [⟨[true]⟩] := by decide
  rw [hnonzero] at hprinting ⊢
  obtain ⟨m', hread, -, hequal⟩ :=
    hprinting.read_of_finite compact coefficients_zeroOrOne.1 coefficients_zeroOrOne.2
  exact ⟨m', hread, hequal⟩

/-- The set of two zeros and two ones. -/
def zeroOrBoth : SetSpec where
  width := 2
  elements := [⟨[false, false]⟩, ⟨[true, true]⟩]
  width_pos := by decide
  width_le := by decide
  width_eq := by decide

theorem value_1e308 : value 1e308 = 5010420900022432 * 2 ^ (971 : ℤ) := by
  have hbits : (1e308 : Float) = Float.ofBits 9214871658872686752 := by decide +kernel
  have hunpack : (Float.ofBits 9214871658872686752).toModel.unpack =
      .finite .positive 5010420900022432 971 (by norm_num) := rfl
  unfold value
  rw [hbits, hunpack, unpackedValue, factor, one_mul, Nat.cast_ofNat]

/-- **A penalty of `1e308` is accepted for two zeros and two ones, but what is printed cannot be
read**: three penalties are beyond the range of doubles, though half of them are not. -/
theorem zeroOrBoth_cannot_be_read :
    (zeroOrBoth.containsZero = true ∧ (1e308 : Float).isFinite = true ∧ (0 : Float) < 1e308) ∧
      reward (value 1e308) ⟨[true, true]⟩ ≤ largest ∧
      ∃ m, embed ⟨1e308⟩ zeroOrBoth = .ok m ∧ ¬m.FiniteCoefficients ∧
        (named m).toJson.HoldsNull ∧
        ∀ compact m', Model.ofText (V := String) (printed m compact) ≠ .ok m' := by
  have hfinite : (1e308 : Float).isFinite = true := by decide +kernel
  have hpositive : (0 : Float) < 1e308 := by decide +kernel
  have hzero : zeroOrBoth.containsZero = true := by decide
  have hm := consistent_modelOf (1e308 : Float) zeroOrBoth.width zeroOrBoth.nonzero
  have hexact : reward (value 1e308) ⟨[true, true]⟩ ≤ largest := by
    have hones : (⟨[true, true]⟩ : BitVector).onesCount = 2 := by decide
    have hscale := two_zpow_pos 971
    rw [reward_eq, hones, value_1e308, largest]
    generalize (2 : Rat) ^ (971 : ℤ) = p at hscale ⊢
    push_cast
    linarith
  have hoverflow : (reward (1e308 : Float) ⟨[true, true]⟩).isFinite = false := by decide +kernel
  have hnot :
      ¬(modelOf (1e308 : Float) zeroOrBoth.width zeroOrBoth.nonzero).FiniteCoefficients := by
    rw [finiteCoefficients_modelOf_iff hfinite]
    intro hweights
    rw [hweights.rewards ⟨[true, true]⟩ (by decide)] at hoverflow
    cases hoverflow
  exact ⟨⟨hzero, hfinite, hpositive⟩, hexact, _,
    embed_of_accepted ⟨1e308⟩ hzero ⟨hfinite, hpositive⟩, hnot, (holdsNull_named_iff hm).mpr hnot,
    fun compact m' hread => hnot (finiteCoefficients_of_ofText_printed hm hread)⟩

end Embedding

end SetQubo
