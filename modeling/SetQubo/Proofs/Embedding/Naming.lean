import Mathlib
import SetQubo.Proofs.BitVector.Values
import SetQubo.Proofs.Embedding.Shape
import SetQubo.Proofs.Model.RoundTrip
import SetQubo.Proofs.Solver.Renaming
/-!
# Models under display names

The model of a set can be used as it is, with its variables renamed to their display names, or
after either of the two has been written as a text and read back. No two variables have one display
name, so all of these are one model under other names, and they are solved alike.
-/

namespace SetQubo

open Model (Reachable Renamed)
open Solver (SolvedAlike solvedAlike_of_renamed)

/-! ## Display names -/

/-- **No two variables have one display name.** -/
theorem Variable.name_injective : Function.Injective Variable.name := by
  intro v w h
  match v, w with
  | .bit i, .bit j =>
    have hdigits : i.toNat.repr = j.toNat.repr := (String.append_right_inj "bit_").mp h
    rw [UInt64.toNat_inj.mp (Nat.repr_injective hdigits)]
  | .indicator x, .indicator y =>
    have htext : x.text = y.text := (String.append_right_inj "ind_").mp h
    rw [BitVector.text_inj htext]
  -- The first letter tells the kinds apart.
  | .bit i, .indicator y =>
    have hchars := congrArg String.toList h
    simp [name, String.toList_append] at hchars
  | .indicator x, .bit j =>
    have hchars := congrArg String.toList h
    simp [name, String.toList_append] at hchars

/-! ## Texts of renamed models -/

namespace Model

variable {V W : Type} [Label V] [Label W] {f : V → W} {m : Model V Float} {m' : Model W Float}

theorem Renamed.finiteCoefficients (h : m.Renamed f m') (hm : m.FiniteCoefficients) :
    m'.FiniteCoefficients := by
  constructor
  · rw [h.linear, List.forall_mem_map]
    exact hm.linear
  · rw [h.quadratic, List.forall_mem_map]
    exact hm.quadratic

theorem Renamed.keepsCoefficients (h : m.Renamed f m') (hm : m.KeepsCoefficients) :
    m'.KeepsCoefficients := by
  constructor
  · rw [h.linear, List.forall_mem_map]
    exact hm.linear
  · rw [h.quadratic, List.forall_mem_map]
    exact hm.quadratic

/-- What either text of the second model is read back as is solved as the first model is, with its
labels renamed. -/
structure TextsSolvedAlike [Json.Codec W] (f : V → W) (m : Model V Float) (m' : Model W Float) :
    Prop where
  /-- The indented text is read back as such a model. -/
  indented : ∃ m'', ofText m'.toText = .ok m'' ∧ SolvedAlike f m m''
  /-- The text on one line is read back as such a model. -/
  compact : ∃ m'', ofText m'.toCompactText = .ok m'' ∧ SolvedAlike f m m''

/-- A model under other names may also be written and read back. -/
theorem Renamed.textsSolvedAlike [Json.Codec W] [Json.Printable W] (h : m.Renamed f m')
    (hconsistent : m'.Consistent) (hfinite : m.FiniteCoefficients) (hkeeps : m.KeepsCoefficients) :
    m.TextsSolvedAlike f m' := by
  have hread : ∀ layout : Json.Layout, layout.Blank →
      ∃ m'', ofText (String.ofList (m'.toJson.write layout 0)) = .ok m'' ∧ SolvedAlike f m m'' := by
    intro layout hlayout
    obtain ⟨m'', htext, hrestored⟩ := hconsistent.exists_ofText_eq_ok
      (h.finiteCoefficients hfinite) (h.keepsCoefficients hkeeps) hlayout
    exact ⟨m'', htext, solvedAlike_of_renamed
      (h.congr hrestored.linear.toList_eq hrestored.quadratic.toList_eq)⟩
  exact ⟨hread _ Json.Layout.blank_indented, hread _ Json.Layout.blank_compact⟩

end Model

namespace Embedding

/-! ## Solving under other names -/

/-- **What its variables are called does not show when a model is solved.**

Any renaming will do that tells the labels of the model apart. Display names tell all variables
apart, so the model of a set is solved alike with its variables or with their names, and also if
either of the two has been written and read back. -/
theorem names_do_not_show :
    (∀ {V W : Type} [Label V] [Label W] (f : V → W) (m : Model V Float), Reachable m →
      Set.InjOn f {v | v ∈ m.labels} → SolvedAlike f m (m.mapLabels f)) ∧
    Function.Injective Variable.name ∧
    ∀ (set : SetSpec) (penalty : Float), set.containsZero = true → penalty.isFinite = true →
      0 < penalty → ∃ m, embed ⟨penalty⟩ set = .ok m ∧
        (m.FiniteCoefficients → m.KeepsCoefficients →
          m.TextsSolvedAlike id m ∧ SolvedAlike Variable.name m (named m) ∧
            m.TextsSolvedAlike Variable.name (named m)) := by
  refine ⟨?_, Variable.name_injective, ?_⟩
  · intro V W _ _ f m hm hf
    exact solvedAlike_of_renamed (hm.consistent.renamed_mapLabels hf)
  · intro set penalty hzero hfinite hpositive
    refine ⟨_, embed_of_accepted ⟨penalty⟩ hzero ⟨hfinite, hpositive⟩, ?_⟩
    intro hcoefficients hkeeps
    have hm : (modelOf penalty set.width set.nonzero).Consistent := consistent_modelOf _ _ _
    have hnamed := hm.renamed_mapLabels Variable.name_injective.injOn
    exact ⟨(Model.renamed_id _).textsSolvedAlike hm hcoefficients hkeeps,
      solvedAlike_of_renamed hnamed,
      hnamed.textsSolvedAlike (Model.consistent_ofTerms _ _) hcoefficients hkeeps⟩

/-! ## Zero and one -/

/-- The set of zero and one. -/
def zeroOrOne : SetSpec where
  width := 1
  elements := [⟨[false]⟩, ⟨[true]⟩]
  width_pos := by decide
  width_le := by decide
  width_eq := by decide

/-- Two labels of different lengths, and a pair against their order. -/
def lettered : Model String Float := .ofTerms [("a", 1), ("bcd", 2)] [(⟨"bcd", "a"⟩, -1)]

/-- Lengths tell the labels apart that occur, though not all texts. -/
theorem injOn_length_lettered :
    Set.InjOn (fun s : String => Int64.ofNat s.length) {v | v ∈ lettered.labels} := by
  have hlinear : lettered.linear.toList = [("a", 1), ("bcd", 2)] := Table.toList_ofList (by decide)
  have hquadratic : lettered.quadratic.toList = [(⟨"bcd", "a"⟩, -1)] :=
    Table.toList_ofList (by decide)
  have hlabels : lettered.labels = ["a", "bcd"] := by
    unfold Model.labels Model.occurrences Table.keys
    rw [hlinear, hquadratic]
    decide
  rw [hlabels]
  intro v hv w hw
  simp only [Set.mem_ofPred_eq, List.mem_cons, List.not_mem_nil, or_false] at hv hw
  rcases hv with rfl | rfl <;> rcases hw with rfl | rfl <;> decide

/-- The coefficients of zero and one are finite, and read back from their digits. -/
theorem coefficients_zeroOrOne :
    (modelOf (10 : Float) 1 [⟨[true]⟩]).FiniteCoefficients ∧
      (modelOf (10 : Float) 1 [⟨[true]⟩]).KeepsCoefficients := by
  have hlinear : (modelOf (10 : Float) 1 [⟨[true]⟩]).linear.toList =
      [(.bitAt 0, 10), (.indicator ⟨[true]⟩, 10)] := by
    show (Table.ofList [(Variable.bitAt 0, (10 : Float)), (.indicator ⟨[true]⟩, 10)]).toList = _
    exact Table.toList_ofList (by decide)
  have hquadratic : (modelOf (10 : Float) 1 [⟨[true]⟩]).quadratic.toList =
      [(⟨.bitAt 0, .indicator ⟨[true]⟩⟩, -20)] := by
    show (Table.set .empty _ (-20)).toList = _
    simp [Table.set, Table.upsert, Table.empty, Table.toList]
  have hten : Json.Number.Keeps 10 := ⟨⟨false, 10, ['0'], none⟩, by decide +kernel, rfl⟩
  have htwenty : Json.Number.Keeps (-20) := ⟨⟨true, 20, ['0'], none⟩, by decide +kernel, rfl⟩
  have hfinite : (10 : Float).isFinite = true ∧ (-20 : Float).isFinite = true := by decide
  exact ⟨⟨by simp [hlinear, hfinite], by simp [hquadratic, hfinite]⟩,
    ⟨by simp [hlinear, hten], by simp [hquadratic, htwenty]⟩⟩

theorem zeroOrOne_names_do_not_show :
    (Reachable lettered ∧
      SolvedAlike (fun s => Int64.ofNat s.length) lettered
        (lettered.mapLabels fun s => Int64.ofNat s.length)) ∧
    ∃ m, embed ⟨10⟩ zeroOrOne = .ok m ∧ (m.FiniteCoefficients ∧ m.KeepsCoefficients) ∧
      m.TextsSolvedAlike id m ∧ SolvedAlike Variable.name m (named m) ∧
        m.TextsSolvedAlike Variable.name (named m) := by
  constructor
  · have hreachable : Reachable lettered := Model.reachable_ofTerms _ _
    exact ⟨hreachable, names_do_not_show.1 _ _ hreachable injOn_length_lettered⟩
  · obtain ⟨m, hembed, hm⟩ :=
      names_do_not_show.2.2 zeroOrOne 10 (by decide) (by decide) (by decide +kernel)
    obtain ⟨-, -, rfl⟩ := of_embed_eq_ok hembed
    have hnonzero : zeroOrOne.nonzero = [⟨[true]⟩] := by decide
    rw [hnonzero] at hembed hm
    exact ⟨_, hembed, coefficients_zeroOrOne, hm coefficients_zeroOrOne.1 coefficients_zeroOrOne.2⟩

end Embedding

end SetQubo
