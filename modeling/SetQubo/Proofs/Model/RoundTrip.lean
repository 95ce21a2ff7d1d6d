import SetQubo.Proofs.FirstFailure
import SetQubo.Proofs.Json.Printable
import SetQubo.Proofs.Json.Record
import SetQubo.Proofs.Model.Consistency
import SetQubo.Solver.Search
/-!
# Models read back from their texts

A model that is made by any sequence of steps is **reachable**. Its text, on one line or indented,
reads back as a model with the same entries: in the same order, with the same coefficients and with
every pair in the orientation in which it was written. So both models have the same variables in the
same order, are solved with the same numbering, and have the same texts.

Reading adds entry after entry, so it would merge two entries with one key. That there are none is
what every step keeps (`Reachable.consistent`).
-/

namespace SetQubo

open Json (Codec Printable Record)

namespace Model

/-! ## Reachable models -/

/-- The models that the steps make, over labels of any types. -/
inductive Reachable : {V : Type} → [Label V] → Model V Float → Prop where
  | empty {V : Type} [Label V] : Reachable (Model.empty : Model V Float)
  | addLinear {V : Type} [Label V] {m : Model V Float} (h : Reachable m) (v : V) (c : Float) :
    Reachable (m.addLinear v c)
  | setLinear {V : Type} [Label V] {m : Model V Float} (h : Reachable m) (v : V) (c : Float) :
    Reachable (m.setLinear v c)
  | addQuadratic {V : Type} [Label V] {m : Model V Float} (h : Reachable m) (a b : V) (c : Float) :
    Reachable (m.addQuadratic a b c)
  | setQuadratic {V : Type} [Label V] {m : Model V Float} (h : Reachable m) (a b : V) (c : Float) :
    Reachable (m.setQuadratic a b c)
  | mapLabels {V W : Type} [Label V] [Label W] {m : Model V Float} (h : Reachable m) (f : V → W) :
    Reachable (m.mapLabels f)
  | ofText {V : Type} [Label V] [Codec V] {text : String} {m : Model V Float}
    (h : Model.ofText text = .ok m) : Reachable m

variable {V : Type} [Label V]

/-- What is read as a table is the table of a list of entries. -/
theorem exists_ofList_of_ofJson {K : Type} [Key K] [Codec K] {json : Json} {t : Table K Float}
    (h : Table.ofJson json = .ok t) : ∃ es, t = .ofList es := by
  unfold Table.ofJson at h
  cases hes : Json.toList (Json.toPair (Codec.decode (α := K)) Json.toFloat) json with
  | error fault =>
    rw [hes] at h
    cases h
  | ok es =>
    rw [hes] at h
    exact ⟨es, (Except.ok.inj h).symm⟩

/-- What is read as a model is the model of two lists of entries. -/
theorem exists_ofTerms_of_ofText [Codec V] {text : String} {m : Model V Float}
    (h : ofText text = .ok m) : ∃ linear quadratic, m = ofTerms linear quadratic := by
  obtain ⟨_, hjson⟩ := Json.exists_of_decodeText_eq_ok h
  obtain ⟨_, hread⟩ := Record.exists_of_decode_eq_ok hjson
  -- A model is made from two fields, one after the other.
  obtain ⟨build, quadratic, hbuild, hquadratic, rfl⟩ := Record.combine_eq_ok hread
  obtain ⟨_, linear, hmk, hlinear, rfl⟩ := Record.combine_eq_ok hbuild
  obtain rfl := Except.ok.inj hmk
  obtain ⟨_, hlinear⟩ := Record.exists_of_field_eq_ok hlinear
  obtain ⟨_, hquadratic⟩ := Record.exists_of_field_eq_ok hquadratic
  obtain ⟨_, rfl⟩ := exists_ofList_of_ofJson hlinear
  obtain ⟨_, rfl⟩ := exists_ofList_of_ofJson hquadratic
  exact ⟨_, _, rfl⟩

/-- Every step keeps index and entries in step. -/
theorem Reachable.consistent {m : Model V Float} (h : Reachable m) : m.Consistent := by
  induction h with
  | empty => exact consistent_empty
  | addLinear _ v c ih => exact ih.addLinear v c
  | setLinear _ v c ih => exact ih.setLinear v c
  | addQuadratic _ a b c ih => exact ih.addQuadratic a b c
  | setQuadratic _ a b c ih => exact ih.setQuadratic a b c
  | mapLabels _ f _ => exact consistent_ofTerms _ _
  | ofText h =>
    obtain ⟨_, _, rfl⟩ := exists_ofTerms_of_ofText h
    exact consistent_ofTerms _ _

end Model

/-! ## Tables -/

namespace Table

variable {K : Type} [Key K] [Codec K] {t : Table K Float}

theorem wellFormed_toJson [Printable K] (t : Table K Float) : t.toJson.WellFormed := by
  apply Json.wellFormed_ofList
  intro e _
  apply Json.WellFormed.array
  simp [Printable.wellFormed_encode, Json.wellFormed_ofFloat]

omit [Key K] in
/-- Entries are read back one by one. -/
theorem mapM_toPair {es : List (K × Float)} (hfinite : ∀ e ∈ es, e.2.isFinite = true)
    (hkeeps : ∀ e ∈ es, Json.Number.Keeps e.2) :
    (es.map fun e => Json.array [Codec.encode e.1, .ofFloat e.2]).mapM
      (Json.toPair Codec.decode Json.toFloat) = Except.ok es := by
  rw [mapM_eq_ok_iff, List.forall₂_map_left_iff, List.forall₂_same]
  intro e he
  have hread := Json.toFloat_ofFloat (hfinite e he) (hkeeps e he)
  simp only [Json.toPair, Codec.decode_encode, hread, bind, Except.bind, pure, Except.pure, if_true]

/-- Reading the form of a table adds its entries up again. -/
theorem ofJson_toJson (hfinite : ∀ e ∈ t.toList, e.2.isFinite = true)
    (hkeeps : ∀ e ∈ t.toList, Json.Number.Keeps e.2) :
    ofJson t.toJson = .ok (ofList t.toList) :=
  congrArg (Except.map ofList) (mapM_toPair hfinite hkeeps)

end Table

/-! ## Texts -/

namespace Model

variable {V : Type} [Label V]

/-- Every coefficient of the model reads back from its digits. -/
structure KeepsCoefficients (m : Model V Float) : Prop where
  /-- The coefficients of single variables read back. -/
  linear : ∀ t ∈ m.linear.toList, Json.Number.Keeps t.2
  /-- The coefficients of pairs read back. -/
  quadratic : ∀ t ∈ m.quadratic.toList, Json.Number.Keeps t.2

/-- The first model is the second one over again, as far as anything done with them can show. -/
structure Restored [Codec V] (m' m : Model V Float) : Prop where
  /-- The coefficients of single variables are the same, in the same order. -/
  linear : m'.linear.Same m.linear
  /-- The coefficients of pairs are the same, in the same order and orientation. -/
  quadratic : m'.quadratic.Same m.quadratic
  /-- The variables come in the same order. -/
  labels : m'.labels = m.labels
  /-- The solver numbers the variables alike and tests the same digits for each term. -/
  prepare (config : SolverConfig Float) : Solver.prepare m' config = Solver.prepare m config
  /-- The indented texts are the same. -/
  toText : m'.toText = m.toText
  /-- The texts on one line are the same. -/
  toCompactText : m'.toCompactText = m.toCompactText

variable [Codec V] {m : Model V Float}

/-- Tables that are the same make up models that nothing tells apart. -/
theorem restored_of_same {m' : Model V Float} (hlinear : m'.linear.Same m.linear)
    (hquadratic : m'.quadratic.Same m.quadratic) : m'.Restored m := by
  have hentries := hlinear.toList_eq
  have hpairs := hquadratic.toList_eq
  have hoccurrences : m'.occurrences = m.occurrences := by
    simp only [occurrences, Table.keys, hentries, hpairs]
  have hjson : m'.toJson = m.toJson := by
    simp only [toJson, Table.toJson, hentries, hpairs]
  constructor
  case linear => exact hlinear
  case quadratic => exact hquadratic
  case labels => rw [Model.labels, hoccurrences, Model.labels]
  case prepare =>
    intro config
    simp only [Solver.prepare, hoccurrences, hentries, hpairs]
  case toText => rw [Model.toText, hjson, Model.toText]
  case toCompactText => rw [Model.toCompactText, hjson, Model.toCompactText]

theorem wellFormed_toJson [Printable V] (m : Model V Float) : m.toJson.WellFormed := by
  apply Json.wellFormed_record
  simp [Table.wellFormed_toJson]

/-- A model is read from the forms of its tables. -/
theorem decode_record {l q : Json} {linear : Table V Float} {quadratic : Table (Pair V) Float}
    (hlinear : Table.ofJson l = .ok linear) (hquadratic : Table.ofJson q = .ok quadratic) :
    record.decode (.record [("linear", l), ("quadratic", q)]) =
      .ok (⟨linear, quadratic⟩ : Model V Float) := by
  simp [Record.decode, Json.record, Record.members?, record, List.zipIdx, Record.strays, bind,
    Except.bind, Functor.map, Seq.seq, Record.field, hlinear, hquadratic, Record.combine, pure,
    Except.pure]

/-- Every text of a consistent model reads back as the model. -/
theorem Consistent.exists_ofText_eq_ok [Printable V] (h : m.Consistent)
    (hfinite : m.FiniteCoefficients) (hkeeps : m.KeepsCoefficients) {layout : Json.Layout}
    (hlayout : layout.Blank) :
    ∃ m', ofText (String.ofList (m.toJson.write layout 0)) = .ok m' ∧ m'.Restored m := by
  refine ⟨⟨.ofList m.linear.toList, .ofList m.quadratic.toList⟩, ?_,
    restored_of_same h.linear.same_ofList_toList h.quadratic.same_ofList_toList⟩
  rw [ofText, Json.decodeText_write _ hlayout m.wellFormed_toJson]
  exact decode_record (Table.ofJson_toJson hfinite.linear hkeeps.linear)
    (Table.ofJson_toJson hfinite.quadratic hkeeps.quadratic)

/-- **A reachable model is read back from both of its texts.** -/
theorem texts_restore [Printable V] (h : Reachable m) (hfinite : m.FiniteCoefficients)
    (hkeeps : m.KeepsCoefficients) :
    (∃ m', ofText m.toText = .ok m' ∧ Restored m' m) ∧
      ∃ m', ofText m.toCompactText = .ok m' ∧ Restored m' m :=
  ⟨h.consistent.exists_ofText_eq_ok hfinite hkeeps Json.Layout.blank_indented,
    h.consistent.exists_ofText_eq_ok hfinite hkeeps Json.Layout.blank_compact⟩

/-! ## A model with reversed pairs, signed zeros and labels to escape -/

/-- Builders and renamings add lists of terms, which is as good as adding them one by one. -/
theorem reachable_ofTerms {V : Type} [Label V] (linear : List (V × Float))
    (quadratic : List (Pair V × Float)) : Reachable (ofTerms linear quadratic) := by
  have hlinear : ∀ (es : List (V × Float)) (m : Model V Float), Reachable m →
      Reachable ⟨m.linear.addAll es, m.quadratic⟩ := by
    intro es
    induction es with
    | nil => exact fun m h => h
    | cons e es ih => exact fun m h => ih _ (h.addLinear e.1 e.2)
  have hquadratic : ∀ (es : List (Pair V × Float)) (m : Model V Float), Reachable m →
      Reachable ⟨m.linear, m.quadratic.addAll es⟩ := by
    intro es
    induction es with
    | nil => exact fun m h => h
    | cons e es ih => exact fun m h => ih _ (h.addQuadratic e.1.first e.1.second e.2)
  exact hquadratic quadratic _ (hlinear linear _ .empty)

/-- Two labels with characters to escape, and a pair against their order. -/
def quoted : Model String Float :=
  .ofTerms [("b\n", 0.1), ("\"a", -0.0)] [(⟨"\u0001", "\"a"⟩, -1e22)]

theorem texts_restore_quoted :
    (Reachable quoted ∧ quoted.FiniteCoefficients ∧ quoted.KeepsCoefficients) ∧
      (∃ m', ofText quoted.toText = .ok m' ∧ Restored m' quoted) ∧
        ∃ m', ofText quoted.toCompactText = .ok m' ∧ Restored m' quoted := by
  have hlinear : quoted.linear.toList = [("b\n", 0.1), ("\"a", -0.0)] :=
    Table.toList_ofList (by decide)
  have hquadratic : quoted.quadratic.toList = [(⟨"\u0001", "\"a"⟩, -1e22)] :=
    Table.toList_ofList (by decide)
  have hreachable : Reachable quoted := reachable_ofTerms _ _
  have hfinite : quoted.FiniteCoefficients := by
    constructor
    · rw [hlinear]
      intro t ht
      simp at ht
      rcases ht with rfl | rfl
      all_goals decide
    · rw [hquadratic]
      intro t ht
      simp at ht
      subst ht
      decide
  have hkeeps : quoted.KeepsCoefficients := by
    constructor
    · rw [hlinear]
      intro t ht
      simp at ht
      rcases ht with rfl | rfl
      · exact ⟨⟨false, 0, ['1'], none⟩, by decide +kernel, rfl⟩
      · exact ⟨⟨true, 0, ['0'], none⟩, by decide +kernel, rfl⟩
    · rw [hquadratic]
      intro t ht
      simp at ht
      subst ht
      exact ⟨⟨true, 1, [], some 22⟩, by decide +kernel, rfl⟩
  exact ⟨⟨hreachable, hfinite, hkeeps⟩, texts_restore hreachable hfinite hkeeps⟩

end Model

end SetQubo
