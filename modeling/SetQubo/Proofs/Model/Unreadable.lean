import Mathlib
import SetQubo.Proofs.Json.Null
import SetQubo.Proofs.Model.RoundTrip
/-!
# Coefficients without a number

JSON has no word for an infinity or a NaN, so the printer writes `null` in their place, and a reader
that wants a double does not take it. So the text of a model holds a number for every coefficient
exactly if all of them are finite, and otherwise nothing is read back from it, however it is laid
out.
-/

namespace SetQubo

open Json (Codec Printable Record)

/-- The form of a table holds `null` exactly if a coefficient is not finite, given that the forms of
the keys do not. -/
theorem Table.holdsNull_toJson_iff {K : Type} [Key K] [Codec K]
    (hkeys : ∀ k : K, ¬(Codec.encode k).HoldsNull) {t : Table K Float} :
    t.toJson.HoldsNull ↔ ∃ e ∈ t.toList, e.2.isFinite = false := by
  have hentry : ∀ e : K × Float,
      (Json.array [Codec.encode e.1, .ofFloat e.2]).HoldsNull ↔ e.2.isFinite = false := by
    intro e
    rw [Json.holdsNull_array_iff]
    simp [hkeys, Json.holdsNull_ofFloat_iff]
  unfold Table.toJson Json.ofList
  rw [Json.holdsNull_array_iff]
  constructor
  · rintro ⟨v, hv, hnull⟩
    obtain ⟨e, he, rfl⟩ := List.mem_map.mp hv
    exact ⟨e, he, (hentry e).mp hnull⟩
  · rintro ⟨e, he, hnot⟩
    exact ⟨_, List.mem_map_of_mem he, (hentry e).mpr hnot⟩

/-- A table that is read back has finite coefficients only. -/
theorem Table.isFinite_of_ofJson_toJson {K : Type} [Key K] [Codec K] {t u : Table K Float}
    (h : ofJson t.toJson = .ok u) : ∀ e ∈ t.toList, e.2.isFinite = true := by
  intro e he
  by_contra hnot
  have hfinite : e.2.isFinite = false := Bool.not_eq_true _ ▸ hnot
  have hitem : Json.toPair (Codec.decode (α := K)) Json.toFloat
      (.array [Codec.encode e.1, .ofFloat e.2]) = .error .unexpected := by
    simp only [Json.toPair, Codec.decode_encode, Json.toFloat_ofFloat_of_not_isFinite hfinite, bind,
      Except.bind]
  have hmem : Json.array [Codec.encode e.1, .ofFloat e.2] ∈
      t.toList.map fun e => .array [Codec.encode e.1, .ofFloat e.2] := List.mem_map_of_mem he
  obtain ⟨fault, hlist⟩ := exists_mapM_eq_error hmem hitem
  have herror : ofJson t.toJson = .error fault := congrArg (Except.map (ofList (K := K))) hlist
  rw [h] at herror
  cases herror

namespace Model

variable {V : Type} [Label V] [Codec V] {m m' : Model V Float}

/-- Both tables of a model that is read have been read. -/
theorem of_decode_record {l q : Json}
    (h : record.decode (.record [("linear", l), ("quadratic", q)]) = .ok m') :
    Table.ofJson l = .ok m'.linear ∧ Table.ofJson q = .ok m'.quadratic := by
  cases hlinear : Table.ofJson (K := V) l <;> cases hquadratic : Table.ofJson (K := Pair V) q <;>
    simp [Record.decode, Json.record, Record.members?, record, List.zipIdx, Record.strays, bind,
      Except.bind, Functor.map, Seq.seq, Record.field, hlinear, hquadratic, Record.combine, pure,
      Except.pure] at h
  subst h
  exact ⟨rfl, rfl⟩

/-- **The form of a model holds `null`** exactly if a coefficient is not finite, given that the
forms of its labels do not. -/
theorem holdsNull_toJson_iff (hlabels : ∀ v : V, ¬(Codec.encode v).HoldsNull) :
    m.toJson.HoldsNull ↔ ¬m.FiniteCoefficients := by
  have hpairs : ∀ p : Pair V, ¬(Codec.encode p).HoldsNull := by
    intro p h
    obtain ⟨v, hv, hnull⟩ := Json.holdsNull_array_iff.mp h
    rcases List.mem_cons.mp hv with rfl | hv
    · exact hlabels _ hnull
    · rw [List.mem_singleton.mp hv] at hnull
      exact hlabels _ hnull
  have htables :
      m.toJson.HoldsNull ↔ m.linear.toJson.HoldsNull ∨ m.quadratic.toJson.HoldsNull := by
    unfold toJson
    rw [Json.holdsNull_record_iff]
    simp
  rw [htables, Table.holdsNull_toJson_iff hlabels, Table.holdsNull_toJson_iff hpairs]
  constructor
  · rintro (⟨e, he, hnot⟩ | ⟨e, he, hnot⟩) hfinite
    · rw [hfinite.linear e he] at hnot
      cases hnot
    · rw [hfinite.quadratic e he] at hnot
      cases hnot
  · intro hnot
    by_contra hnone
    simp only [not_or, not_exists, not_and, Bool.not_eq_false] at hnone
    exact hnot ⟨hnone.1, hnone.2⟩

/-- **Nothing is read from the text of a model that has a coefficient which is not finite.** -/
theorem finiteCoefficients_of_ofText_eq_ok [Printable V] {layout : Json.Layout}
    (hlayout : layout.Blank)
    (h : ofText (String.ofList (m.toJson.write layout 0)) = .ok m') : m.FiniteCoefficients := by
  rw [ofText, Json.decodeText_write _ hlayout m.wellFormed_toJson] at h
  obtain ⟨hlinear, hquadratic⟩ := of_decode_record h
  exact ⟨Table.isFinite_of_ofJson_toJson hlinear, Table.isFinite_of_ofJson_toJson hquadratic⟩

end Model

end SetQubo
