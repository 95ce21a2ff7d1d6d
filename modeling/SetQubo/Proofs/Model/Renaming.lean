import SetQubo.Proofs.FirstOccurrences
import SetQubo.Proofs.Model.Consistency
import SetQubo.Proofs.Model.Labels
import SetQubo.Proofs.Pair
/-!
# Renaming the variables of a model

A model is renamed by adding up its entries again under the new labels, so entries could come to
share a key. If different labels get different names they do not: every entry stays where it is,
with its coefficient, and a pair keeps its orientation. The names need to differ for the labels of
the model only.
-/

namespace SetQubo

variable {V W : Type} [Label V] [Label W] {f : V → W}

/-- Where a renaming tells labels apart, it makes one key only of pairs that were one. -/
theorem Pair.beq_of_map_beq {L : Set V} (hf : Set.InjOn f L) {p q : Pair V}
    (hp : p.first ∈ L ∧ p.second ∈ L) (hq : q.first ∈ L ∧ q.second ∈ L)
    (h : (p.map f == q.map f) = true) : (p == q) = true := by
  rw [Pair.beq_iff] at h ⊢
  cases p
  cases q
  simp only [Pair.map, Pair.swap, Pair.mk.injEq] at h ⊢
  rcases h with ⟨hfirst, hsecond⟩ | ⟨hfirst, hsecond⟩
  · exact Or.inl ⟨hf hp.1 hq.1 hfirst, hf hp.2 hq.2 hsecond⟩
  · exact Or.inr ⟨hf hp.1 hq.2 hfirst, hf hp.2 hq.1 hsecond⟩

namespace Model

variable {S : Type} {m : Model V S} {m' m'' : Model W S}

/-- The second model is the first one under other names. -/
structure Renamed (f : V → W) (m : Model V S) (m' : Model W S) : Prop where
  /-- Different labels have different names. -/
  injOn : Set.InjOn f {v | v ∈ m.labels}
  /-- The linear entries are the same, in the same order. -/
  linear : m'.linear.toList = m.linear.toList.map fun e => (f e.1, e.2)
  /-- The quadratic entries are the same, in the same order and orientation. -/
  quadratic : m'.quadratic.toList = m.quadratic.toList.map fun e => (e.1.map f, e.2)

/-- **Renaming with different names moves and merges nothing.** -/
theorem Consistent.renamed_mapLabels [Add S] (h : m.Consistent)
    (hf : Set.InjOn f {v | v ∈ m.labels}) : m.Renamed f (m.mapLabels f) := by
  constructor
  case injOn => exact hf
  case linear =>
    apply h.linear.toList_ofList_map
    intro v hv w hw hvw
    have hmem : ∀ u ∈ m.linear.keys, u ∈ m.labels :=
      fun u hu => mem_labels_iff.mpr (List.mem_append_left _ hu)
    rw [hf (hmem v hv) (hmem w hw) (LawfulBEq.eq_of_beq hvw)]
    exact BEq.rfl
  case quadratic =>
    apply h.quadratic.toList_ofList_map
    intro p hp q hq hpq
    obtain ⟨e, he, rfl⟩ := List.mem_map.mp hp
    obtain ⟨e', he', rfl⟩ := List.mem_map.mp hq
    exact Pair.beq_of_map_beq hf (mem_labels_of_quadratic he) (mem_labels_of_quadratic he') hpq

namespace Renamed

variable (h : m.Renamed f m')
include h

/-- The names occur where the labels do. -/
theorem occurrences_eq : m'.occurrences = m.occurrences.map f := by
  unfold occurrences Table.keys
  rw [h.linear, h.quadratic]
  simp [List.flatMap_map, List.map_flatMap, Function.comp_def, Pair.map]

/-- The names are first seen in the order in which the labels are. -/
theorem labels_eq : m'.labels = m.labels.map f := by
  unfold labels
  rw [h.occurrences_eq, eraseDups_map_of_injOn]
  exact h.injOn.mono fun v hv => mem_labels_iff.mpr hv

/-- A model with the same entries is the first one under other names, too. -/
theorem congr (hlinear : m''.linear.toList = m'.linear.toList)
    (hquadratic : m''.quadratic.toList = m'.quadratic.toList) : m.Renamed f m'' :=
  ⟨h.injOn, hlinear.trans h.linear, hquadratic.trans h.quadratic⟩

end Renamed

theorem renamed_id (m : Model V S) : m.Renamed id m := by
  constructor
  case injOn => exact Function.injective_id.injOn
  case linear => exact (List.map_id _).symm
  case quadratic => exact (List.map_id _).symm

end Model

end SetQubo
