import Mathlib.Data.List.Basic
import SetQubo.Model.Basic
/-!
# The labels of a model

The labels of a model are the keys of its linear table and the members of its pairs. An energy
depends on nothing else than which of them are on.
-/

namespace SetQubo

/-! ## Values that are off or on -/

/-- Two values that are off or on are the same if they are on together. -/
theorem eq_of_binary {a b : UInt8} (ha : a = 0 ∨ a = 1) (hb : b = 0 ∨ b = 1)
    (h : a = 1 ↔ b = 1) : a = b := by
  rcases ha with rfl | rfl
  · rcases hb with rfl | rfl
    · rfl
    · exact h.mpr rfl
  · exact (h.mp rfl).symm

namespace Model

/-! ## Labels -/

variable {V S : Type} [Label V] {m : Model V S} {x y : Valuation V}

theorem mem_labels_iff {v : V} : v ∈ m.labels ↔ v ∈ m.occurrences := List.mem_eraseDups

theorem mem_labels_of_linear {v : V} {c : S} (h : (v, c) ∈ m.linear.toList) : v ∈ m.labels :=
  mem_labels_iff.mpr (List.mem_append_left _ (List.mem_map_of_mem h))

/-- Both labels of a pair are labels of the model. -/
theorem mem_labels_of_quadratic {p : Pair V} {c : S} (h : (p, c) ∈ m.quadratic.toList) :
    p.first ∈ m.labels ∧ p.second ∈ m.labels := by
  have hkey : p ∈ m.quadratic.keys := List.mem_map_of_mem h
  have hpair : ∀ v ∈ [p.first, p.second], v ∈ m.labels := by
    intro v hv
    exact mem_labels_iff.mpr (List.mem_append_right _ (List.mem_flatMap.mpr ⟨p, hkey, hv⟩))
  exact ⟨hpair _ List.mem_cons_self, hpair _ (List.mem_cons_of_mem _ List.mem_cons_self)⟩

/-! ## Binary valuations -/

/-- Every variable of the model is off or on. -/
def IsBinary (m : Model V S) (x : Valuation V) : Prop := ∀ v ∈ m.labels, x v = 0 ∨ x v = 1

/-! ## Energies -/

/-- The energy as a sum over the entries, linear ones first. -/
theorem energy_eq_foldl [Scalar S] (m : Model V S) (x : Valuation V) :
    m.energy x =
      m.quadratic.toList.foldl (fun e t => if t.1.isOn x then e + t.2 else e)
        (m.linear.toList.foldl (fun e t => if x t.1 = 1 then e + t.2 else e) 0) := rfl

/-- The coefficients that make up the energy of a valuation, in the order in which they are
added. -/
def summands (m : Model V S) (x : Valuation V) : List S :=
  (m.linear.toList.filter fun t => x t.1 = 1).map Prod.snd ++
    (m.quadratic.toList.filter fun t => t.1.isOn x).map Prod.snd

theorem energy_eq_foldl_summands [Scalar S] (m : Model V S) (x : Valuation V) :
    m.energy x = (m.summands x).foldl (· + ·) 0 := by
  unfold summands
  rw [energy_eq_foldl, List.foldl_append, List.foldl_map, List.foldl_map, List.foldl_filter,
    List.foldl_filter]
  simp only [decide_eq_true_eq]

/-- Valuations that have the same labels on add up the same coefficients. -/
theorem summands_congr (h : ∀ v ∈ m.labels, x v = 1 ↔ y v = 1) : m.summands x = m.summands y := by
  have hlinear : ∀ t ∈ m.linear.toList, decide (x t.1 = 1) = decide (y t.1 = 1) :=
    fun t ht => decide_eq_decide.mpr (h _ (mem_labels_of_linear ht))
  have hquadratic : ∀ t ∈ m.quadratic.toList, t.1.isOn x = t.1.isOn y := by
    intro t ht
    obtain ⟨hfirst, hsecond⟩ := mem_labels_of_quadratic ht
    unfold Pair.isOn
    rw [decide_eq_decide.mpr (h _ hfirst), decide_eq_decide.mpr (h _ hsecond)]
  unfold summands
  rw [List.filter_congr hlinear, List.filter_congr hquadratic]

/-- Valuations that have the same labels on have the same energy. -/
theorem energy_congr [Scalar S] (h : ∀ v ∈ m.labels, x v = 1 ↔ y v = 1) :
    m.energy x = m.energy y := by
  rw [energy_eq_foldl_summands, summands_congr h, ← energy_eq_foldl_summands]

end Model

end SetQubo
