import Mathlib
import SetQubo.Proofs.Model.Energy
import SetQubo.Proofs.Table.Merging
/-!
# Renamings that merge variables

A renaming may give one name to several variables. Then terms come to be the same and are added up:
variables with one name, pairs with the same two names, also if one was written the other way round,
and a pair whose labels both have one name becomes that name paired with itself.

In exact arithmetic nothing is lost by this. A valuation of the names has the energy that it has as
a valuation of the labels, each of which takes the value of its name. And two renamings, one after
the other, are one: the entries come out in the same order, with the same coefficients, and pairs
in the same orientation, although the first renaming may have merged what the second one would.
-/

namespace SetQubo

variable {V W : Type} [Label V] [Label W] (f : V → W)

/-- Pairs that are one have images that are one. -/
theorem Pair.map_beq_map {p q : Pair V} (h : (p == q) = true) : (p.map f == q.map f) = true := by
  rw [Pair.beq_iff] at h ⊢
  rcases h with rfl | rfl
  · exact Or.inl rfl
  · exact Or.inr rfl

namespace Model

/-- **A valuation of the names is read through the renaming.** -/
theorem energy_mapLabels (m : Model V Rat) (s : Valuation W) :
    (m.mapLabels f).energy s = m.energy fun v => s (f v) := by
  rw [energy_eq_total, energy_eq_total]
  show (Table.ofList (m.linear.toList.map fun e => (f e.1, e.2))).total _ +
    (Table.ofList (m.quadratic.toList.map fun e => (e.1.map f, e.2))).total _ = _
  rw [Table.total_ofList (decide_on_congr s), Table.total_ofList fun _ _ hk => Pair.isOn_congr hk s,
    List.map_map, List.map_map]
  -- A term is on under its name exactly if it is on.
  rfl

/-- **One renaming after another is one renaming.** -/
theorem mapLabels_mapLabels {U : Type} [Label U] (g : W → U) (m : Model V Rat) :
    (m.mapLabels f).mapLabels g = m.mapLabels (g ∘ f) := by
  have hlinear := Table.ofList_map_ofList (f := g)
    (fun _ _ h => beq_of_eq (congrArg g (LawfulBEq.eq_of_beq h)))
    (m.linear.toList.map fun e => (f e.1, e.2))
  have hquadratic := Table.ofList_map_ofList (f := Pair.map g) (fun _ _ h => Pair.map_beq_map g h)
    (m.quadratic.toList.map fun e => (e.1.map f, e.2))
  rw [List.map_map] at hlinear hquadratic
  exact congrArg₂ Model.mk hlinear hquadratic

/-- **Renamings that merge variables lose nothing.** Whatever labels come to have one name, a
valuation of the names has the energy of the valuation of the labels that goes through them. And
renaming the result once more gives the very model, with its entries in their order and its pairs
as they are written, that a single renaming by both gives. -/
theorem renamings_lose_nothing (m : Model V Rat) :
    (∀ s : Valuation W, (m.mapLabels f).energy s = m.energy fun v => s (f v)) ∧
      ∀ {U : Type} [Label U] (g : W → U), (m.mapLabels f).mapLabels g = m.mapLabels (g ∘ f) :=
  ⟨m.energy_mapLabels f, fun g => m.mapLabels_mapLabels f g⟩

end Model

end SetQubo
