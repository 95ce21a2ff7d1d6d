import Mathlib.Data.List.Nodup
import Mathlib.Data.Set.Function
import SetQubo.Proofs.BitVector.Values
import SetQubo.Proofs.Solver.Evaluation
/-!
# Every row is visited once

A prepared solver has at most 63 variables, so its masks are single digits of a 64-bit integer, and
two to the number of variables is such an integer too. Below it every integer is an assignment, and
assignments are the rows of zeros and ones, one for each: in ascending order of the integers, which
is the lexicographic order of the rows and of their written forms.

A row shows an assignment from all sides: it has the value of each variable at the number of that
variable, and the variables that are on are those with a 1 in it.
-/

namespace SetQubo

/-- The rows of zeros and ones of a length. -/
def binaryRows (length : Nat) : Set (List UInt8) :=
  {row | row.length = length ∧ ∀ b ∈ row, b = 0 ∨ b = 1}

namespace Assignment

variable {V : Type} [Label V] {a b : Assignment V} {v : V} {i : Nat}

/-! ## Values by number -/

/-- The value of a label is the one at its number. -/
theorem value_of_label (hconsistent : a.numbering.Consistent)
    (hlabel : a.numbering.labels.toList[i]? = some v) : a.value v = a.valueAt i := by
  have hindex : a.numbering.indexOf? v = some i :=
    (hconsistent v i).mpr (Array.getElem?_toList.symm.trans hlabel)
  unfold value
  rw [hindex]

/-- A label without number is off. -/
theorem value_of_notMem (hconsistent : a.numbering.Consistent)
    (hv : v ∉ a.numbering.labels.toList) : a.value v = 0 := by
  unfold value
  rw [(hconsistent.indexOf?_eq_none_iff v).mpr hv]

/-- The variables that are listed as on are those with the value 1, in the order of their
numbers. -/
theorem active_eq_filter (hconsistent : a.numbering.Consistent) :
    a.active = a.numbering.labels.toList.filter fun v => a.value v = 1 := by
  have hvalue : ∀ p ∈ a.numbering.labels.toList.zipIdx,
      decide (a.valueAt p.2 = 1) = decide (a.value p.1 = 1) := by
    rintro ⟨w, i⟩ hp
    rw [value_of_label hconsistent (List.mem_zipIdx_iff_getElem?.mp hp)]
  unfold active
  rw [List.filter_congr hvalue]
  conv_rhs => rw [← List.zipIdx_map_fst 0 a.numbering.labels.toList, List.filter_map]
  rfl

/-! ## Written forms -/

/-- The values of an assignment are those of a vector. -/
theorem exists_values_eq (hsize : a.numbering.size ≤ 64) : ∃ x : BitVector, a.values = x.values := by
  refine ⟨⟨(List.range a.numbering.size).map fun i =>
    a.encoding.toNat.testBit (a.numbering.size - 1 - i)⟩, ?_⟩
  rw [values_eq_row hsize, row, BitVector.values, List.map_map]
  rfl

/-- Written forms are ordered as the rows of values are. -/
theorem text_lt_text_iff (ha : a.numbering.size ≤ 64) (hb : b.numbering.size ≤ 64) :
    a.text < b.text ↔ a.values < b.values := by
  obtain ⟨x, hx⟩ := exists_values_eq ha
  obtain ⟨y, hy⟩ := exists_values_eq hb
  unfold text
  rw [hx, hy, rowText_values, rowText_values]
  exact BitVector.text_lt_text_iff x y

theorem values_mem_binaryRows (a : Assignment V) : a.values ∈ binaryRows a.numbering.size := by
  refine ⟨?_, ?_⟩
  · simp [values]
  · intro b hb
    obtain ⟨i, -, rfl⟩ := List.mem_map.mp hb
    unfold valueAt
    split
    · exact Or.inr rfl
    · exact Or.inl rfl

end Assignment

namespace Solver

variable {V S : Type} [Label V] {m : Model V S} {config : SolverConfig S} {s : Solver V S}

namespace Prepares

variable (h : Prepares m config s)
include h

theorem length_labels_le : s.labels.length ≤ 63 := s.length_labels.symm ▸ h.size_le

theorem mem_encodings_iff {n : UInt64} : n ∈ s.encodings ↔ n.toNat < 2 ^ s.labels.length := by
  rw [h.mem_encodings, s.length_labels]

theorem nodup_labels : s.labels.Nodup := by
  rw [h.labels_eq]
  exact nodup_eraseDups _

/-- Every row is the row of an assignment. -/
theorem exists_values_eq {row : List UInt8} (hrow : row ∈ binaryRows s.labels.length) :
    ∃ n ∈ s.encodings, (s.assignment n).values = row := by
  obtain ⟨hlength, hbinary⟩ := hrow
  -- The valuation that has the values of the row has them at the numbers of its labels.
  let x : Valuation V := fun v => row.getD (s.labels.idxOf v) 0
  have hx : m.labels.map x = row := by
    rw [← h.labels_eq]
    apply List.ext_getElem
    · rw [List.length_map, hlength]
    · intro i hi hi'
      rw [List.getElem_map]
      show row.getD (s.labels.idxOf s.labels[i]) 0 = row[i]
      rw [h.nodup_labels.idxOf_getElem, List.getD_eq_getElem _ _ hi']
  have hbinaryX : m.IsBinary x := by
    intro v hv
    apply hbinary
    rw [← hx]
    exact List.mem_map_of_mem hv
  refine ⟨s.encodingOf x, h.encodingOf_mem x, ?_⟩
  rw [h.values_eq, ← hx]
  exact List.map_congr_left fun v hv => h.value_encodingOf hbinaryX hv

/-- **Assignments are the rows, one for each.** -/
theorem values_bijOn :
    Set.BijOn (fun n => (s.assignment n).values) {n | n.toNat < 2 ^ s.labels.length}
      (binaryRows s.labels.length) := by
  refine ⟨?_, ?_, ?_⟩
  · intro n _
    rw [s.length_labels]
    exact Assignment.values_mem_binaryRows (s.assignment n)
  · intro n hn n' hn' hvalues
    apply h.encoding_inj (h.mem_encodings_iff.mpr hn) (h.mem_encodings_iff.mpr hn')
    have hmap : m.labels.map (s.assignment n).value = m.labels.map (s.assignment n').value := by
      rw [← h.values_eq, ← h.values_eq]
      exact hvalues
    exact List.map_inj_left.mp hmap
  · intro row hrow
    obtain ⟨n, hn, hvalues⟩ := h.exists_values_eq hrow
    exact ⟨n, h.mem_encodings_iff.mp hn, hvalues⟩

/-- The search visits every row once. -/
theorem count_values_levels [Scalar S] {row : List UInt8}
    (hrow : row ∈ binaryRows s.labels.length) :
    (s.levels.map fun l => (s.assignment l.1).values).count row = 1 := by
  have hvisited : (s.levels.map fun l => (s.assignment l.1).values) =
      s.encodings.map fun n => (s.assignment n).values := by
    unfold levels
    rw [List.map_map]
    rfl
  have hnodup : (s.encodings.map fun n => (s.assignment n).values).Nodup := by
    apply List.Nodup.map_on
    · intro n hn n' hn' hvalues
      exact h.values_bijOn.injOn (h.mem_encodings_iff.mp hn) (h.mem_encodings_iff.mp hn') hvalues
    · exact s.pairwise_encodings.imp fun hlt => UInt64.ne_of_lt hlt
  rw [hvisited]
  apply List.count_eq_one_of_mem hnodup
  obtain ⟨n, hn, hvalues⟩ := h.exists_values_eq hrow
  exact List.mem_map.mpr ⟨n, hn, hvalues⟩

end Prepares

/-! ## The whole enumeration -/

/-- What the assignments of a solver are. -/
structure Enumerates [Scalar S] (m : Model V S) (s : Solver V S) : Prop where
  /-- There are few enough variables to count their assignments. -/
  length_le : s.labels.length ≤ 63
  /-- Assignments are counted by shifting by less than 64, so there are two to the number of
  variables. -/
  count_eq : s.assignmentCount.toNat = 2 ^ s.labels.length
  /-- The number of every variable is below the number of variables. -/
  index_lt : ∀ v i, s.numbering.indexOf? v = some i → i < s.labels.length
  /-- The mask of a number is shifted by what is left of the variables behind it, which is less than
  64, and is that power of two. -/
  mask_eq : ∀ i < s.labels.length, ∃ shift < 64, i + 1 + shift = s.labels.length ∧
    s.numbering.mask i = 1 <<< UInt64.ofNat shift ∧ (s.numbering.mask i).toNat = 2 ^ shift
  /-- Every label of the model has the mask of its number. -/
  maskOf_eq : ∀ v ∈ m.occurrences, ∃ i, s.numbering.indexOf? v = some i ∧
    s.numbering.maskOf v = s.numbering.mask i
  /-- Assignments are the rows of zeros and ones, one for each. -/
  values_bijOn : Set.BijOn (fun n => (s.assignment n).values)
    {n | n.toNat < 2 ^ s.labels.length} (binaryRows s.labels.length)
  /-- They are ordered as the rows are, -/
  values_lt_iff : ∀ n n' : UInt64, n.toNat < 2 ^ s.labels.length → n'.toNat < 2 ^ s.labels.length →
    ((s.assignment n).values < (s.assignment n').values ↔ n < n')
  /-- and as the written forms. -/
  text_lt_iff : ∀ n n' : UInt64, n.toNat < 2 ^ s.labels.length → n'.toNat < 2 ^ s.labels.length →
    ((s.assignment n).text < (s.assignment n').text ↔ n < n')
  /-- A variable has the value at its number, which is a digit counted from the end. -/
  value_eq : ∀ (n : UInt64) (j : Nat) (v : V), s.labels[j]? = some v →
    (s.assignment n).values[j]? = some ((s.assignment n).value v) ∧
      (s.assignment n).value v =
        if n.toNat.testBit (s.labels.length - 1 - j) then 1 else 0
  /-- Any other label is off. -/
  value_unknown : ∀ (n : UInt64) (v : V), v ∉ s.labels → (s.assignment n).value v = 0
  /-- The variables that are listed as on have the value 1, and are in the order of their numbers. -/
  active_eq : ∀ n, (s.assignment n).active = s.labels.filter fun v => (s.assignment n).value v = 1
  /-- The search visits every row once. -/
  visits_once : ∀ row ∈ binaryRows s.labels.length,
    (s.levels.map fun l => (s.assignment l.1).values).count row = 1

/-- **A solver enumerates the rows of zeros and ones in order.** -/
theorem enumerates_rows [Scalar S] (hprepare : prepare m config = .ok s) : Enumerates m s := by
  have h := prepares_of_prepare hprepare
  have hsize : s.numbering.size ≤ 64 := h.size_le.trans (by decide)
  have hlength := s.length_labels
  constructor
  case length_le => exact h.length_labels_le
  case count_eq => rw [h.toNat_assignmentCount, hlength]
  case index_lt =>
    intro v i hi
    rw [hlength]
    exact h.consistent.lt_size hi
  case mask_eq =>
    intro i hi
    rw [hlength] at hi ⊢
    exact ⟨s.numbering.size - 1 - i, by omega, by omega, rfl, Numbering.toNat_mask hsize hi⟩
  case maskOf_eq =>
    intro v hv
    obtain ⟨i, hi, -⟩ := h.exists_index (Model.mem_labels_iff.mpr hv)
    refine ⟨i, hi, ?_⟩
    unfold Numbering.maskOf
    rw [hi]
  case values_bijOn => exact h.values_bijOn
  case values_lt_iff =>
    intro n n' hn hn'
    exact h.values_lt_values_iff (h.mem_encodings_iff.mpr hn) (h.mem_encodings_iff.mpr hn')
  case text_lt_iff =>
    intro n n' hn hn'
    rw [Assignment.text_lt_text_iff (a := s.assignment n) (b := s.assignment n') hsize hsize]
    exact h.values_lt_values_iff (h.mem_encodings_iff.mpr hn) (h.mem_encodings_iff.mpr hn')
  case value_eq =>
    intro n j v hv
    have hvalue := Assignment.value_of_label (a := s.assignment n) h.consistent hv
    obtain ⟨hj, -⟩ := List.getElem?_eq_some_iff.mp hv
    rw [hlength] at hj ⊢
    refine ⟨?_, ?_⟩
    · rw [h.values_eq, ← h.labels_eq, List.getElem?_map, hv]
      rfl
    · rw [hvalue, Assignment.valueAt_eq (a := s.assignment n) hsize hj]
      rfl
  case value_unknown =>
    intro n v hv
    exact Assignment.value_of_notMem (a := s.assignment n) h.consistent hv
  case active_eq =>
    intro n
    exact Assignment.active_eq_filter (a := s.assignment n) h.consistent
  case visits_once => exact fun row hrow => h.count_values_levels hrow

/-- Three variables, the last of which is seen first in a pair. -/
def threeVariables : Model String Rat := .ofTerms [("c", 1), ("a", 1)] [(⟨"b", "c"⟩, 2)]

/-- The digits of five are on at both ends, and a fourth variable is off. -/
theorem threeVariables_enumerates :
    ∃ s, prepare threeVariables (⟨16, 0, 0, false⟩ : SolverConfig Rat) = .ok s ∧
      s.labels = ["c", "a", "b"] ∧
      ((s.assignment 5).value "c" = 1 ∧ (s.assignment 5).value "a" = 0 ∧
        (s.assignment 5).value "b" = 1 ∧ (s.assignment 5).value "d" = 0) ∧
      (s.assignment 5).active = ["c", "b"] ∧ (s.assignment 3).text < (s.assignment 5).text ∧
      (s.levels.map fun l => (s.assignment l.1).values).count [1, 0, 1] = 1 := by
  have hlinear : threeVariables.linear.toList = [("c", 1), ("a", 1)] :=
    Table.toList_ofList (by simp)
  have hquadratic : threeVariables.quadratic.toList = [(⟨"b", "c"⟩, 2)] :=
    Table.toList_ofList (by simp)
  have hlabels : threeVariables.labels = ["c", "a", "b"] := by
    simp only [Model.labels, Model.occurrences, Table.keys, hlinear, hquadratic]
    decide
  obtain ⟨s, hprepare⟩ :
      ∃ s, prepare threeVariables (⟨16, 0, 0, false⟩ : SolverConfig Rat) = .ok s :=
    exists_prepare_eq_ok (by rw [hlabels]; decide)
  have hs : s.labels = ["c", "a", "b"] := (prepares_of_prepare hprepare).labels_eq.trans hlabels
  have henumerates := enumerates_rows hprepare
  have hvalue := fun j v => (henumerates.value_eq 5 j v · |>.2)
  rw [hs] at hvalue
  have hc : (s.assignment 5).value "c" = 1 := hvalue 0 "c" rfl
  have ha : (s.assignment 5).value "a" = 0 := hvalue 1 "a" rfl
  have hb : (s.assignment 5).value "b" = 1 := hvalue 2 "b" rfl
  have hd : (s.assignment 5).value "d" = 0 := henumerates.value_unknown 5 "d" (by simp [hs])
  have hactive := henumerates.active_eq 5
  have hordered := henumerates.text_lt_iff 3 5
  have hvisited := henumerates.visits_once [1, 0, 1]
  rw [hs] at hactive hordered hvisited
  refine ⟨s, hprepare, hs, ⟨hc, ha, hb, hd⟩, ?_, ?_, hvisited ⟨rfl, by simp⟩⟩
  · rw [hactive]
    simp [hc, ha, hb]
  · exact (hordered (by decide) (by decide)).mpr (by decide)

end Solver

end SetQubo
