import Mathlib.Data.Finset.Card
import Mathlib.Data.List.Sort
import Mathlib.Data.String.Basic
import SetQubo.Proofs.BitVector.Encoding
import SetQubo.Proofs.BitVector.Ones
import SetQubo.Proofs.BitVector.Values
import SetQubo.Proofs.FirstOccurrences
import SetQubo.SetSpec.Basic
/-!
# The distinct elements of a set

Elements are told apart by their encodings, which do so because all of them have the width of the
set. So the first occurrences by encoding are the first occurrences, the indicators of an embedding
belong to elements that are pairwise different, and reading back the encodings in ascending order
gives each element once.
-/

namespace SetQubo

namespace SetSpec

variable {s : SetSpec} {x y : BitVector}

/-! ## Elements -/

theorem width_le_of_mem (hx : x ∈ s.elements) : x.width ≤ BitVector.maxWidth :=
  s.width_eq x hx ▸ s.width_le

/-- Elements of one set have the same encoding only if they are the same. -/
theorem encode_inj_of_mem (hx : x ∈ s.elements) (hy : y ∈ s.elements)
    (h : x.encode = y.encode) : x = y :=
  BitVector.encode_inj ((s.width_eq x hx).trans (s.width_eq y hy).symm) (width_le_of_mem hx) h

/-- An element is what its encoding gives back at the width of the set. -/
theorem decode_encode_of_mem (hx : x ∈ s.elements) :
    BitVector.decode x.encode s.width = x := by
  rw [← s.width_eq x hx]
  exact BitVector.decode_encode x (width_le_of_mem hx)

/-- The zero vector that a set may contain is the one of the set's width. -/
theorem containsZero_iff : s.containsZero = true ↔ BitVector.zeros s.width ∈ s.elements := by
  unfold containsZero
  rw [List.any_eq_true]
  constructor
  · intro hany
    obtain ⟨x, hx, hzero⟩ := hany
    rw [BitVector.isZero_iff, s.width_eq x hx] at hzero
    exact hzero ▸ hx
  · intro h
    exact ⟨_, h, BitVector.isZero_zeros _⟩

/-! ## First occurrences -/

/-- Told apart by their encodings, the elements have the same first occurrences. -/
theorem distinct_eq_eraseDups (s : SetSpec) : s.distinct = s.elements.eraseDups := by
  apply eraseDupsBy_eq_eraseDups
  intro x hx y hy
  rw [Bool.eq_iff_iff, beq_iff_eq, beq_iff_eq]
  exact ⟨encode_inj_of_mem hx hy, congrArg BitVector.encode⟩

theorem mem_distinct : x ∈ s.distinct ↔ x ∈ s.elements := by
  rw [distinct_eq_eraseDups, List.mem_eraseDups]

theorem nodup_distinct (s : SetSpec) : s.distinct.Nodup := by
  rw [distinct_eq_eraseDups]
  exact nodup_eraseDups _

theorem mem_nonzero : x ∈ s.nonzero ↔ x ∈ s.elements ∧ x.isZero = false := by
  unfold nonzero
  rw [List.mem_filter, mem_distinct, Bool.not_eq_true']

theorem nodup_nonzero (s : SetSpec) : s.nonzero.Nodup :=
  (nodup_distinct s).filter _

theorem width_of_mem_nonzero (hx : x ∈ s.nonzero) : x.width = s.width :=
  s.width_eq x (mem_nonzero.mp hx).1

theorem onesCount_pos_of_mem_nonzero (hx : x ∈ s.nonzero) : 0 < x.onesCount :=
  (BitVector.onesCount_pos_iff x).mpr (mem_nonzero.mp hx).2

/-- The elements other than zero, each where it occurs first. -/
def others (s : SetSpec) : List BitVector := s.elements.eraseDups.filter fun x => x ≠ .zeros s.width

/-- No encodings are needed to say which elements are distinct and other than zero. -/
theorem nonzero_eq_others (s : SetSpec) : s.nonzero = s.others := by
  unfold nonzero others
  rw [distinct_eq_eraseDups]
  apply List.filter_congr
  intro x hx
  have hwidth := s.width_eq x (List.mem_eraseDups.mp hx)
  rw [Bool.eq_iff_iff, Bool.not_eq_true', ← Bool.not_eq_true, BitVector.isZero_iff, hwidth]
  simp

/-! ## Ascending encodings -/

theorem mem_encodings {n : UInt64} : n ∈ s.encodings ↔ ∃ x ∈ s.elements, x.encode = n := by
  unfold encodings
  rw [mem_ascending, List.mem_map]

theorem pairwise_encodings (s : SetSpec) : s.encodings.Pairwise (· < ·) :=
  pairwise_ascending _

/-- Reading an encoding of the set back gives the element that has it. -/
theorem encode_decode_of_mem {n : UInt64} (hn : n ∈ s.encodings) :
    BitVector.decode n s.width ∈ s.elements ∧ (BitVector.decode n s.width).encode = n := by
  obtain ⟨x, hx, rfl⟩ := mem_encodings.mp hn
  rw [decode_encode_of_mem hx]
  exact ⟨hx, rfl⟩

/-- The distinct elements, ascending by encoding. -/
def byEncoding (s : SetSpec) : List BitVector :=
  s.encodings.map fun n => BitVector.decode n s.width

theorem mem_byEncoding : x ∈ s.byEncoding ↔ x ∈ s.elements := by
  unfold byEncoding
  rw [List.mem_map]
  constructor
  · intro hread
    obtain ⟨n, hn, rfl⟩ := hread
    exact (encode_decode_of_mem hn).1
  · intro hx
    exact ⟨x.encode, mem_encodings.mpr ⟨x, hx, rfl⟩, decode_encode_of_mem hx⟩

/-- Ascending encodings of a set are read back as elements with ascending encodings. -/
theorem pairwise_map_decode {ns : List UInt64} (hns : ns.Pairwise (· < ·))
    (hmem : ∀ n ∈ ns, n ∈ s.encodings) :
    (ns.map fun n => BitVector.decode n s.width).Pairwise fun x y => x.encode < y.encode := by
  rw [List.pairwise_map]
  apply hns.imp_of_mem
  intro m n hm hn hlt
  rw [(encode_decode_of_mem (hmem m hm)).2, (encode_decode_of_mem (hmem n hn)).2]
  exact hlt

theorem pairwise_byEncoding (s : SetSpec) :
    s.byEncoding.Pairwise fun x y => x.encode < y.encode :=
  pairwise_map_decode s.pairwise_encodings fun _ hn => hn

theorem nodup_byEncoding (s : SetSpec) : s.byEncoding.Nodup := by
  apply s.pairwise_byEncoding.imp
  rintro x y hlt rfl
  exact UInt64.lt_irrefl _ hlt

theorem length_byEncoding (s : SetSpec) : s.byEncoding.length = s.distinctCount :=
  List.length_map _

/-- There are as many first occurrences as encodings. -/
theorem length_distinct (s : SetSpec) : s.distinct.length = s.distinctCount := by
  have hperm : s.distinct.Perm s.byEncoding := by
    apply (List.perm_ext_iff_of_nodup s.nodup_distinct s.nodup_byEncoding).mpr
    intro x
    rw [mem_distinct, mem_byEncoding]
  rw [hperm.length_eq, length_byEncoding]

/-! ## Written forms in order -/

theorem mem_elementTexts {t : String} : t ∈ s.elementTexts ↔ ∃ x ∈ s.elements, x.text = t := by
  unfold elementTexts
  rw [List.mem_mergeSort, List.mem_eraseDups, List.mem_map]

/-- The written forms are strictly ascending. -/
theorem pairwise_elementTexts (s : SetSpec) : s.elementTexts.Pairwise (· < ·) := by
  have hsorted : s.elementTexts.Pairwise (· ≤ ·) :=
    List.pairwise_mergeSort' (· ≤ ·) (s.elements.map BitVector.text).eraseDups
  have hnodup : s.elementTexts.Nodup :=
    (List.mergeSort_perm _ _).nodup_iff.mpr (nodup_eraseDups _)
  -- Sorting orders them, and none occurs twice.
  apply (hsorted.and hnodup).imp
  rintro t u ⟨hle, hne⟩
  exact lt_of_le_of_ne hle hne

/-- There are as many written forms as distinct elements. -/
theorem length_elementTexts (s : SetSpec) : s.elementTexts.length = s.distinctCount := by
  have hnodup : (s.byEncoding.map BitVector.text).Nodup :=
    s.nodup_byEncoding.map fun _ _ h => BitVector.text_inj h
  have hperm : s.elementTexts.Perm (s.byEncoding.map BitVector.text) := by
    apply (List.perm_ext_iff_of_nodup (s.pairwise_elementTexts.imp ne_of_lt) hnodup).mpr
    intro t
    rw [mem_elementTexts, List.mem_map]
    simp only [mem_byEncoding]
  rw [hperm.length_eq, List.length_map, length_byEncoding]

/-! ## A set to look at -/

/-- The truth table of exclusive or, which contains zero. -/
def exclusiveOr : SetSpec where
  width := 3
  elements := [⟨[false, false, false]⟩, ⟨[true, true, false]⟩, ⟨[true, false, true]⟩,
    ⟨[false, true, true]⟩]
  width_pos := by decide
  width_le := by decide
  width_eq := by decide

end SetSpec

end SetQubo
