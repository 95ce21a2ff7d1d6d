import Mathlib.Data.Set.Function
import SetQubo.Proofs.SetSpec.Distinct
/-!
# The views of a set

Besides the elements as given, a set shows their encodings, their first occurrences, those other than
zero, and their written forms. Repetitions are taken out of each of these in a way of its own: by
encoding in ascending order, by encoding in the order given, by text. An encoding has as many digits
as a set may have bits, so all of them tell the elements apart as equality does, and the views show
one set: `ViewsAgree` says what each of them holds in terms of the elements alone.
-/

namespace SetQubo

namespace SetSpec

variable {s : SetSpec}

/-! ## Membership and encodings -/

/-- Membership by width and encoding is membership, also of vectors that are too wide. -/
theorem contains_iff (s : SetSpec) (x : BitVector) : s.contains x = true ↔ x ∈ s.elements := by
  unfold contains
  rw [Bool.and_eq_true, decide_eq_true_iff, List.contains_iff_mem, mem_encodings]
  constructor
  · rintro ⟨hwidth, y, hy, hencode⟩
    have hsame : y.width = x.width := (s.width_eq y hy).trans hwidth.symm
    exact BitVector.encode_inj hsame (width_le_of_mem hy) hencode ▸ hy
  · intro hx
    exact ⟨s.width_eq x hx, x, hx, rfl⟩

/-- Reading back at the width of the set pairs the encodings with the distinct elements. -/
theorem decode_bijOn (s : SetSpec) :
    Set.BijOn (fun n => BitVector.decode n s.width) {n | n ∈ s.encodings} {x | x ∈ s.distinct} := by
  refine ⟨?_, ?_, ?_⟩
  · intro n hn
    exact mem_distinct.mpr (encode_decode_of_mem hn).1
  · -- An encoding is that of the element which is read back from it.
    intro m hm n hn hread
    rw [← (encode_decode_of_mem hm).2, ← (encode_decode_of_mem hn).2]
    exact congrArg BitVector.encode hread
  · intro x hx
    have hmem := mem_distinct.mp hx
    exact ⟨x.encode, mem_encodings.mpr ⟨x, hmem, rfl⟩, decode_encode_of_mem hmem⟩

/-! ## The zero vector -/

theorem nonzero_eq_filter (s : SetSpec) : s.nonzero = s.distinct.filter (· ≠ .zeros s.width) := by
  rw [nonzero_eq_others, others, distinct_eq_eraseDups]

theorem containsZero_iff_zero_mem_encodings : s.containsZero = true ↔ 0 ∈ s.encodings := by
  rw [containsZero_iff, mem_encodings]
  constructor
  · intro hzero
    exact ⟨_, hzero, BitVector.encode_zeros _⟩
  · rintro ⟨x, hx, hencode⟩
    have hzero : x.encode = (BitVector.zeros s.width).encode := by
      rw [hencode, BitVector.encode_zeros]
    have hwidth : x.width = (BitVector.zeros s.width).width := by
      rw [s.width_eq x hx, BitVector.width_zeros]
    exact BitVector.encode_inj hwidth (width_le_of_mem hx) hzero ▸ hx

/-- Leaving out the zero vector leaves out one distinct element, if it is there. -/
theorem containsZero_iff_length :
    s.containsZero = true ↔ s.distinct.length = s.nonzero.length + 1 := by
  have herase : s.nonzero = s.distinct.erase (.zeros s.width) := by
    rw [nonzero_eq_filter, s.nodup_distinct.erase_eq_filter]
    apply List.filter_congr
    intro x _
    rw [Bool.eq_iff_iff, decide_eq_true_iff, bne_iff_ne]
  rw [containsZero_iff, ← mem_distinct, herase, List.length_erase]
  by_cases hzero : .zeros s.width ∈ s.distinct
  · have hpos := List.length_pos_of_mem hzero
    simp only [hzero, if_true, true_iff]
    omega
  · simp [hzero]

/-! ## All views -/

/-- Every view holds what the elements say. -/
structure ViewsAgree (s : SetSpec) : Prop where
  /-- A vector of any width is contained if it is an element. -/
  contains_iff : ∀ x, s.contains x = true ↔ x ∈ s.elements
  /-- The encodings are those of the elements. -/
  mem_encodings_iff : ∀ n, n ∈ s.encodings ↔ ∃ x ∈ s.elements, x.encode = n
  /-- They are listed in ascending order, and so without repetition. -/
  encodings_ascending : s.encodings.Pairwise (· < ·)
  /-- Read back at the width of the set, they give the distinct elements one to one. -/
  decode_bijOn : Set.BijOn (fun n => BitVector.decode n s.width) {n | n ∈ s.encodings}
    {x | x ∈ s.distinct}
  /-- The distinct elements are the first occurrences, in the order given. -/
  distinct_eq : s.distinct = firstOccurrences s.elements
  /-- None is lost. -/
  mem_distinct_iff : ∀ x, x ∈ s.distinct ↔ x ∈ s.elements
  /-- None is repeated. -/
  distinct_nodup : s.distinct.Nodup
  /-- Those other than zero are the distinct elements without the zero vector of the width. -/
  nonzero_eq : s.nonzero = s.distinct.filter (· ≠ .zeros s.width)
  /-- The written forms are those of the elements. -/
  mem_elementTexts_iff : ∀ t, t ∈ s.elementTexts ↔ ∃ x ∈ s.elements, x.text = t
  /-- They are listed in ascending order, and so without repetition. -/
  elementTexts_ascending : s.elementTexts.Pairwise (· < ·)
  /-- There are as many encodings as distinct elements. -/
  distinctCount_eq : s.distinctCount = s.distinct.length
  /-- There are as many written forms as distinct elements. -/
  length_elementTexts : s.elementTexts.length = s.distinct.length
  /-- Zero is contained if the zero vector of the width is an element. -/
  containsZero_iff : s.containsZero = true ↔ .zeros s.width ∈ s.elements
  /-- Zero is contained if 0 is an encoding. -/
  containsZero_iff_encodings : s.containsZero = true ↔ 0 ∈ s.encodings
  /-- Zero is contained if there is one distinct element more than there are others than zero. -/
  containsZero_iff_length : s.containsZero = true ↔ s.distinct.length = s.nonzero.length + 1

/-- **All views of a set agree.** -/
theorem views_agree (s : SetSpec) : s.ViewsAgree where
  contains_iff := s.contains_iff
  mem_encodings_iff := fun _ => mem_encodings
  encodings_ascending := s.pairwise_encodings
  decode_bijOn := s.decode_bijOn
  distinct_eq := by rw [distinct_eq_eraseDups, eraseDups_eq_firstOccurrences]
  mem_distinct_iff := fun _ => mem_distinct
  distinct_nodup := s.nodup_distinct
  nonzero_eq := s.nonzero_eq_filter
  mem_elementTexts_iff := fun _ => mem_elementTexts
  elementTexts_ascending := s.pairwise_elementTexts
  distinctCount_eq := s.length_distinct.symm
  length_elementTexts := s.length_elementTexts.trans s.length_distinct.symm
  containsZero_iff := SetSpec.containsZero_iff
  containsZero_iff_encodings := containsZero_iff_zero_mem_encodings
  containsZero_iff_length := SetSpec.containsZero_iff_length

end SetSpec

end SetQubo
