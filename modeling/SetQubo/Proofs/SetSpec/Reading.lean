import Mathlib.Data.List.Basic
import SetQubo.Proofs.FirstFailure
import SetQubo.SetSpec.Syntax
/-!
# Which texts describe sets

The bars of a text cut it into parts. A text describes a set exactly if its parts are words of zeros
and ones of one width, from 1 to 64. The set has the parts for its elements, in order, and its
written form is the text again.

For a text that describes no set, the rules of `TextFault` give the error:

* an empty first part comes before all else;
* then the first part may be too wide, whatever stands in it or behind it;
* then the leftmost part that is no word of the first part's width decides, by its width if that is
  wrong, and else by the first of its characters that is neither 0 nor 1.

Widths are counted in characters, however many bytes these take.
-/

namespace SetQubo

/-! ## Parts -/

/-- The parts of a text, which its bars separate. -/
structure PartsOf (text : String) (parts : List String) : Prop where
  /-- There is a part, which is empty if the text is. -/
  ne_nil : parts ≠ []
  /-- No part has a bar in it. -/
  no_bar : ∀ part ∈ parts, '|' ∉ part.toList
  /-- With bars between them the parts are the text. -/
  join : String.intercalate "|" parts = text

/-- No part of a split holds the separator. -/
theorem not_mem_of_mem_splitOn {α : Type} [BEq α] [LawfulBEq α] {a : α} {as part : List α}
    (h : part ∈ as.splitOn a) : a ∉ part := by
  induction as generalizing part with
  | nil =>
    simp only [List.splitOn, List.splitOnP_nil, List.mem_singleton] at h
    simp [h]
  | cons b bs ih =>
    obtain ⟨first, others, hsplit⟩ := List.exists_cons_of_ne_nil (List.splitOn_ne_nil a bs)
    rw [List.splitOn, List.splitOnP_cons_eq_if_modifyHead, ← List.splitOn, hsplit] at h
    rw [hsplit] at ih
    cases hb : b == a with
    | true =>
      rw [hb, if_pos rfl] at h
      rcases List.mem_cons.mp h with rfl | hmem
      · exact List.not_mem_nil
      · exact ih hmem
    | false =>
      -- The member that is no separator becomes the first one of the first part.
      have hne : b ≠ a := by simpa using hb
      rw [hb, if_neg Bool.false_ne_true, List.modifyHead_cons] at h
      rcases List.mem_cons.mp h with rfl | hmem
      · rw [List.mem_cons, not_or]
        exact ⟨hne.symm, ih List.mem_cons_self⟩
      · exact ih (List.mem_cons_of_mem _ hmem)

/-- The parts of a text are what splitting it at the bars gives. -/
theorem partsOf_iff {text : String} {parts : List String} :
    PartsOf text parts ↔ text.toList.splitOn '|' = parts.map String.toList := by
  have hbar : "|".toList = ['|'] := rfl
  constructor
  · rintro ⟨hne, hbars, rfl⟩
    rw [String.toList_intercalate, hbar]
    apply List.splitOn_intercalate
    · simpa using hbars
    · simpa using hne
  · intro h
    refine ⟨?_, ?_, ?_⟩
    · rintro rfl
      exact List.splitOn_ne_nil _ _ h
    · intro part hpart
      have hmem : part.toList ∈ text.toList.splitOn '|' := by
        rw [h]
        exact List.mem_map_of_mem hpart
      exact not_mem_of_mem_splitOn hmem
    · apply String.toList_injective
      rw [String.toList_intercalate, ← h, hbar, List.intercalate_splitOn]

theorem exists_partsOf (text : String) : ∃ parts, PartsOf text parts := by
  have hsame : String.toList ∘ String.ofList = id := funext fun _ => String.toList_ofList
  refine ⟨(text.toList.splitOn '|').map String.ofList, partsOf_iff.mpr ?_⟩
  rw [List.map_map, hsame, List.map_id]

/-- No text has parts in two ways. -/
theorem PartsOf.unique {text : String} {parts parts' : List String} (h : PartsOf text parts)
    (h' : PartsOf text parts') : parts' = parts := by
  have hsame := (partsOf_iff.mp h').symm.trans (partsOf_iff.mp h)
  exact List.map_injective_iff.mpr (fun _ _ => String.toList_injective) hsame

/-! ## Words -/

/-- A word of zeros and ones of a width. -/
structure IsWord (width : Nat) (part : String) : Prop where
  /-- It has that many characters. -/
  length_eq : part.length = width
  /-- Each of them is a zero or a one. -/
  binary : ∀ c ∈ part.toList, c = '0' ∨ c = '1'

/-- Why a part does not stand for an element, next to the first part. -/
inductive PartFault (first part : String) : SetError → Prop where
  /-- It is not as wide as the first part, whatever its characters are. -/
  | width (hlength : part.length ≠ first.length) : PartFault first part (.widthMismatch part first)
  /-- It is as wide, and this is its first character other than 0 and 1. -/
  | character (hlength : part.length = first.length) (before : List Char) (c : Char)
      (after : List Char) (hsplit : part.toList = before ++ c :: after)
      (hbefore : ∀ d ∈ before, d = '0' ∨ d = '1') (hzero : c ≠ '0') (hone : c ≠ '1') :
      PartFault first part (.invalidCharacter c)

namespace BitVector

theorem toList_text (x : BitVector) :
    x.text.toList = x.bits.map fun b => if b then '1' else '0' := String.toList_ofList

/-- A vector is written as a word of its width. -/
theorem isWord_text (x : BitVector) : IsWord x.width x.text := by
  refine ⟨?_, ?_⟩
  · rw [← String.length_toList, toList_text, List.length_map]
    rfl
  · intro c hc
    rw [toList_text] at hc
    obtain ⟨b, -, rfl⟩ := List.mem_map.mp hc
    cases b <;> simp

end BitVector

namespace SetSpec

theorem isBinary_iff {c : Char} : isBinary c = true ↔ c = '0' ∨ c = '1' := by
  simp [isBinary]

/-- The bits of a row of digits have that row for their digits. -/
theorem map_digit_map_bit {cs : List Char} (h : ∀ c ∈ cs, c = '0' ∨ c = '1') :
    (cs.map fun c => decide (c = '1')).map (fun b => if b then '1' else '0') = cs := by
  induction cs with
  | nil => rfl
  | cons c cs ih =>
    obtain ⟨hc, hcs⟩ := List.forall_mem_cons.mp h
    rw [List.map_cons, List.map_cons, ih hcs]
    rcases hc with rfl | rfl <;> rfl

/-- The digits of a row of bits have that row for their bits. -/
theorem map_bit_map_digit (bits : List Bool) :
    (bits.map fun b => if b then '1' else '0').map (fun c => decide (c = '1')) = bits := by
  induction bits with
  | nil => rfl
  | cons b bits ih =>
    rw [List.map_cons, List.map_cons, ih]
    cases b <;> rfl

/-- A part is read as the vector that it is the written form of. -/
theorem readElement_eq_ok_iff {first part : List Char}
    {x : { x : BitVector // x.width = first.length }} :
    readElement first part = .ok x ↔ x.val.text.toList = part := by
  unfold readElement
  constructor
  · intro h
    split at h
    · next hlength =>
      split at h
      · cases h
      · next hbinary =>
        rw [List.find?_eq_none] at hbinary
        obtain rfl := Except.ok.inj h
        rw [BitVector.toList_text]
        apply map_digit_map_bit
        intro c hc
        exact isBinary_iff.mp (by simpa using hbinary c hc)
    · cases h
  · rintro rfl
    obtain ⟨x, hwidth⟩ := x
    have hword := x.isWord_text
    have hlength : x.text.toList.length = first.length := by
      rw [String.length_toList, hword.length_eq, hwidth]
    have hbinary : x.text.toList.find? (!isBinary ·) = none := by
      rw [List.find?_eq_none]
      intro c hc
      simpa using isBinary_iff.mpr (hword.binary c hc)
    have hbits : BitVector.mk (x.text.toList.map fun c => decide (c = '1')) = x := by
      rw [BitVector.toList_text, map_bit_map_digit]
    rw [dif_pos hlength]
    simp only [hbinary, hbits]

/-- A part is refused as the rules for parts say. -/
theorem readElement_eq_error_iff {first part : String} {e : SetError} :
    readElement first.toList part.toList = .error e ↔ PartFault first part e := by
  unfold readElement
  constructor
  · intro h
    split at h
    · next hlength =>
      rw [String.length_toList, String.length_toList] at hlength
      split at h
      · next c hc =>
        obtain ⟨hnot, before, after, hsplit, hbefore⟩ := List.find?_eq_some_iff_append.mp hc
        obtain rfl := Except.error.inj h
        rw [Bool.not_eq_true', ← Bool.not_eq_true, isBinary_iff, not_or] at hnot
        refine .character hlength before c after hsplit ?_ hnot.1 hnot.2
        intro d hd
        exact isBinary_iff.mp (by simpa using hbefore d hd)
      · cases h
    · next hlength =>
      rw [String.length_toList, String.length_toList] at hlength
      obtain rfl := Except.error.inj h
      rw [String.ofList_toList, String.ofList_toList]
      exact .width hlength
  · intro h
    cases h with
    | width hlength =>
      rw [← String.length_toList, ← String.length_toList (s := first)] at hlength
      rw [dif_neg hlength, String.ofList_toList, String.ofList_toList]
    | character hlength before c after hsplit hbefore hzero hone =>
      rw [← String.length_toList, ← String.length_toList (s := first)] at hlength
      have hfirst : part.toList.find? (!isBinary ·) = some c := by
        rw [List.find?_eq_some_iff_append]
        refine ⟨by simp [isBinary, hzero, hone], before, after, hsplit, ?_⟩
        intro d hd
        simpa using isBinary_iff.mpr (hbefore d hd)
      rw [dif_pos hlength]
      simp only [hfirst]

/-- A part is read exactly if it is a word of the width of the first one. -/
theorem exists_readElement_eq_ok_iff {first part : String} :
    (∃ x, readElement first.toList part.toList = .ok x) ↔ IsWord first.length part := by
  constructor
  · rintro ⟨⟨x, hwidth⟩, hread⟩
    obtain rfl : x.text = part := String.toList_injective (readElement_eq_ok_iff.mp hread)
    rw [← String.length_toList, ← hwidth]
    exact x.isWord_text
  · intro hword
    -- What is not read is at fault, and a word is not.
    match hread : readElement first.toList part.toList with
    | .ok x => exact ⟨x, rfl⟩
    | .error e =>
      cases readElement_eq_error_iff.mp hread with
      | width hlength => exact absurd hword.length_eq hlength
      | character _ before c after hsplit _ hzero hone =>
        have hbinary := hword.binary c (by simp [hsplit])
        exact (hbinary.elim hzero hone).elim

/-! ## Whole texts -/

/-- Sets of the same width with the same elements are the same. -/
theorem eq_of_elements_eq {s t : SetSpec} (hwidth : s.width = t.width)
    (helements : s.elements = t.elements) : s = t := by
  cases s
  cases t
  cases hwidth
  cases helements
  rfl

/-- The elements that parts are read as are those that they are the written forms of. -/
theorem mapM_readElement_eq_ok_iff {first : List Char} {parts : List String}
    {xs : List { x : BitVector // x.width = first.length }} :
    (parts.map String.toList).mapM (readElement first) = .ok xs ↔
      (xs.map Subtype.val).map BitVector.text = parts := by
  have hpart : ∀ (part : String) (x : { x : BitVector // x.width = first.length }),
      readElement first part.toList = .ok x ↔ part = (BitVector.text ∘ Subtype.val) x := by
    intro part x
    rw [readElement_eq_ok_iff, String.toList_inj, eq_comm]
    rfl
  rw [mapM_eq_ok_iff, List.forall₂_map_left_iff]
  simp only [hpart]
  rw [← List.forall₂_map_right_iff (R := Eq), List.forall₂_eq_eq_eq, List.map_map, eq_comm]

/-- Parts are refused as the leftmost one that is no word. -/
theorem mapM_readElement_eq_error_iff {first : String} {parts : List String} {e : SetError} :
    (parts.map String.toList).mapM (readElement first.toList) = .error e ↔
      ∃ before part after, parts = before ++ part :: after ∧
        (∀ p ∈ before, IsWord first.length p) ∧ PartFault first part e := by
  simp only [List.mapM_map, mapM_eq_error_iff, Function.comp_apply, exists_readElement_eq_ok_iff,
    readElement_eq_error_iff]

/-- The set of elements that have been read next to a first part of an admitted width. -/
def ofElements {first : List Char} (hpos : 0 < first.length) (hle : first.length ≤ 64)
    (xs : List { x : BitVector // x.width = first.length }) : SetSpec where
  width := first.length
  elements := xs.map Subtype.val
  width_pos := hpos
  width_le := hle
  width_eq := by
    intro x hx
    obtain ⟨y, -, rfl⟩ := List.mem_map.mp hx
    exact y.property

/-! The width of the first part is looked at first, and then the parts one by one. -/

theorem ofParts_of_wide {first : String} (others : List String) (hwide : 64 < first.length) :
    ofParts ((first :: others).map String.toList) = .error (.widthTooLarge first.length) := by
  rw [← String.length_toList] at hwide ⊢
  rw [List.map_cons]
  unfold ofParts
  dsimp only
  rw [dif_neg (by omega),
    dif_neg (show ¬first.toList.length ≤ BitVector.maxWidth from Nat.not_le.mpr hwide)]

theorem ofParts_of_admitted {first : String} (others : List String) (hpos : 0 < first.length)
    (hle : first.length ≤ 64) :
    ofParts ((first :: others).map String.toList) =
      (((first :: others).map String.toList).mapM (readElement first.toList)).map
        (ofElements hpos hle) := by
  rw [List.map_cons]
  unfold ofParts
  dsimp only
  rw [← String.length_toList] at hpos hle
  rw [dif_neg (by omega), dif_pos (show first.toList.length ≤ BitVector.maxWidth from hle)]
  cases (first.toList :: others.map String.toList).mapM (readElement first.toList) <;> rfl

/-- A first part is empty, or too wide, or of a width that a set may have. -/
theorem empty_or_wide_or_admitted (first : String) :
    first = "" ∨ 64 < first.length ∨ (0 < first.length ∧ first.length ≤ 64) := by
  rw [← String.length_eq_zero_iff]
  omega

variable {text : String} {parts : List String} {s : SetSpec} {e : SetError}

/-- Parts are read as the set whose elements they are the written forms of. -/
theorem ofParts_eq_ok_iff (hne : parts ≠ []) :
    ofParts (parts.map String.toList) = .ok s ↔ s.elements.map BitVector.text = parts := by
  obtain ⟨first, others, rfl⟩ := List.exists_cons_of_ne_nil hne
  constructor
  · intro h
    rcases empty_or_wide_or_admitted first with rfl | hwide | ⟨hpos, hle⟩
    · cases h
    · rw [ofParts_of_wide others hwide] at h
      cases h
    · rw [ofParts_of_admitted others hpos hle] at h
      cases hread : ((first :: others).map String.toList).mapM (readElement first.toList) with
      | error e =>
        rw [hread] at h
        cases h
      | ok xs =>
        rw [hread] at h
        obtain rfl := Except.ok.inj h
        exact mapM_readElement_eq_ok_iff.mp hread
  · intro h
    have hmem : ∃ x ∈ s.elements, x.text = first := by
      rw [← List.mem_map, h]
      exact List.mem_cons_self
    obtain ⟨x, hx, rfl⟩ := hmem
    have hwidth : x.text.length = s.width := x.isWord_text.length_eq.trans (s.width_eq x hx)
    -- The elements come with the width that is asked of them.
    obtain ⟨xs, hxs⟩ : ∃ xs : List { y : BitVector // y.width = x.text.toList.length },
        xs.map Subtype.val = s.elements :=
      ⟨s.elements.attachWith _ fun y hy => (s.width_eq y hy).trans hwidth.symm, by simp⟩
    have hread : ((x.text :: others).map String.toList).mapM (readElement x.text.toList) = .ok xs :=
      mapM_readElement_eq_ok_iff.mpr (hxs ▸ h)
    rw [ofParts_of_admitted others (hwidth ▸ s.width_pos) (hwidth ▸ s.width_le), hread]
    exact congrArg Except.ok (eq_of_elements_eq hwidth hxs)

end SetSpec

/-! ## Faults -/

/-- Why the parts of a text do not describe a set. -/
inductive TextFault : List String → SetError → Prop where
  /-- The first part is empty. -/
  | empty (others : List String) : TextFault ("" :: others) .emptySet
  /-- The first part is wider than any set, whatever else is wrong. -/
  | wide (first : String) (others : List String) (hwide : 64 < first.length) :
    TextFault (first :: others) (.widthTooLarge first.length)
  /-- A part is at fault, and those before it are words of the first part's width. -/
  | part (first : String) (others : List String) (hpos : 0 < first.length)
      (hle : first.length ≤ 64) (before : List String) (part : String) (after : List String)
      (hsplit : first :: others = before ++ part :: after)
      (hbefore : ∀ p ∈ before, IsWord first.length p) (e : SetError)
      (hpart : PartFault first part e) : TextFault (first :: others) e

namespace SetSpec

variable {text : String} {parts : List String} {s : SetSpec} {e : SetError}

/-- Parts are refused as the rules say. -/
theorem ofParts_eq_error_iff (hne : parts ≠ []) :
    ofParts (parts.map String.toList) = .error e ↔ TextFault parts e := by
  obtain ⟨first, others, rfl⟩ := List.exists_cons_of_ne_nil hne
  constructor
  · intro h
    rcases empty_or_wide_or_admitted first with rfl | hwide | ⟨hpos, hle⟩
    · obtain rfl : SetError.emptySet = e := Except.error.inj h
      exact .empty others
    · rw [ofParts_of_wide others hwide] at h
      obtain rfl := Except.error.inj h
      exact .wide first others hwide
    · rw [ofParts_of_admitted others hpos hle] at h
      cases hread : ((first :: others).map String.toList).mapM (readElement first.toList) with
      | ok xs =>
        rw [hread] at h
        cases h
      | error e' =>
        rw [hread] at h
        obtain rfl := Except.error.inj h
        obtain ⟨before, part, after, hsplit, hbefore, hpart⟩ :=
          mapM_readElement_eq_error_iff.mp hread
        exact .part first others hpos hle before part after hsplit hbefore e' hpart
  · intro h
    cases h with
    | empty => rfl
    | wide _ _ hwide => exact ofParts_of_wide others hwide
    | part _ _ hpos hle before part after hsplit hbefore _ hpart =>
      have hread := mapM_readElement_eq_error_iff.mpr ⟨before, part, after, hsplit, hbefore, hpart⟩
      rw [ofParts_of_admitted others hpos hle, hread]
      rfl

/-- Parts that are words of one admitted width are not at fault. -/
theorem not_fault_of_words {width : Nat} (hpos : 0 < width) (hle : width ≤ 64)
    (hwords : ∀ part ∈ parts, IsWord width part) : ¬TextFault parts e := by
  intro hfault
  cases hfault with
  | empty =>
    have hlength := (hwords "" List.mem_cons_self).length_eq
    rw [String.length_empty] at hlength
    omega
  | wide first _ hwide =>
    have hlength := (hwords first List.mem_cons_self).length_eq
    omega
  | part first others _ _ before part after hsplit _ _ hpart =>
    have hfirst := hwords first List.mem_cons_self
    have hword := hwords part (by rw [hsplit]; simp)
    have hread := exists_readElement_eq_ok_iff.mpr (hfirst.length_eq.symm ▸ hword)
    obtain ⟨x, hx⟩ := hread
    rw [readElement_eq_error_iff.mpr hpart] at hx
    cases hx

/-- A text describes the set whose elements are written as its parts. -/
theorem parse_eq_ok_iff {text : String} (h : PartsOf text parts) :
    parse text = .ok s ↔ s.elements.map BitVector.text = parts := by
  unfold parse
  rw [partsOf_iff.mp h, ofParts_eq_ok_iff h.ne_nil]

/-- The written form of a set is the text that it was read from. -/
theorem text_of_parse {text : String} (h : parse text = .ok s) : s.text = text := by
  obtain ⟨parts, hparts⟩ := exists_partsOf text
  unfold SetSpec.text
  rw [(parse_eq_ok_iff hparts).mp h, hparts.join]

/-- **Which texts describe sets, which sets, and why the others do not.** -/
theorem parse_exact (text : String) :
    ∃ parts, PartsOf text parts ∧ (∀ parts', PartsOf text parts' → parts' = parts) ∧
      ((∃ s, parse text = .ok s) ↔
        ∃ width, 1 ≤ width ∧ width ≤ 64 ∧ ∀ part ∈ parts, IsWord width part) ∧
      (∀ s, parse text = .ok s ↔ s.elements.map BitVector.text = parts) ∧
      (∀ s, parse text = .ok s → toString s = text ∧ parse (toString s) = .ok s) ∧
      ∀ e, parse text = .error e ↔ TextFault parts e := by
  obtain ⟨parts, hparts⟩ := exists_partsOf text
  have hok : ∀ s, parse text = .ok s ↔ s.elements.map BitVector.text = parts :=
    fun _ => parse_eq_ok_iff hparts
  have herror : ∀ e, parse text = .error e ↔ TextFault parts e := by
    intro e
    unfold parse
    rw [partsOf_iff.mp hparts, ofParts_eq_error_iff hparts.ne_nil]
  refine ⟨parts, hparts, fun _ => hparts.unique, ?_, hok, ?_, herror⟩
  · constructor
    · rintro ⟨s, hs⟩
      refine ⟨s.width, s.width_pos, s.width_le, ?_⟩
      rw [← (hok s).mp hs, List.forall_mem_map]
      intro x hx
      exact s.width_eq x hx ▸ x.isWord_text
    · rintro ⟨width, hpos, hle, hwords⟩
      match hread : parse text with
      | .ok s => exact ⟨s, rfl⟩
      | .error e => exact absurd ((herror e).mp hread) (not_fault_of_words hpos hle hwords)
  · intro s hs
    have htext : toString s = text := text_of_parse hs
    exact ⟨htext, htext.symm ▸ hs⟩

/-- The second part is two characters wide, so its fault is not its width, and the third part is not
looked at. -/
example : parse "01|0é|1" = .error (.invalidCharacter 'é') := by rfl

end SetSpec

end SetQubo
