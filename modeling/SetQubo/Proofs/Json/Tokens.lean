import Mathlib.Data.Nat.Digits.Lemmas
import SetQubo.Json.Grammar
import SetQubo.Json.Printer
/-!
# Written numbers and strings read back

A number ends where its text does only if what follows cannot belong to it (`Delimited`); between
the brackets and commas of a JSON text that is always so. A string ends at its closing quotation
mark, whatever follows, since no character inside it is written as a bare quotation mark.
-/

namespace SetQubo.Json

/-! ## Runs of digits -/

/-- No character of a number stands at the front of the text. -/
def Delimited (cs : List Char) : Prop :=
  ∀ c ∈ cs.head?, c.isDigit = false ∧ c ≠ '.' ∧ c ≠ 'e' ∧ c ≠ 'E'

theorem delimited_nil : Delimited [] := by
  intro c hc
  cases hc

/-- No digit stands at the front of the text. -/
def Nondigit (cs : List Char) : Prop := ∀ c ∈ cs.head?, c.isDigit = false

theorem nondigit_cons {c : Char} {cs : List Char} (h : c.isDigit = false) : Nondigit (c :: cs) := by
  intro d hd
  cases hd
  exact h

theorem Delimited.nondigit {cs : List Char} (h : Delimited cs) : Nondigit cs :=
  fun c hc => (h c hc).1

/-- The digits at the front of a text are those in front of the first other character. -/
theorem Nondigit.takeWhile_append {ds cs : List Char} (h : Nondigit cs)
    (hds : ∀ d ∈ ds, d.isDigit) : (ds ++ cs).takeWhile Char.isDigit = ds := by
  rw [List.takeWhile_append_of_pos hds]
  cases cs with
  | nil => simp
  | cons c cs => simp [h c rfl]

theorem Nondigit.dropWhile_append {ds cs : List Char} (h : Nondigit cs)
    (hds : ∀ d ∈ ds, d.isDigit) : (ds ++ cs).dropWhile Char.isDigit = cs := by
  rw [List.dropWhile_append_of_pos hds]
  cases cs with
  | nil => simp
  | cons c cs => simp [h c rfl]

theorem isDigit_of_mem_digits {n : Nat} {c : Char} (h : c ∈ Nat.toDigits 10 n) : c.isDigit :=
  Nat.isDigit_of_mem_toDigits (by decide) (by decide) h

/-- Reading the digits of a natural number gives the number. -/
theorem ofDigitChars_digits (n : Nat) : Nat.ofDigitChars 10 (Nat.toDigits 10 n) 0 = n :=
  Nat.ofDigitChars_toDigits (by decide) (by decide)

/-- A natural number other than zero is written without a leading zero. -/
theorem head?_digits {n : Nat} (h : n ≠ 0) : (Nat.toDigits 10 n).head? ≠ some '0' := by
  induction n using Nat.strong_induction_on with
  | _ n ih =>
    by_cases hlt : n < 10
    · rw [Nat.toDigits_of_lt_base hlt]
      interval_cases n <;> first | exact absurd rfl h | decide
    · have hdigits : Nat.toDigits 10 n = Nat.toDigits 10 (n / 10) ++ [(n % 10).digitChar] :=
        Nat.toDigits_of_base_le (by decide) (by omega)
      rw [hdigits, List.head?_append_of_ne_nil _ Nat.toDigits_ne_nil]
      exact ih (n / 10) (by omega) (by omega)

/-! ## Numbers -/

/-- Behind the point stand digits. -/
def Number.WellFormed (n : Number) : Prop := ∀ c ∈ n.fraction, c.isDigit

/-- The text behind the whole part of a number starts with no digit. -/
theorem nondigit_writeExponent (e : Option Int) {rest : List Char} (h : Delimited rest) :
    Nondigit (writeExponent e ++ rest) := by
  cases e with
  | none => exact h.nondigit
  | some e => exact nondigit_cons rfl

theorem exponent?_writeExponent (e : Option Int) {rest : List Char} (h : Delimited rest) :
    exponent? (writeExponent e ++ rest) = some (e, rest) := by
  cases e with
  | none =>
    cases rest with
    | nil => rfl
    | cons c cs =>
      obtain ⟨-, -, he, hE⟩ := h c rfl
      show exponent? (c :: cs) = _
      simp [exponent?, he, hE]
  | some e =>
    have htake := h.nondigit.takeWhile_append fun d hd => isDigit_of_mem_digits (n := e.natAbs) hd
    have hdrop := h.nondigit.dropWhile_append fun d hd => isDigit_of_mem_digits (n := e.natAbs) hd
    have hne : Nat.toDigits 10 e.natAbs ≠ [] := Nat.toDigits_ne_nil
    have hvalue := ofDigitChars_digits e.natAbs
    by_cases hneg : e < 0
    · simp [writeExponent, exponent?, Decimal.takeSign, hneg, htake, hdrop, hne, hvalue, abs_of_neg]
    · have hnonneg : 0 ≤ e := by omega
      simp [writeExponent, exponent?, Decimal.takeSign, hneg, htake, hdrop, hne, hvalue,
        abs_of_nonneg hnonneg]

/-- The text behind the digits of the whole part. -/
def writeFraction (n : Number) : List Char :=
  if n.fraction = [] then [] else '.' :: n.fraction

theorem nondigit_writeFraction (n : Number) {rest : List Char} (h : Nondigit rest) :
    Nondigit (writeFraction n ++ rest) := by
  unfold writeFraction
  split
  · exact h
  · exact nondigit_cons rfl

theorem fraction?_writeFraction {n : Number} (hn : n.WellFormed) (e : Option Int)
    {rest : List Char} (h : Delimited rest) :
    fraction? (writeFraction n ++ (writeExponent e ++ rest)) =
      some (n.fraction, writeExponent e ++ rest) := by
  have hnondigit := nondigit_writeExponent e h
  unfold writeFraction
  split
  case isTrue hnil =>
    rw [hnil]
    cases e with
    | some e => rfl
    | none =>
      cases rest with
      | nil => rfl
      | cons c cs =>
        obtain ⟨-, hpoint, -⟩ := h c rfl
        show fraction? (c :: cs) = some ([], c :: cs)
        rw [fraction?]
        intro ds hds
        exact hpoint (List.cons.inj hds).1
  case isFalse hne =>
    have htake := hnondigit.takeWhile_append hn
    have hdrop := hnondigit.dropWhile_append hn
    simp [fraction?, htake, hdrop, hne]

/-- A number behind its sign, and the rest of the text. -/
def unsigned? (negative : Bool) (cs : List Char) : Option (Number × List Char) := do
  let whole := cs.takeWhile Char.isDigit
  guard (whole = ['0'] ∨ (whole ≠ [] ∧ whole.head? ≠ some '0'))
  let (fraction, cs) ← fraction? (cs.dropWhile Char.isDigit)
  let (exponent, cs) ← exponent? cs
  return (⟨negative, Nat.ofDigitChars 10 whole 0, fraction, exponent⟩, cs)

theorem number?_of_ne {c : Char} (h : c ≠ '-') (cs : List Char) :
    number? (c :: cs) = unsigned? false (c :: cs) := by
  unfold number?
  split
  case h_1 negative ds hsign =>
    split at hsign
    case h_1 heq => exact absurd (List.cons.inj heq).1 h
    case h_2 =>
      obtain ⟨rfl, rfl⟩ := Prod.mk.inj hsign
      rfl

/-- What `writeNumber` writes behind the sign. -/
def writeUnsigned (n : Number) : List Char :=
  Nat.toDigits 10 n.whole ++ (writeFraction n ++ writeExponent n.exponent)

theorem writeNumber_eq (n : Number) :
    writeNumber n = (if n.negative then ['-'] else []) ++ writeUnsigned n := by
  simp [writeNumber, writeUnsigned, writeFraction]

theorem unsigned?_writeUnsigned {n : Number} (hn : n.WellFormed) {rest : List Char}
    (h : Delimited rest) : unsigned? n.negative (writeUnsigned n ++ rest) = some (n, rest) := by
  have hnondigit := nondigit_writeFraction n (nondigit_writeExponent n.exponent h)
  have htake := hnondigit.takeWhile_append fun d hd => isDigit_of_mem_digits (n := n.whole) hd
  have hdrop := hnondigit.dropWhile_append fun d hd => isDigit_of_mem_digits (n := n.whole) hd
  have hguard : Nat.toDigits 10 n.whole = ['0'] ∨
      (Nat.toDigits 10 n.whole ≠ [] ∧ (Nat.toDigits 10 n.whole).head? ≠ some '0') := by
    by_cases hzero : n.whole = 0
    · rw [hzero]
      exact Or.inl rfl
    · exact Or.inr ⟨Nat.toDigits_ne_nil, head?_digits hzero⟩
  simp only [writeUnsigned, List.append_assoc, unsigned?, htake, hdrop, guard, if_pos hguard,
    fraction?_writeFraction hn n.exponent h, exponent?_writeExponent n.exponent h,
    ofDigitChars_digits, bind, Option.bind_some, pure]

/-- The first character behind the sign is a digit. -/
theorem writeUnsigned_eq_cons (n : Number) :
    ∃ d ds, writeUnsigned n = d :: ds ∧ d.isDigit := by
  obtain ⟨d, ds, hds⟩ := List.exists_cons_of_ne_nil (Nat.toDigits_ne_nil (n := n.whole) (b := 10))
  have hdigit : d.isDigit := isDigit_of_mem_digits (n := n.whole) (by rw [hds]; simp)
  refine ⟨d, ds ++ (writeFraction n ++ writeExponent n.exponent), ?_, hdigit⟩
  rw [writeUnsigned, hds, List.cons_append]

/-- **A written number reads back**, where the text does not go on as a number. -/
theorem number?_writeNumber {n : Number} (hn : n.WellFormed) {rest : List Char}
    (h : Delimited rest) : number? (writeNumber n ++ rest) = some (n, rest) := by
  have hread := unsigned?_writeUnsigned hn h
  rw [writeNumber_eq]
  cases hsign : n.negative with
  | true =>
    rw [hsign] at hread
    exact hread
  | false =>
    obtain ⟨d, ds, hds, hdigit⟩ := writeUnsigned_eq_cons n
    have hne : d ≠ '-' := by
      rintro rfl
      cases hdigit
    rw [hsign, hds] at hread
    rw [hds]
    exact (number?_of_ne hne (ds ++ rest)).trans hread

/-- The first character of a number is its sign or a digit. -/
theorem writeNumber_eq_cons (n : Number) :
    ∃ c cs, writeNumber n = c :: cs ∧ (c = '-' ∨ c.isDigit) := by
  obtain ⟨d, ds, hds, hdigit⟩ := writeUnsigned_eq_cons n
  rw [writeNumber_eq, hds]
  cases n.negative with
  | true => exact ⟨'-', d :: ds, rfl, Or.inl rfl⟩
  | false => exact ⟨d, ds, rfl, Or.inr hdigit⟩

/-! ## Strings -/

/-- Two hexadecimal digits behind two zeros name a character below the space. -/
theorem hexUnit?_digitChars {k : Nat} (h : k < 0x20) :
    hexUnit? '0' '0' (Nat.digitChar (k / 16)) (Nat.digitChar (k % 16)) = some k := by
  interval_cases k <;> rfl

/-- One character of a string reads back as its number. -/
theorem stringUnits?_writeChar (c : Char) (cs : List Char) :
    stringUnits? (writeChar c ++ cs) =
      (stringUnits? cs).map fun (units, rest) => (c.toNat :: units, rest) := by
  have hbind : ∀ k : Nat, (do
      let (units, rest) ← stringUnits? cs
      return (k :: units, rest)) = (stringUnits? cs).map fun (units, rest) => (k :: units, rest) :=
    fun k => by cases stringUnits? cs <;> rfl
  unfold writeChar
  -- Seven characters have an escape of their own.
  iterate 7
    split
    case isTrue h =>
      subst h
      exact hbind _
  split
  case isTrue h =>
    simp only [List.cons_append, List.nil_append, stringUnits?, hexUnit?_digitChars h]
    exact hbind _
  case isFalse hquote hbackslash _ _ _ _ _ hcontrol =>
    have hplain : ¬ (c.toNat < 0x20 ∨ c = '\\') := not_or.mpr ⟨hcontrol, hbackslash⟩
    rw [List.singleton_append, stringUnits?, if_neg hplain]
    case x_1 => exact hquote
    case x_2 => exact fun _ _ _ _ _ h _ => hbackslash h
    case x_3 => exact fun _ _ h _ => hbackslash h
    exact hbind _

/-- The numbers of characters join to the characters. -/
theorem joinUnits?_map_toNat (cs : List Char) : joinUnits? (cs.map Char.toNat) = some cs := by
  induction cs with
  | nil => rfl
  | cons c cs ih =>
    have hvalid : c.toNat < 0xD800 ∨ (0xDFFF < c.toNat ∧ c.toNat < 0x110000) := c.valid
    have hleading : isLeading c.toNat = false := by
      simp only [isLeading, Bool.and_eq_false_iff, decide_eq_false_iff_not]
      omega
    have htrailing : isTrailing c.toNat = false := by
      simp only [isTrailing, Bool.and_eq_false_iff, decide_eq_false_iff_not]
      omega
    rw [List.map_cons, joinUnits?.eq_def]
    simp [hleading, htrailing, ih]

/-- The text of a string between its quotation marks. -/
theorem writeString_some (s : String) :
    writeString (some s) = '"' :: (s.toList.flatMap writeChar ++ ['"']) := rfl

/-- **A written string reads back**, whatever follows it. -/
theorem stringBody?_writeString (s : String) (rest : List Char) :
    stringBody? (s.toList.flatMap writeChar ++ '"' :: rest) = some (some s, rest) := by
  have hunits : ∀ cs : List Char,
      stringUnits? (cs.flatMap writeChar ++ '"' :: rest) = some (cs.map Char.toNat, rest) := by
    intro cs
    induction cs with
    | nil => rfl
    | cons c cs ih =>
      rw [List.flatMap_cons, List.append_assoc, stringUnits?_writeChar, ih]
      rfl
  simp [stringBody?, hunits, joinUnits?_map_toNat]

end SetQubo.Json
