import SetQubo.Json.Reader
import SetQubo.Proofs.Json.Tokens
/-!
# Written values read back

Whatever its layout, the text of a well-formed value is read as that value. The proof follows the
value: what is shown of the items of an array or the members of an object makes up what is shown of
the whole. The fuel that a value needs is twice the length of its text.
-/

namespace SetQubo.Json

/-! ## Values with a text -/

/-- The value is what some JSON text denotes: nothing in it is malformed, and every string has a
text. -/
inductive WellFormed : Json → Prop where
  | null : WellFormed .null
  | bool (b : Bool) : WellFormed (.bool b)
  | number {n : Number} (digits : n.WellFormed) : WellFormed (.number n)
  | string (s : String) : WellFormed (.string (some s))
  | array {items : List Json} (each : ∀ item ∈ items, WellFormed item) : WellFormed (.array items)
  | object {members : List (Option String × Json)} (names : ∀ m ∈ members, m.1.isSome)
      (each : ∀ m ∈ members, WellFormed m.2) : WellFormed (.object members)

/-! ## White space -/

/-- A layout puts nothing but white space between tokens. -/
structure Layout.Blank (layout : Layout) : Prop where
  /-- What starts a line is white space. -/
  line : ∀ depth, ∀ c ∈ layout.line depth, isBlank c
  /-- What follows a colon is white space. -/
  afterColon : ∀ c ∈ layout.afterColon, isBlank c

theorem Layout.blank_compact : Layout.compact.Blank := by
  constructor
  case line =>
    intro _ c hc
    cases hc
  case afterColon =>
    intro c hc
    cases hc

theorem Layout.blank_indented : Layout.indented.Blank := by
  constructor
  case line =>
    intro depth c hc
    simp only [Layout.indented, List.mem_cons, List.mem_replicate] at hc
    rcases hc with rfl | ⟨-, rfl⟩ <;> rfl
  case afterColon =>
    intro c hc
    simp only [Layout.indented, List.mem_singleton] at hc
    subst hc
    rfl

theorem skipBlank_append {bs : List Char} (h : ∀ c ∈ bs, isBlank c) (cs : List Char) :
    skipBlank (bs ++ cs) = skipBlank cs :=
  List.dropWhile_append_of_pos h

theorem skipBlank_cons {c : Char} (h : isBlank c = false) (cs : List Char) :
    skipBlank (c :: cs) = c :: cs :=
  List.dropWhile_cons_of_neg (by simp [h])

theorem parseValue_append {bs : List Char} (h : ∀ c ∈ bs, isBlank c) (fuel : Nat)
    (cs : List Char) : parseValue fuel (bs ++ cs) = parseValue fuel cs := by
  cases fuel with
  | zero => rfl
  | succ fuel => rw [parseValue, parseValue, skipBlank_append h]

theorem parseItems_append {bs : List Char} (h : ∀ c ∈ bs, isBlank c) (fuel : Nat)
    (cs : List Char) : parseItems fuel (bs ++ cs) = parseItems fuel cs := by
  cases fuel with
  | zero => rfl
  | succ fuel => rw [parseItems, parseItems, parseValue_append h]

theorem parseMembers_append {bs : List Char} (h : ∀ c ∈ bs, isBlank c) (fuel : Nat)
    (cs : List Char) : parseMembers fuel (bs ++ cs) = parseMembers fuel cs := by
  cases fuel with
  | zero => rfl
  | succ fuel => rw [parseMembers, parseMembers, skipBlank_append h]

/-- A number ends in front of white space, of a comma and of a closing bracket. -/
theorem delimited_append {bs cs : List Char} (h : ∀ c ∈ bs, isBlank c) (hcs : Delimited cs) :
    Delimited (bs ++ cs) := by
  cases bs with
  | nil => exact hcs
  | cons b bs =>
    intro c hc
    cases hc
    have hb := h b List.mem_cons_self
    simp only [isBlank, Bool.or_eq_true, decide_eq_true_eq] at hb
    rcases hb with ((rfl | rfl) | rfl) | rfl <;> decide

theorem delimited_cons {c : Char} (h : c = ',' ∨ c = ']' ∨ c = '}') (cs : List Char) :
    Delimited (c :: cs) := by
  intro d hd
  cases hd
  rcases h with rfl | rfl | rfl <;> decide

/-! ## The first character -/

/-- A sign or a digit is no other token. -/
theorem ne_of_numeric {c : Char} (h : c = '-' ∨ c.isDigit) :
    isBlank c = false ∧ c ∉ ['n', 't', 'f', '"', '[', ']', '{'] := by
  constructor
  · rw [Bool.eq_false_iff]
    intro hblank
    simp only [isBlank, Bool.or_eq_true, decide_eq_true_eq] at hblank
    rcases hblank with ((rfl | rfl) | rfl) | rfl <;> revert h <;> decide
  · intro hmem
    simp only [List.mem_cons, List.not_mem_nil, or_false] at hmem
    rcases hmem with rfl | rfl | rfl | rfl | rfl | rfl | rfl <;> revert h <;> decide

/-- A value starts with a character that is neither white space nor a closing bracket. -/
theorem WellFormed.write_eq_cons {v : Json} (h : v.WellFormed) (layout : Layout) (depth : Nat) :
    ∃ c cs, write layout depth v = c :: cs ∧ isBlank c = false ∧ c ≠ ']' := by
  cases h with
  | null => exact ⟨_, _, rfl, by decide⟩
  | bool b => cases b <;> exact ⟨_, _, rfl, by decide⟩
  | string s => exact ⟨_, _, rfl, by decide⟩
  | @array items _ => cases items <;> exact ⟨_, _, rfl, by decide⟩
  | @object members _ _ => cases members <;> exact ⟨_, _, rfl, by decide⟩
  | @number n _ =>
    obtain ⟨c, cs, hcs, hc⟩ := writeNumber_eq_cons n
    obtain ⟨hblank, hne⟩ := ne_of_numeric hc
    refine ⟨c, cs, hcs, hblank, ?_⟩
    rintro rfl
    exact hne (by decide)

/-- What starts as a number does is read as a number. -/
theorem parseValue_numeric {c : Char} (h : c = '-' ∨ c.isDigit) {cs rest : List Char} {n : Number}
    (hread : number? (c :: cs) = some (n, rest)) (fuel : Nat) :
    parseValue (fuel + 1) (c :: cs) = (.number n, rest) := by
  obtain ⟨hblank, hne⟩ := ne_of_numeric h
  rw [parseValue, skipBlank_cons hblank]
  -- In every case but the last one the text starts with some other token.
  split
  case h_7 => rw [hread]
  all_goals
    next heq =>
      obtain ⟨rfl, -⟩ := List.cons.inj heq
      exact absurd (by decide) hne

/-- An array that does not end at once is read item by item. -/
theorem parseValue_bracket {cs tail : List Char} {c : Char} (h : skipBlank cs = c :: tail)
    (hne : c ≠ ']') (fuel : Nat) :
    parseValue (fuel + 1) ('[' :: cs) =
      (.array (parseItems fuel (c :: tail)).1, (parseItems fuel (c :: tail)).2) := by
  rw [parseValue, skipBlank_cons rfl]
  simp only [h]
  split
  case h_1 heq => exact absurd (List.cons.inj heq).1 hne
  case h_2 => rfl

/-- An object that does not end at once is read member by member. -/
theorem parseValue_brace {cs tail : List Char} {c : Char} (h : skipBlank cs = c :: tail)
    (hne : c ≠ '}') (fuel : Nat) :
    parseValue (fuel + 1) ('{' :: cs) =
      (.object (parseMembers fuel (c :: tail)).1, (parseMembers fuel (c :: tail)).2) := by
  rw [parseValue, skipBlank_cons rfl]
  simp only [h]
  split
  case h_1 heq => exact absurd (List.cons.inj heq).1 hne
  case h_2 => rfl

/-! ## Values -/

/-- The value is read from its text, wherever the text stands. -/
def ReadsBack (layout : Layout) (v : Json) : Prop :=
  ∀ depth fuel rest, 2 * (write layout depth v).length ≤ fuel → Delimited rest →
    parseValue fuel (write layout depth v ++ rest) = (v, rest)

variable {layout : Layout}

/-- The items of an array are read from their text, if each of them is. -/
theorem parseItems_write (hlayout : layout.Blank) (depth : Nat) {items : List Json}
    (hitems : ∀ item ∈ items, ReadsBack layout item) {item : Json}
    (hitem : ReadsBack layout item) (fuel : Nat)
    (hfuel : 2 * (write layout depth item ++ writeItems layout depth items).length + 1 ≤ fuel)
    {bs : List Char} (hbs : ∀ c ∈ bs, isBlank c) (rest : List Char) :
    parseItems fuel (write layout depth item ++
      (writeItems layout depth items ++ (bs ++ ']' :: rest))) = (item :: items, rest) := by
  induction items generalizing item fuel with
  | nil =>
    obtain ⟨fuel, rfl⟩ : ∃ f, fuel = f + 1 := ⟨fuel - 1, by omega⟩
    rw [List.length_append] at hfuel
    have hdelimited : Delimited (bs ++ ']' :: rest) :=
      delimited_append hbs (delimited_cons (Or.inr (Or.inl rfl)) rest)
    have hread := hitem depth fuel (bs ++ ']' :: rest) (by omega) hdelimited
    have hskip : skipBlank (bs ++ ']' :: rest) = ']' :: rest := by
      rw [skipBlank_append hbs, skipBlank_cons rfl]
    simp only [writeItems, List.nil_append, parseItems, hread, hskip]
  | cons next items ih =>
    obtain ⟨fuel, rfl⟩ : ∃ f, fuel = f + 1 := ⟨fuel - 1, by omega⟩
    rw [writeItems, List.length_append, List.length_cons] at hfuel
    have htail := ih (fun i hi => hitems i (List.mem_cons_of_mem _ hi))
      (hitems next List.mem_cons_self) fuel (by simp at hfuel ⊢; omega)
    have hread := hitem depth fuel
      (',' :: (layout.line depth ++ (write layout depth next ++
        (writeItems layout depth items ++ (bs ++ ']' :: rest))))) (by omega)
      (delimited_cons (Or.inl rfl) _)
    have hskip : ∀ cs, skipBlank (',' :: cs) = ',' :: cs := skipBlank_cons rfl
    simp only [writeItems, List.cons_append, List.append_assoc, parseItems, hread, hskip,
      parseItems_append (hlayout.line depth), htail]

section member
variable (hlayout : layout.Blank) (name : String) {fuel : Nat} {value : Json}
  {cs tail rest : List Char} (hread : parseValue fuel cs = (value, tail))

/-- The text of a member starts with the quotation mark of its name. -/
theorem writeMember_eq_cons (cs : List Char) :
    writeString (some name) ++ (':' :: (layout.afterColon ++ cs)) =
      '"' :: (name.toList.flatMap writeChar ++ '"' :: (':' :: (layout.afterColon ++ cs))) := by
  rw [writeString_some, List.cons_append, List.append_assoc, List.singleton_append]

include hlayout hread

/-- Reading the last member of an object, when its value is known. -/
theorem parseMembers_last (hskip : skipBlank tail = '}' :: rest) :
    parseMembers (fuel + 1) (writeString (some name) ++ (':' :: (layout.afterColon ++ cs))) =
      ([(some name, value)], rest) := by
  have hquote : ∀ cs, skipBlank ('"' :: cs) = '"' :: cs := skipBlank_cons rfl
  have hcolon : ∀ cs, skipBlank (':' :: cs) = ':' :: cs := skipBlank_cons rfl
  have hvalue := (parseValue_append hlayout.afterColon fuel cs).trans hread
  rw [writeMember_eq_cons, parseMembers]
  simp only [hquote, stringBody?_writeString, hcolon, hvalue, hskip]

/-- Reading a member that another one follows, when its value is known. -/
theorem parseMembers_next (hskip : skipBlank tail = ',' :: rest) :
    parseMembers (fuel + 1) (writeString (some name) ++ (':' :: (layout.afterColon ++ cs))) =
      ((some name, value) :: (parseMembers fuel rest).1, (parseMembers fuel rest).2) := by
  have hquote : ∀ cs, skipBlank ('"' :: cs) = '"' :: cs := skipBlank_cons rfl
  have hcolon : ∀ cs, skipBlank (':' :: cs) = ':' :: cs := skipBlank_cons rfl
  have hvalue := (parseValue_append hlayout.afterColon fuel cs).trans hread
  rw [writeMember_eq_cons, parseMembers]
  simp only [hquote, stringBody?_writeString, hcolon, hvalue, hskip]

end member

/-- The members of an object are read from their text, if the value of each of them is. -/
theorem parseMembers_write (hlayout : layout.Blank) (depth : Nat)
    {members : List (Option String × Json)} (hnames : ∀ m ∈ members, m.1.isSome)
    (hvalues : ∀ m ∈ members, ReadsBack layout m.2) (name : String) {value : Json}
    (hvalue : ReadsBack layout value) (fuel : Nat)
    (hfuel : 2 * (write layout depth value ++ writeMembers layout depth members).length + 1 ≤ fuel)
    {bs : List Char} (hbs : ∀ c ∈ bs, isBlank c) (rest : List Char) :
    parseMembers fuel (writeString (some name) ++ (':' :: (layout.afterColon ++
      (write layout depth value ++ (writeMembers layout depth members ++ (bs ++ '}' :: rest)))))) =
        ((some name, value) :: members, rest) := by
  induction members generalizing name value fuel with
  | nil =>
    obtain ⟨fuel, rfl⟩ : ∃ f, fuel = f + 1 := ⟨fuel - 1, by omega⟩
    rw [List.length_append] at hfuel
    have hdelimited : Delimited (bs ++ '}' :: rest) :=
      delimited_append hbs (delimited_cons (Or.inr (Or.inr rfl)) rest)
    have hread := hvalue depth fuel (bs ++ '}' :: rest) (by omega) hdelimited
    have hskip : skipBlank (bs ++ '}' :: rest) = '}' :: rest := by
      rw [skipBlank_append hbs, skipBlank_cons rfl]
    simp only [writeMembers, List.nil_append, parseMembers_last hlayout name hread hskip]
  | cons next members ih =>
    obtain ⟨nextName, nextValue⟩ := next
    obtain ⟨nextName, rfl⟩ := Option.isSome_iff_exists.mp (hnames _ List.mem_cons_self)
    obtain ⟨fuel, rfl⟩ : ∃ f, fuel = f + 1 := ⟨fuel - 1, by omega⟩
    rw [writeMembers, List.length_append, List.length_cons] at hfuel
    have htail := ih (fun m hm => hnames m (List.mem_cons_of_mem _ hm))
      (fun m hm => hvalues m (List.mem_cons_of_mem _ hm)) nextName
      (hvalues _ List.mem_cons_self) fuel (by simp at hfuel ⊢; omega)
    have hread := hvalue depth fuel
      (',' :: (layout.line depth ++ (writeString (some nextName) ++ (':' :: (layout.afterColon ++
        (write layout depth nextValue ++
          (writeMembers layout depth members ++ (bs ++ '}' :: rest)))))))) (by omega)
      (delimited_cons (Or.inl rfl) _)
    have htext : writeMembers layout depth ((some nextName, nextValue) :: members) ++
        (bs ++ '}' :: rest) = ',' :: (layout.line depth ++ (writeString (some nextName) ++
          (':' :: (layout.afterColon ++ (write layout depth nextValue ++
            (writeMembers layout depth members ++ (bs ++ '}' :: rest))))))) := by
      simp only [writeMembers, List.append_assoc, List.cons_append]
    rw [htext, parseMembers_next hlayout name hread (skipBlank_cons rfl _),
      parseMembers_append (hlayout.line depth), htail]

/-- **Every well-formed value is read from its text.** -/
theorem WellFormed.readsBack (hlayout : layout.Blank) {v : Json} (hv : v.WellFormed) :
    ReadsBack layout v := by
  -- The induction is on the value; each case spends one unit of fuel on its own first character.
  induction hv with
  | null =>
    intro depth fuel rest hfuel _
    obtain ⟨fuel, rfl⟩ : ∃ f, fuel = f + 1 := ⟨fuel - 1, by simp [write] at hfuel; omega⟩
    rfl
  | bool b =>
    intro depth fuel rest hfuel _
    obtain ⟨fuel, rfl⟩ : ∃ f, fuel = f + 1 :=
      ⟨fuel - 1, by cases b <;> simp [write] at hfuel <;> omega⟩
    cases b <;> rfl
  | string s =>
    intro depth fuel rest hfuel _
    obtain ⟨fuel, rfl⟩ : ∃ f, fuel = f + 1 := ⟨fuel - 1, by
      rw [write, writeString_some] at hfuel; simp at hfuel; omega⟩
    have hquote : ∀ cs, skipBlank ('"' :: cs) = '"' :: cs := skipBlank_cons rfl
    rw [write, writeString_some, List.cons_append, List.append_assoc, List.singleton_append,
      parseValue, hquote]
    simp only [stringBody?_writeString]
  | @number n hn =>
    intro depth fuel rest hfuel hrest
    obtain ⟨c, cs, hcs, hc⟩ := writeNumber_eq_cons n
    have hread := number?_writeNumber hn hrest
    rw [write, hcs] at hfuel ⊢
    rw [hcs] at hread
    obtain ⟨fuel, rfl⟩ : ∃ f, fuel = f + 1 := ⟨fuel - 1, by simp at hfuel; omega⟩
    exact parseValue_numeric hc hread fuel
  | @array items each ih =>
    intro depth fuel rest hfuel hrest
    cases items with
    | nil =>
      obtain ⟨fuel, rfl⟩ : ∃ f, fuel = f + 1 := ⟨fuel - 1, by simp [write] at hfuel; omega⟩
      rfl
    | cons item items =>
      obtain ⟨fuel, rfl⟩ : ∃ f, fuel = f + 1 := ⟨fuel - 1, by simp [write] at hfuel; omega⟩
      have hitems := parseItems_write hlayout (depth + 1)
        (fun i hi => ih i (List.mem_cons_of_mem _ hi)) (ih item List.mem_cons_self)
        fuel (by simp [write] at hfuel ⊢; omega) (hlayout.line depth) rest
      obtain ⟨c, cs, hcs, hblank, hne⟩ :=
        (each item List.mem_cons_self).write_eq_cons layout (depth + 1)
      rw [hcs, List.cons_append] at hitems
      have hskip : skipBlank (layout.line (depth + 1) ++ (c :: (cs ++
          (writeItems layout (depth + 1) items ++ (layout.line depth ++ ']' :: rest))))) = _ :=
        (skipBlank_append (hlayout.line (depth + 1)) _).trans (skipBlank_cons hblank _)
      simp only [write, hcs, List.cons_append, List.append_assoc, List.nil_append,
        parseValue_bracket hskip hne, hitems]
  | @object members names each ih =>
    intro depth fuel rest hfuel hrest
    cases members with
    | nil =>
      obtain ⟨fuel, rfl⟩ : ∃ f, fuel = f + 1 := ⟨fuel - 1, by simp [write] at hfuel; omega⟩
      rfl
    | cons m members =>
      obtain ⟨name, value⟩ := m
      obtain ⟨name, rfl⟩ := Option.isSome_iff_exists.mp (names _ List.mem_cons_self)
      obtain ⟨fuel, rfl⟩ : ∃ f, fuel = f + 1 := ⟨fuel - 1, by simp [write] at hfuel; omega⟩
      have hmembers := parseMembers_write hlayout (depth + 1)
        (fun m hm => names m (List.mem_cons_of_mem _ hm))
        (fun m hm => ih m (List.mem_cons_of_mem _ hm)) name (ih _ List.mem_cons_self)
        fuel (by simp [write] at hfuel ⊢; omega) (hlayout.line depth) rest
      rw [writeString_some, List.cons_append] at hmembers
      have hskip : ∀ cs, skipBlank (layout.line (depth + 1) ++ '"' :: cs) = '"' :: cs := fun cs =>
        (skipBlank_append (hlayout.line (depth + 1)) _).trans (skipBlank_cons rfl cs)
      simp only [write, writeString_some, List.cons_append, List.append_assoc, List.nil_append]
        at hmembers ⊢
      simp only [parseValue_brace (hskip _) (by decide : '"' ≠ '}'), hmembers]

/-- A well-formed value is read from the front of a text that starts with its own. -/
theorem parse_write (hlayout : layout.Blank) {v : Json} (hv : v.WellFormed) (depth : Nat)
    {rest : List Char} (hrest : Delimited rest) :
    parse (write layout depth v ++ rest) = (v, rest) := by
  apply hv.readsBack hlayout depth _ rest _ hrest
  rw [List.length_append]
  omega

/-- White space behind the text of a value does not matter. -/
theorem decodeText_write_append {α : Type} (decode : Reader α) (hlayout : layout.Blank) {v : Json}
    (hv : v.WellFormed) (depth : Nat) {bs : List Char} (hbs : ∀ c ∈ bs, isBlank c) :
    decodeText decode (String.ofList (write layout depth v ++ bs)) = decode v := by
  have hdelimited : Delimited (bs ++ []) := delimited_append hbs delimited_nil
  have hskip : skipBlank (bs ++ []) = [] := skipBlank_append hbs []
  rw [List.append_nil] at hdelimited hskip
  rw [decodeText, String.toList_ofList, parse_write hlayout hv depth hdelimited]
  cases hdecode : decode v <;> simp [hdecode, bind, Except.bind, pure, Except.pure, hskip]

/-- **Decoding the text of a well-formed value is decoding the value.** -/
theorem decodeText_write {α : Type} (decode : Reader α) (hlayout : layout.Blank) {v : Json}
    (hv : v.WellFormed) (depth : Nat) :
    decodeText decode (String.ofList (write layout depth v)) = decode v := by
  have hblank : ∀ c ∈ ([] : List Char), isBlank c := by simp
  have hread := decodeText_write_append decode hlayout hv depth hblank
  rwa [List.append_nil] at hread

end SetQubo.Json
