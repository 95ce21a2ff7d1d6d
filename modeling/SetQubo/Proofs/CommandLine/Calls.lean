import SetQubo.Proofs.CommandLine.Arguments
/-!
# Which calls are read

A call names a command, and the arguments behind the name are those of that command. `Says` tells
which command the parts of the arguments ask for, with the defaults for what is not given. A call is
read as a command exactly if it is written for parts that say so.
-/

namespace SetQubo.CommandLine

/-! ## Values -/

namespace Arguments

variable {a : Arguments} {name : String}

/-- What is given for an option: what stands for it as its value, or the default if it has none. -/
inductive Gives {α : Type} (a : Arguments) (name : String) (form : String → α → Prop)
    (default : α) : α → Prop where
  /-- The option is there, and its value has the right form. -/
  | value {text : String} {x : α} (hmem : (name, text) ∈ a.values) (hform : form text x) :
    Gives a name form default x
  /-- The option is not there. -/
  | default (hnone : name ∉ a.values.map Prod.fst) : Gives a name form default default

theorem value?_eq_some_iff (hnodup : (a.values.map Prod.fst).Nodup) {α : Type}
    {read? : String → Option α} {form : String → α → Prop}
    (hread : ∀ text x, read? text = some x ↔ form text x) {default x : α} :
    a.scanned.value? name read? default = some x ↔ a.Gives name form default x := by
  have hvalues : a.scanned.values = a.values := rfl
  unfold Scanned.value?
  rw [hvalues]
  constructor
  · intro h
    cases hlookup : a.values.lookup name with
    | none =>
      rw [hlookup] at h
      obtain rfl := Option.some.inj h
      exact .default (lookup_eq_none_iff.mp hlookup)
    | some text =>
      rw [hlookup] at h
      exact .value ((lookup_eq_some_iff hnodup).mp hlookup) ((hread text x).mp h)
  · intro h
    cases h with
    | value hmem hform =>
      rw [(lookup_eq_some_iff hnodup).mpr hmem]
      exact (hread _ x).mpr hform
    | default hnone => rw [lookup_eq_none_iff.mpr hnone]

end Arguments

/-- A number is written with digits, at least one, behind a plus sign or none. -/
def IsNumeral (text : String) (n : UInt64) : Prop :=
  ∃ digits : List Char, (text.toList = digits ∨ text.toList = '+' :: digits) ∧ digits ≠ [] ∧
    (∀ c ∈ digits, c.isDigit = true) ∧ Nat.ofDigitChars 10 digits 0 = n.toNat

/-- The numbers that are read are those that fit in sixty-four bits. -/
theorem word?_eq_some_iff (text : String) (n : UInt64) :
    word? text = some n ↔ IsNumeral text n := by
  have hdigits : ∀ digits : List Char,
      (if digits ≠ [] ∧ digits.all Char.isDigit then
        if Nat.ofDigitChars 10 digits 0 < UInt64.size then
          some (UInt64.ofNat (Nat.ofDigitChars 10 digits 0)) else none
        else none) = some n ↔
      digits ≠ [] ∧ (∀ c ∈ digits, c.isDigit = true) ∧
        Nat.ofDigitChars 10 digits 0 = n.toNat := by
    intro digits
    rw [Option.ite_none_right_eq_some, Option.ite_none_right_eq_some, and_assoc, List.all_eq_true,
      Option.some.injEq]
    refine and_congr_right fun _ => and_congr_right fun _ => ⟨fun h => ?_, fun h => ?_⟩
    · rw [← h.2, UInt64.toNat_ofNat_of_lt' h.1]
    · rw [h]
      exact ⟨n.toNat_lt, UInt64.ofNat_toNat⟩
  unfold word? IsNumeral
  dsimp only
  rw [hdigits]
  split
  · next cs hcs =>
    rw [hcs]
    constructor
    · exact fun h => ⟨cs, Or.inr rfl, h⟩
    · intro h
      obtain ⟨digits, hform, h⟩ := h
      rcases hform with rfl | hform
      · -- A plus sign is no digit.
        exact absurd (h.2.1 '+' List.mem_cons_self) (by decide)
      · obtain rfl := List.cons.inj hform |>.2
        exact h
  · next cs hplus =>
    constructor
    · exact fun h => ⟨_, Or.inl rfl, h⟩
    · intro h
      obtain ⟨digits, rfl | hform, h⟩ := h
      · exact h
      · exact absurd hform (hplus digits)

theorem Scanned.operand?_eq_some_iff {s : Scanned} {text : String} :
    s.operand? = some text ↔ s.operands = [text] := by
  unfold Scanned.operand?
  split
  · next operand h => rw [h, Option.some.injEq, List.cons.injEq, and_iff_left rfl]
  · next hmany =>
    constructor
    · intro h
      cases h
    · exact fun h => absurd h (hmany text)

/-- A double is written as a decimal. -/
def IsDecimal (text : String) (x : Float) : Prop := Decimal.ofText? text = some x

namespace Arguments

variable {a : Arguments} {g : Grammar} (ha : a.Admitted g)
include ha

/-- The base penalty is 10 unless another one is given. -/
theorem Admitted.basePenalty?_eq_some_iff {penalty : Float} :
    a.scanned.basePenalty? = some penalty ↔ a.Gives "base-penalty" IsDecimal 10 penalty :=
  value?_eq_some_iff ha.options fun _ _ => Iff.rfl

/-- There may be 16 variables unless another number is given, and sharing out is asked for by a
flag. -/
theorem Admitted.solveOptions?_eq_some_iff {cap : UInt64} {parallel : Bool} :
    a.scanned.solveOptions? = some ⟨cap, parallel⟩ ↔
      a.Gives "max-variables" IsNumeral 16 cap ∧ a.flags.contains "parallel" = parallel := by
  unfold Scanned.solveOptions?
  rw [Option.map_eq_some_iff, ← value?_eq_some_iff ha.options word?_eq_some_iff]
  simp only [SolveOptions.mk.injEq]
  constructor
  · intro h
    obtain ⟨n, hn, rfl, hparallel⟩ := h
    exact ⟨hn, hparallel⟩
  · intro h
    exact ⟨cap, h.1, rfl, h.2⟩

end Arguments

/-! ## Commands -/

/-- The rules for how the arguments of a command are read. -/
inductive Reads (verb : String) (args : List String) : Command → Prop where
  /-- The set to embed is the operand. -/
  | embed {s : Scanned} {text : String} {penalty : Float} (hverb : verb = "embed")
    (hs : scan? ⟨[verbose, "compact"], ["base-penalty"]⟩ args = some s)
    (htext : s.operand? = some text) (hpenalty : s.basePenalty? = some penalty) :
    Reads verb args (.embed text penalty (s.flags.contains "compact"))
  /-- The set to verify is the operand. -/
  | verify {s : Scanned} {text : String} {penalty : Float} {options : SolveOptions}
    (hverb : verb = "verify")
    (hs : scan? ⟨[verbose, "json", "parallel"], ["base-penalty", "max-variables"]⟩ args = some s)
    (htext : s.operand? = some text) (hpenalty : s.basePenalty? = some penalty)
    (hoptions : s.solveOptions? = some options) :
    Reads verb args (.verify text penalty options (s.flags.contains "json"))
  /-- The file to solve is the operand, which has a name. -/
  | solve {s : Scanned} {path : String} {options : SolveOptions} (hverb : verb = "solve")
    (hs : scan? ⟨[verbose, "parallel"], ["max-variables"]⟩ args = some s)
    (hpath : s.operand? = some path) (hname : path ≠ "")
    (hoptions : s.solveOptions? = some options) :
    Reads verb args (.solve path options)

/-- The arguments of a command are read by the rules. -/
theorem command?_eq_some_iff {verb : String} {args : List String} {c : Command} :
    command? verb args = some c ↔ Reads verb args c := by
  constructor
  · intro h
    unfold command? at h
    split at h
    · simp only [Option.bind_eq_bind, Option.bind_eq_some_iff, Option.pure_def,
        Option.some.injEq] at h
      obtain ⟨s, hs, text, htext, penalty, hpenalty, rfl⟩ := h
      exact .embed rfl hs htext hpenalty
    · simp only [Option.bind_eq_bind, Option.bind_eq_some_iff, Option.pure_def,
        Option.some.injEq] at h
      obtain ⟨s, hs, text, htext, penalty, hpenalty, options, hoptions, rfl⟩ := h
      exact .verify rfl hs htext hpenalty hoptions
    · simp only [Option.bind_eq_bind, Option.bind_eq_some_iff, Option.pure_def] at h
      obtain ⟨s, hs, path, hpath, h⟩ := h
      split at h
      · cases h
      · next hname =>
        obtain ⟨options, hoptions, h⟩ := Option.bind_eq_some_iff.mp h
        obtain rfl := Option.some.inj h
        exact .solve rfl hs hpath hname hoptions
    · cases h
  · intro h
    cases h with
    | embed hverb hs htext hpenalty =>
      simp only [command?, hverb, hs, htext, hpenalty, Option.bind_eq_bind, Option.bind_some,
        Option.pure_def]
    | verify hverb hs htext hpenalty hoptions =>
      simp only [command?, hverb, hs, htext, hpenalty, hoptions, Option.bind_eq_bind,
        Option.bind_some, Option.pure_def]
    | solve hverb hs hpath hname hoptions =>
      simp only [command?, hverb, hs, hpath, hoptions, if_neg hname, Option.bind_eq_bind,
        Option.bind_some, Option.pure_def]

/-! ## Calls -/

/-- Which command the arguments behind a verb ask for. -/
inductive Says : String → Arguments → Command → Prop where
  /-- The only operand is the set to embed. The base penalty is 10 unless another one is given. -/
  | embed {a : Arguments} {set : String} {penalty : Float}
    (ha : a.Admitted ⟨[verbose, "compact"], ["base-penalty"]⟩) (hset : a.operands = [set])
    (hpenalty : a.Gives "base-penalty" IsDecimal 10 penalty) :
    Says "embed" a (.embed set penalty (a.flags.contains "compact"))
  /-- The only operand is the set to verify. There may be 16 variables unless another number is
  given. -/
  | verify {a : Arguments} {set : String} {penalty : Float} {cap : UInt64}
    (ha : a.Admitted ⟨[verbose, "json", "parallel"], ["base-penalty", "max-variables"]⟩)
    (hset : a.operands = [set]) (hpenalty : a.Gives "base-penalty" IsDecimal 10 penalty)
    (hcap : a.Gives "max-variables" IsNumeral 16 cap) :
    Says "verify" a (.verify set penalty ⟨cap, a.flags.contains "parallel"⟩
      (a.flags.contains "json"))
  /-- The only operand is the path of the model to solve, which must not be empty. -/
  | solve {a : Arguments} {path : String} {cap : UInt64}
    (ha : a.Admitted ⟨[verbose, "parallel"], ["max-variables"]⟩) (hpath : a.operands = [path])
    (hname : path ≠ "") (hcap : a.Gives "max-variables" IsNumeral 16 cap) :
    Says "solve" a (.solve path ⟨cap, a.flags.contains "parallel"⟩)

theorem plain_embed : Grammar.Plain ⟨[verbose, "compact"], ["base-penalty"]⟩ :=
  ⟨by decide, by decide, by decide⟩

theorem plain_verify :
    Grammar.Plain ⟨[verbose, "json", "parallel"], ["base-penalty", "max-variables"]⟩ :=
  ⟨by decide, by decide, by decide⟩

theorem plain_solve : Grammar.Plain ⟨[verbose, "parallel"], ["max-variables"]⟩ :=
  ⟨by decide, by decide, by decide⟩

/-- The arguments behind a verb are read as what they are written for. -/
theorem reads_iff {verb : String} {args : List String} {c : Command} :
    Reads verb args c ↔ ∃ a, a.written = args ∧ Says verb a c := by
  constructor
  · intro h
    cases h with
    | embed hverb hs hset hpenalty =>
      obtain ⟨a, ha, hwritten, rfl⟩ := (Arguments.scan?_eq_some_iff plain_embed).mp hs
      exact ⟨a, hwritten, hverb ▸ .embed ha (Scanned.operand?_eq_some_iff.mp hset)
        (ha.basePenalty?_eq_some_iff.mp hpenalty)⟩
    | @verify s _ _ options hverb hs hset hpenalty hoptions =>
      obtain ⟨a, ha, hwritten, rfl⟩ := (Arguments.scan?_eq_some_iff plain_verify).mp hs
      obtain ⟨cap, parallel⟩ := options
      obtain ⟨hcap, rfl⟩ := ha.solveOptions?_eq_some_iff.mp hoptions
      exact ⟨a, hwritten, hverb ▸ .verify ha (Scanned.operand?_eq_some_iff.mp hset)
        (ha.basePenalty?_eq_some_iff.mp hpenalty) hcap⟩
    | @solve s _ options hverb hs hpath hname hoptions =>
      obtain ⟨a, ha, hwritten, rfl⟩ := (Arguments.scan?_eq_some_iff plain_solve).mp hs
      obtain ⟨cap, parallel⟩ := options
      obtain ⟨hcap, rfl⟩ := ha.solveOptions?_eq_some_iff.mp hoptions
      exact ⟨a, hwritten, hverb ▸ .solve ha (Scanned.operand?_eq_some_iff.mp hpath) hname hcap⟩
  · intro h
    obtain ⟨a, hwritten, hsays⟩ := h
    cases hsays with
    | embed ha hset hpenalty =>
      exact .embed rfl ((Arguments.scan?_eq_some_iff plain_embed).mpr ⟨a, ha, hwritten, rfl⟩)
        (Scanned.operand?_eq_some_iff.mpr hset) (ha.basePenalty?_eq_some_iff.mpr hpenalty)
    | verify ha hset hpenalty hcap =>
      exact .verify rfl ((Arguments.scan?_eq_some_iff plain_verify).mpr ⟨a, ha, hwritten, rfl⟩)
        (Scanned.operand?_eq_some_iff.mpr hset) (ha.basePenalty?_eq_some_iff.mpr hpenalty)
        (ha.solveOptions?_eq_some_iff.mpr ⟨hcap, rfl⟩)
    | solve ha hpath hname hcap =>
      exact .solve rfl ((Arguments.scan?_eq_some_iff plain_solve).mpr ⟨a, ha, hwritten, rfl⟩)
        (Scanned.operand?_eq_some_iff.mpr hpath) hname
        (ha.solveOptions?_eq_some_iff.mpr ⟨hcap, rfl⟩)

/-- **Which calls are read, and as which commands**: those that are written for what they say. The
flag for verbose output may stand in front of the command as well. -/
theorem parse?_eq_some_iff {args : List String} {c : Command} :
    parse? args = some c ↔
      ∃ front ∈ [[], ["-v"], ["--verbose"]], ∃ verb a,
        args = front ++ verb :: Arguments.written a ∧ Says verb a c := by
  have hcommand : ∀ verb args, command? verb args = some c ↔
      ∃ a, Arguments.written a = args ∧ Says verb a c :=
    fun _ _ => command?_eq_some_iff.trans reads_iff
  constructor
  · intro h
    cases args with
    | nil => cases h
    | cons first args =>
      simp only [parse?] at h
      by_cases hshow : first = "-v" ∨ first = "--verbose"
      · rw [if_pos hshow] at h
        cases args with
        | nil => cases h
        | cons verb args =>
          obtain ⟨a, rfl, hsays⟩ := (hcommand verb args).mp h
          have hfront : [first] ∈ [[], ["-v"], ["--verbose"]] := by simpa using hshow
          exact ⟨[first], hfront, verb, a, rfl, hsays⟩
      · rw [if_neg hshow] at h
        obtain ⟨a, rfl, hsays⟩ := (hcommand first args).mp h
        exact ⟨[], List.mem_cons_self, first, a, rfl, hsays⟩
  · intro h
    obtain ⟨front, hfront, verb, a, rfl, hsays⟩ := h
    have hread := (hcommand verb a.written).mpr ⟨a, rfl, hsays⟩
    -- The name of a command is not the flag for verbose output.
    have hverb : ¬(verb = "-v" ∨ verb = "--verbose") := by
      cases hsays with
      | embed | verify | solve => decide
    simp only [List.mem_cons, List.not_mem_nil, or_false] at hfront
    rcases hfront with rfl | rfl | rfl
    · exact (if_neg hverb).trans hread
    · exact hread
    · exact hread

end SetQubo.CommandLine
