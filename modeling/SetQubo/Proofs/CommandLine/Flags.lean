import SetQubo.Proofs.CommandLine.Calls
import SetQubo.Proofs.CommandLine.Ending
/-!
# Flags among the arguments

A flag may stand anywhere among the arguments of a command. Where it is taken for a flag, it changes
that flag and nothing else; behind the argument `--` it would be one more operand, which no command
takes, and behind an option it would be a value, which no option takes.
-/

namespace SetQubo.CommandLine

/-! ## One more flag -/

/-- A flag was given in the second scan, and nothing else is different. -/
structure FlagGiven (name : String) (s s' : Scanned) : Prop where
  /-- The operands are the same. -/
  operands_eq : s'.operands = s.operands
  /-- The options have the same values. -/
  values_eq : s'.values = s.values
  /-- The other flags are the same. -/
  flags_eq (other : String) (h : other ≠ name) : s'.flags.contains other = s.flags.contains other

theorem flagGiven_of_addFlag? {name : String} {s s' : Scanned} (h : s.addFlag? name = some s') :
    FlagGiven name s s' := by
  obtain ⟨-, rfl⟩ := Scanned.addFlag?_eq_some_iff.mp h
  refine ⟨rfl, rfl, fun other hother => ?_⟩
  rw [List.contains_cons, beq_false_of_ne hother, Bool.false_or]

/-- What one more argument with the form of a flag comes to: the flag, or an operand. -/
inductive Inserted (name : String) (s s' : Scanned) : Prop where
  /-- It is taken for the flag. -/
  | flag (h : FlagGiven name s s')
  /-- It is taken for an operand. -/
  | operand (h : s'.operands.length = s.operands.length + 1)

variable {name : String} {s s' t t' : Scanned}

theorem Inserted.addOperand (h : Inserted name s s') (operand : String) :
    Inserted name (s.addOperand operand) (s'.addOperand operand) := by
  cases h with
  | flag h => exact .flag ⟨congrArg (operand :: ·) h.operands_eq, h.values_eq, h.flags_eq⟩
  | operand h => exact .operand (by simp [Scanned.addOperand, h])

theorem Inserted.addFlag? (h : Inserted name s s') {other : String}
    (ht : s.addFlag? other = some t) (ht' : s'.addFlag? other = some t') : Inserted name t t' := by
  obtain ⟨-, rfl⟩ := Scanned.addFlag?_eq_some_iff.mp ht
  obtain ⟨-, rfl⟩ := Scanned.addFlag?_eq_some_iff.mp ht'
  cases h with
  | flag h =>
    refine .flag ⟨h.operands_eq, h.values_eq, fun n hn => ?_⟩
    rw [List.contains_cons, List.contains_cons, h.flags_eq n hn]
  | operand h => exact .operand h

theorem Inserted.addValue? (h : Inserted name s s') {option value : String}
    (ht : s.addValue? option value = some t) (ht' : s'.addValue? option value = some t') :
    Inserted name t t' := by
  obtain ⟨-, rfl⟩ := Scanned.addValue?_eq_some_iff.mp ht
  obtain ⟨-, rfl⟩ := Scanned.addValue?_eq_some_iff.mp ht'
  cases h with
  | flag h =>
    exact .flag ⟨h.operands_eq, congrArg ((option, value) :: ·) h.values_eq, h.flags_eq⟩
  | operand h => exact .operand h

/-- An argument has the form of a flag. -/
structure FlagForm (flag name : String) : Prop where
  /-- It looks like an option, -/
  looks : looksLikeOption flag = true
  /-- is not the end of the options, -/
  ne_stop : flag ≠ "--"
  /-- is not the short form of the flag for verbose output, -/
  ne_verbose : flag ≠ "-v"
  /-- and has a name and no value. -/
  split : splitOption? flag = some (name, none)

variable {g : Grammar} {flag : String}

theorem FlagForm.kind (h : FlagForm flag name) (hoption : g.options.contains name = false) :
    Kind.of g flag = if g.flags.contains name then .flag name else .unknown := by
  simp only [Kind.of, h.looks, h.ne_stop, h.ne_verbose, h.split, hoption, if_false, Bool.not_true,
    Bool.false_eq_true]

/-- **One more argument with the form of a flag** is that flag or an operand. -/
theorem inserted_of_scan? (h : FlagForm flag name) (hoption : g.options.contains name = false)
    {after : List String} (before : List String) {s s' : Scanned}
    (hs : scan? g (before ++ after) = some s) (hs' : scan? g (before ++ flag :: after) = some s') :
    Inserted name s s' := by
  match before with
  | [] =>
    -- The flag itself is scanned: it is refused, or it is taken for what it is.
    rw [List.nil_append] at hs hs'
    rw [scan?_cons, h.kind hoption, hs] at hs'
    by_cases hflag : g.flags.contains name = true
    · rw [if_pos hflag] at hs'
      exact .flag (flagGiven_of_addFlag? hs')
    · rw [if_neg hflag] at hs'
      cases hs'
  | arg :: before =>
    rw [List.cons_append, scan?_cons] at hs hs'
    cases hkind : Kind.of g arg with
    | stop =>
      -- Behind the end of the options the flag is an operand like any other.
      rw [hkind] at hs hs'
      obtain rfl := Option.some.inj hs
      obtain rfl := Option.some.inj hs'
      exact .operand (by simp [Nat.add_assoc])
    | operand =>
      rw [hkind] at hs hs'
      obtain ⟨t, ht, rfl⟩ := Option.map_eq_some_iff.mp hs
      obtain ⟨t', ht', rfl⟩ := Option.map_eq_some_iff.mp hs'
      exact (inserted_of_scan? h hoption before ht ht').addOperand arg
    | flag other =>
      rw [hkind] at hs hs'
      obtain ⟨t, ht, hadd⟩ := Option.bind_eq_some_iff.mp hs
      obtain ⟨t', ht', hadd'⟩ := Option.bind_eq_some_iff.mp hs'
      exact (inserted_of_scan? h hoption before ht ht').addFlag? hadd hadd'
    | valued option value =>
      rw [hkind] at hs hs'
      obtain ⟨t, ht, hadd⟩ := Option.bind_eq_some_iff.mp hs
      obtain ⟨t', ht', hadd'⟩ := Option.bind_eq_some_iff.mp hs'
      exact (inserted_of_scan? h hoption before ht ht').addValue? hadd hadd'
    | option option =>
      rw [hkind] at hs hs'
      match before with
      | [] =>
        -- The flag stands where a value should, and looks like an option.
        simp only [List.nil_append, h.looks, if_true] at hs'
        cases hs'
      | value :: before =>
        simp only [List.cons_append] at hs hs'
        by_cases hvalue : looksLikeOption value = true
        · rw [if_pos hvalue] at hs
          cases hs
        · rw [if_neg hvalue] at hs hs'
          obtain ⟨t, ht, hadd⟩ := Option.bind_eq_some_iff.mp hs
          obtain ⟨t', ht', hadd'⟩ := Option.bind_eq_some_iff.mp hs'
          exact (inserted_of_scan? h hoption before ht ht').addValue? hadd hadd'
    | unknown =>
      rw [hkind] at hs
      cases hs

/-! ## Output flags -/

/-- The flag for the form of a report, or the one for sharing out. -/
def OutputFlag (flag name : String) : Prop :=
  flag = "--json" ∧ name = "json" ∨ flag = "--parallel" ∧ name = "parallel"

theorem OutputFlag.form (h : OutputFlag flag name) : FlagForm flag name := by
  rcases h with ⟨rfl, rfl⟩ | ⟨rfl, rfl⟩
  · exact ⟨by simp [looksLikeOption], by decide, by decide, by decide⟩
  · exact ⟨by simp [looksLikeOption], by decide, by decide, by decide⟩

/-- An operand that is there alone before and after is the same. -/
theorem Inserted.flagGiven (h : Inserted name s s') {x x' : String} (hs : s.operand? = some x)
    (hs' : s'.operand? = some x') : FlagGiven name s s' := by
  cases h with
  | flag h => exact h
  | operand h =>
    rw [Scanned.operand?_eq_some_iff.mp hs, Scanned.operand?_eq_some_iff.mp hs'] at h
    cases h

section given
variable (h : FlagGiven name s s')
include h

theorem FlagGiven.operand?_eq : s'.operand? = s.operand? := by
  unfold Scanned.operand?
  rw [h.operands_eq]

theorem FlagGiven.value?_eq {α : Type} (option : String) (read? : String → Option α)
    (default : α) : s'.value? option read? default = s.value? option read? default := by
  unfold Scanned.value?
  rw [h.values_eq]

theorem FlagGiven.basePenalty?_eq : s'.basePenalty? = s.basePenalty? := h.value?_eq _ _ _

/-- The options for solving have the same cap. -/
theorem FlagGiven.solveOptions?_eq : s'.solveOptions? =
    s.solveOptions?.map fun o => { o with parallel := s'.flags.contains "parallel" } := by
  unfold Scanned.solveOptions?
  rw [h.value?_eq, Option.map_map]
  rfl

end given

/-- The options for solving hold the flag for sharing out. -/
theorem parallel_of_solveOptions? {o : SolveOptions} (h : s.solveOptions? = some o) :
    s.flags.contains "parallel" = o.parallel := by
  obtain ⟨n, -, rfl⟩ := Option.map_eq_some_iff.mp h
  rfl

/-- **A flag that is added to a command changes that command in its flags only.** -/
theorem Reads.insert (h : OutputFlag flag name) {verb : String} {before after : List String}
    {c c' : Command} (hc : Reads verb (before ++ after) c)
    (hc' : Reads verb (before ++ flag :: after) c') :
    ∃ json parallel, c' = c.withFlags json parallel := by
  cases hc with
  | embed hverb hs htext hpenalty =>
    subst hverb
    cases hc' with
    | verify hverb' | solve hverb' => exact absurd hverb' (by decide)
    | embed _ hs' htext' hpenalty' =>
      have hoption : ["base-penalty"].contains name = false := by
        rcases h with ⟨-, rfl⟩ | ⟨-, rfl⟩ <;> decide
      have hcompact : "compact" ≠ name := by
        rcases h with ⟨-, rfl⟩ | ⟨-, rfl⟩ <;> decide
      have hflag := (inserted_of_scan? h.form hoption before hs hs').flagGiven htext htext'
      rw [hflag.operand?_eq, htext] at htext'
      rw [hflag.basePenalty?_eq, hpenalty] at hpenalty'
      obtain rfl := Option.some.inj htext'
      obtain rfl := Option.some.inj hpenalty'
      exact ⟨false, false, by rw [hflag.flags_eq _ hcompact]; rfl⟩
  | verify hverb hs htext hpenalty hoptions =>
    subst hverb
    cases hc' with
    | embed hverb' | solve hverb' => exact absurd hverb' (by decide)
    | verify _ hs' htext' hpenalty' hoptions' =>
      -- One operand before and one after: the flag was not taken for another.
      have hoption : ["base-penalty", "max-variables"].contains name = false := by
        rcases h with ⟨-, rfl⟩ | ⟨-, rfl⟩ <;> decide
      have hflag := (inserted_of_scan? h.form hoption before hs hs').flagGiven htext htext'
      rw [hflag.operand?_eq, htext] at htext'
      rw [hflag.basePenalty?_eq, hpenalty] at hpenalty'
      rw [hflag.solveOptions?_eq, hoptions] at hoptions'
      obtain rfl := Option.some.inj htext'
      obtain rfl := Option.some.inj hpenalty'
      obtain rfl := Option.some.inj hoptions'
      exact ⟨_, _, rfl⟩
  | solve hverb hs hpath hname hoptions =>
    subst hverb
    cases hc' with
    | embed hverb' | verify hverb' => exact absurd hverb' (by decide)
    | solve _ hs' hpath' hname' hoptions' =>
      have hoption : ["max-variables"].contains name = false := by
        rcases h with ⟨-, rfl⟩ | ⟨-, rfl⟩ <;> decide
      have hflag := (inserted_of_scan? h.form hoption before hs hs').flagGiven hpath hpath'
      rw [hflag.operand?_eq, hpath] at hpath'
      rw [hflag.solveOptions?_eq, hoptions] at hoptions'
      obtain rfl := Option.some.inj hpath'
      obtain rfl := Option.some.inj hoptions'
      exact ⟨false, _, rfl⟩

/-- Whether a command was given a flag, if it takes it. -/
def Command.flag? (name : String) : Command → Option Bool
  | .embed _ _ _ => none
  | .verify _ _ options json => some (if name = "json" then json else options.parallel)
  | .solve _ options => if name = "json" then none else some options.parallel

/-- A flag in front that was not given so far is taken. -/
theorem exists_scan?_flag (h : FlagForm flag name) (hflag : g.flags.contains name = true)
    (hoption : g.options.contains name = false) {args : List String} (hs : scan? g args = some s)
    (hnew : s.flags.contains name = false) :
    ∃ s', scan? g (flag :: args) = some s' ∧ FlagGiven name s s' := by
  have hadd : s.addFlag? name = some { s with flags := name :: s.flags } :=
    Scanned.addFlag?_eq_some_iff.mpr ⟨by simpa using hnew, rfl⟩
  refine ⟨_, ?_, flagGiven_of_addFlag? hadd⟩
  rw [scan?_cons, h.kind hoption, if_pos hflag, hs]
  exact hadd

/-- A flag that a command takes may stand in front of its arguments. -/
theorem Reads.exists_flag (h : OutputFlag flag name) {verb : String} {args : List String}
    {c : Command} (hc : Reads verb args c) (hnew : c.flag? name = some false) :
    ∃ c', Reads verb (flag :: args) c' := by
  cases hc with
  | embed => cases hnew
  | @verify s _ _ _ hverb hs htext hpenalty hoptions =>
    have hfresh : s.flags.contains name = false := by
      rcases h with ⟨-, rfl⟩ | ⟨-, rfl⟩
      · exact Option.some.inj hnew
      · exact (parallel_of_solveOptions? hoptions).trans (Option.some.inj hnew)
    obtain ⟨s', hs', hflag⟩ := exists_scan?_flag h.form
      (by rcases h with ⟨-, rfl⟩ | ⟨-, rfl⟩ <;> decide)
      (by rcases h with ⟨-, rfl⟩ | ⟨-, rfl⟩ <;> decide) hs hfresh
    exact ⟨_, .verify hverb hs' (hflag.operand?_eq.trans htext)
      (hflag.basePenalty?_eq.trans hpenalty) (by rw [hflag.solveOptions?_eq, hoptions]; rfl)⟩
  | @solve s _ _ hverb hs hpath hname hoptions =>
    -- Only sharing out is a flag of this command.
    rcases h with ⟨-, rfl⟩ | ⟨rfl, rfl⟩
    · cases hnew
    · have hfresh := (parallel_of_solveOptions? hoptions).trans (Option.some.inj hnew)
      obtain ⟨s', hs', hflag⟩ := exists_scan?_flag (OutputFlag.form (.inr ⟨rfl, rfl⟩))
        (by decide) (by decide) hs hfresh
      exact ⟨_, .solve hverb hs' (hflag.operand?_eq.trans hpath) hname
        (by rw [hflag.solveOptions?_eq, hoptions]; rfl)⟩

/-! ## Calls -/

/-- **A flag that is added anywhere in a call changes the command in its flags only.** -/
theorem parse?_insert (h : OutputFlag flag name) {before after : List String} {c c' : Command}
    (hc : parse? (before ++ after) = some c) (hc' : parse? (before ++ flag :: after) = some c') :
    ∃ json parallel, c' = c.withFlags json parallel := by
  -- A flag is no command, nor does it stand in front of one.
  have hfirst : ∀ args, command? flag args = none := by
    rcases h with ⟨rfl, -⟩ | ⟨rfl, -⟩ <;> exact fun _ => rfl
  have hverbose : ¬(flag = "-v" ∨ flag = "--verbose") := by
    rcases h with ⟨rfl, -⟩ | ⟨rfl, -⟩ <;> decide
  cases before with
  | nil =>
    simp only [List.nil_append, parse?, if_neg hverbose, hfirst] at hc'
    cases hc'
  | cons first before =>
    simp only [List.cons_append, parse?] at hc hc'
    by_cases hshow : first = "-v" ∨ first = "--verbose"
    · rw [if_pos hshow] at hc hc'
      cases before with
      | nil =>
        simp only [List.nil_append, hfirst] at hc'
        cases hc'
      | cons verb before =>
        exact (command?_eq_some_iff.mp hc).insert h (command?_eq_some_iff.mp hc')
    · rw [if_neg hshow] at hc hc'
      exact (command?_eq_some_iff.mp hc).insert h (command?_eq_some_iff.mp hc')

/-- **A call whose command takes a flag that was not given can be given it.** -/
theorem exists_parse?_insert (h : OutputFlag flag name) {args : List String} {c : Command}
    (hc : parse? args = some c) (hnew : c.flag? name = some false) :
    ∃ before after, args = before ++ after ∧
      ∃ c', parse? (before ++ flag :: after) = some c' := by
  cases args with
  | nil => cases hc
  | cons first args =>
    simp only [parse?] at hc
    by_cases hshow : first = "-v" ∨ first = "--verbose"
    · rw [if_pos hshow] at hc
      cases args with
      | nil => cases hc
      | cons verb args =>
        obtain ⟨c', hc'⟩ := (command?_eq_some_iff.mp hc).exists_flag h hnew
        refine ⟨[first, verb], args, rfl, c', ?_⟩
        simp only [List.cons_append, List.nil_append, parse?, if_pos hshow]
        exact command?_eq_some_iff.mpr hc'
    · rw [if_neg hshow] at hc
      obtain ⟨c', hc'⟩ := (command?_eq_some_iff.mp hc).exists_flag h hnew
      refine ⟨[first], args, rfl, c', ?_⟩
      simp only [List.cons_append, List.nil_append, parse?, if_neg hshow]
      exact command?_eq_some_iff.mpr hc'

end SetQubo.CommandLine
