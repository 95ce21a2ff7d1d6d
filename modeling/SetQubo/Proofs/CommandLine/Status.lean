import SetQubo.Proofs.CommandLine.Flags
/-!
# The exit status

The exit status says how a command ended: 2 with an error, after which nothing stands on standard
output; 1 with a report that holds violations; and 0 otherwise. It does not depend on the flags for
the form of a report and for sharing out, wherever they stand among the arguments.
-/

namespace SetQubo.CommandLine

/-- What is printed for a report without violations. -/
def passedText (r : Report Float) : String :=
  r.text ++ "\n\n" ++
    "PASSED: every optimal assignment decodes, every element recovered once" ++ "\n"

/-- What is printed for a report with violations. -/
def failedText (r : Report Float) : String :=
  r.text ++ "\n\n" ++ ("FAILED: " ++ toString r.violations.length ++ " violation(s)") ++ "\n"

theorem passedText_ne_failedText (r : Report Float) : passedText r ≠ failedText r := by
  intro h
  have hverdict := congrArg String.toList h
  simp only [passedText, failedText, String.toList_append, List.append_assoc,
    List.append_cancel_left_eq] at hverdict
  -- The verdicts differ in their first letters.
  cases List.head_eq_of_cons_eq hverdict

theorem printedReport_of_passed {r : Report Float} (h : r.violations = []) :
    printedReport false r = passedText r := by
  simp [printedReport, passedText, verdictLine, Report.passed, h]

theorem printedReport_of_failed {r : Report Float} (h : r.violations ≠ []) :
    printedReport false r = failedText r := by
  simp [printedReport, failedText, verdictLine, Report.passed, h]

/-- What the exit status of a command tells, where a parallel run is shared out as given. -/
structure StatusTells (first second : Schedule) (read : String → Except FileError String)
    (command : Command) : Prop where
  /-- The status is 2 exactly if the command ends in an error. -/
  two_iff : (command.run first second read).status = 2 ↔
    ∃ e, Ends first second read command (.failed e)
  /-- Then nothing is printed but the error. -/
  failed (e : RunError) (h : Ends first second read command (.failed e)) :
    (command.run first second read).output = "" ∧
      (command.run first second read).errors = "error: " ++ e.message ++ "\n"
  /-- Without an error nothing stands on standard error. -/
  quiet (h : (command.run first second read).status ≠ 2) :
    (command.run first second read).errors = ""
  /-- The status is 1 exactly if there is a report that holds a violation. -/
  one_iff : (command.run first second read).status = 1 ↔
    ∃ r, Ends first second read command (.reported r) ∧ r.violations ≠ []
  /-- Otherwise it is 0, and no other status is left. -/
  zero_iff : (command.run first second read).status = 0 ↔
    Ends first second read command .done ∨
      ∃ r, Ends first second read command (.reported r) ∧ r.violations = []
  /-- Only a verification makes a report, so no other command has the status 1. -/
  reported (r : Report Float) (h : Ends first second read command (.reported r)) :
    ∃ set penalty options json, command = .verify set penalty options json
  /-- The verdict that a verification prints agrees with the status. -/
  verdict (set : String) (penalty : Float) (options : SolveOptions) (r : Report Float)
    (hcommand : command = .verify set penalty options false)
    (h : Ends first second read command (.reported r)) :
    ((command.run first second read).status = 0 ↔
      (command.run first second read).output = passedText r) ∧
    ((command.run first second read).status = 1 ↔
      (command.run first second read).output = failedText r)
  /-- Other flags, and other ways to share out, leave the status as it is. -/
  flags (json parallel : Bool) (first' second' : Schedule) :
    ((command.withFlags json parallel).run first' second' read).status =
      (command.run first second read).status

namespace Ending

variable {ending : Ending}

theorem status_eq_two_iff : ending.status = 2 ↔ ∃ e, ending = .failed e := by
  cases ending with
  | failed e => simp [status]
  | reported r => by_cases h : r.violations = [] <;> simp [status, h]
  | done => simp [status]

theorem status_eq_one_iff :
    ending.status = 1 ↔ ∃ r, ending = .reported r ∧ r.violations ≠ [] := by
  cases ending with
  | failed e => simp [status]
  | reported r => by_cases h : r.violations = [] <;> simp [status, h]
  | done => simp [status]

theorem status_eq_zero_iff :
    ending.status = 0 ↔ ending = .done ∨ ∃ r, ending = .reported r ∧ r.violations = [] := by
  cases ending with
  | failed e => simp [status]
  | reported r => by_cases h : r.violations = [] <;> simp [status, h]
  | done => simp [status]

end Ending

variable {first second : Schedule} {read : String → Except FileError String} {command : Command}

/-- Without an error nothing stands on standard error. -/
theorem Ends.errors_eq {ending : Ending} (h : Ends first second read command ending)
    (hending : ending.status ≠ 2) : (command.run first second read).errors = "" := by
  cases ending with
  | failed e => exact absurd rfl hending
  | done =>
    obtain ⟨output, hrun⟩ := h.run_of_done
    rw [hrun]
  | reported r =>
    cases command with
    | verify set penalty options json => rw [h.run_of_reported]
    | embed | solve => cases h

/-- Every command ends in some way, so a status that it has is that of an ending, and the other way
round. -/
theorem status_eq_iff (status : UInt8) : (command.run first second read).status = status ↔
    ∃ ending, Ends first second read command ending ∧ ending.status = status := by
  constructor
  · obtain ⟨ending, hends⟩ := exists_ends first second read command
    intro h
    exact ⟨ending, hends, hends.status_run.symm.trans h⟩
  · rintro ⟨ending, hends, h⟩
    exact hends.status_run.trans h

theorem statusTells (first second : Schedule) (read : String → Except FileError String)
    (command : Command) : StatusTells first second read command := by
  obtain ⟨ending, hends⟩ := exists_ends first second read command
  have hstatus := hends.status_run
  constructor
  case two_iff =>
    rw [status_eq_iff]
    simp only [Ending.status_eq_two_iff]
    constructor
    · rintro ⟨_, h, e, rfl⟩
      exact ⟨e, h⟩
    · rintro ⟨e, h⟩
      exact ⟨_, h, e, rfl⟩
  case failed =>
    intro e h
    rw [h.run_of_failed]
    exact ⟨rfl, rfl⟩
  case quiet =>
    rw [hstatus]
    exact hends.errors_eq
  case one_iff =>
    rw [status_eq_iff]
    simp only [Ending.status_eq_one_iff]
    constructor
    · rintro ⟨_, h, r, rfl, hr⟩
      exact ⟨r, h, hr⟩
    · rintro ⟨r, h, hr⟩
      exact ⟨_, h, r, rfl, hr⟩
  case zero_iff =>
    rw [status_eq_iff]
    simp only [Ending.status_eq_zero_iff]
    constructor
    · rintro ⟨_, h, rfl | ⟨r, rfl, hr⟩⟩
      · exact .inl h
      · exact .inr ⟨r, h, hr⟩
    · rintro (h | ⟨r, h, hr⟩)
      · exact ⟨_, h, .inl rfl⟩
      · exact ⟨_, h, .inr ⟨r, rfl, hr⟩⟩
  case reported =>
    intro r h
    cases h with
    | verified hs h => exact ⟨_, _, _, _, rfl⟩
  case verdict =>
    rintro set penalty options r rfl h
    rw [h.run_of_reported]
    -- The verdict and the status are decided by the same test, whether there are violations.
    by_cases hr : r.violations = []
    · have hpassed : r.passed = true := by rw [Report.passed, hr]; rfl
      simp [printedReport_of_passed hr, hpassed, passedText_ne_failedText r]
    · have hpassed : r.passed = false := by rw [Report.passed, List.isEmpty_eq_false_iff]; exact hr
      simp [printedReport_of_failed hr, hpassed, (passedText_ne_failedText r).symm]
  case flags =>
    intro json parallel first' second'
    obtain ⟨ending', hends', hsame⟩ := hends.withFlags json parallel first' second'
    rw [hends'.status_run, hstatus, hsame]

/-- **The exit status tells how a command ended**, whatever the files hold. A flag for the form of
a report or for sharing out, wherever it is added to a call, does not change the status; and every
call that takes such a flag and does not have it can be given it. -/
theorem exit_status_tells (first second : Schedule) (read : String → Except FileError String) :
    (∀ command, StatusTells first second read command) ∧
    ∀ flag name, OutputFlag flag name →
      (∀ before after first' second' o o',
        runScheduled? first second (before ++ after) read = some o →
        runScheduled? first' second' (before ++ flag :: after) read = some o' →
        o'.status = o.status) ∧
      ∀ args command, parse? args = some command → command.flag? name = some false →
        ∃ before after, args = before ++ after ∧
          ∃ command', parse? (before ++ flag :: after) = some command' := by
  refine ⟨statusTells first second read, fun flag name hflag => ⟨?_, ?_⟩⟩
  · intro before after first' second' o o' ho ho'
    obtain ⟨command, hparse, rfl⟩ := Option.map_eq_some_iff.mp ho
    obtain ⟨command', hparse', rfl⟩ := Option.map_eq_some_iff.mp ho'
    obtain ⟨json, parallel, rfl⟩ := parse?_insert hflag hparse hparse'
    exact (statusTells first second read command).flags json parallel first' second'
  · exact fun args command => exists_parse?_insert hflag

/-- There are no files. -/
def nothing : String → Except FileError String := fun _ => .error .notFound

theorem exit_status_tells_nothing :
    ((Command.solve "m" ⟨16, false⟩).run .halving .halving nothing).output = "" ∧
      ∃ o o', runScheduled? .halving .halving ["verify", "0|1"] nothing = some o ∧
        runScheduled? .halving .halving ["verify", "--json", "0|1"] nothing = some o' ∧
        o'.status = o.status := by
  obtain ⟨htells, hflags⟩ := exit_status_tells .halving .halving nothing
  have hfile : Ends .halving .halving nothing (.solve "m" ⟨16, false⟩)
      (.failed (.file "m" .notFound)) := .noFile rfl
  have hcall : (runScheduled? .halving .halving ["verify", "0|1"] nothing).isSome = true := by
    rw [runScheduled?, Option.isSome_map]
    decide +kernel
  have hcall' :
      (runScheduled? .halving .halving ["verify", "--json", "0|1"] nothing).isSome = true := by
    rw [runScheduled?, Option.isSome_map]
    decide +kernel
  obtain ⟨o, ho⟩ := Option.isSome_iff_exists.mp hcall
  obtain ⟨o', ho'⟩ := Option.isSome_iff_exists.mp hcall'
  exact ⟨((htells _).failed _ hfile).1, o, o', ho, ho',
    (hflags "--json" "json" (.inl ⟨rfl, rfl⟩)).1 ["verify"] ["0|1"] .halving .halving o o' ho ho'⟩

end SetQubo.CommandLine
