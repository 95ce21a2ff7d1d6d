import SetQubo.CommandLine.Run
import SetQubo.Proofs.Verification.Sharing
/-!
# How a command ends

A command takes its steps in turn, and the first one that fails ends it. `Ends` says so rule by
rule, without a program that prints: with an error, with a report, or with what was asked for.
Everything that is left behind follows from the ending, and the status of the ending does not depend
on the form of a report or on how a run is shared out.
-/

namespace SetQubo.CommandLine

/-- How a command ends. -/
inductive Ending where
  /-- A step failed. -/
  | failed (error : RunError)
  /-- There is a report. -/
  | reported (report : Report Float)
  /-- There is what was asked for. -/
  | done

/-- The status that belongs to an ending. -/
def Ending.status : Ending → UInt8
  | failed _ => 2
  | reported report => if report.violations = [] then 0 else 1
  | done => 0

variable {first second : Schedule} {read : String → Except FileError String}

/-- The rules for how a command ends, where a parallel run is shared out as given. -/
inductive Ends (first second : Schedule) (read : String → Except FileError String) :
    Command → Ending → Prop where
  /-- The set to embed cannot be read. -/
  | embedSet {text : String} {penalty : Float} {compact : Bool} {e : SetError}
    (h : SetSpec.parse text = .error e) :
    Ends first second read (.embed text penalty compact) (.failed (.set e))
  /-- The set cannot be embedded. -/
  | embedRefused {text : String} {penalty : Float} {compact : Bool} {s : SetSpec}
    {e : EmbedError Float} (hs : SetSpec.parse text = .ok s)
    (h : Embedding.embed ⟨penalty⟩ s = .error e) :
    Ends first second read (.embed text penalty compact) (.failed (.embed e))
  /-- The set is embedded. -/
  | embedded {text : String} {penalty : Float} {compact : Bool} {s : SetSpec}
    {m : Model Variable Float} (hs : SetSpec.parse text = .ok s)
    (h : Embedding.embed ⟨penalty⟩ s = .ok m) :
    Ends first second read (.embed text penalty compact) .done
  /-- The set to verify cannot be read. -/
  | verifySet {text : String} {penalty : Float} {options : SolveOptions} {json : Bool}
    {e : SetError} (h : SetSpec.parse text = .error e) :
    Ends first second read (.verify text penalty options json) (.failed (.set e))
  /-- The set cannot be verified. -/
  | verifyRefused {text : String} {penalty : Float} {options : SolveOptions} {json : Bool}
    {s : SetSpec} {e : VerifyError Float} (hs : SetSpec.parse text = .ok s)
    (h : Verification.verifyBy (Solver.solveScheduled · first second) s ⟨penalty⟩ options.config =
      .error e) :
    Ends first second read (.verify text penalty options json) (.failed (.verify e))
  /-- The set is verified. -/
  | verified {text : String} {penalty : Float} {options : SolveOptions} {json : Bool}
    {s : SetSpec} {r : Report Float} (hs : SetSpec.parse text = .ok s)
    (h : Verification.verifyBy (Solver.solveScheduled · first second) s ⟨penalty⟩ options.config =
      .ok r) :
    Ends first second read (.verify text penalty options json) (.reported r)
  /-- The file to solve cannot be read. -/
  | noFile {path : String} {options : SolveOptions} {e : FileError} (h : read path = .error e) :
    Ends first second read (.solve path options) (.failed (.file path e))
  /-- The file holds no model. -/
  | noModel {path : String} {options : SolveOptions} {text : String} {fault : Json.Fault}
    (htext : read path = .ok text) (h : Model.ofText (V := String) text = .error fault) :
    Ends first second read (.solve path options) (.failed (.model fault))
  /-- The model cannot be solved. -/
  | solveRefused {path : String} {options : SolveOptions} {text : String} {m : Model String Float}
    {e : SolverError} (htext : read path = .ok text) (hm : Model.ofText text = .ok m)
    (h : Solver.prepare m options.config = .error e) :
    Ends first second read (.solve path options) (.failed (.solver e))
  /-- The model is solved. -/
  | solved {path : String} {options : SolveOptions} {text : String} {m : Model String Float}
    {s : Solver String Float} (htext : read path = .ok text) (hm : Model.ofText text = .ok m)
    (h : Solver.prepare m options.config = .ok s) :
    Ends first second read (.solve path options) .done

/-- Every command ends. -/
theorem exists_ends (first second : Schedule) (read : String → Except FileError String)
    (command : Command) : ∃ ending, Ends first second read command ending := by
  cases command with
  | embed text penalty compact =>
    cases hs : SetSpec.parse text with
    | error e => exact ⟨_, .embedSet hs⟩
    | ok s =>
      cases h : Embedding.embed ⟨penalty⟩ s with
      | error e => exact ⟨_, .embedRefused hs h⟩
      | ok m => exact ⟨_, .embedded hs h⟩
  | verify text penalty options json =>
    cases hs : SetSpec.parse text with
    | error e => exact ⟨_, .verifySet hs⟩
    | ok s =>
      cases h : Verification.verifyBy (Solver.solveScheduled · first second) s ⟨penalty⟩
        options.config with
      | error e => exact ⟨_, .verifyRefused hs h⟩
      | ok r => exact ⟨_, .verified hs h⟩
  | solve path options =>
    cases htext : read path with
    | error e => exact ⟨_, .noFile htext⟩
    | ok text =>
      cases hm : Model.ofText (V := String) text with
      | error fault => exact ⟨_, .noModel htext hm⟩
      | ok m =>
        cases h : Solver.prepare m options.config with
        | error e => exact ⟨_, .solveRefused htext hm h⟩
        | ok s => exact ⟨_, .solved htext hm h⟩

/-! ## What is left behind -/

/-- **A command that fails has printed nothing.** -/
theorem Ends.run_of_failed {command : Command} {e : RunError}
    (h : Ends first second read command (.failed e)) :
    command.run first second read = ⟨2, "", "error: " ++ e.message ++ "\n"⟩ := by
  cases h with
  | embedSet h =>
    simp only [Command.run, Command.program, embedProgram, h]
    rfl
  | embedRefused hs h =>
    simp only [Command.run, Command.program, embedProgram, hs, attempt, pure_bind, h]
    rfl
  | verifySet h =>
    simp only [Command.run, Command.program, verifyProgram, h]
    rfl
  | verifyRefused hs h =>
    simp only [Command.run, Command.program, verifyProgram, hs, attempt, pure_bind, h]
    rfl
  | noFile h =>
    simp only [Command.run, Command.program, solveProgram, h]
    rfl
  | noModel htext h =>
    simp only [Command.run, Command.program, solveProgram, htext, attempt, pure_bind, h]
    rfl
  | solveRefused htext hm h =>
    simp only [Command.run, Command.program, solveProgram, htext, hm, attempt, pure_bind, h]
    rfl

theorem Ends.run_of_done {command : Command} (h : Ends first second read command .done) :
    ∃ output, command.run first second read = ⟨0, output, ""⟩ := by
  cases h with
  | embedded hs h =>
    simp only [Command.run, Command.program, embedProgram, hs, attempt, pure_bind, h]
    exact ⟨_, rfl⟩
  | solved htext hm h =>
    simp only [Command.run, Command.program, solveProgram, htext, hm, attempt, pure_bind, h]
    exact ⟨_, rfl⟩

/-- What a verification prints: the report as JSON, or as text with the verdict below it. -/
def printedReport (json : Bool) (r : Report Float) : String :=
  if json then r.toText ++ "\n" else r.text ++ "\n\n" ++ verdictLine r ++ "\n"

theorem Ends.run_of_reported {text : String} {penalty : Float} {options : SolveOptions}
    {json : Bool} {r : Report Float}
    (h : Ends first second read (.verify text penalty options json) (.reported r)) :
    (Command.verify text penalty options json).run first second read =
      ⟨if r.passed then 0 else 1, printedReport json r, ""⟩ := by
  cases h with
  | verified hs h =>
    simp only [Command.run, Command.program, verifyProgram, hs, attempt, pure_bind, h]
    cases json with
    | true =>
      show Outcome.mk _ ("" ++ r.toText ++ "\n") "" = _
      rw [String.empty_append]
      rfl
    | false =>
      show Outcome.mk _ ("" ++ r.text ++ "\n" ++ "" ++ "\n" ++ verdictLine r ++ "\n") "" = _
      have hblank : "\n\n" = "\n" ++ "\n" := by decide
      simp only [printedReport, hblank, String.empty_append, String.append_empty,
        String.append_assoc, Bool.false_eq_true, if_false]

/-- The status is that of the ending. -/
theorem Ends.status_run {command : Command} {ending : Ending}
    (h : Ends first second read command ending) :
    (command.run first second read).status = ending.status := by
  cases ending with
  | failed e => rw [h.run_of_failed, Ending.status]
  | done =>
    obtain ⟨output, hrun⟩ := h.run_of_done
    rw [hrun, Ending.status]
  | reported r =>
    cases command with
    | verify text penalty options json =>
      rw [h.run_of_reported, Ending.status, Report.passed]
      cases r.violations <;> rfl
    | embed | solve => cases h

/-! ## Flags -/

/-- The command with the flags for the form of a report and for sharing out, as far as it has
them. -/
def Command.withFlags (json parallel : Bool) : Command → Command
  | .embed set basePenalty compact => .embed set basePenalty compact
  | .verify set basePenalty options _ => .verify set basePenalty { options with parallel } json
  | .solve path options => .solve path { options with parallel }

/-- A verification whose run is shared out in another way, or not, is the same but for what its
report says of that. -/
theorem verifyBy_withParallel_eq (first second first' second' : Schedule) (set : SetSpec)
    (embedding : EmbeddingConfig Float) (config : SolverConfig Float) (parallel : Bool) :
    Verification.verifyBy (Solver.solveScheduled · first' second') set embedding
        (config.withParallel parallel) =
      (Verification.verifyBy (Solver.solveScheduled · first second) set embedding config).map
        (Report.withParallel parallel) := by
  have hsolve : ∀ s : Solver Variable Float,
      (s.withParallel parallel).solveScheduled first' second' =
        (s.withParallel config.parallel).solveScheduled first second := by
    intro s
    rw [s.solveScheduled_withParallel, s.solveScheduled_withParallel]
  exact Verification.verifyBy_withParallel hsolve set embedding config

/-- **A command with other flags ends with the same status**, however its run is shared out. -/
theorem Ends.withFlags {command : Command} {ending : Ending}
    (h : Ends first second read command ending) (json parallel : Bool) (first' second' : Schedule) :
    ∃ ending', Ends first' second' read (command.withFlags json parallel) ending' ∧
      ending'.status = ending.status := by
  cases h with
  | embedSet h => exact ⟨_, .embedSet h, rfl⟩
  | embedRefused hs h => exact ⟨_, .embedRefused hs h, rfl⟩
  | embedded hs h => exact ⟨_, .embedded hs h, rfl⟩
  | verifySet h => exact ⟨_, .verifySet h, rfl⟩
  | @verifyRefused text penalty options _ s e hs h =>
    have hother := verifyBy_withParallel_eq first second first' second' s ⟨penalty⟩ options.config
      parallel
    rw [h] at hother
    exact ⟨_, .verifyRefused hs hother, rfl⟩
  | @verified text penalty options _ s r hs h =>
    have hother := verifyBy_withParallel_eq first second first' second' s ⟨penalty⟩ options.config
      parallel
    rw [h] at hother
    exact ⟨_, .verified hs hother, rfl⟩
  | noFile h => exact ⟨_, .noFile h, rfl⟩
  | noModel htext h => exact ⟨_, .noModel htext h, rfl⟩
  | @solveRefused path options text m e htext hm h =>
    have hother := Solver.prepare_withParallel m options.config parallel
    rw [h] at hother
    exact ⟨_, .solveRefused htext hm hother, rfl⟩
  | @solved path options text m s htext hm h =>
    have hother := Solver.prepare_withParallel m options.config parallel
    rw [h] at hother
    exact ⟨_, .solved htext hm hother, rfl⟩

end SetQubo.CommandLine
