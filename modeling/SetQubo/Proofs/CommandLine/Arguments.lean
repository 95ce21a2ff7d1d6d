import Mathlib.Data.List.TakeWhile
import SetQubo.CommandLine.Arguments
/-!
# The arguments of a command

The arguments of a command are parts in any order: operands, flags, and options with their values.
A part is written as one argument or as two, and some parts can be written in more than one way. So
what can be scanned is told in the direction of writing: exactly what is written for parts that the
command takes, with no flag and no option given twice.
-/

namespace SetQubo.CommandLine

variable {g : Grammar} {arg name : String}

/-! ## Single arguments -/

/-- What an argument is to a command. -/
inductive Kind where
  /-- The end of the options. -/
  | stop
  /-- An operand. -/
  | operand
  /-- A flag. -/
  | flag (name : String)
  /-- An option with its value. -/
  | valued (name value : String)
  /-- An option whose value follows. -/
  | option (name : String)
  /-- Nothing that the command knows. -/
  | unknown

/-- What an argument is to a command with a grammar, whatever stands around it. -/
def Kind.of (g : Grammar) (arg : String) : Kind :=
  if arg = "--" then .stop
  else if !looksLikeOption arg then .operand
  else if arg = "-v" then .flag verbose
  else
    match splitOption? arg with
    | none => .unknown
    | some (name, some value) => if g.options.contains name then .valued name value else .unknown
    | some (name, none) =>
      if g.flags.contains name then .flag name
      else if g.options.contains name then .option name
      else .unknown

/-- Arguments are scanned by what the first of them is. -/
theorem scan?_cons (g : Grammar) (arg : String) (rest : List String) :
    scan? g (arg :: rest) =
      match Kind.of g arg with
      | .stop => some ⟨rest, [], []⟩
      | .operand => (scan? g rest).map (·.addOperand arg)
      | .flag name => (scan? g rest).bind (·.addFlag? name)
      | .valued name value => (scan? g rest).bind (·.addValue? name value)
      | .option name =>
        match rest with
        | [] => none
        | value :: rest =>
          if looksLikeOption value then none else (scan? g rest).bind (·.addValue? name value)
      | .unknown => none := by
  rw [scan?.eq_def]
  dsimp only
  unfold Kind.of
  split
  · rfl
  · split
    · rfl
    · split
      · rfl
      · rcases splitOption? arg with _ | ⟨name, _ | value⟩
        · rfl
        · dsimp only
          split
          · rfl
          · split <;> rfl
        · dsimp only
          split <;> rfl

/-! ## Written forms -/

/-- A long option, with its value behind an equals sign if it has one. -/
def long (name : String) (value? : Option String) : String :=
  "--" ++ name ++ value?.elim "" ("=" ++ ·)

/-- What begins with a minus sign looks like an option, unless that is all. -/
theorem looksLikeOption_iff :
    looksLikeOption arg = true ↔ ['-'] <+: arg.toList ∧ arg ≠ "-" := by
  have hminus : "-".toList = ['-'] := rfl
  unfold looksLikeOption
  rw [Bool.and_eq_true, String.startsWith_string_iff, hminus, decide_eq_true_iff]

theorem looksLikeOption_long (name : String) (value? : Option String) :
    looksLikeOption (long name value?) = true := by
  rw [looksLikeOption_iff]
  refine ⟨by simp [long], fun h => ?_⟩
  have hlist := congrArg String.toList h
  simp [long] at hlist

/-- What is left in front of the first equals sign holds none, -/
theorem notMem_takeWhile (cs : List Char) : '=' ∉ cs.takeWhile (· ≠ '=') := by
  intro hmem
  have hne := List.mem_takeWhile_imp hmem
  rw [decide_eq_true_iff] at hne
  exact hne rfl

/-- and what is left from there on begins with it. -/
theorem eq_of_dropWhile_eq_cons {cs value : List Char} {c : Char}
    (h : cs.dropWhile (· ≠ '=') = c :: value) : c = '=' := by
  have hhead := List.head?_dropWhile_not (· ≠ '=') cs
  rw [h] at hhead
  simpa using hhead

/-- A long option is read into its name, which ends at the first equals sign, and the value behind
that. -/
theorem splitOption?_eq_some_iff {arg name : String} {value? : Option String} :
    splitOption? arg = some (name, value?) ↔
      '=' ∉ name.toList ∧ arg = long name value? := by
  constructor
  · intro h
    unfold splitOption? at h
    split at h
    · next cs hcs =>
      have hjoin := List.takeWhile_append_dropWhile (p := (· ≠ '=')) (l := cs)
      have hname := notMem_takeWhile cs
      split at h
      · next c value hdrop =>
        cases h
        rw [hdrop, eq_of_dropWhile_eq_cons hdrop] at hjoin
        refine ⟨by rwa [String.toList_ofList], String.toList_injective ?_⟩
        rw [hcs.trans (congrArg (fun cs => '-' :: '-' :: cs) hjoin.symm)]
        simp [long]
      · next hdrop =>
        cases h
        rw [hdrop, List.append_nil] at hjoin
        refine ⟨by rwa [String.toList_ofList], String.toList_injective ?_⟩
        rw [hcs.trans (congrArg (fun cs => '-' :: '-' :: cs) hjoin.symm)]
        simp [long]
    · cases h
  · intro h
    obtain ⟨hname, rfl⟩ := h
    have hpass : ∀ c ∈ name.toList, decide (c ≠ '=') = true := by
      intro c hc
      rw [decide_eq_true_iff]
      exact fun heq => hname (heq ▸ hc)
    cases value? with
    | none =>
      have hlist : (long name none).toList = '-' :: '-' :: name.toList := by simp [long]
      simp only [splitOption?, hlist, List.takeWhile_eq_self_iff.mpr hpass,
        List.dropWhile_eq_nil_iff.mpr hpass, String.ofList_toList]
    | some value =>
      have hlist : (long name (some value)).toList =
          '-' :: '-' :: (name.toList ++ '=' :: value.toList) := by simp [long]
      simp only [splitOption?, hlist, List.takeWhile_append_of_pos hpass,
        List.dropWhile_append_of_pos hpass]
      simp

/-- The names that a command knows can be told from each other, and from everything else. -/
structure Grammar.Plain (g : Grammar) : Prop where
  /-- No name is empty, -/
  ne_empty : ∀ name ∈ g.flags ++ g.options, name ≠ ""
  /-- nor holds an equals sign. -/
  no_equals : ∀ name ∈ g.flags ++ g.options, '=' ∉ name.toList
  /-- No option is a flag. -/
  disjoint : ∀ name ∈ g.options, name ∉ g.flags

/-- What an argument that a command knows is written as. -/
inductive Kind.Form (g : Grammar) : String → Kind → Prop where
  /-- Two minus signs end the options. -/
  | stop : Form g "--" .stop
  /-- An operand does not look like an option. -/
  | operand {arg : String} (h : looksLikeOption arg = false) : Form g arg .operand
  /-- The flag for verbose output has a letter. -/
  | letter : Form g "-v" (.flag verbose)
  /-- A flag of the command. -/
  | flag {name : String} (h : name ∈ g.flags) : Form g (long name none) (.flag name)
  /-- An option of the command, with its value. -/
  | valued {name value : String} (h : name ∈ g.options) :
    Form g (long name (some value)) (.valued name value)
  /-- An option of the command, without its value. -/
  | option {name : String} (h : name ∈ g.options) : Form g (long name none) (.option name)

/-- Whatever an argument is to a command, it is written as such, unless it is nothing known. -/
theorem Kind.form_of (h : Kind.of g arg ≠ .unknown) : Form g arg (Kind.of g arg) := by
  unfold Kind.of at h ⊢
  split
  · next hstop => exact hstop ▸ .stop
  · split
    · next hoperand => exact .operand (by simpa using hoperand)
    · split
      · next hletter => exact hletter ▸ .letter
      · rw [if_neg ‹_›, if_neg ‹_›, if_neg ‹_›] at h
        rcases hsplit : splitOption? arg with _ | ⟨name, _ | value⟩
        · rw [hsplit] at h
          exact absurd rfl h
        · rw [hsplit] at h
          obtain ⟨-, rfl⟩ := splitOption?_eq_some_iff.mp hsplit
          dsimp only at h ⊢
          by_cases hflag : g.flags.contains name = true
          · rw [if_pos hflag]
            exact .flag (List.contains_iff_mem.mp hflag)
          · by_cases hoption : g.options.contains name = true
            · rw [if_neg hflag, if_pos hoption]
              exact .option (List.contains_iff_mem.mp hoption)
            · rw [if_neg hflag, if_neg hoption] at h
              exact absurd rfl h
        · rw [hsplit] at h
          obtain ⟨-, rfl⟩ := splitOption?_eq_some_iff.mp hsplit
          dsimp only at h ⊢
          by_cases hoption : g.options.contains name = true
          · rw [if_pos hoption]
            exact .valued (List.contains_iff_mem.mp hoption)
          · rw [if_neg hoption] at h
            exact absurd rfl h

theorem long_ne_stop (h : name ≠ "") (value? : Option String) : long name value? ≠ "--" := by
  intro heq
  have hlist := congrArg String.toList heq
  simp [long] at hlist
  exact h hlist.1

theorem long_ne_letter (name : String) (value? : Option String) : long name value? ≠ "-v" := by
  intro heq
  have hlist := congrArg String.toList heq
  simp [long] at hlist

/-- What a long option is to a command is told by its name. -/
theorem Kind.of_long (hne : name ≠ "") (hname : '=' ∉ name.toList) (value? : Option String) :
    Kind.of g (long name value?) =
      match value? with
      | some value => if g.options.contains name then .valued name value else .unknown
      | none =>
        if g.flags.contains name then .flag name
        else if g.options.contains name then .option name
        else .unknown := by
  have hsplit : splitOption? (long name value?) = some (name, value?) :=
    splitOption?_eq_some_iff.mpr ⟨hname, rfl⟩
  unfold Kind.of
  rw [if_neg (long_ne_stop hne _), looksLikeOption_long, if_neg (by decide),
    if_neg (long_ne_letter _ _), hsplit]
  cases value? with
  | none => rfl
  | some value => rfl

/-- What is written as something known is that to a command. -/
theorem Kind.Form.kind_eq (hg : g.Plain) {kind : Kind} (h : Form g arg kind) :
    Kind.of g arg = kind := by
  cases h with
  | stop => rfl
  | operand h =>
    have hstop : arg ≠ "--" := by
      rintro rfl
      simp [looksLikeOption] at h
    unfold Kind.of
    rw [if_neg hstop, h]
    rfl
  | letter => simp [Kind.of, looksLikeOption]
  | @flag name h =>
    have hmem : name ∈ g.flags ++ g.options := List.mem_append_left _ h
    rw [Kind.of_long (hg.ne_empty _ hmem) (hg.no_equals _ hmem)]
    exact if_pos (List.contains_iff_mem.mpr h)
  | @valued name value h =>
    have hmem : name ∈ g.flags ++ g.options := List.mem_append_right _ h
    rw [Kind.of_long (hg.ne_empty _ hmem) (hg.no_equals _ hmem)]
    exact if_pos (List.contains_iff_mem.mpr h)
  | @option name h =>
    have hmem : name ∈ g.flags ++ g.options := List.mem_append_right _ h
    have hflag : ¬g.flags.contains name = true := mt List.contains_iff_mem.mp (hg.disjoint _ h)
    rw [Kind.of_long (hg.ne_empty _ hmem) (hg.no_equals _ hmem)]
    exact (if_neg hflag).trans (if_pos (List.contains_iff_mem.mpr h))

/-! ## Named values -/

section lookup
variable {values : List (String × String)} {text : String}

/-- No value is found under a name exactly if the name is not there. -/
theorem lookup_eq_none_iff :
    values.lookup name = none ↔ name ∉ values.map Prod.fst := by
  rw [List.lookup_eq_none_iff, List.mem_map]
  simp only [bne_iff_ne, ne_eq, not_exists, not_and]
  exact ⟨fun h p hp heq => h p hp heq.symm, fun h p hp heq => h p hp heq.symm⟩

/-- If no name is there twice, every value is found under its name. -/
theorem lookup_eq_some_iff (hnodup : (values.map Prod.fst).Nodup) :
    values.lookup name = some text ↔ (name, text) ∈ values := by
  induction values with
  | nil => simp
  | cons v values ih =>
    obtain ⟨other, value⟩ := v
    obtain ⟨hnew, hrest⟩ := List.nodup_cons.mp hnodup
    rw [List.lookup_cons, List.mem_cons, Prod.mk.injEq]
    by_cases hname : name = other
    · subst hname
      have hnone : (name, text) ∉ values := fun hmem => hnew (List.mem_map.mpr ⟨_, hmem, rfl⟩)
      simp [hnone, eq_comm]
    · rw [beq_false_of_ne hname]
      simp [hname, ih hrest]

end lookup

namespace Scanned

variable {s t : Scanned} {value : String}

theorem addFlag?_eq_some_iff : s.addFlag? name = some t ↔
    name ∉ s.flags ∧ { s with flags := name :: s.flags } = t := by
  unfold addFlag?
  rw [← List.contains_iff_mem]
  split
  · next h => simp only [h, not_true, false_and, reduceCtorEq]
  · next h => simp only [h, Bool.false_eq_true, not_false_iff, true_and, Option.some.injEq]

theorem addValue?_eq_some_iff : s.addValue? name value = some t ↔
    name ∉ s.values.map Prod.fst ∧ { s with values := (name, value) :: s.values } = t := by
  unfold addValue?
  rw [← lookup_eq_none_iff]
  cases s.values.lookup name with
  | none => simp
  | some _ => simp

end Scanned

/-! ## Parts -/

/-- A part of the arguments of a command. -/
inductive Part where
  /-- An operand. -/
  | operand (text : String)
  /-- The flag for verbose output, by its letter. -/
  | letter
  /-- A flag. -/
  | flag (name : String)
  /-- An option with its value behind an equals sign. -/
  | joined (name value : String)
  /-- An option with its value as an argument of its own. -/
  | apart (name value : String)

namespace Part

/-- The arguments that a part is written as. -/
def written : Part → List String
  | operand text => [text]
  | letter => ["-v"]
  | flag name => [long name none]
  | joined name value => [long name (some value)]
  | apart name value => [long name none, value]

/-- The operand that a part gives. -/
def operand? : Part → Option String
  | operand text => some text
  | _ => none

/-- The flag that a part gives. -/
def flag? : Part → Option String
  | letter => some verbose
  | flag name => some name
  | _ => none

/-- The option that a part gives, with its value. -/
def value? : Part → Option (String × String)
  | joined name value => some (name, value)
  | apart name value => some (name, value)
  | _ => none

/-- A command takes a part. -/
inductive Admitted (g : Grammar) : Part → Prop where
  /-- An operand must not look like an option. -/
  | operand {text : String} (h : looksLikeOption text = false) : Admitted g (operand text)
  /-- The letter for verbose output is always taken. -/
  | letter : Admitted g letter
  /-- The flag must be one of the command. -/
  | flag {name : String} (h : name ∈ g.flags) : Admitted g (flag name)
  /-- The option must be one of the command, whatever is behind the equals sign. -/
  | joined {name value : String} (h : name ∈ g.options) : Admitted g (joined name value)
  /-- The option must be one of the command, and its value must not look like one. -/
  | apart {name value : String} (h : name ∈ g.options) (hvalue : looksLikeOption value = false) :
    Admitted g (apart name value)

/-- Adds what a part gives, unless that is there already. -/
def addTo? : Part → Scanned → Option Scanned
  | operand text, s => some (s.addOperand text)
  | letter, s => s.addFlag? verbose
  | flag name, s => s.addFlag? name
  | joined name value, s => s.addValue? name value
  | apart name value, s => s.addValue? name value

variable {part : Part} {s t : Scanned}

/-- A part can be added if what it gives is not there, and then stands in front. -/
theorem addTo?_eq_some_iff : part.addTo? s = some t ↔
    ((∀ name ∈ part.flag?, name ∉ s.flags) ∧
        ∀ name ∈ part.value?.map Prod.fst, name ∉ s.values.map Prod.fst) ∧
      Scanned.mk (part.operand?.toList ++ s.operands) (part.flag?.toList ++ s.flags)
        (part.value?.toList ++ s.values) = t := by
  cases part with
  | operand text => simp [addTo?, operand?, flag?, value?, Scanned.addOperand]
  | letter => simp [addTo?, operand?, flag?, value?, Scanned.addFlag?_eq_some_iff]
  | flag name => simp [addTo?, operand?, flag?, value?, Scanned.addFlag?_eq_some_iff]
  | joined name value => simp [addTo?, operand?, flag?, value?, Scanned.addValue?_eq_some_iff]
  | apart name value => simp [addTo?, operand?, flag?, value?, Scanned.addValue?_eq_some_iff]

/-- A part that a command takes is added to what is scanned behind it. -/
theorem Admitted.scan?_written_append (hg : g.Plain) (h : part.Admitted g)
    (args : List String) :
    scan? g (part.written ++ args) = (scan? g args).bind part.addTo? := by
  cases h with
  | operand h =>
    rw [written, List.singleton_append, scan?_cons, (Kind.Form.operand h).kind_eq hg]
    exact Option.map_eq_bind
  | letter =>
    rw [written, List.singleton_append, scan?_cons, Kind.Form.letter.kind_eq hg]
    rfl
  | flag h =>
    rw [written, List.singleton_append, scan?_cons, (Kind.Form.flag h).kind_eq hg]
    rfl
  | joined h =>
    rw [written, List.singleton_append, scan?_cons, (Kind.Form.valued h).kind_eq hg]
    rfl
  | apart h hvalue =>
    rw [written, List.cons_append, scan?_cons, (Kind.Form.option h).kind_eq hg]
    simp only [List.singleton_append, hvalue, Bool.false_eq_true, if_false]
    rfl

end Part

/-- What the first member of a list brings stands in front. -/
theorem filterMap_cons_eq {α β : Type} (f : α → Option β) (a : α) (l : List α) :
    (a :: l).filterMap f = (f a).toList ++ l.filterMap f := by
  cases h : f a with
  | none => simp [h]
  | some b => simp [h]

theorem nodup_toList_append {α : Type} {o : Option α} {l : List α} :
    (o.toList ++ l).Nodup ↔ (∀ a ∈ o, a ∉ l) ∧ l.Nodup := by
  cases o with
  | none => simp
  | some a => simp

/-- The arguments of a command. -/
structure Arguments where
  /-- The parts, up to the argument `--` if it is there. -/
  parts : List Part
  /-- The operands behind that. -/
  behind : Option (List String)

namespace Arguments

/-- What the arguments are written as. -/
def written (a : Arguments) : List String :=
  a.parts.flatMap Part.written ++ a.behind.elim [] ("--" :: ·)

/-- The operands, in order. -/
def operands (a : Arguments) : List String := a.parts.filterMap Part.operand? ++ a.behind.getD []

/-- The flags that are given, in order. -/
def flags (a : Arguments) : List String := a.parts.filterMap Part.flag?

/-- The options that are given, with their values, in order. -/
def values (a : Arguments) : List (String × String) := a.parts.filterMap Part.value?

/-- A command takes the arguments. -/
structure Admitted (g : Grammar) (a : Arguments) : Prop where
  /-- It takes every part. -/
  parts : ∀ part ∈ a.parts, part.Admitted g
  /-- No flag is given twice, -/
  flags : a.flags.Nodup
  /-- and no option. -/
  options : (a.values.map Prod.fst).Nodup

/-- The arguments with one more part in front. -/
def cons (part : Part) (a : Arguments) : Arguments := ⟨part :: a.parts, a.behind⟩

theorem written_cons (part : Part) (a : Arguments) :
    (a.cons part).written = part.written ++ a.written := by
  simp [cons, written]

variable {a : Arguments} {s : Scanned}

/-- What is scanned begins with what stands behind the argument `--`, and the parts are added to it
from the last one on. -/
theorem scan?_written (hg : g.Plain) (h : ∀ part ∈ a.parts, part.Admitted g) :
    scan? g a.written =
      a.parts.foldr (fun part s? => s?.bind part.addTo?) (some ⟨a.behind.getD [], [], []⟩) := by
  obtain ⟨parts, behind⟩ := a
  induction parts with
  | nil =>
    cases behind with
    | none => rfl
    | some operands =>
      show scan? g ("--" :: operands) = _
      rw [scan?_cons]
      rfl
  | cons part parts ih =>
    have hrest := ih fun p hp => h p (List.mem_cons_of_mem _ hp)
    have hwritten := written_cons part ⟨parts, behind⟩
    unfold cons at hwritten
    rw [hwritten, (h part List.mem_cons_self).scan?_written_append hg, hrest]
    rfl

/-- What the arguments come to, by their kinds. -/
def scanned (a : Arguments) : Scanned := ⟨a.operands, a.flags, a.values⟩

/-- The parts can be added one after the other exactly if nothing is given twice. -/
theorem foldr_addTo?_eq_some_iff :
    a.parts.foldr (fun part s? => s?.bind part.addTo?) (some ⟨a.behind.getD [], [], []⟩) = some s ↔
      (a.flags.Nodup ∧ (a.values.map Prod.fst).Nodup) ∧ a.scanned = s := by
  obtain ⟨parts, behind⟩ := a
  induction parts generalizing s with
  | nil => simp [scanned, operands, flags, values]
  | cons part parts ih =>
    have hoperands : operands ⟨part :: parts, behind⟩ =
        part.operand?.toList ++ operands ⟨parts, behind⟩ := by
      unfold operands
      rw [filterMap_cons_eq, List.append_assoc]
    have hflags : flags ⟨part :: parts, behind⟩ = part.flag?.toList ++ flags ⟨parts, behind⟩ :=
      filterMap_cons_eq _ _ _
    have hvalues : values ⟨part :: parts, behind⟩ = part.value?.toList ++ values ⟨parts, behind⟩ :=
      filterMap_cons_eq _ _ _
    have hnames : (values ⟨part :: parts, behind⟩).map Prod.fst =
        (part.value?.map Prod.fst).toList ++ (values ⟨parts, behind⟩).map Prod.fst := by
      rw [hvalues, List.map_append, Option.toList_map]
    rw [List.foldr_cons, Option.bind_eq_some_iff]
    simp only [ih, Part.addTo?_eq_some_iff, hflags, hnames, nodup_toList_append]
    constructor
    · intro h
      obtain ⟨_, ⟨⟨hf, hv⟩, rfl⟩, ⟨hnewf, hnewv⟩, rfl⟩ := h
      refine ⟨⟨⟨hnewf, hf⟩, hnewv, hv⟩, ?_⟩
      unfold scanned
      rw [hoperands, hflags, hvalues]
    · intro h
      obtain ⟨⟨⟨hnewf, hf⟩, hnewv, hv⟩, rfl⟩ := h
      refine ⟨_, ⟨⟨hf, hv⟩, rfl⟩, ⟨hnewf, hnewv⟩, ?_⟩
      unfold scanned
      rw [hoperands, hflags, hvalues]

/-- Whatever can be scanned is written for parts that the command takes. -/
theorem exists_written_eq {args : List String} {s : Scanned} (h : scan? g args = some s) :
    ∃ a : Arguments, (∀ part ∈ a.parts, part.Admitted g) ∧ a.written = args := by
  -- A part in front is put to what the arguments behind it are written for.
  have hcons : ∀ {part : Part} {args : List String}, part.Admitted g →
      (∃ a : Arguments, (∀ part ∈ a.parts, part.Admitted g) ∧ a.written = args) →
      ∃ a : Arguments, (∀ part ∈ a.parts, part.Admitted g) ∧ a.written = part.written ++ args := by
    intro part args hpart hargs
    obtain ⟨a, ha, rfl⟩ := hargs
    exact ⟨a.cons part, List.forall_mem_cons.mpr ⟨hpart, ha⟩, written_cons part a⟩
  match args with
  | [] => exact ⟨⟨[], none⟩, by simp, rfl⟩
  | arg :: args =>
    rw [scan?_cons] at h
    have hform := @Kind.form_of g arg
    cases hkind : Kind.of g arg with
    | stop =>
      rw [hkind] at hform
      cases hform Kind.noConfusion
      exact ⟨⟨[], some args⟩, by simp, rfl⟩
    | operand =>
      rw [hkind] at h hform
      obtain ⟨t, ht, -⟩ := Option.map_eq_some_iff.mp h
      cases hform Kind.noConfusion with
      | operand hoperand => exact hcons (.operand hoperand) (exists_written_eq ht)
    | flag name =>
      rw [hkind] at h hform
      obtain ⟨t, ht, -⟩ := Option.bind_eq_some_iff.mp h
      cases hform Kind.noConfusion with
      | letter => exact hcons .letter (exists_written_eq ht)
      | flag hflag => exact hcons (.flag hflag) (exists_written_eq ht)
    | valued name value =>
      rw [hkind] at h hform
      obtain ⟨t, ht, -⟩ := Option.bind_eq_some_iff.mp h
      cases hform Kind.noConfusion with
      | valued hoption => exact hcons (.joined hoption) (exists_written_eq ht)
    | option name =>
      rw [hkind] at h hform
      match args with
      | [] => cases h
      | value :: args =>
        dsimp only at h
        split at h
        · cases h
        · next hvalue =>
          obtain ⟨t, ht, -⟩ := Option.bind_eq_some_iff.mp h
          cases hform Kind.noConfusion with
          | option hoption =>
            exact hcons (.apart hoption (Bool.not_eq_true _ ▸ hvalue)) (exists_written_eq ht)
    | unknown =>
      rw [hkind] at h
      cases h

/-- **Which arguments can be scanned, and as what.** -/
theorem scan?_eq_some_iff (hg : g.Plain) {args : List String} :
    scan? g args = some s ↔ ∃ a : Arguments, a.Admitted g ∧ a.written = args ∧ a.scanned = s := by
  constructor
  · intro h
    obtain ⟨a, hparts, rfl⟩ := exists_written_eq h
    rw [scan?_written hg hparts, foldr_addTo?_eq_some_iff] at h
    obtain ⟨⟨hflags, hoptions⟩, hscanned⟩ := h
    exact ⟨a, ⟨hparts, hflags, hoptions⟩, rfl, hscanned⟩
  · intro h
    obtain ⟨a, ha, rfl, hscanned⟩ := h
    rw [scan?_written hg ha.parts, foldr_addTo?_eq_some_iff]
    exact ⟨⟨ha.flags, ha.options⟩, hscanned⟩

end Arguments

end SetQubo.CommandLine
