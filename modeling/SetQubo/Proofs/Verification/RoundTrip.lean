import Mathlib
import SetQubo.Proofs.Double.Approximation
import SetQubo.Proofs.Json.Restoring
import SetQubo.Verification.Json
/-!
# Results and reports read back from their texts

The text of a result or a report is read back as the same value, whatever strings it holds and
whatever violations in whatever order, if all of its doubles are finite. If some are not, then
`null` stands at their places, and nothing is read.

A violation names its kind in a member next to those that belong to it. The members may stand in any
order: the one with the kind is taken out, and the kind says which fields the others are read as.
-/

namespace SetQubo

open Json (Place Record Restores Shows within withinItems)

/-! ## Forms that can be held in memory -/

namespace Json

theorem storable_record {depth : Nat} {members : List (String × Json)}
    (h : ∀ m ∈ members, m.2.storable depth = true) :
    (record members).storable (depth + 1) = true := by
  show storableMembers depth _ = true
  induction members with
  | nil => rfl
  | cons m members ih =>
    obtain ⟨hm, hmembers⟩ := List.forall_mem_cons.mp h
    show (m.2.storable depth && storableMembers depth _) = true
    rw [hm, ih hmembers]
    rfl

theorem storable_ofString (s : String) (depth : Nat) : (ofString s).storable depth = true := rfl

theorem grammatical_ofString (s : String) : (ofString s).grammatical = true := rfl

theorem grammatical_ofNat (n : Nat) : (ofNat n).grammatical = true := rfl

theorem storable_ofFloat {x : Float} (h : x.isFinite = true → Number.Keeps x) (depth : Nat) :
    (ofFloat x).storable depth = true := by
  cases hx : x.isFinite with
  | true =>
    obtain ⟨n, hn, hread⟩ := h hx
    rw [ofFloat, hn]
    show n.toFloat.isFinite = true
    rw [hread, hx]
  | false =>
    rw [(ofFloat_eq_null_iff x).mpr hx]
    rfl

theorem storable_ofWord (n : UInt64) (depth : Nat) : (ofNat n.toNat).storable depth = true := by
  show (Decimal.nearest n.toNat 0).isFinite = true
  have hlength : (Nat.toDigits 10 n.toNat).length ≤ 20 :=
    Nat.toDigits_length 10 n.toNat 20 (by norm_num) (n.toNat_lt.trans (by norm_num))
  -- With at most twenty digits the point is too near for an infinity or a zero.
  unfold Decimal.nearest
  dsimp only
  split
  · rfl
  · rw [if_neg (by omega), if_neg (by omega)]
    exact Double.isFinite_ofNat n.toNat_lt

theorem grammatical_ofFloat (x : Float) : (ofFloat x).grammatical = true := by
  unfold ofFloat
  split <;> rfl

end Json

/-! ## Violations -/

namespace Violation

/-- The doubles of a violation, and where they stand in its form. -/
def doubles : Violation Float → List (List Place × Float)
  | optimalNotDecoded _ energy _ | decodedNotOptimal _ energy _ =>
    [([.member "energy"], energy)]
  | missingElement _ | duplicateElement _ _ => []

/-- All members of the form of a violation. -/
def allMembers (v : Violation Float) : List (String × Json) :=
  ("kind", .ofString v.kind) :: v.members

variable {v : Violation Float} {members : List (String × Json)}

theorem nodup_allMembers (v : Violation Float) : (v.allMembers.map Prod.fst).Nodup := by
  cases v <;> simp [allMembers, Violation.members]

/-- No member of a violation is nested or breaks the grammar. -/
theorem plain_allMembers (hkeeps : ∀ d ∈ v.doubles, d.2.isFinite = true → Json.Number.Keeps d.2)
    (depth : Nat) :
    ∀ m ∈ v.allMembers, m.2.storable depth = true ∧ m.2.grammatical = true := by
  cases v with
  | optimalNotDecoded _ energy _ | decodedNotOptimal _ energy _ =>
    have henergy :=
      Json.storable_ofFloat (hkeeps ([.member "energy"], energy) List.mem_cons_self) depth
    simp [allMembers, Violation.members, henergy, Json.grammatical_ofFloat, Json.storable_ofString,
      Json.grammatical_ofString]
  | missingElement element =>
    simp [allMembers, Violation.members, Json.storable_ofString, Json.grammatical_ofString]
  | duplicateElement element count =>
    simp [allMembers, Violation.members, Json.storable_ofString, Json.grammatical_ofString,
      Json.storable_ofWord, Json.grammatical_ofNat]

/-- The kind is taken out of an object, wherever it stands. -/
theorem untag_record (hperm : members.Perm v.allMembers)
    (hkeeps : ∀ d ∈ v.doubles, d.2.isFinite = true → Json.Number.Keeps d.2) :
    ∃ others, others.Perm v.members ∧
      untag (.record members) = .ok (v.kind, .record others) := by
  refine ⟨members.filter fun m => m.1 ≠ "kind", ?_, ?_⟩
  · have hothers : v.allMembers.filter (fun m => m.1 ≠ "kind") = v.members := by
      cases v <;> simp [allMembers, Violation.members]
    rw [← hothers]
    exact hperm.filter _
  · have hnodup : (members.map Prod.fst).Nodup :=
      (hperm.map Prod.fst).nodup_iff.mpr v.nodup_allMembers
    have hkind : ("kind", Json.ofString v.kind) ∈ members :=
      hperm.mem_iff.mpr List.mem_cons_self
    -- The tag is read as a record of one field would be, to which the other members are strays.
    have hread := (Record.restores_field "kind" hkind (Json.restores_ofString v.kind)).decode hnodup
      fun m hm => Or.inr (plain_allMembers hkeeps 0 m (hperm.mem_iff.mp hm)).2
    have htag := (hread v.kind).mpr ⟨trivial, rfl⟩
    unfold Json.record at htag ⊢
    simp only [untag, htag, bind, Except.bind, pure, Except.pure]
    rw [List.filter_map]
    simp only [Function.comp_def, ne_eq, Option.some.injEq]

/-- The members next to the kind are read as the fields of that kind. -/
theorem restores_members (hperm : members.Perm v.members)
    (hkeeps : ∀ d ∈ v.doubles, d.2.isFinite = true → Json.Number.Keeps d.2) :
    ∃ record, record? v.kind = some record ∧
      Restores record.decode (.record members) v (∀ d ∈ v.doubles, d.2.isFinite = true) := by
  have hnodup : (members.map Prod.fst).Nodup :=
    (hperm.map Prod.fst).nodup_iff.mpr (List.nodup_cons.mp v.nodup_allMembers).2
  have hplain : ∀ m ∈ members, m.2.grammatical = true := fun m hm =>
    (plain_allMembers hkeeps 0 m (List.mem_cons_of_mem _ (hperm.mem_iff.mp hm))).2
  -- A field is read from the member with its name, which is one of those of the violation.
  have hfield : ∀ {β : Type} (name : String) {form : Json} {decode : Json.Reader β} {b : β}
      {p : Prop}, (name, form) ∈ v.members → Restores decode form b p →
        (Record.field name decode).Restores members b p :=
    fun name _ _ _ _ hmem => Record.restores_field name (hperm.mem_iff.mpr hmem)
  have htext : ∀ name s : String, (name, .ofString s) ∈ v.members →
      (Record.field name Json.toText).Restores members s True :=
    fun name s hmem => hfield name hmem (Json.restores_ofString s)
  cases v with
  | optimalNotDecoded assignment energy reason =>
    have henergy := hfield "energy" (by simp [Violation.members])
      (Json.restores_ofFloat (hkeeps ([.member "energy"], energy) List.mem_cons_self))
    have hassignment := htext "assignment" assignment (by simp [Violation.members])
    have hreason := htext "reason" reason (by simp [Violation.members])
    refine ⟨_, rfl, ((((hassignment.map optimalNotDecoded).seq henergy).seq hreason).decode hnodup
      fun m hm => Or.inr (hplain m hm)).congr ?_⟩
    simp [doubles]
  | decodedNotOptimal assignment energy element =>
    have henergy := hfield "energy" (by simp [Violation.members])
      (Json.restores_ofFloat (hkeeps ([.member "energy"], energy) List.mem_cons_self))
    have hassignment := htext "assignment" assignment (by simp [Violation.members])
    have helement := htext "element" element (by simp [Violation.members])
    refine ⟨_, rfl, ((((hassignment.map decodedNotOptimal).seq henergy).seq helement).decode hnodup
      fun m hm => Or.inr (hplain m hm)).congr ?_⟩
    simp [doubles]
  | missingElement element =>
    have helement := htext "element" element (by simp [Violation.members])
    refine ⟨_, rfl, ((helement.map missingElement).decode hnodup
      fun m hm => Or.inr (hplain m hm)).congr ?_⟩
    simp [doubles]
  | duplicateElement element count =>
    have helement := htext "element" element (by simp [Violation.members])
    have hcount := hfield "count" (by simp [Violation.members])
      (Json.restores_ofWord count)
    refine ⟨_, rfl, (((helement.map duplicateElement).seq hcount).decode hnodup
      fun m hm => Or.inr (hplain m hm)).congr ?_⟩
    simp [doubles]

/-- **A violation is read whatever the order of its members**, if its energy is finite. -/
theorem restores (hperm : members.Perm v.allMembers)
    (hkeeps : ∀ d ∈ v.doubles, d.2.isFinite = true → Json.Number.Keeps d.2) (depth : Nat) :
    Restores (ofJson (depth + 1)) (.record members) v (∀ d ∈ v.doubles, d.2.isFinite = true) := by
  intro b
  obtain ⟨others, hothers, huntag⟩ := untag_record hperm hkeeps
  obtain ⟨record, hrecord, hread⟩ := restores_members hothers hkeeps
  have hstorable := Json.storable_record fun m hm =>
    (plain_allMembers hkeeps depth m (hperm.mem_iff.mp hm)).1
  rw [← hread b]
  simp only [ofJson, hstorable, huntag, hrecord, bind, Except.bind, if_true]

theorem shows_toJson (v : Violation Float) : Shows v.toJson v.doubles := by
  cases v with
  | optimalNotDecoded assignment energy reason =>
    refine .record_skip (.record_skip ?_ "assignment" rfl) "kind" rfl
    exact (Json.shows_ofFloat energy).record_cons
      (.record_skip Json.shows_record_nil "reason" rfl) "energy"
  | decodedNotOptimal assignment energy element =>
    refine .record_skip (.record_skip ?_ "assignment" rfl) "kind" rfl
    exact (Json.shows_ofFloat energy).record_cons
      (.record_skip Json.shows_record_nil "element" rfl) "energy"
  | missingElement element => rfl
  | duplicateElement element count => rfl

theorem wellFormed_toJson (v : Violation Float) : v.toJson.WellFormed := by
  apply Json.wellFormed_record
  cases v <;> simp [Violation.members, Json.wellFormed_ofFloat, Json.wellFormed_ofNat,
    Json.ofString, Json.WellFormed.string]

end Violation

/-! ## Settings -/

namespace SolverConfig

/-- The doubles of the settings, and where they stand in their form. -/
def doubles (c : SolverConfig Float) : List (List Place × Float) :=
  [([.member "rel_tol"], c.relativeTolerance), ([.member "abs_tol"], c.absoluteTolerance)]

variable {c : SolverConfig Float}

theorem restores (hkeeps : ∀ d ∈ c.doubles, d.2.isFinite = true → Json.Number.Keeps d.2) :
    Restores record.decode c.toJson c (∀ d ∈ c.doubles, d.2.isFinite = true) := by
  have hrelative := Json.restores_ofFloat
    (hkeeps ([.member "rel_tol"], c.relativeTolerance) (by simp [doubles]))
  have habsolute := Json.restores_ofFloat
    (hkeeps ([.member "abs_tol"], c.absoluteTolerance) (by simp [doubles]))
  refine ((Record.restores_field "max_variables" (by simp)
      (Json.restores_ofWord c.maxVariables)).map SolverConfig.mk
    |>.seq (Record.restores_field "rel_tol" (by simp) hrelative)
    |>.seq (Record.restores_field "abs_tol" (by simp) habsolute)
    |>.seq (Record.restores_field "parallel" (by simp) (Json.restores_bool c.parallel))
    |>.decode (by simp) fun m hm => Or.inl (List.mem_map_of_mem hm)).congr ?_
  simp [doubles]

theorem shows_toJson (c : SolverConfig Float) : Shows c.toJson c.doubles := by
  refine .record_skip ?_ "max_variables" rfl
  refine (Json.shows_ofFloat c.relativeTolerance).record_cons ?_ "rel_tol"
  refine (Json.shows_ofFloat c.absoluteTolerance).record_cons ?_ "abs_tol"
  exact .record_skip Json.shows_record_nil "parallel" rfl

theorem wellFormed_toJson (c : SolverConfig Float) : c.toJson.WellFormed := by
  apply Json.wellFormed_record
  simp [Json.wellFormed_ofFloat, Json.wellFormed_ofNat, Json.WellFormed.bool]

end SolverConfig

namespace EmbeddingConfig

/-- The double of the settings, and where it stands in their form. -/
def doubles (c : EmbeddingConfig Float) : List (List Place × Float) :=
  [([.member "base_penalty"], c.basePenalty)]

variable {c : EmbeddingConfig Float}

theorem restores (hkeeps : ∀ d ∈ c.doubles, d.2.isFinite = true → Json.Number.Keeps d.2) :
    Restores record.decode c.toJson c (∀ d ∈ c.doubles, d.2.isFinite = true) := by
  have hpenalty := Json.restores_ofFloat
    (hkeeps ([.member "base_penalty"], c.basePenalty) (by simp [doubles]))
  refine ((Record.restores_field "base_penalty" (by simp) hpenalty).map EmbeddingConfig.mk
    |>.decode (by simp) fun m hm => Or.inl (List.mem_map_of_mem hm)).congr ?_
  simp [doubles]

theorem shows_toJson (c : EmbeddingConfig Float) : Shows c.toJson c.doubles :=
  (Json.shows_ofFloat c.basePenalty).record_cons Json.shows_record_nil "base_penalty"

theorem wellFormed_toJson (c : EmbeddingConfig Float) : c.toJson.WellFormed := by
  apply Json.wellFormed_record
  simp [Json.wellFormed_ofFloat]

end EmbeddingConfig

/-! ## Results -/

namespace SolveResult

/-- The doubles of a result, and where they stand in its form. -/
def doubles (r : SolveResult Float) : List (List Place × Float) :=
  [([.member "best_obj"], r.best), ([.member "second_best_obj"], r.secondBest),
    ([.member "gap"], r.gap)]

variable {r : SolveResult Float}

theorem restores (hkeeps : ∀ d ∈ r.doubles, d.2.isFinite = true → Json.Number.Keeps d.2) :
    Restores record.decode r.toJson r (∀ d ∈ r.doubles, d.2.isFinite = true) := by
  have hsolutions := Json.restores_ofList (Json.ofList fun x : UInt8 => .ofNat x.toNat) r.solutions
    fun row _ => Json.restores_ofList _ row fun x _ => Json.restores_ofByte x
  have hbest := Json.restores_ofFloat
    (hkeeps ([.member "best_obj"], r.best) (by simp [doubles]))
  have hsecond := Json.restores_ofFloat
    (hkeeps ([.member "second_best_obj"], r.secondBest) (by simp [doubles]))
  have hgap := Json.restores_ofFloat
    (hkeeps ([.member "gap"], r.gap) (by simp [doubles]))
  refine ((Record.restores_field "solutions" (by simp) hsolutions).map SolveResult.mk
    |>.seq (Record.restores_field "best_obj" (by simp) hbest)
    |>.seq (Record.restores_field "second_best_obj" (by simp) hsecond)
    |>.seq (Record.restores_field "gap" (by simp) hgap)
    |>.seq (Record.restores_field "assignments_evaluated" (by simp)
      (Json.restores_ofWord r.evaluated))
    |>.decode (by simp) fun m hm => Or.inl (List.mem_map_of_mem hm)).congr ?_
  simp [doubles, and_assoc]

theorem shows_toJson (r : SolveResult Float) : Shows r.toJson r.doubles := by
  refine .record_skip ?_ "solutions"
    (Json.nulls_ofList_eq_nil _ fun _ => Json.nulls_ofList_eq_nil _ fun _ => rfl)
  refine (Json.shows_ofFloat r.best).record_cons ?_ "best_obj"
  refine (Json.shows_ofFloat r.secondBest).record_cons ?_ "second_best_obj"
  refine (Json.shows_ofFloat r.gap).record_cons ?_ "gap"
  exact .record_skip Json.shows_record_nil "assignments_evaluated" rfl

theorem wellFormed_toJson (r : SolveResult Float) : r.toJson.WellFormed := by
  have hsolutions : (Json.ofList (Json.ofList fun x => .ofNat x.toNat) r.solutions).WellFormed :=
    Json.wellFormed_ofList fun row _ =>
      Json.wellFormed_ofList fun x _ => Json.wellFormed_ofNat x.toNat
  apply Json.wellFormed_record
  simp [hsolutions, Json.wellFormed_ofFloat, Json.wellFormed_ofNat]

end SolveResult

/-! ## Reports -/

namespace Report

/-- The doubles of a report, and where they stand in its form. -/
def doubles (r : Report Float) : List (List Place × Float) :=
  within (.member "embedding") r.embedding.doubles ++ within (.member "solver") r.solver.doubles ++
    [([.member "best_obj"], r.best), ([.member "second_best_obj"], r.secondBest),
      ([.member "gap"], r.gap)] ++
    within (.member "violations") (withinItems Violation.doubles r.violations)

variable {r : Report Float}

/-- What holds of all doubles of a report holds of all doubles of its parts. -/
theorem forall_doubles {P : Float → Prop} : (∀ d ∈ r.doubles, P d.2) ↔
    (∀ d ∈ r.embedding.doubles, P d.2) ∧ (∀ d ∈ r.solver.doubles, P d.2) ∧
      P r.best ∧ P r.secondBest ∧ P r.gap ∧ ∀ v ∈ r.violations, ∀ d ∈ v.doubles, P d.2 := by
  unfold doubles
  rw [List.forall_mem_append, List.forall_mem_append, List.forall_mem_append, Json.forall_within,
    Json.forall_within, Json.forall_within, Json.forall_withinItems]
  simp [and_assoc]

theorem restores (hkeeps : ∀ d ∈ r.doubles, d.2.isFinite = true → Json.Number.Keeps d.2) :
    Restores record.decode r.toJson r (∀ d ∈ r.doubles, d.2.isFinite = true) := by
  obtain ⟨hembedding, hsolver, hbest, hsecond, hgap, hviolations⟩ :=
    (forall_doubles (P := fun x => x.isFinite = true → Json.Number.Keeps x)).mp hkeeps
  have hnames := Json.restores_ofList _ r.variableNames fun s _ => Json.restores_ofString s
  have hrecovered := Json.restores_ofList _ r.recovered fun s _ => Json.restores_ofString s
  have hlist := Json.restores_ofList Violation.toJson r.violations fun v hv =>
    Violation.restores (.refl v.allMembers) (hviolations v hv) 124
  refine ((Record.restores_field "set" (by simp) (Json.restores_ofString r.set)).map
      Report.mk
    |>.seq (Record.restores_field "embedding" (by simp)
      (EmbeddingConfig.restores hembedding))
    |>.seq (Record.restores_field "solver" (by simp) (SolverConfig.restores hsolver))
    |>.seq (Record.restores_field "variables" (by simp) hnames)
    |>.seq (Record.restores_field "best_obj" (by simp) (Json.restores_ofFloat hbest))
    |>.seq (Record.restores_field "second_best_obj" (by simp)
      (Json.restores_ofFloat hsecond))
    |>.seq (Record.restores_field "gap" (by simp) (Json.restores_ofFloat hgap))
    |>.seq (Record.restores_field "assignments_checked" (by simp)
      (Json.restores_ofWord r.checked))
    |>.seq (Record.restores_field "recovered" (by simp) hrecovered)
    |>.seq (Record.restores_field "violations" (by simp) hlist)
    |>.decode (by simp) fun m hm => Or.inl (List.mem_map_of_mem hm)).congr ?_
  rw [forall_doubles (P := fun x => x.isFinite = true)]
  simp [and_assoc]

theorem shows_toJson (r : Report Float) : Shows r.toJson r.doubles := by
  have hviolations := (Json.shows_ofList r.violations Violation.shows_toJson).record_cons
    Json.shows_record_nil "violations"
  rw [List.append_nil] at hviolations
  unfold doubles
  rw [List.append_assoc, List.append_assoc]
  refine .record_skip ?_ "set" rfl
  refine r.embedding.shows_toJson.record_cons ?_ "embedding"
  refine r.solver.shows_toJson.record_cons ?_ "solver"
  refine .record_skip ?_ "variables" (Json.nulls_ofList_eq_nil _ fun _ => rfl)
  refine (Json.shows_ofFloat r.best).record_cons ?_ "best_obj"
  refine (Json.shows_ofFloat r.secondBest).record_cons ?_ "second_best_obj"
  refine (Json.shows_ofFloat r.gap).record_cons ?_ "gap"
  refine .record_skip ?_ "assignments_checked" rfl
  exact .record_skip hviolations "recovered" (Json.nulls_ofList_eq_nil _ fun _ => rfl)

theorem wellFormed_toJson (r : Report Float) : r.toJson.WellFormed := by
  have htexts : ∀ xs : List String, (Json.ofList Json.ofString xs).WellFormed := fun xs =>
    Json.wellFormed_ofList fun s _ => Json.WellFormed.string s
  have hviolations : (Json.ofList Violation.toJson r.violations).WellFormed :=
    Json.wellFormed_ofList fun v _ => v.wellFormed_toJson
  have hset := Json.WellFormed.string r.set
  apply Json.wellFormed_record
  simp only [List.forall_mem_cons]
  exact ⟨hset, r.embedding.wellFormed_toJson, r.solver.wellFormed_toJson, htexts _,
    Json.wellFormed_ofFloat _, Json.wellFormed_ofFloat _, Json.wellFormed_ofFloat _,
    Json.wellFormed_ofNat _, htexts _, hviolations, List.forall_mem_nil _⟩

end Report

/-! ## Texts -/

/-- **The texts of results and reports tell all that is in them**, given that the digits of finite
doubles read back. -/
theorem results_and_reports_told :
    (∀ r : SolveResult Float, (∀ d ∈ r.doubles, d.2.isFinite = true → Json.Number.Keeps d.2) →
      Json.Tells SolveResult.record.decode r.toText r.toJson r.doubles r) ∧
    ∀ r : Report Float, (∀ d ∈ r.doubles, d.2.isFinite = true → Json.Number.Keeps d.2) →
      Json.Tells Report.record.decode r.toText r.toJson r.doubles r :=
  ⟨fun r hkeeps => (SolveResult.restores hkeeps).tells r.shows_toJson r.wellFormed_toJson,
    fun r hkeeps => (Report.restores hkeeps).tells r.shows_toJson r.wellFormed_toJson⟩

/-- A result without a second level, whose gap is infinite. -/
def SolveResult.unbounded : SolveResult Float where
  solutions := [[0, 1], [1, 0]]
  best := -2.5
  secondBest := 1 / 0
  gap := 1 / 0
  evaluated := 4

/-- A report with a violation of each kind, and with characters to escape. -/
def Report.broken : Report Float where
  set := "\"0\""
  embedding := ⟨10⟩
  solver := .default
  variableNames := ["b0", "\n"]
  best := -1
  secondBest := 0.5
  gap := 1.5
  checked := 18446744073709551615
  recovered := ["0"]
  violations := [
    .duplicateElement "1" 18446744073709551615,
    .optimalNotDecoded "01" (-1) "\u0001",
    .missingElement "",
    .decodedNotOptimal "11" 0.5 "kind"]

theorem results_and_reports_told_broken :
    SolveResult.unbounded.toJson.nulls = [[.member "second_best_obj"], [.member "gap"]] ∧
      (∃ fault, Json.decodeText SolveResult.record.decode SolveResult.unbounded.toText =
        .error fault) ∧
      Json.decodeText Report.record.decode Report.broken.toText = .ok Report.broken := by
  have hinfinite : (1 / 0 : Float).isFinite = false := by decide +kernel
  have hunbounded : ∀ d ∈ SolveResult.unbounded.doubles,
      d.2.isFinite = true → Json.Number.Keeps d.2 := by
    simp only [SolveResult.doubles, SolveResult.unbounded, List.forall_mem_cons, hinfinite]
    exact ⟨fun _ => ⟨⟨true, 2, ['5'], none⟩, by decide +kernel, rfl⟩, nofun, nofun, nofun⟩
  have hbroken : ∀ d ∈ Report.broken.doubles, Json.Number.Keeps d.2 := by
    have hvalues : Report.broken.doubles.map Prod.snd =
        [10, 1e-6, 1e-9, -1, 0.5, 1.5, -1, 0.5] := rfl
    have hone : Json.Number.Keeps (-1) := ⟨⟨true, 1, ['0'], none⟩, by decide +kernel, rfl⟩
    have hhalf : Json.Number.Keeps 0.5 := ⟨⟨false, 0, ['5'], none⟩, by decide +kernel, rfl⟩
    rw [← List.forall_mem_map (P := Json.Number.Keeps), hvalues]
    simp only [List.forall_mem_cons]
    exact ⟨⟨⟨false, 10, ['0'], none⟩, by decide +kernel, rfl⟩,
      ⟨⟨false, 1, [], some (-6)⟩, by decide +kernel, rfl⟩,
      ⟨⟨false, 1, [], some (-9)⟩, by decide +kernel, rfl⟩, hone, hhalf,
      ⟨⟨false, 1, ['5'], none⟩, by decide +kernel, rfl⟩, hone, hhalf, nofun⟩
  have htold := results_and_reports_told.1 SolveResult.unbounded hunbounded
  refine ⟨htold.nulls_eq.trans (by decide +kernel), htold.refused ?_, ?_⟩
  · exact ⟨([.member "gap"], 1 / 0), by simp [SolveResult.doubles, SolveResult.unbounded],
      hinfinite⟩
  · apply (results_and_reports_told.2 Report.broken fun d hd _ => hbroken d hd).restored
    decide +kernel

end SetQubo
