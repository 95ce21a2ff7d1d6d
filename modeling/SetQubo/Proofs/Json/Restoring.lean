import Mathlib.Data.List.Forall2
import SetQubo.Proofs.FirstFailure
import SetQubo.Proofs.Json.Null
import SetQubo.Proofs.Json.Record
/-!
# Forms that are read back

A form **restores** a value under a condition if it is read exactly when the condition holds, and
then as that value. It does so part by part: a list is restored if its items are, and a record if
the member that each of its fields asks for restores the value of that field. Where the members
stand makes no difference, since a field finds its member by name.
-/

namespace SetQubo.Json

variable {α β : Type}

/-- The form is read exactly under a condition, and then as one value. -/
def Restores (decode : Reader α) (form : Json) (a : α) (p : Prop) : Prop :=
  ∀ b, decode form = .ok b ↔ p ∧ b = a

theorem Restores.congr {decode : Reader α} {form : Json} {a : α} {p q : Prop}
    (h : Restores decode form a p) (hpq : p ↔ q) : Restores decode form a q := by
  intro b
  rw [h b, hpq]

/-! ## Single values and lists -/

theorem restores_of_eq_ok {decode : Reader α} {form : Json} {a : α} (h : decode form = .ok a) :
    Restores decode form a True := by
  intro b
  rw [h, Except.ok.injEq, true_and, eq_comm]

theorem restores_ofString (s : String) : Restores toText (ofString s) s True :=
  restores_of_eq_ok rfl

theorem restores_bool (b : Bool) : Restores toBool (.bool b) b True :=
  restores_of_eq_ok rfl

theorem restores_ofWord (n : UInt64) : Restores toWord (ofNat n.toNat) n True :=
  restores_of_eq_ok (toWord_ofNat n)

theorem restores_ofByte (n : UInt8) : Restores toByte (ofNat n.toNat) n True :=
  restores_of_eq_ok (toByte_ofNat n)

/-- A double is read if it is finite, given that its digits read back. -/
theorem restores_ofFloat {x : Float} (h : x.isFinite = true → Number.Keeps x) :
    Restores toFloat (ofFloat x) x (x.isFinite = true) := by
  intro b
  cases hx : x.isFinite with
  | true => rw [toFloat_ofFloat hx (h hx), Except.ok.injEq, eq_comm, eq_self, true_and]
  | false => simp [toFloat_ofFloat_of_not_isFinite hx]

theorem restores_ofList {item : Reader α} {p : α → Prop} (form : α → Json) (xs : List α)
    (h : ∀ x ∈ xs, Restores item (form x) x (p x)) :
    Restores (toList item) (ofList form xs) xs (∀ x ∈ xs, p x) := by
  intro ys
  show (xs.map form).mapM item = .ok ys ↔ _
  -- A list is read if its items are, one against the other.
  rw [mapM_eq_ok_iff, List.forall₂_map_left_iff]
  induction xs generalizing ys with
  | nil => simp
  | cons x xs ih =>
    have hrest := ih fun x' hx' => h x' (List.mem_cons_of_mem _ hx')
    rw [List.forall₂_cons_left_iff]
    simp only [h x List.mem_cons_self _, hrest, List.forall_mem_cons]
    constructor
    · rintro ⟨y, ys', ⟨hx, rfl⟩, ⟨hxs, rfl⟩, rfl⟩
      exact ⟨⟨hx, hxs⟩, rfl⟩
    · rintro ⟨⟨hx, hxs⟩, rfl⟩
      exact ⟨x, xs, ⟨hx, rfl⟩, ⟨hxs, rfl⟩, rfl⟩

/-! ## Records -/

namespace Record

/-- The members of an object, as a record gets them. -/
def placed (members : List (String × Json)) : List Member :=
  (members.map fun (name, value) => (some name, value)).zipIdx.map fun ((key, value), place) =>
    (place, key, value)

/-- Among members with different names a record is read exactly under a condition, and then as one
value. -/
def Restores (record : Record α) (members : List (String × Json)) (a : α) (p : Prop) : Prop :=
  (members.map Prod.fst).Nodup → ∀ b, record.read (placed members) = .ok b ↔ p ∧ b = a

variable {members : List (String × Json)} {a : α} {p q : Prop}

theorem mem_placed {m : Member} (h : m ∈ placed members) :
    ∃ e ∈ members, m.2 = (some e.1, e.2) := by
  unfold placed at h
  obtain ⟨⟨⟨key, value⟩, place⟩, hmem, rfl⟩ := List.mem_map.mp h
  obtain ⟨e, he, heq⟩ := List.mem_map.mp (List.fst_mem_of_mem_zipIdx hmem)
  exact ⟨e, he, heq.symm⟩

/-- A name that no other member has picks its member out. -/
theorem filter_placed {name : String} {form : Json} (hnodup : (members.map Prod.fst).Nodup)
    (hmem : (name, form) ∈ members) :
    ∃ place, ((placed members).filter fun (_, key, _) => key == some name) =
      [(place, some name, form)] := by
  obtain ⟨before, after, rfl⟩ := List.append_of_mem hmem
  -- The members around the one with the name have other names.
  have hother : ∀ (k : Nat) (others : List (String × Json)), name ∉ others.map Prod.fst →
      (((others.map fun (name, value) => (some name, value)).zipIdx k).filter
        fun e => e.1.1 == some name) = [] := by
    intro k others hname
    rw [List.filter_eq_nil_iff]
    intro e he
    obtain ⟨m, hm, heq⟩ := List.mem_map.mp (List.fst_mem_of_mem_zipIdx he)
    rw [← heq]
    intro hsame
    exact hname (List.mem_map.mpr ⟨m, hm, by simpa using hsame⟩)
  have hnames : name ∉ before.map Prod.fst ∧ name ∉ after.map Prod.fst := by
    rw [List.map_append, List.map_cons] at hnodup
    have hsplit := List.nodup_append.mp hnodup
    exact ⟨fun h => hsplit.2.2 name h name List.mem_cons_self rfl,
      (List.nodup_cons.mp hsplit.2.1).1⟩
  unfold placed
  rw [List.filter_map, List.map_append, List.map_cons, List.zipIdx_append, List.zipIdx_cons,
    List.filter_append]
  show ∃ place, List.map _
    (List.filter (fun e : (Option String × Json) × ℕ => e.1.1 == some name) _ ++
      List.filter (fun e : (Option String × Json) × ℕ => e.1.1 == some name) _) =
    [(place, some name, form)]
  rw [hother _ _ hnames.1, List.filter_cons_of_pos (by simp), hother _ _ hnames.2]
  exact ⟨_, rfl⟩

/-- A field is read from the member with its name, wherever that stands. -/
theorem restores_field (name : String) {form : Json} {decode : Reader α}
    (hmem : (name, form) ∈ members) (h : Json.Restores decode form a p) :
    (field name decode).Restores members a p := by
  intro hnodup b
  obtain ⟨place, hfilter⟩ := filter_placed hnodup hmem
  rw [← h b]
  simp only [field, hfilter]
  cases decode form <;> simp

theorem Restores.map {record : Record α} (h : record.Restores members a p) (f : α → β) :
    (f <$> record).Restores members (f a) p := by
  intro hnodup b
  show combine id (.ok f) (record.read (placed members)) = .ok b ↔ _
  constructor
  · intro hb
    obtain ⟨f', a', hf, ha, rfl⟩ := combine_eq_ok hb
    obtain rfl := Except.ok.inj hf
    obtain ⟨hp, rfl⟩ := (h hnodup a').mp ha
    exact ⟨hp, rfl⟩
  · rintro ⟨hp, rfl⟩
    rw [(h hnodup a).mpr ⟨hp, rfl⟩]
    rfl

theorem Restores.seq {build : Record (α → β)} {record : Record α} {f : α → β}
    (hbuild : build.Restores members f q) (h : record.Restores members a p) :
    (build <*> record).Restores members (f a) (q ∧ p) := by
  intro hnodup b
  show combine id (build.read (placed members)) (record.read (placed members)) = .ok b ↔ _
  constructor
  · intro hb
    obtain ⟨f', a', hf, ha, rfl⟩ := combine_eq_ok hb
    obtain ⟨hq, rfl⟩ := (hbuild hnodup f').mp hf
    obtain ⟨hp, rfl⟩ := (h hnodup a').mp ha
    exact ⟨⟨hq, hp⟩, rfl⟩
  · rintro ⟨⟨hq, hp⟩, rfl⟩
    rw [(hbuild hnodup f).mpr ⟨hq, rfl⟩, (h hnodup a).mpr ⟨hp, rfl⟩]
    rfl

/-- Members that keep to the grammar are no strays. -/
theorem strays_placed {names : List String}
    (h : ∀ m ∈ members, m.1 ∈ names ∨ m.2.grammatical = true) :
    strays names (placed members) = .ok () := by
  unfold strays
  rw [List.find?_eq_none.mpr]
  rintro ⟨place, key, value⟩ hm
  obtain ⟨e, he, heq⟩ := mem_placed hm
  obtain ⟨rfl, rfl⟩ := Prod.mk.inj heq
  rcases h e he with hfield | hvalue
  · simp [hfield]
  · simp [hvalue]

/-- An object restores what its fields come to, if its other members keep to the grammar. -/
theorem Restores.decode {record : Record α} (h : record.Restores members a p)
    (hnodup : (members.map Prod.fst).Nodup)
    (hmembers : ∀ m ∈ members, m.1 ∈ record.names ∨ m.2.grammatical = true) :
    Json.Restores record.decode (.record members) a p := by
  intro b
  rw [← h hnodup b]
  have hstrays := strays_placed hmembers
  unfold placed at hstrays ⊢
  simp only [Record.decode, Json.record, members?, bind, Except.bind, hstrays]
  cases record.read _ <;> simp [combine, pure, Except.pure]

end Record

/-! ## Texts -/

/-- A text tells a value that was written into it, as far as JSON can. -/
structure Tells (decode : Reader α) (text : String) (form : Json)
    (doubles : List (List Place × Float)) (a : α) : Prop where
  /-- The text is the form, and nothing else. -/
  parse_eq : parse text.toList = (form, [])
  /-- `null` stands for the doubles that are not finite, at their places, and nowhere else. -/
  nulls_eq : form.nulls = (doubles.filter fun d => !d.2.isFinite).map Prod.fst
  /-- If all doubles are finite, then the value is read back. -/
  restored (h : ∀ d ∈ doubles, d.2.isFinite = true) : decodeText decode text = .ok a
  /-- If one is not, then nothing is read. -/
  refused (h : ∃ d ∈ doubles, d.2.isFinite = false) :
    ∃ fault, decodeText decode text = .error fault

/-- The indented text of a form tells what the form restores. -/
theorem Restores.tells {decode : Reader α} {form : Json} {doubles : List (List Place × Float)}
    {a : α} (hread : Restores decode form a (∀ d ∈ doubles, d.2.isFinite = true))
    (hnulls : Shows form doubles) (hform : form.WellFormed) :
    Tells decode form.indented form doubles a := by
  have htext : decodeText decode form.indented = decode form :=
    decodeText_write decode Layout.blank_indented hform 0
  constructor
  case parse_eq =>
    have hparse := parse_write Layout.blank_indented hform 0 delimited_nil
    rwa [List.append_nil, ← String.toList_ofList (l := write _ _ _)] at hparse
  case nulls_eq => exact hnulls
  case restored =>
    intro h
    rw [htext]
    exact (hread a).mpr ⟨h, rfl⟩
  case refused =>
    rintro ⟨d, hd, hnot⟩
    rw [htext]
    cases hdecode : decode form with
    | error fault => exact ⟨fault, rfl⟩
    | ok b =>
      have hfinite := ((hread b).mp hdecode).1 d hd
      rw [hnot] at hfinite
      cases hfinite

end SetQubo.Json
