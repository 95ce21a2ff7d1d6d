import SetQubo.Json.Reader
/-!
# Reading records

A record that is read has read each of its fields: a value of the record comes from values of the
fields, and a value of a field from some tree.
-/

namespace SetQubo.Json

variable {α β γ : Type}

namespace Record

theorem combine_eq_ok {f : α → β → γ} {x : Except (Nat × Fault) α} {y : Except (Nat × Fault) β}
    {c : γ} (h : combine f x y = .ok c) : ∃ a b, x = .ok a ∧ y = .ok b ∧ f a b = c := by
  cases x with
  | error e => cases y <;> cases h
  | ok a =>
    cases y with
    | error e => cases h
    | ok b => exact ⟨a, b, rfl, rfl, Except.ok.inj h⟩

theorem exists_of_field_eq_ok {name : String} {decode : Reader α} {members : List Member} {a : α}
    (h : (field name decode).read members = .ok a) : ∃ json, decode json = .ok a := by
  simp only [field] at h
  split at h
  · cases h
  · next value _ _ =>
    split at h
    · cases h
    · next hvalue _ =>
      obtain rfl := Except.ok.inj h
      exact ⟨value, hvalue⟩
    · cases h

theorem exists_of_decode_eq_ok {record : Record α} {json : Json} {a : α}
    (h : record.decode json = .ok a) : ∃ members, record.read members = .ok a := by
  unfold decode at h
  cases hmembers : members? record.names json with
  | error fault =>
    rw [hmembers] at h
    cases h
  | ok members =>
    rw [hmembers] at h
    simp only [bind, Except.bind] at h
    split at h
    · next hcombine =>
      obtain ⟨b, _, hread, -, rfl⟩ := combine_eq_ok hcombine
      obtain rfl := Except.ok.inj h
      exact ⟨_, hread⟩
    · cases h

end Record

/-- What is read from a text may be changed before or after. -/
theorem decodeText_map {β : Type} (decode : Reader α) (f : α → β) (text : String) :
    decodeText (fun json => (decode json).map f) text = (decodeText decode text).map f := by
  unfold decodeText
  obtain ⟨json, rest⟩ := parse text.toList
  simp only [bind, Except.bind]
  cases decode json with
  | error fault => rfl
  | ok a =>
    simp only [Except.map]
    split <;> rfl

theorem exists_of_decodeText_eq_ok {decode : Reader α} {text : String} {a : α}
    (h : decodeText decode text = .ok a) : ∃ json, decode json = .ok a := by
  unfold decodeText at h
  simp only [bind, Except.bind] at h
  split at h
  · cases h
  · next b hjson =>
    split at h
    · obtain rfl := Except.ok.inj h
      exact ⟨_, hjson⟩
    · cases h

end SetQubo.Json
