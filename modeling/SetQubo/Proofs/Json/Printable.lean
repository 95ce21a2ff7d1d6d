import SetQubo.Proofs.Json.RoundTrip
import SetQubo.Model.Json
import SetQubo.Variable.Json
/-!
# Forms that can be printed

The JSON form of a label is well formed, whatever the label: a text with any characters, an integer,
or a variable of an embedded set. So is the form of a double, since behind its point stand digits.
-/

namespace SetQubo.Json

/-! ## Labels -/

/-- A type whose values have well-formed JSON forms. -/
class Printable (α : Type) [Codec α] : Prop where
  /-- The JSON form of a value is well formed. -/
  wellFormed_encode (a : α) : (Codec.encode a).WellFormed

theorem wellFormed_ofNat (n : Nat) : (ofNat n).WellFormed :=
  .number (fun _ hc => nomatch hc)

theorem wellFormed_ofInt (n : Int) : (ofInt n).WellFormed :=
  .number (fun _ hc => nomatch hc)

theorem wellFormed_ofList {α : Type} {item : α → Json} {xs : List α}
    (h : ∀ x ∈ xs, (item x).WellFormed) : (ofList item xs).WellFormed := by
  apply WellFormed.array
  intro v hv
  obtain ⟨x, hx, rfl⟩ := List.mem_map.mp hv
  exact h x hx

theorem wellFormed_record {members : List (String × Json)}
    (h : ∀ m ∈ members, m.2.WellFormed) : (record members).WellFormed := by
  apply WellFormed.object
  · intro m hm
    obtain ⟨_, -, rfl⟩ := List.mem_map.mp hm
    rfl
  · intro m hm
    obtain ⟨m', hm', rfl⟩ := List.mem_map.mp hm
    exact h m' hm'

instance : Printable String where
  wellFormed_encode s := .string s

instance : Printable Int64 where
  wellFormed_encode i := wellFormed_ofInt i.toInt

instance : Printable BitVector where
  wellFormed_encode _ := wellFormed_ofList fun b _ => wellFormed_ofNat (BitVector.valueOf b).toNat

instance : Printable Variable where
  wellFormed_encode v := by
    cases v with
    | bit i =>
      apply wellFormed_record
      simpa using wellFormed_ofNat i.toNat
    | indicator x =>
      apply wellFormed_record
      intro m hm
      obtain rfl := List.mem_singleton.mp hm
      exact Printable.wellFormed_encode x

instance {V : Type} [Codec V] [Printable V] : Printable (Pair V) where
  wellFormed_encode p := by
    apply WellFormed.array
    simp [Printable.wellFormed_encode]

/-! ## Doubles -/

theorem isDigit_of_mem_shortest {m : Decimal.Magnitude} {tie : Decimal.Tie} {c : Char}
    (h : c ∈ (m.shortest tie).digits) : c.isDigit := by
  unfold Decimal.Magnitude.shortest at h
  split at h
  · obtain rfl := List.mem_singleton.mp h
    rfl
  · have hmem := List.mem_reverse.mp h
    exact isDigit_of_mem_digits (List.mem_reverse.mp (List.dropWhile_subset _ hmem))

theorem Number.wellFormed_ofDigits (negative : Bool) {d : Decimal.Digits}
    (h : ∀ c ∈ d.digits, c.isDigit) : (ofDigits negative d).WellFormed := by
  have hsplit : ∀ c ∈ d.split.2, c.isDigit := by
    intro c hc
    unfold Decimal.Digits.split at hc
    split at hc
    · rcases List.mem_append.mp hc with hzero | hdigit
      · rw [List.eq_of_mem_replicate hzero]
        rfl
      · exact h c hdigit
    · exact h c (List.drop_subset _ _ hc)
  have hfraction : (ofDigits negative d).fraction =
      if -5 ≤ d.point - 1 ∧ d.point - 1 ≤ 15 then
        if d.split.2 = [] then ['0'] else d.split.2
      else d.digits.drop 1 := by
    unfold ofDigits
    dsimp only
    split <;> rfl
  intro c hc
  rw [hfraction] at hc
  split at hc
  · split at hc
    · obtain rfl := List.mem_singleton.mp hc
      rfl
    · exact hsplit c hc
  · exact h c (List.drop_subset _ _ hc)

theorem Number.wellFormed_of_ofFloat? {x : Float} {n : Number} (h : ofFloat? x = some n) :
    n.WellFormed := by
  unfold ofFloat? at h
  split at h
  · obtain rfl := Option.some.inj h
    exact wellFormed_ofDigits _ fun c hc => isDigit_of_mem_shortest hc
  · cases h

theorem wellFormed_ofFloat (x : Float) : (ofFloat x).WellFormed := by
  unfold ofFloat
  split
  case h_1 n hn => exact .number (Number.wellFormed_of_ofFloat? hn)
  case h_2 => exact .null

/-- Printing and reading a double gives the double. -/
def Number.Keeps (x : Float) : Prop := ∃ n, ofFloat? x = some n ∧ n.toFloat = x

theorem toFloat_ofFloat {x : Float} (hx : x.isFinite) (h : Number.Keeps x) :
    toFloat (ofFloat x) = .ok x := by
  obtain ⟨n, hn, hread⟩ := h
  simp only [ofFloat, hn, toFloat, hread, if_pos hx]

end SetQubo.Json
