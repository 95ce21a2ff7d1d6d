import Mathlib
/-!
# How doubles are stored

A finite double other than zero is a sign, a mantissa and an exponent. Stored ones are canonical:
the mantissa has fifty-three bits, or fewer at the least exponent. Packing keeps what is canonical
and turns what is too large into an infinity.
-/

namespace SetQubo

namespace Double

open Float.Model Float.Model.UnpackedFloat

/-- A mantissa and an exponent as they are stored: fifty-three bits, or the least exponent. -/
structure Canonical (m : ℕ) (e : ℤ) : Prop where
  /-- The mantissa has at most fifty-three bits. -/
  lt : m < 2 ^ 53
  /-- The exponent is not too small. -/
  low : -1074 ≤ e
  /-- The exponent is not too large. -/
  high : e ≤ 971
  /-- Only the least exponent has shorter mantissas. -/
  normal_or : 2 ^ 52 ≤ m ∨ e = -1074

theorem toNat_one_append (v : BitVec 52) : (1#1 ++ v).toNat = 2 ^ 52 + v.toNat := by
  rw [BitVec.toNat_append, ← Nat.shiftLeft_add_eq_or_of_lt v.isLt]
  simp [Nat.shiftLeft_eq]

/-- What is stored is canonical. -/
theorem canonical_of_unpack {a : Float.Model} {s : Sign} {m : ℕ} {e : ℤ} {h : 0 < m}
    (ha : a.unpack = .finite s m e h) : Canonical m e := by
  unfold Float.Model.unpack UnpackedFloat.unpack at ha
  have hexponent := (@unpackExponent Format.binary64 a.toBits.toBitVec).isLt
  have hmantissa := (@unpackMantissa Format.binary64 a.toBits.toBitVec).isLt
  have hbias : Format.binary64.exponentBias = 1023 := rfl
  simp only [hbias] at ha
  split at ha
  · split at ha <;> cases ha
  · next hfinite =>
    split at ha
    · next hleast =>
      split at ha
      · cases ha
      · cases ha
        rw [hleast]
        refine ⟨hmantissa.trans (by norm_num), ?_, ?_, Or.inr ?_⟩ <;> simp
    · next hnormal =>
      cases ha
      simp only [BitVec.toNat_eq, BitVec.toNat_neg, BitVec.toNat_ofNat] at hfinite hnormal
      have happend := toNat_one_append
        (@unpackMantissa Format.binary64 a.toBits.toBitVec)
      refine ⟨?_, ?_, ?_, Or.inl ?_⟩
      · show (1#1 ++ @unpackMantissa Format.binary64 a.toBits.toBitVec).toNat < _
        omega
      · simp only [Format.binary64] at *
        omega
      · simp only [Format.binary64] at *
        omega
      · show _ ≤ (1#1 ++ @unpackMantissa Format.binary64 a.toBits.toBitVec).toNat
        omega

theorem log2_eq_of_normal {m : ℕ} (hlow : 2 ^ 52 ≤ m) (hhigh : m < 2 ^ 53) : m.log2 = 52 :=
  (Nat.log2_eq_iff (by omega)).mpr ⟨hlow, hhigh⟩

theorem biased_exponent (e : ℤ) :
    (e + (Format.binary64.exponentBias : ℤ) + ((52 : ℕ) : ℤ)).toNat = (e + 1075).toNat := by
  show (e + (1023 : ℕ) + (52 : ℕ)).toNat = _
  congr 1
  push_cast
  ring

/-- **Packing keeps what is canonical.** -/
theorem unpack_pack_of_canonical {s : Sign} {m : ℕ} {e : ℤ} {h : 0 < m} (hc : Canonical m e) :
    (Float.Model.pack (.finite s m e h)).unpack = .finite s m e h := by
  obtain ⟨hlt, hlow, hhigh, hnormal⟩ := hc
  have hbits : Format.binary64.mantissaBits = 53 := rfl
  show UnpackedFloat.unpack _ (UnpackedFloat.pack _ _) = _
  unfold UnpackedFloat.pack
  simp only [biased_exponent, hbits]
  rw [if_neg (by show ¬2 ^ 11 ≤ (e + 1075).toNat + 1; omega)]
  by_cases hm : 2 ^ 52 ≤ m
  · rw [if_pos (by rw [log2_eq_of_normal hm hlt])]
    unfold UnpackedFloat.unpack
    have hmantissa : (1#1 ++ BitVec.ofNat 52 m).toNat = m := by
      rw [toNat_one_append, BitVec.toNat_ofNat]
      omega
    have hexponent : (BitVec.ofNat 11 (e + 1075).toNat).toNat = (e + 1075).toNat := by
      rw [BitVec.toNat_ofNat]
      omega
    have hne : BitVec.ofNat 11 (e + 1075).toNat ≠ -1#11 := by
      intro heq
      have := congrArg BitVec.toNat heq
      rw [hexponent] at this
      simp at this
      omega
    have hne' : BitVec.ofNat 11 (e + 1075).toNat ≠ 0#11 := by
      intro heq
      have := congrArg BitVec.toNat heq
      rw [hexponent] at this
      simp at this
      omega
    simp only [unpackMantissa_packComponents, unpackExponent_packComponents,
      unpackSign_packComponents, Sign.ofBitVec_toBitVec]
    rw [if_neg hne, if_neg hne']
    congr 1
    rw [hexponent]
    show _ - (((1023 : ℕ) : ℤ) + ((52 : ℕ) : ℤ)) = e
    omega
  · have he : e = -1074 := hnormal.resolve_left hm
    have hlog : ¬m.log2 + 1 = 53 := by
      have := (Nat.log2_lt h.ne').mpr (Nat.not_le.mp hm)
      omega
    rw [if_neg hlog]
    unfold UnpackedFloat.unpack
    have hmantissa : (BitVec.ofNat 52 m).toNat = m := by
      rw [BitVec.toNat_ofNat]
      omega
    have hne : BitVec.ofNat 52 m ≠ 0#52 := by
      intro heq
      have := congrArg BitVec.toNat heq
      rw [hmantissa] at this
      simp at this
      omega
    simp only [unpackMantissa_packComponents, unpackExponent_packComponents,
      unpackSign_packComponents, Sign.ofBitVec_toBitVec]
    rw [if_neg (by decide), if_pos trivial, dif_neg hne]
    congr 1
    rw [he]
    rfl

/-- Packing turns what is too large into an infinity. -/
theorem unpack_pack_of_large {s : Sign} {m : ℕ} {e : ℤ} {h : 0 < m} (he : 972 ≤ e) :
    (Float.Model.pack (.finite s m e h)).unpack = .infinity s := by
  show UnpackedFloat.unpack _ (UnpackedFloat.pack _ _) = _
  unfold UnpackedFloat.pack
  simp only [biased_exponent]
  rw [if_pos (by show 2 ^ 11 ≤ (e + 1075).toNat + 1; omega)]
  cases s <;> rfl

theorem unpack_pack_zero (s : Sign) : (Float.Model.pack (.zero s)).unpack = .zero s := by
  cases s <;> rfl

theorem unpack_pack_infinity (s : Sign) :
    (Float.Model.pack (.infinity s)).unpack = .infinity s := by
  cases s <;> rfl

/-- Packing what was unpacked changes nothing. -/
theorem ofModel_pack_eq {a : Float} {u : UnpackedFloat} (h : a.toModel.unpack = u) :
    Float.ofModel (.pack u) = a := by
  rw [← h]
  exact Float.ofBits_toBits a

end Double

end SetQubo
