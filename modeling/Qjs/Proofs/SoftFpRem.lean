import Qjs.Proofs.SoftFp
import Qjs.Proofs.SoftFpMul

/-!
# The soft-float remainder

The significand of the first operand, at the exponent of the second, is reduced by the second; what
is left has no more bits than the format holds.
-/

namespace Qjs

open Double (signed)

namespace SoftFp

variable {a b : ℕ}

theorem infinite_iff : ¬ IsFinite a ↔ 2047 * 2 ^ 52 ≤ a % 2 ^ 63 := by
  unfold IsFinite
  omega

theorem nan_iff : ¬ IsFinite a ∧ a % 2 ^ 52 ≠ 0 ↔ 2047 * 2 ^ 52 < a % 2 ^ 63 := by
  unfold IsFinite
  omega

theorem mod_eq_zero_iff : a % 2 ^ 63 = 0 ↔ sig a = 0 := by
  have h1 := magnitude_eq_fields a
  have h2 := expo_eq_one_or a
  omega

/-- The magnitude of a finite pattern. -/
def mag (a : ℕ) : ℚ := sig a * 2 ^ ((expo a : ℤ) - 1075)

theorem mag_nonneg (a : ℕ) : 0 ≤ mag a := by
  unfold mag
  positivity

theorem mag_pos (h : sig a ≠ 0) : 0 < mag a := by
  have : 0 < sig a := Nat.pos_of_ne_zero h
  unfold mag
  positivity

theorem mag_eq_mul (h : expo b ≤ expo a) :
    mag a = (sig a * 2 ^ (expo a - expo b) : ℕ) * 2 ^ ((expo b : ℤ) - 1075) := by
  rw [natCast_mul_two_pow_mul, mag, Nat.cast_sub h]
  congr 2
  ring

/-- The magnitudes are ordered as the patterns are. -/
theorem mag_lt (h : b % 2 ^ 63 < a % 2 ^ 63) : mag b < mag a := by
  have hlt : (sig b : ℚ) < (sig a * 2 ^ (expo a - expo b) : ℕ) := by exact_mod_cast sig_lt_mul h
  rw [mag_eq_mul (expo_le h.le)]
  exact mul_lt_mul_of_pos_right hlt (zpow_pos two_pos _)

theorem mag_congr (h : a % 2 ^ 63 = b % 2 ^ 63) : mag a = mag b := by
  have h1 := magnitude_eq_fields a
  have h2 := magnitude_eq_fields b
  have h3 : expo a = expo b := le_antisymm (expo_le h.le) (expo_le h.ge)
  have h4 : sig a = sig b := by
    rw [h3] at h1
    omega
  rw [mag, mag, h3, h4]

/-- What the remainder of two finite patterns is for. -/
theorem isRem_fin (ha : IsFinite a) (hb : IsFinite b) (h0 : sig b ≠ 0) {r : ℕ}
    (h : ∃ m e, sf64.decode r = .fin (a / 2 ^ 63 == 1) m e ∧
      (m * 2 ^ e : ℚ) = mag a - mag b * ⌊mag a / mag b⌋) : sf64.IsRem a b r := by
  obtain ⟨m, e, hdecode, hvalue⟩ := h
  rw [Format.IsRem, decode_finite ha, decode_finite hb]
  dsimp only
  rw [if_neg h0]
  refine ⟨m, e, hdecode, ?_⟩
  rw [Format.signed_cast_mul, Format.signed_cast_mul, Format.signed_cast_mul, hvalue]
  exact (Format.sub_mul_trunc _ _ (mag_nonneg a) (mag_nonneg b)).symm

/-- A smaller magnitude is its own remainder. -/
theorem isRem_of_lt (ha : IsFinite a) (hb : IsFinite b) (h : a % 2 ^ 63 < b % 2 ^ 63) :
    sf64.IsRem a b a := by
  have hb0 : sig b ≠ 0 := by
    rw [Ne, ← mod_eq_zero_iff]
    omega
  refine isRem_fin ha hb hb0 ⟨sig a, expo a - 1075, decode_finite ha, ?_⟩
  have hfloor : ⌊mag a / mag b⌋ = 0 := by
    rw [Int.floor_eq_zero_iff]
    exact ⟨div_nonneg (mag_nonneg a) (mag_nonneg b), (div_lt_one (mag_pos hb0)).2 (mag_lt h)⟩
  rw [hfloor, Int.cast_zero, mul_zero, sub_zero]
  rfl

/-- Of equal magnitudes nothing is left. -/
theorem isRem_of_eq (ha : IsFinite a) (hb : IsFinite b) (ha64 : a < 2 ^ 64) (hb0 : sig b ≠ 0)
    (h : a % 2 ^ 63 = b % 2 ^ 63) : sf64.IsRem a b (a - a % 2 ^ 63) := by
  have hzero : a - a % 2 ^ 63 = sf64.pattern (a / 2 ^ 63 == 1) 0 := by
    rw [Format.pattern, toNat_sign ha64, signBit_sf64]
    omega
  have hdecode := Format.decode_pattern (f := sf64) (a / 2 ^ 63 == 1) (d := 0) (R := 0)
    (by positivity) (.inl rfl) (by decide)
  refine isRem_fin ha hb hb0 ⟨0, _, hzero ▸ hdecode, ?_⟩
  rw [mag_congr h, div_self (mag_pos hb0).ne', Int.floor_one]
  simp

/-- The remainder of the significands at the second one's exponent. -/
theorem fmod_significand {m₁ m₂ n : ℕ} (h₁ : m₁ < 2 ^ 53) (h₂ : 2 ^ 52 ≤ m₂) (h₂' : m₂ < 2 ^ 53) :
    fmodLoop m₂ n (if m₂ ≤ m₁ then m₁ - m₂ else m₁) = m₁ * 2 ^ n % m₂ := by
  have hred : (if m₂ ≤ m₁ then m₁ - m₂ else m₁) = m₁ % m₂ := by
    split_ifs with h
    · rw [Nat.mod_eq_sub_mod h, Nat.mod_eq_of_lt (by omega)]
    · rw [Nat.mod_eq_of_lt (by omega)]
  rw [hred, fmodLoop_eq (by omega) _ _ (Nat.mod_lt _ (by omega)), Nat.mod_mul_mod]

/-- The difference of the exponents, with the leading bits in place. -/
theorem exponent_sub {k₁ k₂ : ℕ} (h : b % 2 ^ 63 < a % 2 ^ 63) (h₁ : sig a * 2 ^ k₁ < 2 ^ 53)
    (h₂ : 2 ^ 52 ≤ sig b * 2 ^ k₂) : k₁ ≤ expo a - expo b + k₂ := by
  by_contra hlt
  have hsig := sig_lt_mul h
  generalize expo a - expo b = D at *
  have h3 : sig b * 2 ^ k₂ * 2 ≤ sig a * 2 ^ D * 2 ^ k₂ * 2 :=
    Nat.mul_le_mul_right _ (Nat.mul_le_mul_right _ hsig.le)
  have h4 : sig a * 2 ^ D * 2 ^ k₂ * 2 ≤ sig a * 2 ^ k₁ := by
    rw [Nat.mul_assoc, Nat.mul_assoc, ← pow_succ, ← pow_add]
    exact Nat.mul_le_mul_left _ (Nat.pow_le_pow_right two_pos (by omega))
  omega

/-- When there is no remainder. -/
theorem special_iff : (b % signMask = 0 ∨ expMask * 2 ^ mantSize ≤ a % signMask ∨
      expMask * 2 ^ mantSize < b % signMask)
    ↔ sig b = 0 ∨ ¬ IsFinite a ∨ ¬ IsFinite b ∧ b % 2 ^ 52 ≠ 0 := by
  rw [← mod_eq_zero_iff, infinite_iff, nan_iff]
  rfl

theorem fmodSf64_of_lt (ha : IsFinite a) (hb : IsFinite b) (ha64 : a < 2 ^ 64) (hb0 : sig b ≠ 0)
    (h : b % 2 ^ 63 < a % 2 ^ 63) :
    fmodSf64 a b = sf64.ofValue RoundingMode.rne.rule (a / 2 ^ 63 == 1)
      (((sig a * 2 ^ (expo a - expo b) % sig b : ℕ) : ℚ)
        * 2 ^ (((expo b - 1 : ℕ) : ℤ) + sf64.minExp)) := by
  have ha0 : sig a ≠ 0 := by
    rw [Ne, ← mod_eq_zero_iff]
    omega
  obtain ⟨k₁, hk₁, hlo₁, hhi₁⟩ := unpackSf64_spec ha0
  obtain ⟨k₂, hk₂, hlo₂, hhi₂⟩ := unpackSf64_spec hb0
  have hk := exponent_sub h hhi₁ hlo₂
  have hn : ((expo a : ℤ) - k₁ - (expo b - k₂)).toNat = expo a - expo b + k₂ - k₁ := by
    have := expo_le h.le
    omega
  have hspecial : ¬ (b % signMask = 0 ∨ expMask * 2 ^ mantSize ≤ a % signMask ∨
      expMask * 2 ^ mantSize < b % signMask) := by
    rw [special_iff]
    rintro (h' | h' | h')
    exacts [hb0 h', h' ha, h'.1 hb]
  have hlt : ¬ a % signMask < b % signMask := Nat.not_lt.2 h.le
  have hne : ¬ a % signMask = b % signMask := Nat.ne_of_gt h
  unfold fmodSf64
  simp only [if_neg hspecial, if_neg hlt, if_neg hne]
  change normalizeSf sf64 (a / 2 ^ 63) (unpackSf64 b).1
    (fmodLoop (unpackSf64 b).2 ((unpackSf64 a).1 - (unpackSf64 b).1).toNat
      (if (unpackSf64 b).2 ≤ (unpackSf64 a).2 then (unpackSf64 a).2 - (unpackSf64 b).2
        else (unpackSf64 a).2) * 2 ^ 10 % 2 ^ 64) .rne = _
  rw [hk₁, hk₂]
  dsimp only
  rw [fmod_significand hhi₁ hlo₂ hhi₂, hn]
  -- the powers of two that put the leading bit of `b` in its place
  have hrem : sig a * 2 ^ k₁ * 2 ^ (expo a - expo b + k₂ - k₁) % (sig b * 2 ^ k₂)
      = sig a * 2 ^ (expo a - expo b) % sig b * 2 ^ k₂ := by
    rw [Nat.mul_assoc, ← pow_add, Nat.add_sub_of_le hk, pow_add, ← Nat.mul_assoc,
      Nat.mul_mod_mul_right]
  have hle : sig a * 2 ^ (expo a - expo b) % sig b * 2 ^ k₂ < sig b * 2 ^ k₂ :=
    Nat.mul_lt_mul_of_pos_right (Nat.mod_lt _ (Nat.pos_of_ne_zero hb0)) (by positivity)
  have hone := one_le_expo b
  have hsign := toNat_sign ha64
  generalize (a / 2 ^ 63 == 1) = neg at *
  rw [hrem, Nat.mod_eq_of_lt (by omega), ← hsign]
  rw [@normalizeSf_aligned ℚ _ _ _ _ neg _ _ .rne _ (.inl rfl) (by omega), minExp_sf64]
  congr 1
  rw [natCast_mul_two_pow_mul, natCast_mul_two_pow_mul, Nat.cast_sub hone]
  congr 2
  push_cast
  ring

theorem isRem_of_gt (ha : IsFinite a) (hb : IsFinite b) (ha64 : a < 2 ^ 64) (hb0 : sig b ≠ 0)
    (h : b % 2 ^ 63 < a % 2 ^ 63) : sf64.IsRem a b (fmodSf64 a b) := by
  have hone := one_le_expo b
  have hexpo : expo b ≤ 2046 := by
    unfold IsFinite at hb
    unfold expo
    split_ifs <;> omega
  have hmod : sig a * 2 ^ (expo a - expo b) % sig b < 2 ^ (sf64.mantSize + 1) :=
    (Nat.mod_lt _ (Nat.pos_of_ne_zero hb0)).trans (sig_lt b)
  obtain ⟨m, e, hdecode, hvalue⟩ := Format.decode_ofValue_exact (K := ℚ)
    RoundingMode.rne.rule (a / 2 ^ 63 == 1) hmod (show expo b - 1 + 2 ≤ sf64.expMask by
      rw [expMask_sf64]
      omega)
  rw [← fmodSf64_of_lt ha hb ha64 hb0 h] at hdecode
  refine isRem_fin ha hb hb0 ⟨m, e, hdecode, ?_⟩
  have hscale : (((expo b - 1 : ℕ) : ℤ) + sf64.minExp) = expo b - 1075 := by
    rw [minExp_sf64]
    omega
  have hb0' : (sig b : ℚ) ≠ 0 := Nat.cast_ne_zero.2 hb0
  have hfloor : ⌊mag a / mag b⌋ = ((sig a * 2 ^ (expo a - expo b) / sig b : ℕ) : ℤ) := by
    rw [mag_eq_mul (expo_le h.le), mag,
      mul_div_mul_right _ _ (zpow_pos (two_pos (α := ℚ)) _).ne']
    exact Rat.floor_natCast_div_natCast _ _
  rw [hvalue, hscale, hfloor, mag_eq_mul (expo_le h.le), mag]
  have hdm := Nat.div_add_mod (sig a * 2 ^ (expo a - expo b)) (sig b)
  have hdm' : ((sig a * 2 ^ (expo a - expo b) : ℕ) : ℚ)
      = sig b * (sig a * 2 ^ (expo a - expo b) / sig b : ℕ)
        + (sig a * 2 ^ (expo a - expo b) % sig b : ℕ) := by exact_mod_cast hdm.symm
  rw [hdm', Int.cast_natCast]
  ring

/-- `fmod_sf64` is the exact remainder. -/
theorem fmodSf64_isRem (ha64 : a < 2 ^ 64) : sf64.IsRem a b (fmodSf64 a b) := by
  by_cases hspecial : sig b = 0 ∨ ¬ IsFinite a ∨ ¬ IsFinite b ∧ b % 2 ^ 52 ≠ 0
  · have hnan : fmodSf64 a b = sf64.qnan := if_pos (special_iff.2 hspecial)
    rw [hnan, Format.IsRem]
    rcases decode_cases a with ⟨-, -, hda⟩ | ⟨-, -, hda⟩ | ⟨ha, hda⟩
    · rw [hda]
    · rw [hda]
      cases sf64.decode b <;> rfl
    · rcases decode_cases b with ⟨-, -, hdb⟩ | ⟨hb1, hb2, hdb⟩ | ⟨hb, hdb⟩
      · rw [hda, hdb]
      · -- the significand of an infinity is not zero
        rcases hspecial with h | h | h
        · exact absurd h (sig_ne_zero hb1)
        · exact absurd ha h
        · exact absurd hb2 h.2
      · rcases hspecial with h | h | h
        · rw [hda, hdb]
          exact (if_pos h).mpr rfl
        · exact absurd ha h
        · exact absurd hb h.1
  · rw [not_or, not_or, not_not] at hspecial
    obtain ⟨hb0, ha, hb⟩ := hspecial
    have hns := special_iff.not.2 (not_or.2 ⟨hb0, not_or.2 ⟨not_not.2 ha, hb⟩⟩)
    have hlt (h : a % 2 ^ 63 < b % 2 ^ 63) : fmodSf64 a b = a :=
      (if_neg hns).trans (if_pos h)
    rcases decode_cases b with ⟨hb1, hb2, -⟩ | ⟨hb1, -, hdb⟩ | ⟨hb1, -⟩
    · exact absurd ⟨hb1, hb2⟩ hb
    · have hb2 := infinite_iff.1 hb1
      have ha2 := infinite_iff.not.1 (not_not.2 ha)
      rw [hlt (by omega), Format.IsRem, decode_finite ha, hdb]
    · rcases lt_trichotomy (a % 2 ^ 63) (b % 2 ^ 63) with h | h | h
      · rw [hlt h]
        exact isRem_of_lt ha hb1 h
      · have heq : fmodSf64 a b = a - a % 2 ^ 63 :=
          (if_neg hns).trans ((if_neg (Nat.not_lt.2 h.ge)).trans (if_pos h))
        rw [heq]
        exact isRem_of_eq ha hb1 ha64 hb0 h
      · exact isRem_of_gt ha hb1 ha64 hb0 h

theorem fmodSf64_lt (ha64 : a < 2 ^ 64) : fmodSf64 a b < 2 ^ 64 := by
  have hqnan : qnan64 < 2 ^ 64 := by decide
  by_cases hspecial : b % signMask = 0 ∨ expMask * 2 ^ mantSize ≤ a % signMask ∨
      expMask * 2 ^ mantSize < b % signMask
  · rw [show fmodSf64 a b = qnan64 from if_pos hspecial]
    exact hqnan
  rcases lt_trichotomy (a % 2 ^ 63) (b % 2 ^ 63) with h | h | h
  · rw [show fmodSf64 a b = a from (if_neg hspecial).trans (if_pos h)]
    exact ha64
  · have heq : fmodSf64 a b = a - a % 2 ^ 63 :=
      (if_neg hspecial).trans ((if_neg (Nat.not_lt.2 h.ge)).trans (if_pos h))
    omega
  · rw [special_iff, not_or, not_or, not_not] at hspecial
    obtain ⟨hb0, ha, -⟩ := hspecial
    have hb : IsFinite b := by
      by_contra hb
      have := infinite_iff.1 hb
      have := infinite_iff.not.1 (not_not.2 ha)
      omega
    rw [fmodSf64_of_lt ha hb ha64 hb0 h]
    exact (Format.ofValue_le _ _ _).trans_lt (by decide)

/-! ### Every operation -/

/-- The arithmetic rounds the exact result once, in each rounding mode and with or without wide
integers; the remainder is exact. -/
theorem arithmetic_exact (int128 : Bool) (rm : RoundingMode) (x y : BitVec 64) :
    addSf64 x.toNat y.toNat rm = sf64.addBy rm.rule (rm = .rdn) x.toNat y.toNat ∧
    subSf64 x.toNat y.toNat rm = sf64.subBy rm.rule (rm = .rdn) x.toNat y.toNat ∧
    mulSf64 int128 x.toNat y.toNat rm = sf64.mulBy rm.rule x.toNat y.toNat ∧
    divSf64 int128 x.toNat y.toNat rm = sf64.divBy rm.rule x.toNat y.toNat ∧
    sqrtSf64 int128 x.toNat rm = sf64.sqrtBy rm.rule x.toNat ∧
    sf64.IsRem x.toNat y.toNat (fmodSf64 x.toNat y.toNat) ∧
    fmodSf64 x.toNat y.toNat < 2 ^ 64 :=
  ⟨addSf64_eq rm x.isLt y.isLt, subSf64_eq rm x.isLt y.isLt, mulSf64_eq int128 rm x.isLt y.isLt,
    divSf64_eq int128 rm x.isLt y.isLt, sqrtSf64_eq int128 rm x.isLt, fmodSf64_isRem x.isLt,
    fmodSf64_lt x.isLt⟩

end SoftFp

end Qjs
