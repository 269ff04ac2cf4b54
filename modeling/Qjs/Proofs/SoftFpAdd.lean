import Qjs.Proofs.SoftFpRound

/-!
# Soft-float sums

The significand of the smaller operand is shifted to the greater one's exponent; three more bits
keep the sum exact, or there is a leading bit far enough above the sticky bit.
-/

namespace Qjs

open Double (signed)

namespace SoftFp

/-! ### Patterns of binary64 -/

@[simp] theorem mantSize_sf64 : sf64.mantSize = 52 := rfl

@[simp] theorem expSize_sf64 : sf64.expSize = 11 := rfl

@[simp] theorem expMask_sf64 : sf64.expMask = 2047 := rfl

@[simp] theorem signBit_sf64 : sf64.signBit = 2 ^ 63 := rfl

theorem minExp_sf64 : sf64.minExp = -1074 := by decide

theorem decode_sf64 (a : ℕ) :
    sf64.decode a =
      if a / 2 ^ 52 % 2 ^ 11 = 2047 then
        if a % 2 ^ 52 = 0 then .inf (a / 2 ^ 63 == 1) else .nan
      else .fin (a / 2 ^ 63 == 1)
        (if a / 2 ^ 52 % 2 ^ 11 = 0 then a % 2 ^ 52 else a % 2 ^ 52 + 2 ^ 52)
        ((if a / 2 ^ 52 % 2 ^ 11 = 0 then 1 else a / 2 ^ 52 % 2 ^ 11 : ℕ) - 1075) := by
  unfold Format.decode
  simp only [mantSize_sf64, expSize_sf64, expMask_sf64, signBit_sf64, minExp_sf64]
  by_cases h1 : a / 2 ^ 52 % 2 ^ 11 = 2047
  · rw [if_pos h1, if_pos h1]
    rfl
  rw [if_neg h1, if_neg h1]
  by_cases h2 : a / 2 ^ 52 % 2 ^ 11 = 0
  · rw [if_pos h2, if_pos h2, if_pos h2]
    rfl
  · rw [if_neg h2, if_neg h2, if_neg h2, Nat.add_comm]
    congr 1
    omega

theorem toNat_sign {a : ℕ} (ha : a < 2 ^ 64) : (a / 2 ^ 63 == 1).toNat = a / 2 ^ 63 := by
  have : a / 2 ^ 63 = 0 ∨ a / 2 ^ 63 = 1 := by omega
  rcases this with h | h <;> rw [h] <;> rfl

/-- The significand of a finite pattern. -/
def sig (a : ℕ) : ℕ := if a / 2 ^ 52 % 2 ^ 11 = 0 then a % 2 ^ 52 else a % 2 ^ 52 + 2 ^ 52

/-- The exponent of a finite pattern, as it is stored for a normal one. -/
def expo (a : ℕ) : ℕ := if a / 2 ^ 52 % 2 ^ 11 = 0 then 1 else a / 2 ^ 52 % 2 ^ 11

def IsFinite (a : ℕ) : Prop := a / 2 ^ 52 % 2 ^ 11 ≠ 2047

theorem decode_finite {a : ℕ} (h : IsFinite a) :
    sf64.decode a = .fin (a / 2 ^ 63 == 1) (sig a) (expo a - 1075) := by
  rw [decode_sf64, if_neg h, sig, expo]

theorem sig_lt (a : ℕ) : sig a < 2 ^ 53 := by
  unfold sig
  split_ifs <;> omega

theorem one_le_expo (a : ℕ) : 1 ≤ expo a := by
  unfold expo
  split_ifs <;> omega

theorem expo_eq_one_or (a : ℕ) : expo a = 1 ∨ 2 ^ 52 ≤ sig a := by
  unfold expo sig
  split_ifs <;> omega

theorem magnitude_eq_fields (a : ℕ) : a % 2 ^ 63 = (expo a - 1) * 2 ^ 52 + sig a := by
  unfold expo sig
  split_ifs <;> omega

/-- Greater patterns have greater exponents. -/
theorem expo_le {a b : ℕ} (h : b % 2 ^ 63 ≤ a % 2 ^ 63) : expo b ≤ expo a := by
  rw [magnitude_eq_fields, magnitude_eq_fields] at h
  have h1 := expo_eq_one_or b
  have h2 := one_le_expo a
  have h3 := sig_lt a
  omega

/-- At the smaller one's exponent the significands are ordered as the patterns are. -/
theorem sig_lt_mul {a b : ℕ} (h : b % 2 ^ 63 < a % 2 ^ 63) :
    sig b < sig a * 2 ^ (expo a - expo b) := by
  have hle := expo_le h.le
  rw [magnitude_eq_fields, magnitude_eq_fields] at h
  have h1 := sig_lt b
  have h2 := one_le_expo b
  rcases hle.lt_or_eq with hlt | heq
  · have h3 := (expo_eq_one_or a).resolve_left (by omega)
    have h4 : 2 ^ 1 ≤ 2 ^ (expo a - expo b) := Nat.pow_le_pow_right two_pos (by omega)
    calc sig b < 2 ^ 52 * 2 ^ 1 := h1
      _ ≤ sig a * 2 ^ (expo a - expo b) := Nat.mul_le_mul h3 h4
  · rw [heq] at h ⊢
    rw [Nat.sub_self, pow_zero, Nat.mul_one]
    omega

theorem sig_le {a b : ℕ} (h : b % 2 ^ 63 ≤ a % 2 ^ 63) :
    sig b ≤ sig a * 2 ^ (expo a - expo b) := by
  rcases h.lt_or_eq with hlt | heq
  · exact (sig_lt_mul hlt).le
  · have h1 := magnitude_eq_fields a
    have h2 := magnitude_eq_fields b
    have h3 : expo a = expo b := le_antisymm (expo_le heq.ge) (expo_le heq.le)
    rw [h3] at h1 ⊢
    rw [Nat.sub_self, pow_zero, Nat.mul_one]
    omega

/-! ### Sums -/

/-- A significand that is exact, or has its leading bit far above the last one, which is sticky. -/
theorem normalizeSf_aligned {K : Type*} [Field K] [LinearOrder K] [IsStrictOrderedRing K]
    [FloorSemiring K] (neg : Bool) (exp : ℤ) {M : ℕ} (rm : RoundingMode) {x : K}
    (h : x = M ∨ Alike 1 x M ∧ 2 ^ 54 ≤ M) (hM : M < 2 ^ 63) :
    normalizeSf sf64 neg.toNat exp M rm
      = sf64.ofValue rm.rule neg (x * 2 ^ (exp - 1085)) := by
  have hexp : exp - 1085 = exp + sf64.minExp - sf64.expSize := by
    rw [minExp_sf64, expSize_sf64]
    push_cast
    ring
  rw [hexp]
  rcases h with rfl | ⟨halike, hlo⟩
  · exact normalizeSf_natCast (by simp) neg exp rm hM
  · refine normalizeSf_eq (by simp) neg exp rm halike ?_ (by omega) hM
    rw [mantSize_sf64]
    have h2 : ((2 ^ 54 : ℕ) : K) ≤ M := by exact_mod_cast hlo
    rw [show (1 : ℤ) + (52 : ℕ) + 1 = (54 : ℕ) by norm_num, zpow_natCast]
    exact_mod_cast h2

/-- The smaller significand at the greater one's exponent, with three more bits. -/
theorem aligned_cases (a b : ℕ) :
    ((rshiftRnd sf64 (sig b * 2 ^ 3) (expo a - expo b) : ℕ) : ℚ)
        = (sig b * 2 ^ 3 : ℕ) / 2 ^ (expo a - expo b) ∨
      2 ^ 52 ≤ sig a ∧ rshiftRnd sf64 (sig b * 2 ^ 3) (expo a - expo b) < 2 ^ 52 := by
  have hb := sig_lt b
  generalize hd : expo a - expo b = d
  rcases Nat.lt_or_ge d 4 with hlt | hge
  · left
    have hdvd : 2 ^ d ∣ sig b * 2 ^ 3 := Dvd.dvd.mul_left (pow_dvd_pow 2 (by omega)) _
    have hshift : rshiftRnd sf64 (sig b * 2 ^ 3) d = sig b * 2 ^ 3 / 2 ^ d := by
      rw [rshiftRnd, if_neg (show ¬ fSize sf64 ≤ d by change ¬ 64 ≤ d; omega),
        Nat.mod_eq_zero_of_dvd hdvd, if_neg (not_not.2 rfl), Nat.or_zero]
      split_ifs with h0
      · rw [h0, pow_zero, Nat.div_one]
      · rfl
    rw [hshift, Nat.cast_div hdvd (by positivity)]
    push_cast
    rfl
  · right
    have hone := one_le_expo b
    refine ⟨(expo_eq_one_or a).resolve_left (by omega), ?_⟩
    have hsize : sig b * 2 ^ 3 < 2 ^ fSize sf64 := by
      change sig b * 2 ^ 3 < 2 ^ 64
      omega
    have h := ((alike_rshiftRnd (K := ℚ) sf64 hsize d).mono (s := 52) (by omega)).lt_iff 1
    have hpow : (2 : ℚ) ^ 4 ≤ 2 ^ d := pow_le_pow_right₀ one_le_two hge
    have hsmall : ((sig b * 2 ^ 3 : ℕ) : ℚ) / 2 ^ d < 2 ^ 52 := by
      rw [div_lt_iff₀ (by positivity)]
      have hb' : ((sig b * 2 ^ 3 : ℕ) : ℚ) < 2 ^ 52 * 2 ^ 4 := by
        have : sig b * 2 ^ 3 < 2 ^ 52 * 2 ^ 4 := by omega
        exact_mod_cast this
      exact hb'.trans_le (mul_le_mul_of_nonneg_left hpow (by positivity))
    rw [Int.cast_one, one_mul] at h
    exact_mod_cast h.1 (by exact_mod_cast hsmall)

/-- The sum of two finite patterns, the greater magnitude first. -/
theorem addSf64_finite {a b : ℕ} (rm : RoundingMode) (h : b % 2 ^ 63 ≤ a % 2 ^ 63)
    (ha : IsFinite a) :
    addSf64 a b rm =
      if a / 2 ^ 63 = b / 2 ^ 63 then
        normalizeSf sf64 (a / 2 ^ 63) (expo a + 7)
          (sig a * 2 ^ 3 + rshiftRnd sf64 (sig b * 2 ^ 3) (expo a - expo b)) rm
      else
        normalizeSf sf64
          (if sig a * 2 ^ 3 - rshiftRnd sf64 (sig b * 2 ^ 3) (expo a - expo b) = 0 then
            if rm = .rdn then 1 else 0
          else a / 2 ^ 63) (expo a + 7)
          (sig a * 2 ^ 3 - rshiftRnd sf64 (sig b * 2 ^ 3) (expo a - expo b)) rm := by
  have hsig (c : ℕ) : (if c / 2 ^ mantSize % 2 ^ 11 = 0 then c % 2 ^ mantSize * 2 ^ 3
      else c % 2 ^ mantSize * 2 ^ 3 + 2 ^ (mantSize + 3)) = sig c * 2 ^ 3 := by
    unfold sig mantSize
    split_ifs <;> omega
  have hexpo (c : ℕ) : (if c / 2 ^ mantSize % 2 ^ 11 = 0 then 1 else c / 2 ^ mantSize % 2 ^ 11)
      = expo c := rfl
  have hswap : ¬ a % signMask < b % signMask := Nat.not_lt.2 h
  have hE : a / 2 ^ mantSize % 2 ^ 11 ≠ expMask := ha
  unfold addSf64
  simp only [if_neg hswap, if_neg hE, hsig, hexpo]
  rfl

theorem normalizeSf_sf64_zero (neg : Bool) (exp : ℤ) (rm : RoundingMode) :
    normalizeSf sf64 neg.toNat exp 0 rm = sf64.pattern neg 0 :=
  normalizeSf_zero (by simp) neg exp rm

theorem addSf64_finite_eq {a b : ℕ} (rm : RoundingMode) (h : b % 2 ^ 63 ≤ a % 2 ^ 63)
    (ha : IsFinite a) (hb : IsFinite b) (ha64 : a < 2 ^ 64) (hb64 : b < 2 ^ 64) :
    addSf64 a b rm = sf64.addBy rm.rule (rm = .rdn) a b := by
  have hsa := sig_lt a
  have hsb := sig_lt b
  have hle := sig_le h
  have hd : expo b + (expo a - expo b) = expo a := Nat.add_sub_of_le (expo_le h)
  have hcases := aligned_cases a b
  have halike := alike_rshiftRnd (K := ℚ) sf64
    (show sig b * 2 ^ 3 < 2 ^ fSize sf64 by change _ < 2 ^ 64; omega) (expo a - expo b)
  rw [addSf64_finite rm h ha]
  generalize rshiftRnd sf64 (sig b * 2 ^ 3) (expo a - expo b) = B at *
  generalize expo a - expo b = d at *
  -- the two numbers at the greater one's exponent
  have hqa : (sig a : ℚ) * 2 ^ ((expo a : ℤ) - 1075)
      = (sig a * 2 ^ 3 : ℕ) * 2 ^ ((expo a : ℤ) + 7 - 1085) := by
    rw [natCast_mul_two_pow_mul]
    congr 2
    push_cast
    ring
  have hqb : (sig b : ℚ) * 2 ^ ((expo b : ℤ) - 1075)
      = (sig b * 2 ^ 3 : ℕ) / 2 ^ d * 2 ^ ((expo a : ℤ) + 7 - 1085) := by
    rw [← hd, div_two_pow_mul, natCast_mul_two_pow_mul]
    congr 2
    push_cast
    ring
  have hBA : ((sig b * 2 ^ 3 : ℕ) / 2 ^ d : ℚ) ≤ (sig a * 2 ^ 3 : ℕ) := by
    rw [div_le_iff₀ (by positivity)]
    have : sig b * 2 ^ 3 ≤ sig a * 2 ^ 3 * 2 ^ d := by
      rw [Nat.mul_right_comm]
      exact Nat.mul_le_mul_right _ hle
    exact_mod_cast this
  have hscale : (0 : ℚ) < 2 ^ ((expo a : ℤ) + 7 - 1085) := zpow_pos two_pos _
  rw [Format.addBy_fin (decode_finite ha) (decode_finite hb)
    (by rw [hqa, hqb]; exact mul_le_mul_of_nonneg_right hBA hscale.le), hqa, hqb, ← add_mul,
    ← sub_mul]
  have hsigna := toNat_sign ha64
  have hsignb := toNat_sign hb64
  generalize (a / 2 ^ 63 == 1) = n₁ at *
  generalize (b / 2 ^ 63 == 1) = n₂ at *
  rw [← hsigna, ← hsignb]
  have hn : n₁.toNat = n₂.toNat ↔ n₁ = n₂ := by cases n₁ <;> cases n₂ <;> decide
  simp only [hn]
  have hX : ((sig a * 2 ^ 3 : ℕ) : ℚ) = ((sig a * 2 ^ 2 : ℕ) : ℤ) * 2 ^ (1 : ℤ) := by
    push_cast
    ring
  have hB : B ≤ sig a * 2 ^ 3 := by
    rcases hcases with hexact | ⟨hlo, hhi⟩
    · rw [← hexact] at hBA
      exact_mod_cast hBA
    · omega
  by_cases hab : n₁ = n₂
  · rw [if_pos hab, if_pos hab]
    refine normalizeSf_aligned n₁ _ rm ?_ (by omega)
    rcases hcases with hexact | ⟨hlo, -⟩
    · left
      rw [Nat.cast_add, hexact]
    · right
      refine ⟨?_, by omega⟩
      rw [Nat.cast_add, hX]
      exact halike.add_left _
  · rw [if_neg hab, if_neg hab]
    have hM : ((sig a * 2 ^ 3 - B : ℕ) : ℚ) = (sig a * 2 ^ 3 : ℕ) - B := Nat.cast_sub hB
    have hdiff : ((sig a * 2 ^ 3 : ℕ) - (sig b * 2 ^ 3 : ℕ) / 2 ^ d : ℚ)
          = (sig a * 2 ^ 3 - B : ℕ) ∨
        Alike 1 ((sig a * 2 ^ 3 : ℕ) - (sig b * 2 ^ 3 : ℕ) / 2 ^ d : ℚ)
          (sig a * 2 ^ 3 - B : ℕ) ∧ 2 ^ 54 ≤ sig a * 2 ^ 3 - B := by
      rcases hcases with hexact | ⟨hlo, hhi⟩
      · left
        rw [hM, hexact]
      · right
        refine ⟨?_, by omega⟩
        rw [hM, hX]
        exact halike.sub_left _
    have hzero : ((sig a * 2 ^ 3 : ℕ) * 2 ^ ((expo a : ℤ) + 7 - 1085) : ℚ)
          = (sig b * 2 ^ 3 : ℕ) / 2 ^ d * 2 ^ ((expo a : ℤ) + 7 - 1085)
        ↔ sig a * 2 ^ 3 - B = 0 := by
      rw [mul_left_inj' hscale.ne', ← sub_eq_zero]
      rcases hdiff with hexact | ⟨halike', hlo⟩
      · rw [hexact, Nat.cast_eq_zero]
      · have h0 := halike'.eq_iff 0
        rw [Int.cast_zero, zero_mul] at h0
        rw [h0, Nat.cast_eq_zero]
    simp only [hzero]
    by_cases h0 : sig a * 2 ^ 3 - B = 0
    · rw [if_pos h0, if_pos h0, h0, ← normalizeSf_sf64_zero _ (expo a + 7) rm]
      cases rm <;> rfl
    · rw [if_neg h0, if_neg h0]
      exact normalizeSf_aligned n₁ _ rm hdiff (by omega)

theorem decode_infinite {a : ℕ} (h : ¬ IsFinite a) :
    sf64.decode a = if a % 2 ^ 52 = 0 then .inf (a / 2 ^ 63 == 1) else .nan := by
  rw [decode_sf64, if_pos (not_not.1 h)]

/-- An infinity is its sign and the pattern of infinity. -/
theorem eq_pattern_infinity {a : ℕ} (h : ¬ IsFinite a) (h0 : a % 2 ^ 52 = 0) (ha : a < 2 ^ 64) :
    a = sf64.pattern (a / 2 ^ 63 == 1) sf64.infinity := by
  have hexp : a / 2 ^ 52 % 2 ^ 11 = 2047 := not_not.1 h
  have hinf : sf64.infinity = 2047 * 2 ^ 52 := rfl
  rw [Format.pattern, toNat_sign ha, signBit_sf64, hinf]
  omega

theorem addSf64_infinite {a b : ℕ} (rm : RoundingMode) (h : b % 2 ^ 63 ≤ a % 2 ^ 63)
    (ha : ¬ IsFinite a) (ha64 : a < 2 ^ 64) (hb64 : b < 2 ^ 64) :
    addSf64 a b rm = sf64.addBy rm.rule (rm = .rdn) a b := by
  have hswap : ¬ a % signMask < b % signMask := Nat.not_lt.2 h
  have hE : a / 2 ^ mantSize % 2 ^ 11 = expMask := not_not.1 ha
  have hexp : a / 2 ^ 52 % 2 ^ 11 = 2047 := hE
  unfold addSf64
  simp only [if_neg hswap, if_pos hE]
  by_cases ha0 : a % 2 ^ 52 = 0
  · have hmant : ¬ a % 2 ^ mantSize * 2 ^ 3 ≠ 0 := by
      change ¬ a % 2 ^ 52 * 2 ^ 3 ≠ 0
      omega
    rw [if_neg hmant, Format.addBy, decode_infinite ha, if_pos ha0]
    by_cases hb : IsFinite b
    · have hbE : ¬ (b / 2 ^ mantSize % 2 ^ 11 = expMask ∧ a / 2 ^ 63 ≠ b / 2 ^ 63) :=
        fun h' => hb h'.1
      rw [if_neg hbE, decode_finite hb]
      exact eq_pattern_infinity ha ha0 ha64
    · have hbE : b / 2 ^ 52 % 2 ^ 11 = 2047 := not_not.1 hb
      have hb0 : b % 2 ^ 52 = 0 := by omega
      rw [decode_infinite hb, if_pos hb0]
      by_cases hab : a / 2 ^ 63 = b / 2 ^ 63
      · rw [if_neg (fun h' => h'.2 hab)]
        simp only [hab, if_true]
        rw [← hab]
        exact eq_pattern_infinity ha ha0 ha64
      · rw [if_pos ⟨hbE, hab⟩]
        have hne : ¬ (a / 2 ^ 63 == 1) = (b / 2 ^ 63 == 1) := by
          intro h'
          rw [← toNat_sign ha64, ← toNat_sign hb64, h'] at hab
          exact hab rfl
        simp only [if_neg hne]
        rfl
  · have hmant : a % 2 ^ mantSize * 2 ^ 3 ≠ 0 := by
      change a % 2 ^ 52 * 2 ^ 3 ≠ 0
      omega
    rw [if_pos hmant, Format.addBy, decode_infinite ha, if_neg ha0]
    rfl

theorem addSf64_eq_of_le {a b : ℕ} (rm : RoundingMode) (h : b % 2 ^ 63 ≤ a % 2 ^ 63)
    (ha64 : a < 2 ^ 64) (hb64 : b < 2 ^ 64) :
    addSf64 a b rm = sf64.addBy rm.rule (rm = .rdn) a b := by
  by_cases ha : IsFinite a
  · have hb : IsFinite b := by
      unfold IsFinite at *
      omega
    exact addSf64_finite_eq rm h ha hb ha64 hb64
  · exact addSf64_infinite rm h ha ha64 hb64

theorem addSf64_swap {a b : ℕ} (rm : RoundingMode) (h : a % 2 ^ 63 < b % 2 ^ 63) :
    addSf64 a b rm = addSf64 b a rm := by
  have h₁ : a % signMask < b % signMask := h
  have h₂ : ¬ b % signMask < a % signMask := Nat.not_lt.2 h.le
  unfold addSf64
  simp only [if_pos h₁, if_neg h₂]

/-- `add_sf64` rounds the exact sum once. -/
theorem addSf64_eq {a b : ℕ} (rm : RoundingMode) (ha : a < 2 ^ 64) (hb : b < 2 ^ 64) :
    addSf64 a b rm = sf64.addBy rm.rule (rm = .rdn) a b := by
  rcases Nat.lt_or_ge (a % 2 ^ 63) (b % 2 ^ 63) with h | h
  · rw [addSf64_swap rm h, addSf64_eq_of_le rm h.le hb ha, Format.addBy_comm]
  · exact addSf64_eq_of_le rm h ha hb

/-! ### Differences -/

/-- The sign bit is flipped. -/
theorem xor_signMask {b : ℕ} (hb : b < 2 ^ 64) :
    b ^^^ signMask = b % 2 ^ 63 + (1 - b / 2 ^ 63) * 2 ^ 63 := by
  have hdiv := Nat.xor_div_two_pow (a := b) (b := signMask) (n := 63)
  have hmod := Nat.xor_mod_two_pow (a := b) (b := signMask) (n := 63)
  have h1 : signMask / 2 ^ 63 = 1 := rfl
  have h0 : signMask % 2 ^ 63 = 0 := rfl
  have hflip : b / 2 ^ 63 ^^^ 1 = 1 - b / 2 ^ 63 := by
    have h : b / 2 ^ 63 = 0 ∨ b / 2 ^ 63 = 1 := by omega
    rcases h with h | h <;> rw [h] <;> rfl
  rw [h1, hflip] at hdiv
  rw [h0, Nat.xor_zero] at hmod
  omega

theorem xor_signMask_lt {b : ℕ} (hb : b < 2 ^ 64) : b ^^^ signMask < 2 ^ 64 := by
  rw [xor_signMask hb]
  omega

/-- The same with the other sign. -/
theorem decode_xor_signMask {b : ℕ} (hb : b < 2 ^ 64) :
    sf64.decode (b ^^^ signMask) = (sf64.decode b).neg := by
  have hsign : ((b ^^^ signMask) / 2 ^ 63 == 1) = !(b / 2 ^ 63 == 1) := by
    rw [xor_signMask hb]
    have h : b / 2 ^ 63 = 0 ∨ b / 2 ^ 63 = 1 := by omega
    rcases h with h | h
    · rw [h, show (b % 2 ^ 63 + (1 - 0) * 2 ^ 63) / 2 ^ 63 = 1 by omega]
      rfl
    · rw [h, show (b % 2 ^ 63 + (1 - 1) * 2 ^ 63) / 2 ^ 63 = 0 by omega]
      rfl
  have hexp : (b ^^^ signMask) / 2 ^ 52 % 2 ^ 11 = b / 2 ^ 52 % 2 ^ 11 := by
    rw [xor_signMask hb]
    omega
  have hmant : (b ^^^ signMask) % 2 ^ 52 = b % 2 ^ 52 := by
    rw [xor_signMask hb]
    omega
  rw [decode_sf64, decode_sf64, hsign, hexp, hmant]
  by_cases h1 : b / 2 ^ 52 % 2 ^ 11 = 2047
  · by_cases h2 : b % 2 ^ 52 = 0
    · simp only [if_pos h1, if_pos h2, Double.Class.neg]
    · simp only [if_pos h1, if_neg h2, Double.Class.neg]
  · simp only [if_neg h1, Double.Class.neg]

/-- `sub_sf64` rounds the exact difference once. -/
theorem subSf64_eq {a b : ℕ} (rm : RoundingMode) (ha : a < 2 ^ 64) (hb : b < 2 ^ 64) :
    subSf64 a b rm = sf64.subBy rm.rule (rm = .rdn) a b := by
  rw [subSf64, addSf64_eq rm ha (xor_signMask_lt hb)]
  exact (Format.subBy_eq_addBy (decode_xor_signMask hb)).symm

end SoftFp

end Qjs
