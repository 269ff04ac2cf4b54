import Qjs.Proofs.SoftFpAdd

/-!
# Soft-float products, quotients and square roots

The words of 64 bits give the same product, quotient and root as those of 128 bits; a sticky bit
says whether something was cut off.
-/

namespace Qjs

namespace SoftFp

/-! ### Words -/

/-- The product of two words, from the products of their halves. -/
theorem mulUHalves_eq {a b : ℕ} (ha : a < 2 ^ 64) (hb : b < 2 ^ 64) :
    mulUHalves a b = (a * b / 2 ^ 64, a * b % 2 ^ 64) := by
  have hlt (c d : ℕ) (hc : c < 2 ^ 32) (hd : d < 2 ^ 32) : c * d ≤ (2 ^ 32 - 1) * (2 ^ 32 - 1) :=
    Nat.mul_le_mul (by omega) (by omega)
  have hsum : a * b = a / 2 ^ 32 * (b / 2 ^ 32) * 2 ^ 64
      + (a % 2 ^ 32 * (b / 2 ^ 32) + a / 2 ^ 32 * (b % 2 ^ 32)) * 2 ^ 32
      + a % 2 ^ 32 * (b % 2 ^ 32) := by
    conv_lhs => rw [← Nat.div_add_mod' a (2 ^ 32), ← Nat.div_add_mod' b (2 ^ 32)]
    ring
  have h00 := hlt (a % 2 ^ 32) (b % 2 ^ 32) (by omega) (by omega)
  have h01 := hlt (a % 2 ^ 32) (b / 2 ^ 32) (by omega) (by omega)
  have h10 := hlt (a / 2 ^ 32) (b % 2 ^ 32) (by omega) (by omega)
  have h11 := hlt (a / 2 ^ 32) (b / 2 ^ 32) (by omega) (by omega)
  simp only [mulUHalves]
  rw [hsum]
  clear hsum hlt
  generalize a % 2 ^ 32 * (b % 2 ^ 32) = r00 at *
  generalize a % 2 ^ 32 * (b / 2 ^ 32) = r01 at *
  generalize a / 2 ^ 32 * (b % 2 ^ 32) = r10 at *
  generalize a / 2 ^ 32 * (b / 2 ^ 32) = r11 at *
  rw [Prod.mk.injEq]
  constructor <;> omega

theorem mulU_eq (int128 : Bool) {a b : ℕ} (ha : a < 2 ^ 64) (hb : b < 2 ^ 64) :
    mulU int128 a b = (a * b / 2 ^ 64, a * b % 2 ^ 64) := by
  have hlt : a * b < 2 ^ 64 * 2 ^ 64 := Nat.mul_lt_mul'' ha hb
  unfold mulU
  split_ifs
  · rw [Nat.mod_eq_of_lt (Nat.div_lt_of_lt_mul hlt)]
  · exact mulUHalves_eq ha hb

/-- The loop of `divrem_u` with `n` bits `d` of the dividend and `k` bits `q` of the quotient. -/
theorem divremLoop_eq {b : ℕ} (hb : b < 2 ^ 64) : ∀ (n k a1 d q : ℕ), n + k = 64 → a1 < b →
    d < 2 ^ n → q < 2 ^ k →
    divremLoop b n a1 (d * 2 ^ k + q)
      = (q * 2 ^ n + (a1 * 2 ^ n + d) / b, (a1 * 2 ^ n + d) % b)
  | 0, k, a1, d, q, _, h, hd, _ => by
    obtain rfl : d = 0 := by omega
    rw [divremLoop, pow_zero, Nat.mul_one, Nat.mul_one, Nat.add_zero, Nat.div_eq_of_lt h,
      Nat.mod_eq_of_lt h, Nat.zero_mul, Nat.zero_add, Nat.add_zero]
  | n + 1, k, a1, d, q, hk, h, hd, hq => by
    -- the next bit of the dividend
    obtain ⟨t, d', rfl, ht, hd'⟩ : ∃ t d', d = t * 2 ^ n + d' ∧ t < 2 ∧ d' < 2 ^ n :=
      ⟨d / 2 ^ n, d % 2 ^ n, (Nat.div_add_mod' _ _).symm,
        Nat.div_lt_of_lt_mul (by rwa [← pow_succ]), Nat.mod_lt _ (by positivity)⟩
    have hpow : 2 ^ n * 2 ^ k = 2 ^ 63 := by rw [← pow_add, show n + k = 63 by omega]
    have hrest : d' * 2 ^ k + q < 2 ^ 63 := by
      have : (d' + 1) * 2 ^ k ≤ 2 ^ n * 2 ^ k := Nat.mul_le_mul_right _ hd'
      rw [hpow, Nat.add_mul] at this
      omega
    have ha0 : (t * 2 ^ n + d') * 2 ^ k + q = t * 2 ^ 63 + (d' * 2 ^ k + q) := by
      rw [← hpow]
      ring
    have htop : (t * 2 ^ 63 + (d' * 2 ^ k + q)) / 2 ^ 63 = t := by omega
    have hlow (c : ℕ) : (t * 2 ^ 63 + (d' * 2 ^ k + q)) * 2 % 2 ^ 64 + c
        = d' * 2 ^ (k + 1) + (q * 2 + c) := by
      rw [show (t * 2 ^ 63 + (d' * 2 ^ k + q)) * 2 % 2 ^ 64 = (d' * 2 ^ k + q) * 2 by omega]
      ring
    have hgoal : a1 * 2 ^ (n + 1) + (t * 2 ^ n + d') = (a1 * 2 + t) * 2 ^ n + d' := by ring
    have hcmp : (a1 / 2 ^ 63 ≠ 0 ∨ b ≤ a1 * 2 % 2 ^ 64 + t) ↔ b ≤ a1 * 2 + t := by omega
    rw [divremLoop, ha0]
    simp only [htop, hcmp]
    rw [hgoal]
    by_cases hle : b ≤ a1 * 2 + t
    · rw [if_pos hle, show (a1 * 2 % 2 ^ 64 + t + 2 ^ 64 - b) % 2 ^ 64 = a1 * 2 + t - b by omega,
        hlow, divremLoop_eq hb n (k + 1) _ _ _ (by omega) (by omega) hd'
          (by rw [pow_succ]; omega)]
      have hsub : (a1 * 2 + t) * 2 ^ n + d' = (a1 * 2 + t - b) * 2 ^ n + d' + 2 ^ n * b := by
        rw [Nat.sub_mul, Nat.mul_comm (2 ^ n) b]
        have := Nat.mul_le_mul_right (2 ^ n) hle
        omega
      rw [hsub, Nat.add_mul_div_right _ _ (by omega), Nat.add_mul_mod_self_right, pow_succ]
      congr 1
      ring
    · rw [if_neg hle, show a1 * 2 % 2 ^ 64 + t = a1 * 2 + t by omega]
      have hlow0 := hlow 0
      rw [Nat.add_zero, Nat.add_zero] at hlow0
      rw [hlow0, divremLoop_eq hb n (k + 1) _ _ _ (by omega) (by omega) hd'
        (by rw [pow_succ]; omega), pow_succ]
      congr 1
      ring

theorem divremU_eq (int128 : Bool) {a1 a0 b : ℕ} (h : a1 < b) (hb : b < 2 ^ 64)
    (h0 : a0 < 2 ^ 64) :
    divremU int128 a1 a0 b = ((a1 * 2 ^ 64 + a0) / b, (a1 * 2 ^ 64 + a0) % b) := by
  have hlt : (a1 * 2 ^ 64 + a0) / b < 2 ^ 64 := by
    rw [Nat.div_lt_iff_lt_mul (by omega)]
    have : (a1 + 1) * 2 ^ 64 ≤ b * 2 ^ 64 := Nat.mul_le_mul_right _ h
    rw [Nat.mul_comm (2 ^ 64) b]
    omega
  unfold divremU
  split_ifs
  · rw [Nat.mod_eq_of_lt hlt]
  · have hloop := divremLoop_eq hb 64 0 a1 a0 0 rfl h h0 (by simp)
    rwa [pow_zero, Nat.mul_one, Nat.add_zero, Nat.zero_mul, Nat.zero_add] at hloop

/-! ### Operands -/

theorem normalizeSubnormalSf_spec {f : Format} {m : ℕ} (h0 : m ≠ 0) (hlt : m < 2 ^ f.mantSize) :
    ∃ k : ℕ, normalizeSubnormalSf f m = (1 - (k : ℤ), m * 2 ^ k) ∧
      2 ^ f.mantSize ≤ m * 2 ^ k ∧ m * 2 ^ k < 2 ^ (f.mantSize + 1) := by
  obtain ⟨k, hk⟩ : ∃ k, Nat.log2 m + k = f.mantSize := by
    have : Nat.log2 m < f.mantSize := (Nat.log2_lt h0).2 hlt
    exact ⟨f.mantSize - Nat.log2 m, by omega⟩
  have hshift : (f.mantSize - (fSize f - 1 - clz (fSize f) m) : ℤ) = k := by
    rw [clz, if_neg h0]
    omega
  have hlo : 2 ^ Nat.log2 m * 2 ^ k ≤ m * 2 ^ k := Nat.mul_le_mul_right _ (Nat.log2_self_le h0)
  have hhi : m * 2 ^ k < 2 ^ (Nat.log2 m + 1) * 2 ^ k :=
    Nat.mul_lt_mul_of_pos_right Nat.lt_log2_self (by positivity)
  rw [← pow_add] at hlo hhi
  rw [hk] at hlo
  rw [Nat.add_right_comm, hk] at hhi
  refine ⟨k, ?_, hlo, hhi⟩
  have hsize : 2 ^ (f.mantSize + 1) ≤ 2 ^ fSize f :=
    Nat.pow_le_pow_right two_pos (by unfold fSize; omega)
  rw [normalizeSubnormalSf, hshift, Int.toNat_natCast, Nat.mod_eq_of_lt (hhi.trans_le hsize)]

/-- The leading bit of a number that is not zero goes to its place. -/
theorem unpackSf64_spec {a : ℕ} (h0 : sig a ≠ 0) :
    ∃ k : ℕ, unpackSf64 a = ((expo a : ℤ) - k, sig a * 2 ^ k) ∧
      2 ^ 52 ≤ sig a * 2 ^ k ∧ sig a * 2 ^ k < 2 ^ 53 := by
  have hlt : a % 2 ^ 52 < 2 ^ 52 := Nat.mod_lt _ (by positivity)
  by_cases hE : a / 2 ^ mantSize % 2 ^ 11 = 0
  · have hsig : sig a = a % 2 ^ 52 := if_pos hE
    have hexpo : expo a = 1 := if_pos hE
    rw [hsig] at h0 ⊢
    obtain ⟨k, hk, hlo, hhi⟩ := normalizeSubnormalSf_spec (f := sf64) h0 hlt
    refine ⟨k, ?_, hlo, hhi⟩
    unfold unpackSf64
    simp only [if_pos hE]
    rw [hexpo]
    exact hk
  · have hsig : sig a = a % 2 ^ 52 + 2 ^ 52 := if_neg hE
    have hexpo : expo a = a / 2 ^ 52 % 2 ^ 11 := if_neg hE
    refine ⟨0, ?_, by omega, by omega⟩
    unfold unpackSf64
    simp only [if_neg hE]
    rw [hsig, hexpo, Nat.cast_zero, sub_zero, pow_zero, Nat.mul_one]
    rfl

/-- What an operand stands for does not change. -/
theorem unpackSf64_value {K : Type*} [Field K] [LinearOrder K] [IsStrictOrderedRing K] {a : ℕ}
    (h0 : sig a ≠ 0) :
    (sig a : K) * 2 ^ ((expo a : ℤ) - 1075)
      = (unpackSf64 a).2 * 2 ^ ((unpackSf64 a).1 - 1075) := by
  obtain ⟨k, hk, -, -⟩ := unpackSf64_spec h0
  rw [hk]
  dsimp only
  rw [natCast_mul_two_pow_mul]
  congr 2
  ring

theorem isZeroSf64_iff (a : ℕ) : isZeroSf64 a = true ↔ sig a = 0 := by
  have h : isZeroSf64 a = true ↔ a / 2 ^ 52 % 2 ^ 11 = 0 ∧ a % 2 ^ 52 = 0 := by
    rw [isZeroSf64, Bool.and_eq_true, beq_iff_eq, beq_iff_eq]
    rfl
  rw [h, sig]
  by_cases hE : a / 2 ^ 52 % 2 ^ 11 = 0
  · rw [if_pos hE]
    exact and_iff_right hE
  · rw [if_neg hE]
    constructor
    · intro h'
      exact absurd h'.1 hE
    · intro h'
      omega

theorem sig_ne_zero {a : ℕ} (h : ¬ IsFinite a) : sig a ≠ 0 := by
  have hE : a / 2 ^ 52 % 2 ^ 11 = 2047 := not_not.1 h
  rw [sig, if_neg (by omega)]
  omega

/-- NaN, an infinity or a number. -/
theorem decode_cases (a : ℕ) :
    (¬ IsFinite a ∧ a % 2 ^ 52 ≠ 0 ∧ sf64.decode a = .nan) ∨
    (¬ IsFinite a ∧ a % 2 ^ 52 = 0 ∧ sf64.decode a = .inf (a / 2 ^ 63 == 1)) ∨
    (IsFinite a ∧ sf64.decode a = .fin (a / 2 ^ 63 == 1) (sig a) (expo a - 1075)) := by
  by_cases h : IsFinite a
  · exact .inr (.inr ⟨h, decode_finite h⟩)
  · by_cases h0 : a % 2 ^ 52 = 0
    · exact .inr (.inl ⟨h, h0, by rw [decode_infinite h, if_pos h0]⟩)
    · exact .inl ⟨h, h0, by rw [decode_infinite h, if_neg h0]⟩

theorem isnanSf_iff (a : ℕ) : isnanSf sf64 a = true ↔ ¬ IsFinite a ∧ a % 2 ^ 52 ≠ 0 := by
  rw [isnanSf, Bool.and_eq_true, beq_iff_eq, bne_iff_ne, IsFinite, not_not]
  rfl

theorem xor_sign {a b : ℕ} (ha : a < 2 ^ 64) (hb : b < 2 ^ 64) :
    a / 2 ^ 63 ^^^ b / 2 ^ 63 = ((a / 2 ^ 63 == 1) ^^ (b / 2 ^ 63 == 1)).toNat := by
  have h₁ : a / 2 ^ 63 < 2 := by omega
  have h₂ : b / 2 ^ 63 < 2 := by omega
  generalize a / 2 ^ 63 = s at *
  generalize b / 2 ^ 63 = t at *
  interval_cases s <;> interval_cases t <;> rfl

theorem packSf_sf64 (neg : Bool) (e : ℕ) :
    packSf sf64 neg.toNat e 0 = sf64.pattern neg (e * 2 ^ 52) := by
  rw [packSf_eq, Nat.zero_mod, Nat.add_zero, mantSize_sf64]

/-- An integer quotient with its sticky bit. -/
theorem normalizeSf_quotient (neg : Bool) (exp : ℤ) {c d : ℕ} (rm : RoundingMode) (hd : 0 < d)
    (hlo : 2 ^ 54 * d ≤ c) (hhi : c < 2 ^ 63 * d) :
    normalizeSf sf64 neg.toNat exp (c / d ||| (if c % d = 0 then 0 else 1)) rm
      = sf64.ofValue rm.rule neg ((c : ℚ) / d * 2 ^ (exp - 1085)) := by
  have hq : c / d < 2 ^ 63 := (Nat.div_lt_iff_lt_mul hd).2 hhi
  refine normalizeSf_aligned neg exp rm (.inr ⟨alike_div hd, ?_⟩) ?_
  · exact ((Nat.le_div_iff_mul_le hd).2 hlo).trans Nat.left_le_or
  · exact Nat.or_lt_two_pow hq (by split_ifs <;> decide)

/-! ### Products -/

theorem mulSf64_finite (int128 : Bool) {a b : ℕ} (rm : RoundingMode) (ha : IsFinite a)
    (hb : IsFinite b) (ha64 : a < 2 ^ 64) (hb64 : b < 2 ^ 64) :
    mulSf64 int128 a b rm = sf64.mulBy rm.rule a b := by
  have hspecial : ¬ (a / 2 ^ mantSize % 2 ^ 11 = expMask ∨ b / 2 ^ mantSize % 2 ^ 11 = expMask) :=
    not_or.2 ⟨ha, hb⟩
  rw [Format.mulBy, decode_finite ha, decode_finite hb]
  unfold mulSf64
  simp only [if_neg hspecial, isZeroSf64_iff, xor_sign ha64 hb64]
  by_cases ha0 : sig a = 0
  · rw [if_pos ha0, packSf_sf64, ha0, Nat.cast_zero, zero_mul, zero_mul, zero_mul,
      Format.ofValue_zero]
  by_cases hb0 : sig b = 0
  · rw [if_neg ha0, if_pos hb0, packSf_sf64, hb0, Nat.cast_zero, zero_mul, zero_mul, mul_zero,
      Format.ofValue_zero]
  rw [if_neg ha0, if_neg hb0]
  obtain ⟨k₁, hk₁, hlo₁, hhi₁⟩ := unpackSf64_spec ha0
  obtain ⟨k₂, hk₂, hlo₂, hhi₂⟩ := unpackSf64_spec hb0
  rw [unpackSf64_value ha0, unpackSf64_value hb0, hk₁, hk₂]
  dsimp only
  generalize sig a * 2 ^ k₁ = m₁ at *
  generalize sig b * 2 ^ k₂ = m₂ at *
  have hm₁ : m₁ * 2 ^ rndSize % 2 ^ 64 = m₁ * 2 ^ 10 := Nat.mod_eq_of_lt (by
    change m₁ * 2 ^ 10 < 2 ^ 64
    omega)
  have hm₂ : m₂ * 2 ^ (rndSize + 1) % 2 ^ 64 = m₂ * 2 ^ 11 := Nat.mod_eq_of_lt (by
    change m₂ * 2 ^ 11 < 2 ^ 64
    omega)
  have hlo : 2 ^ 52 * 2 ^ 52 ≤ m₁ * m₂ := Nat.mul_le_mul hlo₁ hlo₂
  have hhi : m₁ * m₂ < 2 ^ 53 * 2 ^ 53 := Nat.mul_lt_mul'' hhi₁ hhi₂
  have hprod : m₁ * 2 ^ 10 * (m₂ * 2 ^ 11) = m₁ * m₂ * 2 ^ 21 := by ring
  rw [hm₁, hm₂, mulU_eq int128 (by omega) (by omega), hprod]
  simp only [ne_eq, ite_not]
  rw [normalizeSf_quotient _ _ rm (by positivity) (by omega) (by omega)]
  rw [Nat.cast_pow, Nat.cast_ofNat, div_two_pow_mul, natCast_mul_two_pow_mul, mul_mul_mul_comm,
    ← zpow_add₀ two_ne_zero, Nat.cast_mul]
  congr 3
  push_cast
  ring

theorem mulSf64_eq (int128 : Bool) {a b : ℕ} (rm : RoundingMode) (ha : a < 2 ^ 64)
    (hb : b < 2 ^ 64) : mulSf64 int128 a b rm = sf64.mulBy rm.rule a b := by
  by_cases hfin : IsFinite a ∧ IsFinite b
  · exact mulSf64_finite int128 rm hfin.1 hfin.2 ha hb
  have hspecial : a / 2 ^ mantSize % 2 ^ 11 = expMask ∨ b / 2 ^ mantSize % 2 ^ 11 = expMask := by
    rw [not_and_or] at hfin
    exact hfin.imp not_not.1 not_not.1
  have hinf : expMask * 2 ^ 52 = sf64.infinity := rfl
  unfold mulSf64
  rw [if_pos hspecial, xor_sign ha hb, packSf_sf64, hinf]
  unfold Format.mulBy
  rcases decode_cases a with ⟨ha1, ha2, hda⟩ | ⟨ha1, ha2, hda⟩ | ⟨ha1, hda⟩
  · rw [if_pos (.inl ((isnanSf_iff a).2 ⟨ha1, ha2⟩)), hda]
    rfl
  · have hna : ¬ isnanSf sf64 a = true := fun h => ((isnanSf_iff a).1 h).2 ha2
    have hza : ¬ isZeroSf64 a = true := fun h => sig_ne_zero ha1 ((isZeroSf64_iff a).1 h)
    rcases decode_cases b with ⟨hb1, hb2, hdb⟩ | ⟨hb1, hb2, hdb⟩ | ⟨hb1, hdb⟩
    · rw [if_pos (.inr ((isnanSf_iff b).2 ⟨hb1, hb2⟩)), hda, hdb]
      rfl
    · have hnb : ¬ isnanSf sf64 b = true := fun h => ((isnanSf_iff b).1 h).2 hb2
      have hzb : ¬ isZeroSf64 b = true := fun h => sig_ne_zero hb1 ((isZeroSf64_iff b).1 h)
      rw [if_neg (not_or.2 ⟨hna, hnb⟩), if_neg (by rintro (⟨-, h⟩ | ⟨-, h⟩); exacts [hzb h, hza h]),
        hda, hdb]
    · have hnb : ¬ isnanSf sf64 b = true := fun h => ((isnanSf_iff b).1 h).1 hb1
      have hEb : ¬ b / 2 ^ mantSize % 2 ^ 11 = expMask := hb1
      rw [if_neg (not_or.2 ⟨hna, hnb⟩), hda, hdb]
      by_cases hzb : sig b = 0
      · rw [if_pos (.inl ⟨not_not.1 ha1, (isZeroSf64_iff b).2 hzb⟩)]
        exact (if_pos hzb).symm
      · rw [if_neg (by
          rintro (⟨-, h⟩ | ⟨h, -⟩)
          exacts [hzb ((isZeroSf64_iff b).1 h), hEb h])]
        exact (if_neg hzb).symm
  · have hna : ¬ isnanSf sf64 a = true := fun h => ((isnanSf_iff a).1 h).1 ha1
    have hEa : ¬ a / 2 ^ mantSize % 2 ^ 11 = expMask := ha1
    rcases decode_cases b with ⟨hb1, hb2, hdb⟩ | ⟨hb1, hb2, hdb⟩ | ⟨hb1, hdb⟩
    · rw [if_pos (.inr ((isnanSf_iff b).2 ⟨hb1, hb2⟩)), hda, hdb]
      rfl
    · have hnb : ¬ isnanSf sf64 b = true := fun h => ((isnanSf_iff b).1 h).2 hb2
      rw [if_neg (not_or.2 ⟨hna, hnb⟩), hda, hdb]
      by_cases hza : sig a = 0
      · rw [if_pos (.inr ⟨not_not.1 hb1, (isZeroSf64_iff a).2 hza⟩)]
        exact (if_pos hza).symm
      · rw [if_neg (by
          rintro (⟨h, -⟩ | ⟨-, h⟩)
          exacts [hEa h, hza ((isZeroSf64_iff a).1 h)])]
        exact (if_neg hza).symm
    · exact absurd ⟨ha1, hb1⟩ hfin

/-! ### Quotients -/

theorem divSf64_finite (int128 : Bool) {a b : ℕ} (rm : RoundingMode) (ha : IsFinite a)
    (hb : IsFinite b) (ha64 : a < 2 ^ 64) (hb64 : b < 2 ^ 64) :
    divSf64 int128 a b rm = sf64.divBy rm.rule a b := by
  have hEa : ¬ a / 2 ^ mantSize % 2 ^ 11 = expMask := ha
  have hEb : ¬ b / 2 ^ mantSize % 2 ^ 11 = expMask := hb
  have hinf : expMask * 2 ^ 52 = sf64.infinity := rfl
  rw [Format.divBy, decode_finite ha, decode_finite hb]
  unfold divSf64
  simp only [if_neg hEa, if_neg hEb, isZeroSf64_iff, xor_sign ha64 hb64]
  by_cases hb0 : sig b = 0
  · rw [if_pos hb0, if_pos hb0, packSf_sf64, hinf]
    rfl
  rw [if_neg hb0, if_neg hb0]
  by_cases ha0 : sig a = 0
  · rw [if_pos ha0, packSf_sf64, ha0, Nat.cast_zero, zero_mul, zero_mul, zero_div,
      Format.ofValue_zero]
  rw [if_neg ha0]
  obtain ⟨k₁, hk₁, hlo₁, hhi₁⟩ := unpackSf64_spec ha0
  obtain ⟨k₂, hk₂, hlo₂, hhi₂⟩ := unpackSf64_spec hb0
  rw [unpackSf64_value ha0, unpackSf64_value hb0, hk₁, hk₂]
  dsimp only
  generalize sig a * 2 ^ k₁ = m₁ at *
  generalize sig b * 2 ^ k₂ = m₂ at *
  have hm₂ : m₂ * 2 ^ 2 % 2 ^ 64 = m₂ * 2 ^ 2 := Nat.mod_eq_of_lt (by omega)
  rw [hm₂, divremU_eq int128 (by omega) (by omega) (by omega), Nat.add_zero]
  have hsticky : (if m₁ * 2 ^ 64 % (m₂ * 2 ^ 2) ≠ 0 then m₁ * 2 ^ 64 / (m₂ * 2 ^ 2) ||| 1
        else m₁ * 2 ^ 64 / (m₂ * 2 ^ 2))
      = m₁ * 2 ^ 64 / (m₂ * 2 ^ 2) ||| (if m₁ * 2 ^ 64 % (m₂ * 2 ^ 2) = 0 then 0 else 1) := by
    by_cases h : m₁ * 2 ^ 64 % (m₂ * 2 ^ 2) = 0
    · rw [if_neg (not_not.2 h), if_pos h, Nat.or_zero]
    · rw [if_pos h, if_neg h]
  dsimp only
  rw [hsticky, normalizeSf_quotient _ _ rm (by omega) (by omega) (by omega)]
  have hm₂0 : (0 : ℚ) < m₂ := by
    rw [Nat.cast_pos]
    omega
  have h4 : ((m₂ * 2 ^ 2 : ℕ) : ℚ) = m₂ * 2 ^ (2 : ℤ) := by
    rw [Nat.cast_mul, Nat.cast_pow, Nat.cast_ofNat]
    rfl
  congr 1
  rw [div_mul_eq_mul_div, natCast_mul_two_pow_mul, h4, div_eq_div_iff (by positivity)
    (by positivity), mul_mul_mul_comm, mul_mul_mul_comm _ _ (m₂ : ℚ), ← zpow_add₀ two_ne_zero,
    ← zpow_add₀ two_ne_zero]
  congr 2
  push_cast
  ring

theorem divSf64_eq (int128 : Bool) {a b : ℕ} (rm : RoundingMode) (ha : a < 2 ^ 64)
    (hb : b < 2 ^ 64) : divSf64 int128 a b rm = sf64.divBy rm.rule a b := by
  by_cases hfin : IsFinite a ∧ IsFinite b
  · exact divSf64_finite int128 rm hfin.1 hfin.2 ha hb
  have hinf : expMask * 2 ^ 52 = sf64.infinity := rfl
  unfold divSf64
  dsimp only
  rw [xor_sign ha hb, packSf_sf64, packSf_sf64, hinf, Nat.zero_mul]
  unfold Format.divBy
  rcases decode_cases a with ⟨ha1, ha2, hda⟩ | ⟨ha1, ha2, hda⟩ | ⟨ha1, hda⟩
  · have hEa : a / 2 ^ mantSize % 2 ^ 11 = expMask := not_not.1 ha1
    rw [if_pos hEa, if_pos (.inl ha2), hda]
    rfl
  · have hEa : a / 2 ^ mantSize % 2 ^ 11 = expMask := not_not.1 ha1
    have hma : ¬ a % 2 ^ mantSize ≠ 0 := not_not.2 ha2
    rcases decode_cases b with ⟨hb1, hb2, hdb⟩ | ⟨hb1, hb2, hdb⟩ | ⟨hb1, hdb⟩
    · rw [if_pos hEa, if_pos (.inr ((isnanSf_iff b).2 ⟨hb1, hb2⟩)), hda, hdb]
      rfl
    · have hnb : ¬ isnanSf sf64 b = true := fun h => ((isnanSf_iff b).1 h).2 hb2
      have hEb : b / 2 ^ mantSize % 2 ^ 11 = expMask := not_not.1 hb1
      rw [if_pos hEa, if_neg (not_or.2 ⟨hma, hnb⟩), if_pos hEb, hda, hdb]
      rfl
    · have hnb : ¬ isnanSf sf64 b = true := fun h => ((isnanSf_iff b).1 h).1 hb1
      have hEb : ¬ b / 2 ^ mantSize % 2 ^ 11 = expMask := hb1
      rw [if_pos hEa, if_neg (not_or.2 ⟨hma, hnb⟩), if_neg hEb, hda, hdb]
  · have hEa : ¬ a / 2 ^ mantSize % 2 ^ 11 = expMask := ha1
    rcases decode_cases b with ⟨hb1, hb2, hdb⟩ | ⟨hb1, hb2, hdb⟩ | ⟨hb1, hdb⟩
    · have hEb : b / 2 ^ mantSize % 2 ^ 11 = expMask := not_not.1 hb1
      have hmb : b % 2 ^ mantSize ≠ 0 := hb2
      rw [if_neg hEa, if_pos hEb, if_pos hmb, hda, hdb]
      rfl
    · have hEb : b / 2 ^ mantSize % 2 ^ 11 = expMask := not_not.1 hb1
      have hmb : ¬ b % 2 ^ mantSize ≠ 0 := not_not.2 hb2
      rw [if_neg hEa, if_pos hEb, if_neg hmb, hda, hdb]
    · exact absurd ⟨ha1, hb1⟩ hfin

/-! ### Square roots -/

/-- The sum of Newton's method is a word. -/
theorem div_add_lt {a s : ℕ} (ha : a + 2 ^ 64 ≤ 2 ^ 126) (hs : s ≤ 2 ^ 63)
    (hlt : a < (s + 1) * (s + 1)) : a / s + s < 2 ^ 64 := by
  rcases Nat.lt_or_ge s (2 ^ 63 - 1) with h | h
  · have hle : a ≤ s * (s + 2) := by
      have : (s + 1) * (s + 1) = s * (s + 2) + 1 := by ring
      omega
    have := Nat.div_le_of_le_mul hle
    omega
  · have hle : (2 ^ 63 - 1) * 2 ^ 63 ≤ s * 2 ^ 63 := Nat.mul_le_mul_right _ h
    have := Nat.div_lt_of_lt_mul (show a < s * 2 ^ 63 by omega)
    omega

theorem sqrtNext_eq (int128 : Bool) {a1 a0 a s : ℕ} (ha : a1 * 2 ^ 64 + a0 = a)
    (ha0 : a0 < 2 ^ 64) (hroom : a + 2 ^ 64 ≤ 2 ^ 126) (hs : s ≤ 2 ^ 63)
    (hlt : a < (s + 1) * (s + 1)) (hpos : 0 < s) :
    sqrtNext int128 a1 a0 s = (a / s + s) / 2 := by
  have h1 : a1 < s := by
    by_contra hle
    have h2 : s * 2 ^ 64 ≤ a1 * 2 ^ 64 := Nat.mul_le_mul_right _ (Nat.not_lt.1 hle)
    have h3 : s * s ≤ s * 2 ^ 63 := Nat.mul_le_mul_left _ hs
    have h4 : (s + 1) * (s + 1) = s * s + 2 * s + 1 := by ring
    omega
  have hsum := div_add_lt hroom hs hlt
  unfold sqrtNext
  rw [divremU_eq false h1 (by omega) ha0, ha]
  dsimp only
  rw [Nat.mod_eq_of_lt hsum, ite_self]

/-- A step from above stays above. -/
theorem lt_next_sq (a : ℕ) {s : ℕ} (hs : 0 < s) :
    a < ((a / s + s) / 2 + 1) * ((a / s + s) / 2 + 1) := by
  have h1 : a < (a / s + 1) * s := Nat.lt_mul_of_div_lt (Nat.lt_succ_self _) hs
  generalize a / s = q at *
  obtain ⟨u, hu⟩ : ∃ u, (q + s) / 2 + 1 = u := ⟨_, rfl⟩
  have h2 : q + 1 + s ≤ 2 * u := by omega
  rw [hu]
  have h3 := Nat.mul_self_le_mul_self h2
  have h4 : 4 * ((q + 1) * s) ≤ (q + 1 + s) * (q + 1 + s) := by
    zify
    nlinarith [sq_nonneg ((q : ℤ) + 1 - s)]
  nlinarith

theorem sqrtLoop_eq (int128 : Bool) {a1 a0 a : ℕ} (ha : a1 * 2 ^ 64 + a0 = a)
    (ha0 : a0 < 2 ^ 64) (hroom : a + 2 ^ 64 ≤ 2 ^ 126) (hpos : 0 < a) (s : ℕ)
    (hs : s ≤ 2 ^ 63) (hlt : a < (s + 1) * (s + 1)) :
    sqrtLoop int128 a1 a0 s = Nat.sqrt a := by
  induction s using Nat.strong_induction_on with
  | _ s ih =>
    have hs0 : 0 < s := by
      rcases s.eq_zero_or_pos with rfl | h
      · omega
      · exact h
    have hnext := sqrtNext_eq int128 ha ha0 hroom hs hlt hs0
    rw [sqrtLoop, hnext]
    split_ifs with hle
    · rw [Nat.eq_sqrt]
      exact ⟨Nat.mul_le_of_le_div _ _ _ (by omega), hlt⟩
    · exact ih _ (by omega) (by omega) (lt_next_sq _ hs0)

/-- The first estimate is not below the root. -/
theorem sqrtremU_eq (int128 : Bool) {a : ℕ} (hlo : 1 < a) (hhi : a < 2 ^ 62) :
    sqrtremU int128 a 0
      = (Nat.sqrt (a * 2 ^ 64), Nat.sqrt (a * 2 ^ 64) * Nat.sqrt (a * 2 ^ 64) != a * 2 ^ 64) := by
  have hroom : a * 2 ^ 64 + 2 ^ 64 ≤ 2 ^ 126 := by omega
  have ha1 : a - 1 ≠ 0 := by omega
  obtain ⟨l, hl⟩ : ∃ l, Nat.log2 (a - 1) = l := ⟨_, rfl⟩
  have hl1 : a - 1 < 2 ^ (l + 1) := hl ▸ Nat.lt_log2_self
  have hl2 : l < 62 := hl ▸ (Nat.log2_lt ha1).2 (by omega)
  have hbits : (2 * 64 - clz 64 (a - 1) + 1) / 2 = ((l + 66) / 2 : ℕ) := by
    rw [clz, if_neg ha1, hl]
    omega
  have hstart : a * 2 ^ 64 ≤ 2 ^ ((l + 66) / 2) * 2 ^ ((l + 66) / 2) := by
    rw [← pow_add]
    calc a * 2 ^ 64 ≤ 2 ^ (l + 1) * 2 ^ 64 := Nat.mul_le_mul_right _ (by omega)
      _ = 2 ^ (l + 65) := by rw [← pow_add]
      _ ≤ 2 ^ ((l + 66) / 2 + (l + 66) / 2) := Nat.pow_le_pow_right two_pos (by omega)
  have hle : 2 ^ ((l + 66) / 2) ≤ 2 ^ 63 := Nat.pow_le_pow_right two_pos (by omega)
  have habove : a * 2 ^ 64 < (2 ^ ((l + 66) / 2) + 1) * (2 ^ ((l + 66) / 2) + 1) := by
    rw [Nat.add_mul, Nat.mul_add]
    omega
  have hloop : sqrtLoop int128 a 0 (2 ^ ((l + 66) / 2)) = Nat.sqrt (a * 2 ^ 64) :=
    sqrtLoop_eq int128 (Nat.add_zero _) (by positivity) hroom (by omega) _ hle habove
  have hz : ¬ (a = 0 ∧ (0 : ℕ) = 0) := by omega
  have hne : a ≠ 0 := by omega
  have hsq := Nat.sqrt_le (a * 2 ^ 64)
  have hs : Nat.sqrt (a * 2 ^ 64) < 2 ^ 63 := Nat.sqrt_lt.2 (by
    calc a * 2 ^ 64 < 2 ^ 62 * 2 ^ 64 := Nat.mul_lt_mul_of_pos_right hhi (by positivity)
      _ = 2 ^ 63 * 2 ^ 63 := by rw [← pow_add, ← pow_add])
  unfold sqrtremU
  rw [if_neg hz]
  simp only [if_pos hne, hbits, Int.toNat_natCast, hloop]
  obtain ⟨s, hs'⟩ : ∃ s, Nat.sqrt (a * 2 ^ 64) = s := ⟨_, rfl⟩
  rw [hs'] at hs hsq ⊢
  rw [mulU_eq false (by omega) (by omega)]
  have hexact : (s * s % 2 ^ 64 != 0 || s * s / 2 ^ 64 != a) = (s * s != a * 2 ^ 64) := by
    rw [Bool.eq_iff_iff, Bool.or_eq_true, bne_iff_ne, bne_iff_ne, bne_iff_ne]
    omega
  have hexact' : (a * 2 ^ 64 + 0 - s * s != 0) = (s * s != a * 2 ^ 64) := by
    rw [Bool.eq_iff_iff, bne_iff_ne, bne_iff_ne]
    omega
  cases int128
  · exact congrArg (Prod.mk s) hexact
  · exact congrArg (Prod.mk s) hexact'

/-- The square root of a significand with an even exponent. -/
theorem normalizeSf_sqrt (int128 : Bool) {m : ℕ} {e : ℤ} (rm : RoundingMode) (he : e % 2 = 0)
    (hlo : 2 ^ 52 ≤ m) (hhi : m < 2 ^ 54) :
    normalizeSf sf64 0 (e / 2 + (expMask / 2 : ℕ))
        (if (sqrtremU int128 (m * 2 ^ (64 - 4 - mantSize) % 2 ^ 64) 0).2 then
          (sqrtremU int128 (m * 2 ^ (64 - 4 - mantSize) % 2 ^ 64) 0).1 ||| 1
        else (sqrtremU int128 (m * 2 ^ (64 - 4 - mantSize) % 2 ^ 64) 0).1) rm
      = sf64.ofValue rm.rule false (√(m * 2 ^ (e - 52)) : ℝ) := by
  have hmant : m * 2 ^ (64 - 4 - mantSize) % 2 ^ 64 = m * 2 ^ 8 := Nat.mod_eq_of_lt (by
    change m * 2 ^ 8 < 2 ^ 64
    omega)
  rw [hmant, sqrtremU_eq int128 (by omega) (by omega)]
  obtain ⟨N, hN⟩ : ∃ N, m * 2 ^ 8 * 2 ^ 64 = N := ⟨_, rfl⟩
  have hfloor : ⌊(√(N : ℝ))⌋₊ = Nat.sqrt N := Real.nat_floor_real_sqrt_eq_nat_sqrt
  have hlo' : 2 ^ 54 ≤ Nat.sqrt N := by
    rw [Nat.le_sqrt]
    omega
  have hhi' : Nat.sqrt N < 2 ^ 63 := by
    rw [Nat.sqrt_lt]
    omega
  have hint : √(N : ℝ) = (Nat.sqrt N : ℕ) ↔ Nat.sqrt N * Nat.sqrt N = N := by
    rw [Real.sqrt_eq_iff_mul_self_eq (by positivity) (by positivity), eq_comm]
    norm_cast
  have hsticky := @alike_sticky ℝ _ _ _ _ (√(N : ℝ)) (Real.sqrt_nonneg _)
  rw [hfloor] at hsticky
  simp only [hint] at hsticky
  rw [hN]
  obtain ⟨j, rfl⟩ : ∃ j, e = 2 * j := ⟨e / 2, by omega⟩
  have hvalue : (m : ℝ) * 2 ^ (2 * j - 52) = N * (2 ^ (j - 62)) ^ 2 := by
    rw [← hN, Nat.mul_assoc, ← pow_add, ← zpow_natCast ((2 : ℝ) ^ (j - 62)), ← zpow_mul,
      natCast_mul_two_pow_mul]
    congr 2
    push_cast
    ring
  rw [hvalue, Real.sqrt_mul (by positivity), Real.sqrt_sq (by positivity)]
  generalize Nat.sqrt N = s at *
  have hM : (if (s * s != N) = true then s ||| 1 else s) = s ||| (if s * s = N then 0 else 1) := by
    by_cases h : s * s = N
    · rw [if_pos h, h, bne_self_eq_false, if_neg Bool.false_ne_true, Nat.or_zero]
    · rw [if_neg h, if_pos (bne_iff_ne.2 h)]
  dsimp only
  rw [hM]
  have h := normalizeSf_aligned false (2 * j / 2 + (expMask / 2 : ℕ)) rm
    (.inr ⟨hsticky, hlo'.trans Nat.left_le_or⟩)
    (Nat.or_lt_two_pow hhi' (by split_ifs <;> norm_num))
  have hexp : 2 * j / 2 + ((expMask / 2 : ℕ) : ℤ) - 1085 = j - 62 := by
    rw [show expMask / 2 = 1023 from rfl]
    omega
  rwa [hexp] at h

theorem sqrtSf64_finite (int128 : Bool) {a : ℕ} (rm : RoundingMode) (ha : IsFinite a)
    (h0 : sig a ≠ 0) (hsign : a / 2 ^ 63 = 0) :
    sqrtSf64 int128 a rm = sf64.ofValue rm.rule false
      (√(sig a * 2 ^ ((expo a : ℤ) - 1075)) : ℝ) := by
  have hE : ¬ a / 2 ^ mantSize % 2 ^ 11 = expMask := ha
  have hz : ¬ isZeroSf64 a = true := fun h => h0 ((isZeroSf64_iff a).1 h)
  obtain ⟨k, hk, hlo, hhi⟩ := unpackSf64_spec h0
  rw [unpackSf64_value h0, hk]
  unfold sqrtSf64
  simp only [if_neg hE, hsign, ne_eq, not_true_eq_false, if_false, if_neg hz, hk]
  generalize sig a * 2 ^ k = m at *
  have hbias : ((expMask / 2 : ℕ) : ℤ) = 1023 := rfl
  by_cases hodd : ((expo a : ℤ) - k - (expMask / 2 : ℕ)) % 2 = 0
  · rw [if_neg (not_not.2 hodd)]
    rw [normalizeSf_sqrt int128 rm hodd hlo (by omega), hbias]
    congr 4
    ring
  · have hm : m * 2 % 2 ^ 64 = m * 2 := Nat.mod_eq_of_lt (by omega)
    rw [if_pos hodd, hm]
    have h := @normalizeSf_sqrt int128 (m * 2) ((expo a : ℤ) - k - (expMask / 2 : ℕ) - 1) rm
      (by omega) (by omega) (by omega)
    refine h.trans ?_
    rw [hbias, ← pow_one 2, natCast_mul_two_pow_mul]
    congr 4
    push_cast
    ring

/-- `sqrt_sf64` rounds the square root once. -/
theorem sqrtSf64_eq (int128 : Bool) {a : ℕ} (rm : RoundingMode) (ha : a < 2 ^ 64) :
    sqrtSf64 int128 a rm = sf64.sqrtBy rm.rule a := by
  have hcases : a / 2 ^ 63 = 0 ∨ a / 2 ^ 63 = 1 := by omega
  unfold Format.sqrtBy
  rcases decode_cases a with ⟨ha1, ha2, hda⟩ | ⟨ha1, ha2, hda⟩ | ⟨ha1, hda⟩
  · have hE : a / 2 ^ mantSize % 2 ^ 11 = expMask := not_not.1 ha1
    have hm : a % 2 ^ mantSize ≠ 0 := ha2
    unfold sqrtSf64
    simp only [if_pos hE, if_pos hm, hda]
    rfl
  · have hE : a / 2 ^ mantSize % 2 ^ 11 = expMask := not_not.1 ha1
    have hm : ¬ a % 2 ^ mantSize ≠ 0 := not_not.2 ha2
    have hpattern := eq_pattern_infinity ha1 ha2 ha
    unfold sqrtSf64
    simp only [if_pos hE, if_neg hm, hda]
    rcases hcases with hs | hs
    · rw [hs] at hpattern ⊢
      exact hpattern
    · rw [hs]
      rfl
  · rw [hda]
    by_cases h0 : sig a = 0
    · -- zero
      have hz : isZeroSf64 a = true := (isZeroSf64_iff a).2 h0
      have hE : ¬ a / 2 ^ mantSize % 2 ^ 11 = expMask := ha1
      have hmag := magnitude_eq_fields a
      have hexpo := expo_eq_one_or a
      have hpattern : a = sf64.pattern (a / 2 ^ 63 == 1) 0 := by
        rw [Format.pattern, toNat_sign ha, signBit_sf64]
        omega
      unfold sqrtSf64
      simp only [if_neg hE, if_pos hz, if_pos h0]
      rcases hcases with hs | hs
      · rw [if_neg (not_not.2 hs), hs]
        rfl
      · rw [if_pos (by rw [hs]; exact one_ne_zero)]
        exact hpattern
    · rcases hcases with hs | hs
      · rw [sqrtSf64_finite int128 rm ha1 h0 hs]
        simp only [if_neg h0, hs]
        rfl
      · have hE : ¬ a / 2 ^ mantSize % 2 ^ 11 = expMask := ha1
        have hz : ¬ isZeroSf64 a = true := fun h => h0 ((isZeroSf64_iff a).1 h)
        unfold sqrtSf64
        simp only [if_neg hE, if_neg hz, if_neg h0, hs]
        rfl

end SoftFp

end Qjs
