import Qjs.Proofs.SoftFpRem

/-!
# Soft-float conversions

To an integer the significand is shifted with a sticky bit and rounded at its last place, then
compared with the bound of its sign; from one it is packed like any other significand. Between the
formats a subnormal double is far below the least single.
-/

namespace Qjs

open Double (signed)

namespace SoftFp

/-! ### To integers -/

/-- The significand of a number, shifted to the integers and rounded. -/
theorem roundMant_shift (neg : Bool) {m d : ℕ} (rm : RoundingMode) (hm : m < 2 ^ 53) :
    roundMant sf64 rndSize neg.toNat (rshiftRnd sf64 (m * 2 ^ rndSize) d) rm
      = (rm.rule neg).round ((m : ℚ) / 2 ^ d) := by
  have hlt : m * 2 ^ rndSize < 2 ^ 63 := by
    change m * 2 ^ 10 < 2 ^ 63
    omega
  have hsize : fSize sf64 = 64 := rfl
  have halike := alike_rshiftRnd (K := ℚ) sf64 (show m * 2 ^ rndSize < 2 ^ fSize sf64 by
    rw [hsize]
    omega) d
  have hM : rshiftRnd sf64 (m * 2 ^ rndSize) d < 2 ^ 63 := by
    have h := (halike.mono (s := 63) (by omega)).lt_iff 1
    have hx : ((m * 2 ^ rndSize : ℕ) : ℚ) / 2 ^ d < 2 ^ 63 := by
      have hm' : ((m * 2 ^ rndSize : ℕ) : ℚ) < 2 ^ 63 := by exact_mod_cast hlt
      exact (div_le_self (by positivity) (one_le_pow₀ one_le_two)).trans_lt hm'
    rw [Int.cast_one, one_mul] at h
    exact_mod_cast h.1 (by exact_mod_cast hx)
  have hrnd : rndSize = 10 := rfl
  have hroom : rshiftRnd sf64 (m * 2 ^ rndSize) d + 2 ^ rndSize ≤ 2 ^ fSize sf64 := by
    rw [hsize, show 2 ^ rndSize = 2 ^ 10 from rfl] at *
    omega
  rw [@roundMant_eq ℚ _ _ _ _ sf64 neg rndSize _ rm (by rw [hrnd]; norm_num) hroom,
    ← halike.round_div_eq (by rw [hrnd]; norm_num) (by positivity) (by positivity)]
  congr 1
  rw [Nat.cast_mul, Nat.cast_pow, Nat.cast_ofNat, div_div, mul_comm ((2 : ℚ) ^ d),
    mul_comm (m : ℚ), mul_div_mul_left _ _ (by positivity)]

/-- The bound that the magnitude is compared with. -/
def rMax (size : ℕ) (neg isUnsigned : Bool) : ℕ :=
  if isUnsigned then if neg then 0 else 2 ^ size - 1 else 2 ^ (size - 1) - (!neg).toNat

theorem rMax_lt {size : ℕ} (hsize : 1 ≤ size) (neg isUnsigned : Bool) :
    rMax size neg isUnsigned < 2 ^ size := by
  have hpow : 2 ^ size = 2 * 2 ^ (size - 1) := by rw [← pow_succ', Nat.sub_add_cancel hsize]
  have hpos : 0 < 2 ^ (size - 1) := by positivity
  unfold rMax
  split_ifs <;> omega

theorem rMax_eq {size : ℕ} (neg isUnsigned : Bool) :
    (if isUnsigned then (neg.toNat + 2 ^ size - 1) % 2 ^ size
      else 2 ^ (size - 1) - (neg.toNat ^^^ 1)) = rMax size neg isUnsigned := by
  have hpos : 0 < 2 ^ size := by positivity
  unfold rMax
  cases isUnsigned <;> cases neg
  · rfl
  · rfl
  · simp only [if_true, Bool.toNat_false, Nat.zero_add, Bool.false_eq_true, if_false]
    exact Nat.mod_eq_of_lt (by omega)
  · simp

/-- A number is rounded, or saturates. -/
theorem internalCvtSf64I_finite {size a : ℕ} (hsize : 1 ≤ size) (rm : RoundingMode)
    (isUnsigned : Bool) (ha : IsFinite a) (ha64 : a < 2 ^ 64) {neg : Bool}
    (hneg : (a / 2 ^ 63 == 1) = neg) :
    internalCvtSf64I size a rm isUnsigned =
      if rMax size neg isUnsigned < (rm.rule neg).round (mag a) then rMax size neg isUnsigned
      else if neg then (2 ^ size - (rm.rule neg).round (mag a)) % 2 ^ size
      else (rm.rule neg).round (mag a) := by
  have hE : ¬ (a / 2 ^ mantSize % 2 ^ 11 = expMask ∧ a % 2 ^ mantSize ≠ 0) := fun h => ha h.1
  have hsig : (if a / 2 ^ mantSize % 2 ^ 11 = 0 then a % 2 ^ mantSize
      else a % 2 ^ mantSize + 2 ^ mantSize) = sig a := rfl
  have hexpo : (if a / 2 ^ mantSize % 2 ^ 11 = 0 then 1 else a / 2 ^ mantSize % 2 ^ 11)
      = expo a := rfl
  have hsign := toNat_sign ha64
  rw [hneg] at hsign
  have hlt := sig_lt a
  have hmant : sig a * 2 ^ rndSize % 2 ^ 64 = sig a * 2 ^ rndSize := Nat.mod_eq_of_lt (by
    change sig a * 2 ^ 10 < 2 ^ 64
    omega)
  have hback : sig a * 2 ^ rndSize / 2 ^ rndSize = sig a := Nat.mul_div_cancel _ (by positivity)
  have hbias : ((expMask / 2 : ℕ) : ℤ) = 1023 := rfl
  have hm : (mantSize : ℤ) = 52 := rfl
  unfold internalCvtSf64I
  simp only [if_neg hE, hsig, hexpo, hmant, hback, ← hsign, rMax_eq, hbias, hm]
  have hfinish (r : ℕ) : (if rMax size neg isUnsigned < r then rMax size neg isUnsigned
      else if neg.toNat ≠ 0 then (2 ^ size - r) % 2 ^ size else r)
      = if rMax size neg isUnsigned < r then rMax size neg isUnsigned
        else if neg then (2 ^ size - r) % 2 ^ size else r := by
    cases neg <;> simp
  rw [hfinish, hfinish]
  by_cases hint : 0 ≤ (expo a : ℤ) - 1023 - 52
  · -- an integer
    obtain ⟨c, hc⟩ : ∃ c : ℕ, (expo a : ℤ) - 1023 - 52 = c := ⟨_, (Int.toNat_of_nonneg hint).symm⟩
    have hmag : mag a = (sig a * 2 ^ c : ℕ) := by
      rw [mag, show (expo a : ℤ) - 1075 = c by omega, zpow_natCast]
      push_cast
      rfl
    rw [if_pos hint, hc, hmag, Rule.round_natCast, Int.toNat_natCast]
    by_cases hfit : (c : ℤ) ≤ size - 1 - 52
    · have hroom : sig a * 2 ^ c < 2 ^ size :=
        calc sig a * 2 ^ c < 2 ^ 53 * 2 ^ c := Nat.mul_lt_mul_of_pos_right hlt (by positivity)
          _ = 2 ^ (53 + c) := (pow_add _ _ _).symm
          _ ≤ 2 ^ size := Nat.pow_le_pow_right two_pos (by omega)
      have hle : sig a ≤ sig a * 2 ^ c := Nat.le_mul_of_pos_right _ (by positivity)
      rw [if_pos hfit, Nat.mod_eq_of_lt (hle.trans_lt hroom), Nat.mod_eq_of_lt hroom]
    · have hlo := (expo_eq_one_or a).resolve_left (by omega)
      have hover : 2 ^ size ≤ sig a * 2 ^ c :=
        calc 2 ^ size ≤ 2 ^ (52 + c) := Nat.pow_le_pow_right two_pos (by omega)
          _ = 2 ^ 52 * 2 ^ c := pow_add _ _ _
          _ ≤ sig a * 2 ^ c := Nat.mul_le_mul_right _ hlo
      rw [if_neg hfit, if_pos ((rMax_lt hsize neg isUnsigned).trans_le hover)]
  · obtain ⟨d, hd⟩ : ∃ d : ℕ, -((expo a : ℤ) - 1023 - 52) = d :=
      ⟨_, (Int.toNat_of_nonneg (by omega)).symm⟩
    have hmag : mag a = (sig a : ℚ) / 2 ^ d := by
      rw [mag, show (expo a : ℤ) - 1075 = -d by omega, zpow_neg, zpow_natCast, div_eq_mul_inv]
    rw [if_neg hint, hd, Int.toNat_natCast, roundMant_shift neg rm hlt, hmag]

/-- Infinities saturate, and NaN is like the positive one. -/
theorem internalCvtSf64I_infinite {size a : ℕ} (hsize : size ≤ 64)
    (rm : RoundingMode) (isUnsigned : Bool) (ha : ¬ IsFinite a) (ha64 : a < 2 ^ 64) :
    internalCvtSf64I size a rm isUnsigned
      = rMax size (a / 2 ^ 63 == 1 && a % 2 ^ 52 == 0) isUnsigned := by
  have hE : a / 2 ^ mantSize % 2 ^ 11 = expMask := not_not.1 ha
  have hE0 : ¬ a / 2 ^ mantSize % 2 ^ 11 = 0 := by
    rw [hE]
    decide
  have hsign : (if a / 2 ^ mantSize % 2 ^ 11 = expMask ∧ a % 2 ^ mantSize ≠ 0 then 0
      else a / 2 ^ 63) = (a / 2 ^ 63 == 1 && a % 2 ^ 52 == 0).toNat := by
    by_cases h0 : a % 2 ^ 52 = 0
    · rw [if_neg (fun h => h.2 h0), h0, beq_self_eq_true, Bool.and_true, toNat_sign ha64]
    · rw [if_pos ⟨hE, h0⟩, beq_false_of_ne h0, Bool.and_false]
      rfl
  have h1 : 0 ≤ ((a / 2 ^ mantSize % 2 ^ 11 : ℕ) : ℤ) - (expMask / 2 : ℕ) - mantSize := by
    rw [hE]
    decide
  have h2 : ¬ ((a / 2 ^ mantSize % 2 ^ 11 : ℕ) : ℤ) - (expMask / 2 : ℕ) - mantSize
      ≤ size - 1 - mantSize := by
    rw [hE]
    change ¬ (2047 : ℤ) - 1023 - 52 ≤ size - 1 - 52
    omega
  unfold internalCvtSf64I
  simp only [hsign, rMax_eq, if_neg hE0, if_pos h1, if_neg h2]

theorem toInt_ofNat_eq {size x : ℕ} (hx : x < 2 ^ size) :
    (BitVec.ofNat size x).toInt = if 2 * x < 2 ^ size then (x : ℤ) else x - (2 ^ size : ℕ) := by
  rw [BitVec.toInt_eq_toNat_cond, BitVec.toNat_ofNat, Nat.mod_eq_of_lt hx]

/-- A signed integer is rounded, or saturates. -/
theorem cvtSf64I_eq {size a : ℕ} (hsize : 1 ≤ size) (hsize' : size ≤ 64) (rm : RoundingMode)
    (ha64 : a < 2 ^ 64) :
    cvtSf64I size a rm = sf64.toIntBy rm.rule (-2 ^ (size - 1)) (2 ^ (size - 1) - 1) a := by
  have hpow : 2 ^ size = 2 * 2 ^ (size - 1) := by rw [← pow_succ', Nat.sub_add_cancel hsize]
  have hpos : 0 < 2 ^ (size - 1) := by positivity
  have hcast : (2 : ℤ) ^ (size - 1) = (2 ^ (size - 1) : ℕ) := by push_cast; rfl
  unfold cvtSf64I Format.toIntBy
  rw [hcast]
  rcases decode_cases a with ⟨ha1, ha2, hda⟩ | ⟨ha1, ha2, hda⟩ | ⟨ha, hda⟩
  · rw [internalCvtSf64I_infinite hsize' rm false ha1 ha64, hda, beq_false_of_ne ha2,
      Bool.and_false, toInt_ofNat_eq (rMax_lt hsize _ _), rMax, if_neg Bool.false_ne_true, hpow]
    generalize 2 ^ (size - 1) = P at *
    simp only [Bool.not_false, Bool.toNat_true]
    split_ifs <;> omega
  · rw [internalCvtSf64I_infinite hsize' rm false ha1 ha64, hda, ha2, beq_self_eq_true,
      Bool.and_true, toInt_ofNat_eq (rMax_lt hsize _ _), rMax, if_neg Bool.false_ne_true, hpow]
    generalize 2 ^ (size - 1) = P at *
    generalize (a / 2 ^ 63 == 1) = neg
    cases neg
    · simp only [Bool.not_false, Bool.toNat_true, Bool.false_eq_true, if_false]
      split_ifs <;> omega
    · simp only [Bool.not_true, Bool.toNat_false, if_true]
      split_ifs <;> omega
  · rw [internalCvtSf64I_finite hsize rm false ha ha64 rfl, hda]
    dsimp only
    rw [← mag]
    generalize (a / 2 ^ 63 == 1) = neg at *
    generalize (rm.rule neg).round (mag a) = r
    have hmax := rMax_lt hsize neg false
    cases neg
    · have hrMax : rMax size false false = 2 ^ (size - 1) - 1 := rfl
      rw [hrMax] at hmax ⊢
      simp only [signed, Bool.false_eq_true, if_false]
      by_cases hr : 2 ^ (size - 1) - 1 < r
      · rw [if_pos hr, toInt_ofNat_eq hmax, hpow]
        generalize 2 ^ (size - 1) = P at *
        split_ifs <;> omega
      · rw [if_neg hr, toInt_ofNat_eq (by omega), hpow]
        generalize 2 ^ (size - 1) = P at *
        split_ifs <;> omega
    · have hrMax : rMax size true false = 2 ^ (size - 1) := rfl
      rw [hrMax] at hmax ⊢
      simp only [signed, if_true]
      by_cases hr : 2 ^ (size - 1) < r
      · rw [if_pos hr, toInt_ofNat_eq hmax, hpow]
        generalize 2 ^ (size - 1) = P at *
        split_ifs <;> omega
      · rw [if_neg hr, toInt_ofNat_eq (Nat.mod_lt _ (by positivity)), hpow]
        generalize 2 ^ (size - 1) = P at *
        rcases r.eq_zero_or_pos with rfl | hr0
        · rw [Nat.sub_zero, Nat.mod_self]
          split_ifs <;> omega
        · rw [Nat.mod_eq_of_lt (by omega)]
          split_ifs <;> omega

/-- An unsigned integer is rounded, or saturates. -/
theorem cvtSf64U_eq {size a : ℕ} (hsize : 1 ≤ size) (hsize' : size ≤ 64) (rm : RoundingMode)
    (ha64 : a < 2 ^ 64) :
    (internalCvtSf64I size a rm true : ℤ) = sf64.toIntBy rm.rule 0 (2 ^ size - 1) a := by
  have hpos : 0 < 2 ^ size := by positivity
  have hcast : (2 : ℤ) ^ size = (2 ^ size : ℕ) := by push_cast; rfl
  unfold Format.toIntBy
  rw [hcast]
  rcases decode_cases a with ⟨ha1, ha2, hda⟩ | ⟨ha1, ha2, hda⟩ | ⟨ha, hda⟩
  · rw [internalCvtSf64I_infinite hsize' rm true ha1 ha64, hda, beq_false_of_ne ha2,
      Bool.and_false, rMax, if_pos rfl, if_neg Bool.false_ne_true]
    exact Nat.cast_pred hpos
  · rw [internalCvtSf64I_infinite hsize' rm true ha1 ha64, hda, ha2, beq_self_eq_true,
      Bool.and_true, rMax, if_pos rfl]
    generalize (a / 2 ^ 63 == 1) = neg
    cases neg
    · exact Nat.cast_pred hpos
    · rfl
  · rw [internalCvtSf64I_finite hsize rm true ha ha64 rfl, hda]
    dsimp only
    rw [← mag]
    generalize (a / 2 ^ 63 == 1) = neg at *
    generalize (rm.rule neg).round (mag a) = r
    cases neg
    · have hrMax : rMax size false true = 2 ^ size - 1 := rfl
      rw [hrMax]
      simp only [signed, Bool.false_eq_true, if_false]
      generalize 2 ^ size = P at *
      split_ifs <;> omega
    · have hrMax : rMax size true true = 0 := rfl
      rw [hrMax]
      simp only [signed, if_true]
      rcases r.eq_zero_or_pos with rfl | hr0
      · rw [if_neg (lt_irrefl 0), Nat.sub_zero, Nat.mod_self]
        generalize 2 ^ size = P at *
        split_ifs <;> omega
      · rw [if_pos hr0]
        split_ifs <;> omega

/-! ### From integers -/

/-- A magnitude of any width is packed with a sticky bit for what does not fit. -/
theorem normalizeSf_magnitude (neg : Bool) (size r : ℕ) (rm : RoundingMode) :
    (if 0 < size - clz size r - (64 - 1) then
        normalizeSf sf64 neg.toNat (((expMask / 2 : ℕ) : ℤ) + 64 - 2 + (size - clz size r -
          (64 - 1)))
          ((r / 2 ^ (size - clz size r - (64 - 1)).toNat) |||
            (if r % 2 ^ (size - clz size r - (64 - 1)).toNat ≠ 0 then 1 else 0)) rm
      else normalizeSf sf64 neg.toNat (((expMask / 2 : ℕ) : ℤ) + 64 - 2) r rm)
      = sf64.ofValue rm.rule neg (r : ℚ) := by
  have hbias : ((expMask / 2 : ℕ) : ℤ) + 64 - 2 = 1085 := rfl
  rw [hbias]
  rcases r.eq_zero_or_pos with rfl | hr
  · have hl : ¬ (0 : ℤ) < size - clz size 0 - (64 - 1) := by
      rw [clz, if_pos rfl]
      omega
    rw [if_neg hl, normalizeSf_sf64_zero, Nat.cast_zero, Format.ofValue_zero]
  have hl : (size : ℤ) - clz size r - (64 - 1) = Nat.log2 r - 62 := by
    rw [clz, if_neg hr.ne']
    omega
  have hlo := Nat.log2_self_le hr.ne'
  have hhi := @Nat.lt_log2_self r
  rw [hl]
  by_cases hwide : 0 < (Nat.log2 r : ℤ) - 62
  · obtain ⟨l, hl'⟩ : ∃ l : ℕ, Nat.log2 r = l + 62 := ⟨Nat.log2 r - 62, by omega⟩
    rw [if_pos hwide, hl', show ((l + 62 : ℕ) : ℤ) - 62 = l by omega, Int.toNat_natCast]
    rw [hl', pow_add] at hlo
    rw [hl', Nat.add_assoc, pow_add] at hhi
    have hlo' : 2 ^ 54 * 2 ^ l ≤ r := by
      rw [Nat.mul_comm]
      exact (Nat.mul_le_mul_left _ (by norm_num)).trans hlo
    have hhi' : r < 2 ^ 63 * 2 ^ l := by
      rw [Nat.mul_comm]
      exact hhi
    simp only [ne_eq, ite_not]
    rw [normalizeSf_quotient neg _ rm (by positivity) hlo' hhi']
    congr 1
    rw [Nat.cast_pow, Nat.cast_ofNat, div_two_pow_mul, show (1085 : ℤ) + l - 1085 - l = 0 by ring,
      zpow_zero, mul_one]
  · have hlt : r < 2 ^ 63 := hhi.trans_le (Nat.pow_le_pow_right two_pos (by omega))
    rw [if_neg hwide, @normalizeSf_aligned ℚ _ _ _ _ neg 1085 r rm _ (.inl rfl) hlt]
    norm_num

/-- A signed word is rounded once. -/
theorem cvtISf64_eq {size : ℕ} (x : BitVec size) (rm : RoundingMode) :
    internalCvtISf64 size x.toNat rm false = sf64.ofIntBy rm.rule x.toInt := by
  have hlt := x.isLt
  have hneg : (2 ^ (size - 1) ≤ x.toNat) ↔ ¬ 2 * x.toNat < 2 ^ size := by
    rcases size with _ | n
    · have : x.toNat = 0 := by omega
      rw [this]
      simp
    · rw [Nat.add_sub_cancel, pow_succ]
      omega
  rw [Format.ofIntBy, BitVec.toInt_eq_toNat_cond]
  unfold internalCvtISf64
  by_cases hpos : 2 * x.toNat < 2 ^ size
  · have hflag : (!false && decide (2 ^ (size - 1) ≤ x.toNat)) = false := by
      rw [Bool.not_false, Bool.true_and, decide_eq_false_iff_not, hneg]
      exact not_not.2 hpos
    simp only [hflag, Bool.false_eq_true, if_false]
    rw [if_pos hpos, decide_eq_false (by omega), Int.natAbs_natCast]
    exact normalizeSf_magnitude false size x.toNat rm
  · have hflag : (!false && decide (2 ^ (size - 1) ≤ x.toNat)) = true := by
      rw [Bool.not_false, Bool.true_and, decide_eq_true_iff, hneg]
      exact hpos
    have hpow : 0 < x.toNat := by omega
    have hmod : (2 ^ size - x.toNat) % 2 ^ size = 2 ^ size - x.toNat := Nat.mod_eq_of_lt (by omega)
    have habs : ((x.toNat : ℤ) - (2 ^ size : ℕ)).natAbs = 2 ^ size - x.toNat := by omega
    simp only [hflag, if_true, hmod]
    rw [if_neg hpos, decide_eq_true (by omega), habs]
    exact normalizeSf_magnitude true size (2 ^ size - x.toNat) rm

/-- An unsigned word is rounded once. -/
theorem cvtUSf64_eq {size : ℕ} (x : BitVec size) (rm : RoundingMode) :
    internalCvtISf64 size x.toNat rm true = sf64.ofIntBy rm.rule x.toNat := by
  rw [Format.ofIntBy, decide_eq_false (by omega), Int.natAbs_natCast]
  exact normalizeSf_magnitude false size x.toNat rm

/-! ### The two formats -/

@[simp] theorem mantSize_sf32 : sf32.mantSize = 23 := rfl

@[simp] theorem expSize_sf32 : sf32.expSize = 8 := rfl

theorem minExp_sf32 : sf32.minExp = -149 := by decide

theorem packSf_sf32 (neg : Bool) (e : ℕ) :
    packSf sf32 neg.toNat e 0 = sf32.pattern neg (e * 2 ^ 23) := by
  rw [packSf_eq, Nat.zero_mod, Nat.add_zero, mantSize_sf32]

/-- A normal number is rounded once to the smaller format. -/
theorem normalizeSf_sf32_normal {m : ℕ} {exp : ℤ} (neg : Bool) (rm : RoundingMode)
    (hlo : 2 ^ 52 ≤ m) (hhi : m < 2 ^ 53) :
    normalizeSf sf32 neg.toNat exp (rshiftRnd sf64 m 22) rm
      = sf32.ofValue rm.rule neg ((m : ℚ) * 2 ^ (exp - 179)) := by
  have hsize : fSize sf64 = 64 := rfl
  have halike := alike_rshiftRnd (K := ℚ) sf64 (show m < 2 ^ fSize sf64 by rw [hsize]; omega) 22
  have hlo' : 2 ^ 30 ≤ rshiftRnd sf64 m 22 := by
    have h := (halike.mono (s := 30) (by omega)).le_iff 1
    have hx : (2 : ℚ) ^ 30 ≤ (m : ℚ) / 2 ^ 22 := by
      rw [le_div_iff₀ (by positivity), ← pow_add]
      exact_mod_cast hlo
    rw [Int.cast_one, one_mul] at h
    exact_mod_cast h.1 (by exact_mod_cast hx)
  have hhi' : rshiftRnd sf64 m 22 < 2 ^ 31 := by
    have h := (halike.mono (s := 31) (by omega)).lt_iff 1
    have hx : (m : ℚ) / 2 ^ 22 < 2 ^ 31 := by
      rw [div_lt_iff₀ (by positivity), ← pow_add]
      exact_mod_cast hhi
    rw [Int.cast_one, one_mul] at h
    exact_mod_cast h.1 (by exact_mod_cast hx)
  have ht : (2 : ℚ) ^ ((1 : ℤ) + sf32.mantSize + 1) ≤ (rshiftRnd sf64 m 22 : ℕ) := by
    have h2 : ((2 ^ 25 : ℕ) : ℚ) ≤ (rshiftRnd sf64 m 22 : ℕ) := by
      exact_mod_cast (show 2 ^ 25 ≤ rshiftRnd sf64 m 22 by omega)
    rw [mantSize_sf32, show (1 : ℤ) + (23 : ℕ) + 1 = (25 : ℕ) by norm_num, zpow_natCast]
    exact_mod_cast h2
  rw [@normalizeSf_eq ℚ _ _ _ _ sf32 (by simp) neg exp _ rm _ 1 halike ht (by omega) hhi',
    div_two_pow_mul, minExp_sf32, expSize_sf32]
  congr 3
  push_cast
  ring

/-- A subnormal number is below half of the least one of the smaller format, and so is what the
code makes of it. -/
theorem normalizeSf_sf32_subnormal {m : ℕ} {exp : ℤ} (neg : Bool) (rm : RoundingMode)
    (h0 : 0 < m) (hhi : m < 2 ^ 52) (hexp : exp ≤ -800) :
    normalizeSf sf32 neg.toNat exp (rshiftRnd sf64 m 22) rm
      = sf32.ofValue rm.rule neg ((m : ℚ) * 2 ^ (-1074 : ℤ)) := by
  have hsize : fSize sf64 = 64 := rfl
  have halike := alike_rshiftRnd (K := ℚ) sf64 (show m < 2 ^ fSize sf64 by rw [hsize]; omega) 22
  have hpos : 0 < rshiftRnd sf64 m 22 := by
    have h := halike.gt_iff 0
    rw [Int.cast_zero, zero_mul] at h
    exact_mod_cast h.1 (by positivity)
  have hhi' : rshiftRnd sf64 m 22 < 2 ^ 31 := by
    have h := (halike.mono (s := 31) (by omega)).lt_iff 1
    have hx : (m : ℚ) / 2 ^ 22 < 2 ^ 31 := by
      rw [div_lt_iff₀ (by positivity), ← pow_add]
      exact_mod_cast hhi.trans (by norm_num)
    rw [Int.cast_one, one_mul] at h
    exact_mod_cast h.1 (by exact_mod_cast hx)
  have htiny {n : ℕ} {k : ℕ} {e : ℤ} (hn : 0 < n) (hk : n < 2 ^ k) (he : k + e ≤ -150) :
      sf32.magnitude (rm.rule neg) ((n : ℚ) * 2 ^ e) = (rm.rule neg false .lt).toNat := by
    have hn' : (n : ℚ) < 2 ^ (k : ℤ) := by exact_mod_cast hk
    have hlt := mul_lt_mul_of_pos_right hn' (zpow_pos (two_pos (α := ℚ)) e)
    rw [← zpow_add₀ two_ne_zero] at hlt
    refine Format.magnitude_tiny (by positivity) (hlt.trans_le ?_) (by decide)
    exact zpow_le_zpow_right₀ one_le_two (by rw [minExp_sf32]; omega)
  rw [@normalizeSf_natCast ℚ _ _ _ _ sf32 (by simp) neg exp _ rm hhi', Format.ofValue,
    Format.ofValue, htiny h0 hhi (by norm_num), htiny hpos hhi' (by
      rw [minExp_sf32, expSize_sf32]
      push_cast
      omega)]

/-- `cvt_sf64_sf32` rounds once. -/
theorem cvtSf64Sf32_eq {a : ℕ} (rm : RoundingMode) (ha64 : a < 2 ^ 64) :
    cvtSf64Sf32 a rm = sf64.convertBy rm.rule sf32 a := by
  have hsign := toNat_sign ha64
  have hbias : ((expMask / 2 : ℕ) : ℤ) = 1023 := rfl
  have hshift : mantSize - (32 - 2) = 22 := rfl
  unfold cvtSf64Sf32 Format.convertBy
  rcases decode_cases a with ⟨ha1, ha2, hda⟩ | ⟨ha1, ha2, hda⟩ | ⟨ha, hda⟩
  · have hE : a / 2 ^ mantSize % 2 ^ 11 = expMask := not_not.1 ha1
    have hm : a % 2 ^ mantSize ≠ 0 := ha2
    simp only [if_pos hE, if_pos hm, hda]
    rfl
  · have hE : a / 2 ^ mantSize % 2 ^ 11 = expMask := not_not.1 ha1
    have hm : ¬ a % 2 ^ mantSize ≠ 0 := not_not.2 ha2
    simp only [if_pos hE, if_neg hm, hda]
    have hinf : 255 * 2 ^ 23 = sf32.infinity := rfl
    generalize (a / 2 ^ 63 == 1) = neg at *
    rw [← hsign, packSf_sf32, hinf]
  · have hE : ¬ a / 2 ^ mantSize % 2 ^ 11 = expMask := ha
    rw [hda]
    generalize (a / 2 ^ 63 == 1) = neg at *
    simp only [if_neg hE, ← hsign]
    by_cases hE0 : a / 2 ^ mantSize % 2 ^ 11 = 0
    · have hsig : sig a = a % 2 ^ mantSize := if_pos hE0
      have hexpo : expo a = 1 := if_pos hE0
      have hlt : a % 2 ^ mantSize < 2 ^ 52 := Nat.mod_lt _ (by positivity)
      rw [hsig, hexpo]
      by_cases hm : a % 2 ^ mantSize = 0
      · rw [if_pos ⟨hE0, hm⟩, hm, packSf_sf32, Nat.cast_zero, zero_mul, zero_mul,
          Format.ofValue_zero]
      · obtain ⟨k, hk, -, -⟩ := normalizeSubnormalSf_spec (f := sf64) hm hlt
        rw [if_neg (fun h => hm h.2)]
        simp only [if_pos hE0, hk, hbias, hshift]
        rw [normalizeSf_sf32_subnormal neg rm (Nat.pos_of_ne_zero hm) hlt (by omega)]
        rfl
    · have hsig : sig a = a % 2 ^ mantSize + 2 ^ mantSize := if_neg hE0
      have hexpo : expo a = a / 2 ^ mantSize % 2 ^ 11 := if_neg hE0
      have hlt : a % 2 ^ mantSize < 2 ^ 52 := Nat.mod_lt _ (by positivity)
      have h52 : 2 ^ mantSize = 2 ^ 52 := rfl
      rw [if_neg (fun h => hE0 h.1)]
      simp only [if_neg hE0, hbias, hshift]
      rw [← hsig, ← hexpo, normalizeSf_sf32_normal neg rm (by rw [hsig, h52]; omega) (sig_lt a)]
      congr 3
      ring
/-- The significand of a finite pattern of the smaller format. -/
def sig32 (a : ℕ) : ℕ := if a / 2 ^ 23 % 2 ^ 8 = 0 then a % 2 ^ 23 else a % 2 ^ 23 + 2 ^ 23

def expo32 (a : ℕ) : ℕ := if a / 2 ^ 23 % 2 ^ 8 = 0 then 1 else a / 2 ^ 23 % 2 ^ 8

/-- A finite pattern of the smaller format is not rounded. -/
theorem ofValue_sf32 (rule : Bool → Rule) {a : ℕ} (ha : a < 2 ^ 32)
    (hfin : a / 2 ^ 23 % 2 ^ 8 ≠ 255) :
    sf32.ofValue rule (a / 2 ^ 31 == 1) ((sig32 a : ℚ) * 2 ^ ((expo32 a : ℤ) - 150)) = a := by
  have hsign : (a / 2 ^ 31 == 1).toNat = a / 2 ^ 31 := by
    have : a / 2 ^ 31 = 0 ∨ a / 2 ^ 31 = 1 := by omega
    rcases this with h | h <;> rw [h] <;> rfl
  have hone : 1 ≤ expo32 a := by
    unfold expo32
    split_ifs <;> omega
  have hmag : a % 2 ^ 31 = (expo32 a - 1) * 2 ^ 23 + sig32 a := by
    unfold expo32 sig32
    split_ifs <;> omega
  have hlt : sig32 a < 2 ^ (sf32.mantSize + 1) := by
    rw [mantSize_sf32]
    unfold sig32
    split_ifs <;> omega
  have hd : expo32 a - 1 = 0 ∨ 2 ^ sf32.mantSize ≤ sig32 a := by
    rw [mantSize_sf32]
    unfold expo32 sig32
    split_ifs <;> omega
  have hinf : sf32.infinity = 255 * 2 ^ 23 := rfl
  have hsignBit : sf32.signBit = 2 ^ 31 := rfl
  have h := Format.ofValue_exact (K := ℚ) rule (a / 2 ^ 31 == 1) hlt hd (by
    rw [hinf, mantSize_sf32, ← hmag]
    omega)
  rw [show ((expo32 a - 1 : ℕ) : ℤ) + sf32.minExp = expo32 a - 150 by rw [minExp_sf32]; omega,
    Format.pattern, hsign, mantSize_sf32, ← hmag, hsignBit] at h
  rw [h]
  omega

/-- What a double is that is packed from a significand with its leading bit in place. -/
theorem decode_packSf (neg : Bool) {e m : ℕ} (he : 1 ≤ e) (he' : e ≤ 2046) (hlo : 2 ^ 52 ≤ m)
    (hhi : m < 2 ^ 53) : sf64.decode (packSf sf64 neg.toNat e m) = .fin neg m (e - 1075) := by
  have hinf : sf64.infinity = 2047 * 2 ^ 52 := rfl
  have h := Format.decode_pattern (f := sf64) neg (d := e - 1) (R := m) hhi (.inr hlo) (by
    rw [hinf, mantSize_sf64]
    omega)
  have hpattern : packSf sf64 neg.toNat e m
      = sf64.pattern neg ((e - 1) * 2 ^ sf64.mantSize + m) := by
    rw [packSf_eq, mantSize_sf64, Nat.mod_eq_sub_mod hlo, Nat.mod_eq_of_lt (by omega),
      show e * 2 ^ 52 + (m - 2 ^ 52) = (e - 1) * 2 ^ 52 + m by omega]
  rw [hpattern, h, minExp_sf64]
  congr 1
  omega

theorem packSf_lt (neg : Bool) {e : ℕ} (he : e < 2 ^ 11) (m : ℕ) :
    packSf sf64 neg.toNat e m < 2 ^ 64 := by
  have hneg := Bool.toNat_le neg
  have hm : m % 2 ^ 52 < 2 ^ 52 := Nat.mod_lt _ (by positivity)
  rw [packSf, mantSize_sf64, show fSize sf64 - 1 = 63 from rfl]
  omega

/-- Only the bits below the leading one are packed. -/
theorem packSf_add (sign e m : ℕ) : packSf sf64 sign e (m + 2 ^ 52) = packSf sf64 sign e m := by
  rw [packSf, packSf, mantSize_sf64, Nat.add_mod_right]

/-- Every number of the smaller format is one of the greater. -/
theorem decode_cvtSf32Sf64 {a : ℕ} (ha : a < 2 ^ 32) (hfin : a / 2 ^ 23 % 2 ^ 8 ≠ 255) :
    cvtSf32Sf64 a < 2 ^ 64 ∧ ∃ m e, sf64.decode (cvtSf32Sf64 a) = .fin (a / 2 ^ 31 == 1) m e ∧
      (m * 2 ^ e : ℚ) = sig32 a * 2 ^ ((expo32 a : ℤ) - 150) := by
  have hsign : (a / 2 ^ 31 == 1).toNat = a / 2 ^ 31 := by
    have : a / 2 ^ 31 = 0 ∨ a / 2 ^ 31 = 1 := by omega
    rcases this with h | h <;> rw [h] <;> rfl
  have hbias : ((expMask / 2 : ℕ) : ℤ) = 1023 := rfl
  have hshift : mantSize - 23 = 29 := rfl
  have hE : ¬ a / 2 ^ 23 % 2 ^ 8 = 0xff := hfin
  generalize (a / 2 ^ 31 == 1) = neg at *
  unfold cvtSf32Sf64 sig32 expo32
  simp only [if_neg hE, ← hsign, hbias, hshift]
  by_cases hE0 : a / 2 ^ 23 % 2 ^ 8 = 0
  · rw [if_pos hE0, if_pos hE0]
    by_cases hm : a % 2 ^ 23 = 0
    · have h := Format.decode_pattern (f := sf64) neg (d := 0) (R := 0) (by positivity) (.inl rfl)
        (by decide)
      rw [Nat.zero_mul] at h
      rw [if_pos ⟨hE0, hm⟩]
      refine ⟨packSf_lt neg (by norm_num) 0, 0, ((0 : ℕ) : ℤ) + sf64.minExp, ?_, ?_⟩
      · rw [packSf_sf64, Nat.zero_mul]
        exact h
      · rw [hm, Nat.cast_zero, zero_mul, zero_mul]
    · obtain ⟨k, hk, hlo, hhi⟩ := normalizeSubnormalSf_spec (f := sf32) hm
        (Nat.mod_lt _ (by positivity))
      rw [if_neg (fun h => hm h.2)]
      simp only [if_pos hE0, hk]
      rw [mantSize_sf32] at hlo hhi
      have hk24 : k < 24 := by
        have hpow : 2 ^ k < 2 ^ 24 :=
          (Nat.le_mul_of_pos_left _ (Nat.pos_of_ne_zero hm)).trans_lt hhi
        exact (Nat.pow_lt_pow_iff_right one_lt_two).1 hpow
      obtain ⟨e, he⟩ : ∃ e : ℕ, 1 - (k : ℤ) - 127 + 1023 = e := ⟨897 - k, by omega⟩
      rw [he, Int.toNat_natCast]
      refine ⟨packSf_lt neg (by omega) _, _, _, decode_packSf neg (by omega) (by omega) (by omega)
        (by omega), ?_⟩
      rw [← he, natCast_mul_two_pow_mul, natCast_mul_two_pow_mul]
      congr 2
      push_cast
      ring
  · rw [if_neg hE0, if_neg hE0, if_neg (fun h => hE0 h.1)]
    simp only [if_neg hE0]
    obtain ⟨e, he⟩ : ∃ e : ℕ, ((a / 2 ^ 23 % 2 ^ 8 : ℕ) : ℤ) - 127 + 1023 = e :=
      ⟨a / 2 ^ 23 % 2 ^ 8 + 896, by push_cast; ring⟩
    rw [he, Int.toNat_natCast, ← packSf_add]
    have hE' : a / 2 ^ 23 % 2 ^ 8 < 2 ^ 8 := Nat.mod_lt _ (by positivity)
    refine ⟨packSf_lt neg (by omega) _, _, _, decode_packSf neg (by omega) (by omega) (by omega)
      (by omega), ?_⟩
    rw [← he, show a % 2 ^ 23 * 2 ^ 29 + 2 ^ 52 = (a % 2 ^ 23 + 2 ^ 23) * 2 ^ 29 by ring,
      natCast_mul_two_pow_mul]
    congr 2
    push_cast
    ring

/-- A number of the smaller format comes back. -/
theorem cvtSf64Sf32_cvtSf32Sf64 {a : ℕ} (rm : RoundingMode) (ha : a < 2 ^ 32) :
    sf32.decode a = .nan ∨ cvtSf64Sf32 (cvtSf32Sf64 a) rm = a := by
  by_cases hE : a / 2 ^ 23 % 2 ^ 8 = 255
  · by_cases hm : a % 2 ^ 23 = 0
    · right
      have hdouble : cvtSf32Sf64 a = packSf sf64 (a / 2 ^ 31) expMask 0 := by
        unfold cvtSf32Sf64
        simp only [if_pos hE, if_neg (not_not.2 hm)]
      have hinf (sign : ℕ) (hsign : sign < 2) :
          cvtSf64Sf32 (packSf sf64 sign expMask 0) rm = packSf sf32 sign 0xff 0 := by
        have hpack : packSf sf64 sign expMask 0 = sign * 2 ^ 63 + 2047 * 2 ^ 52 := by
          rw [packSf, Nat.zero_mod, Nat.add_zero]
          rfl
        have hexp : packSf sf64 sign expMask 0 / 2 ^ mantSize % 2 ^ 11 = expMask := by
          rw [hpack, show expMask = 2047 from rfl, show mantSize = 52 from rfl]
          omega
        have hmant : ¬ packSf sf64 sign expMask 0 % 2 ^ mantSize ≠ 0 := by
          rw [hpack, show mantSize = 52 from rfl]
          omega
        have htop : packSf sf64 sign expMask 0 / 2 ^ 63 = sign := by
          rw [hpack]
          omega
        unfold cvtSf64Sf32
        dsimp only
        rw [if_pos hexp, if_neg hmant, htop]
      have hpack : packSf sf32 (a / 2 ^ 31) 0xff 0 = a / 2 ^ 31 * 2 ^ 31 + 0xff * 2 ^ 23 := by
        rw [packSf, Nat.zero_mod, Nat.add_zero]
        rfl
      rw [hdouble, hinf _ (by omega), hpack]
      omega
    · left
      unfold Format.decode
      exact (if_pos hE).trans (if_neg hm)
  · right
    obtain ⟨hlt, m, e, hdecode, hvalue⟩ := decode_cvtSf32Sf64 ha hE
    rw [cvtSf64Sf32_eq rm hlt, Format.convertBy, hdecode]
    dsimp only
    rw [hvalue]
    exact ofValue_sf32 rm.rule ha hE

/-! ### Every conversion -/

/-- To an integer the conversions round and stop at the bounds, from an integer and to the smaller
format they round once, and to the greater format and back nothing changes. -/
theorem conversions_exact (rm : RoundingMode) (x : BitVec 64) (i32 : BitVec 32) (i64 : BitVec 64) :
    cvtSf64I32 x.toNat rm = sf64.toIntBy rm.rule (-2 ^ 31) (2 ^ 31 - 1) x.toNat ∧
    (cvtSf64U32 x.toNat rm : ℤ) = sf64.toIntBy rm.rule 0 (2 ^ 32 - 1) x.toNat ∧
    cvtSf64I64 x.toNat rm = sf64.toIntBy rm.rule (-2 ^ 63) (2 ^ 63 - 1) x.toNat ∧
    (cvtSf64U64 x.toNat rm : ℤ) = sf64.toIntBy rm.rule 0 (2 ^ 64 - 1) x.toNat ∧
    cvtI32Sf64 i32.toNat rm = sf64.ofIntBy rm.rule i32.toInt ∧
    cvtU32Sf64 i32.toNat rm = sf64.ofIntBy rm.rule i32.toNat ∧
    cvtI64Sf64 i64.toNat rm = sf64.ofIntBy rm.rule i64.toInt ∧
    cvtU64Sf64 i64.toNat rm = sf64.ofIntBy rm.rule i64.toNat ∧
    cvtSf64Sf32 x.toNat rm = sf64.convertBy rm.rule sf32 x.toNat ∧
    (sf32.decode i32.toNat = .nan ∨ cvtSf64Sf32 (cvtSf32Sf64 i32.toNat) rm = i32.toNat) :=
  ⟨cvtSf64I_eq (by norm_num) (by norm_num) rm x.isLt,
    cvtSf64U_eq (by norm_num) (by norm_num) rm x.isLt,
    cvtSf64I_eq (by norm_num) (by norm_num) rm x.isLt,
    cvtSf64U_eq (by norm_num) (by norm_num) rm x.isLt,
    cvtISf64_eq i32 rm, cvtUSf64_eq i32 rm, cvtISf64_eq i64 rm, cvtUSf64_eq i64 rm,
    cvtSf64Sf32_eq rm x.isLt, cvtSf64Sf32_cvtSf32Sf64 rm i32.isLt⟩

end SoftFp

end Qjs
