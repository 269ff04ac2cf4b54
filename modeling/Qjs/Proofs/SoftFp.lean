import Qjs.SoftFp

/-!
# The remainder of two integers

On nonnegative integers below `2 ^ 53`, the bit-level remainder is the integers' remainder
(`jsFmod_ofInt`). The loop keeps `aMant < bMant` and doubles modulo `bMant`
(`fmodLoop_eq`), so after `aExp - bExp` rounds it holds the remainder at the scale of the
divisor, and packing that is exact.
-/

namespace Qjs

namespace SoftFp

theorem fmodLoop_eq {b : ℕ} (hb : b < 2 ^ 63) :
    ∀ (n a : ℕ), a < b → fmodLoop b n a = a * 2 ^ n % b
  | 0, a, h => by simp [fmodLoop, Nat.mod_eq_of_lt h]
  | n + 1, a, h => by
    have hmod : a * 2 % 2 ^ 64 = a * 2 := Nat.mod_eq_of_lt (by omega)
    have hred : (if b ≤ a * 2 then a * 2 - b else a * 2) = a * 2 % b := by
      split_ifs with hle
      · rw [Nat.mod_eq_sub_mod hle, Nat.mod_eq_of_lt (by omega)]
      · exact (Nat.mod_eq_of_lt (by omega)).symm
    simp only [fmodLoop, hmod, hred]
    rw [fmodLoop_eq hb n _ (Nat.mod_lt _ (by omega)), Nat.mod_mul_mod, pow_succ']
    congr 1
    ring

theorem rshiftRnd64_zero (d : ℕ) : rshiftRnd64 0 d = 0 := by
  unfold rshiftRnd64
  split_ifs <;> simp_all

/-- A zero significand packs to a zero, whatever the exponent. -/
theorem roundPackSf64_zero (sign : ℕ) (exp : ℤ) :
    roundPackSf64 sign exp 0 .rne = sign * 2 ^ 63 := by
  have h : (if exp ≤ 0 then rshiftRnd64 0 (1 - exp).toNat else 0) = 0 := by
    rw [rshiftRnd64_zero, ite_self]
  simp only [roundPackSf64, h]
  simp [rndAddend, rndSize, mantMask, packSf64, mantSize]

/-- A full-width significand with nothing below the last place is packed as it is. -/
theorem roundPackSf64_exact {sign M : ℕ} {exp : ℤ} (h0 : 0 < exp) (h1 : exp < 2047)
    (hM1 : 2 ^ 52 ≤ M) (hM2 : M < 2 ^ 53) :
    roundPackSf64 sign exp (M * 2 ^ 10) .rne
      = sign * 2 ^ 63 + (exp - 1).toNat * 2 ^ 52 + M := by
  have e1 : ¬ exp ≤ 0 := by omega
  have e2 : (M * 2 ^ 10 + 512) % 2 ^ 64 / 2 ^ 10 = M := by omega
  have e3 : M * 2 ^ 10 % 2 ^ 10 = 0 := by omega
  have e4 : ((M / 2 ^ 53 : ℕ) : ℤ) = 0 := by
    rw [Nat.div_eq_of_lt hM2]; rfl
  have e5 : M % 2 ^ 52 = M - 2 ^ 52 := by omega
  have e6 : ¬ M ≤ 2 ^ 52 - 1 := by omega
  have e7 : ¬ ((2 ^ 11 - 1 : ℕ) : ℤ) ≤ exp + 0 := by
    norm_num
    omega
  simp only [roundPackSf64, rndAddend, rndSize, mantSize, mantMask, expMask, packSf64,
    if_neg e1, show 10 - 1 = 9 from rfl, show 2 ^ 9 = 512 from rfl, e2, e3,
    show 52 + 1 = 53 from rfl]
  simp only [show ¬ ((0 : ℕ) = 512) by omega, and_false, if_false, e4, if_neg e6, if_neg e7, e5]
  obtain ⟨n, rfl⟩ : ∃ n : ℕ, exp = n + 1 := ⟨(exp - 1).toNat, by omega⟩
  simp only [add_zero, add_sub_cancel_right, Int.toNat_natCast]
  rw [show ((n : ℤ) + 1).toNat = n + 1 by omega]
  omega

/-- Packing what fits the significand, far from the subnormals, is exact. -/
theorem normalizeSf64_exact {m : ℕ} {exp : ℤ} (hm : m < 2 ^ 53) (h0 : 52 < exp)
    (h1 : exp < 2047) :
    normalizeSf64 0 exp (m * 2 ^ 10) .rne = (Double.ofScaled false m (exp - 1075)).toNat := by
  by_cases hz : m = 0
  · subst hz
    simp [normalizeSf64, roundPackSf64_zero, Double.ofScaled_zero]
  obtain ⟨hl, hM1, hM2⟩ := Double.full_width hz hm
  have hclz : clz64 (m * 2 ^ 10) - 1 = (52 - Nat.log2 m : ℕ) := by
    rw [clz64, if_neg (by positivity), Double.log2_mul_two_pow hz]
    omega
  have hmul : m * 2 ^ 10 * 2 ^ (52 - Nat.log2 m) % 2 ^ 64
      = m * 2 ^ (52 - Nat.log2 m) * 2 ^ 10 := by
    rw [Nat.mul_right_comm]
    exact Nat.mod_eq_of_lt (by omega)
  rw [Double.toNat_ofScaled, Double.magnitude_exact hz hm (by omega) (by omega)]
  simp only [normalizeSf64, hclz, Int.toNat_natCast, hmul]
  rw [roundPackSf64_exact (by omega) (by omega) hM1 hM2]
  have he : (exp - (52 - Nat.log2 m : ℕ) - 1).toNat
      = ((Nat.log2 m : ℤ) + (exp - 1075) + 1022).toNat := by
    omega
  simp only [he, Bool.toNat_false, zero_mul, zero_add]

theorem unpackNormal_ofInt {z : ℤ} (h0 : 0 < z) (h : z.natAbs < 2 ^ 53) :
    unpackNormal (Double.ofInt z).toNat
      = (((Nat.log2 z.natAbs + 1023 : ℕ) : ℤ), z.natAbs * 2 ^ (52 - Nat.log2 z.natAbs)) := by
  obtain ⟨hl, hM1, hM2⟩ := Double.full_width (by omega) h
  have hn := Double.toNat_ofInt_of_pos h0 h
  set l := Nat.log2 z.natAbs
  set M := z.natAbs * 2 ^ (52 - l)
  have hexp : (Double.ofInt z).toNat / 2 ^ 52 % 2 ^ 11 = l + 1023 := by omega
  have hmant : (Double.ofInt z).toNat % 2 ^ 52 = M - 2 ^ 52 := by omega
  simp only [unpackNormal, mantSize, hexp, hmant, if_neg (by omega : ¬ l + 1023 = 0)]
  rw [show M - 2 ^ 52 + 2 ^ 52 = M by omega]

theorem log2_le_log2 {a b : ℕ} (h : a ≤ b) : Nat.log2 a ≤ Nat.log2 b := by
  rw [Nat.log2_eq_log_two, Nat.log2_eq_log_two]
  exact Nat.log_mono_right h

/-- The patterns of positive integers are ordered as the integers are. -/
theorem toNat_ofInt_lt {a b : ℤ} (h0 : 0 < a) (hab : a < b) (hb : b.natAbs < 2 ^ 53) :
    (Double.ofInt a).toNat < (Double.ofInt b).toNat := by
  have ha : a.natAbs < 2 ^ 53 := by omega
  obtain ⟨hla, -, hA⟩ := Double.full_width (by omega) ha
  obtain ⟨hlb, hB, -⟩ := Double.full_width (by omega) hb
  rw [Double.toNat_ofInt_of_pos h0 ha, Double.toNat_ofInt_of_pos (by omega) hb]
  rcases (log2_le_log2 (show a.natAbs ≤ b.natAbs by omega)).lt_or_eq with h | h
  · omega
  · rw [h]
    gcongr
    omega

section Fmod

variable {A B : ℕ} (hB : B ≠ 0) (hA' : A < 2047 * 2 ^ 52) (hB' : B < 2047 * 2 ^ 52)

include hB hA' hB'

theorem fmodSf64_finite :
    fmodSf64 A B =
      if A < B then A
      else if A = B then 0
      else normalizeSf64 0 (unpackNormal B).1
        (fmodLoop (unpackNormal B).2 ((unpackNormal A).1 - (unpackNormal B).1).toNat
          (if (unpackNormal B).2 ≤ (unpackNormal A).2 then (unpackNormal A).2 - (unpackNormal B).2
            else (unpackNormal A).2) * 2 ^ 10 % 2 ^ 64) .rne := by
  have e1 : A % signMask = A := by rw [signMask]; omega
  have e2 : B % signMask = B := by rw [signMask]; omega
  have e3 : A / 2 ^ 63 = 0 := by omega
  have e4 : ¬ (B = 0 ∨ expMask * 2 ^ mantSize ≤ A ∨ expMask * 2 ^ mantSize < B) := by
    simp only [expMask, mantSize]
    omega
  simp only [fmodSf64, e1, e2, e3, if_neg e4, Nat.sub_self, rndSize]

end Fmod

/-- The significand left by the loop is the remainder at the scale of the divisor. -/
theorem fmodLoop_ofInt {a b : ℕ} (hb : b ≠ 0) (hab : b < a) (ha : a < 2 ^ 53) :
    fmodLoop (b * 2 ^ (52 - Nat.log2 b)) (Nat.log2 a - Nat.log2 b)
        (if b * 2 ^ (52 - Nat.log2 b) ≤ a * 2 ^ (52 - Nat.log2 a)
          then a * 2 ^ (52 - Nat.log2 a) - b * 2 ^ (52 - Nat.log2 b)
          else a * 2 ^ (52 - Nat.log2 a))
      = a % b * 2 ^ (52 - Nat.log2 b) := by
  obtain ⟨hla, hA1, hA2⟩ := Double.full_width (show a ≠ 0 by omega) ha
  obtain ⟨hlb, hB1, hB2⟩ := Double.full_width hb (hab.trans ha)
  have hl := log2_le_log2 hab.le
  have hscale : a * 2 ^ (52 - Nat.log2 a) * 2 ^ (Nat.log2 a - Nat.log2 b)
      = a * 2 ^ (52 - Nat.log2 b) := by
    rw [mul_assoc, ← pow_add]
    congr 2
    omega
  set A := a * 2 ^ (52 - Nat.log2 a)
  set B := b * 2 ^ (52 - Nat.log2 b) with hBdef
  have hred : (if B ≤ A then A - B else A) = A % B := by
    split_ifs with hle
    · rw [Nat.mod_eq_sub_mod hle, Nat.mod_eq_of_lt (by omega)]
    · exact (Nat.mod_eq_of_lt (by omega)).symm
  rw [hred, fmodLoop_eq (by omega) _ _ (Nat.mod_lt _ (by omega)), Nat.mod_mul_mod, hscale,
    hBdef, Nat.mul_mod_mul_right]

end SoftFp

open SoftFp

/-- The remainder at the scale of the divisor is the remainder. -/
theorem ofScaled_rem {a b : ℤ} (ha : 0 ≤ a) {l : ℕ} (hl : l ≤ 52) :
    Double.ofScaled false (a.natAbs % b.natAbs * 2 ^ (52 - l)) (((l + 1023 : ℕ) : ℤ) - 1075)
      = Double.ofInt (a % b) := by
  have habs : (a % b).natAbs = a.natAbs % b.natAbs := Int.natAbs_emod_of_nonneg ha b
  have hs : decide (a % b < 0) = false := by
    rw [decide_eq_false_iff_not, not_lt]
    by_cases hb : b = 0
    · rw [hb, Int.emod_zero]
      exact ha
    · exact Int.emod_nonneg a hb
  have he : ((l + 1023 : ℕ) : ℤ) - 1075 + ((52 - l : ℕ) : ℤ) = 0 := by omega
  rw [Double.ofScaled_mul_two_pow, he, Double.ofInt, hs, habs]

/-- On nonnegative integers, `js_fmod` is the remainder. -/
theorem jsFmod_ofInt {a b : ℤ} (ha : 0 ≤ a) (ha' : a.natAbs < 2 ^ 53) (hb : 0 < b)
    (hb' : b.natAbs < 2 ^ 53) :
    jsFmod (Double.ofInt a) (Double.ofInt b) = Double.ofInt (a % b) := by
  obtain ⟨hlb, hB1, hB2⟩ := Double.full_width (show b.natAbs ≠ 0 by omega) hb'
  have hbn := Double.toNat_ofInt_of_pos hb hb'
  have hbu := unpackNormal_ofInt hb hb'
  have hB : (Double.ofInt b).toNat < 2047 * 2 ^ 52 := by omega
  have hB0 : (Double.ofInt b).toNat ≠ 0 := by omega
  apply BitVec.eq_of_toNat_eq
  rw [jsFmod, BitVec.toNat_ofNat]
  rcases ha.eq_or_lt with rfl | ha
  · rw [Int.zero_emod, Double.ofInt_zero, BitVec.toNat_ofNat, Nat.zero_mod,
      fmodSf64_finite hB0 (by norm_num) hB, if_pos (by omega), Nat.zero_mod]
  obtain ⟨hla, hA1, hA2⟩ := Double.full_width (show a.natAbs ≠ 0 by omega) ha'
  have han := Double.toNat_ofInt_of_pos ha ha'
  have hau := unpackNormal_ofInt ha ha'
  have hA : (Double.ofInt a).toNat < 2047 * 2 ^ 52 := by omega
  rw [fmodSf64_finite hB0 hA hB]
  rcases lt_trichotomy a b with h | h | h
  · rw [if_pos (toNat_ofInt_lt ha h hb'), Int.emod_eq_of_lt ha.le h]
    exact Nat.mod_eq_of_lt (Double.ofInt a).isLt
  · subst h
    rw [if_neg (lt_irrefl _), if_pos rfl, Int.emod_self, Double.ofInt_zero]
    rfl
  · have hlt := toNat_ofInt_lt hb h ha'
    have hl := log2_le_log2 (show b.natAbs ≤ a.natAbs by omega)
    rw [if_neg (by omega), if_neg (by omega), hau, hbu]
    have hn : (((Nat.log2 a.natAbs + 1023 : ℕ) : ℤ) - ((Nat.log2 b.natAbs + 1023 : ℕ) : ℤ)).toNat
        = Nat.log2 a.natAbs - Nat.log2 b.natAbs := by
      omega
    have hrem : a.natAbs % b.natAbs < b.natAbs := Nat.mod_lt _ (by omega)
    have hmant : a.natAbs % b.natAbs * 2 ^ (52 - Nat.log2 b.natAbs) < 2 ^ 53 :=
      (Nat.mul_le_mul_right _ hrem.le).trans_lt hB2
    have hmod : a.natAbs % b.natAbs * 2 ^ (52 - Nat.log2 b.natAbs) * 2 ^ 10 % 2 ^ 64
        = a.natAbs % b.natAbs * 2 ^ (52 - Nat.log2 b.natAbs) * 2 ^ 10 :=
      Nat.mod_eq_of_lt (by omega)
    simp only [hn]
    rw [fmodLoop_ofInt (by omega) (by omega) ha', hmod,
      normalizeSf64_exact hmant (by omega) (by omega), ofScaled_rem ha.le hlb]
    exact Nat.mod_eq_of_lt (Double.ofInt _).isLt

end Qjs
