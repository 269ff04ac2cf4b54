import Qjs.Lib.RatRound

/-!
# Significant decimal digits

A number rounded to `n` significant decimal digits (`sigDigits`) is the nearest of the decimals with
so many digits (`sigValue_nearest`). A decimal with few enough digits is recovered from its double up
to the double: the decimal nearest to the double has the same double (`ratMagnitude_sigValue`).
-/

namespace Qjs

namespace Double

/-- The first `n` digits of `q`, rounded, as a number, and the exponent of the first one. -/
def sigDigits (n : ℕ) (q : ℚ) : ℕ × ℤ :=
  let x := Int.log 10 q
  let m := roundEven (q / 10 ^ (x - (n - 1)))
  if m = 10 ^ n then (10 ^ (n - 1), x + 1) else (m, x)

def sigValue (n : ℕ) (q : ℚ) : ℚ := (sigDigits n q).1 * 10 ^ ((sigDigits n q).2 - (n - 1))

/-- A decimal with at most `n` significant digits. -/
def SigDecimal (n : ℕ) (q : ℚ) : Prop := ∃ (m : ℕ) (e : ℤ), m < 10 ^ n ∧ q = m * 10 ^ e

variable {n : ℕ} {q : ℚ}

theorem ten_zpow_pos (e : ℤ) : (0 : ℚ) < 10 ^ e := by positivity

theorem ten_zpow_add (e : ℤ) (k : ℕ) : (10 : ℚ) ^ (e + k) = 10 ^ k * 10 ^ e := by
  rw [zpow_add₀ (by norm_num), zpow_natCast, mul_comm]

theorem log_ten_bounds (hq : 0 < q) :
    (10 : ℚ) ^ Int.log 10 q ≤ q ∧ q < 10 ^ (Int.log 10 q + 1) := by
  have h1 := Int.zpow_log_le_self (b := 10) (by norm_num) hq
  have h2 := Int.lt_zpow_succ_log_self (b := 10) (by norm_num) q
  push_cast at h1 h2
  exact ⟨h1, h2⟩

/-- The number in units of its last digit. -/
theorem digit_units (hn : 0 < n) (hq : 0 < q) :
    ((10 ^ (n - 1) : ℕ) : ℚ) ≤ q / 10 ^ (Int.log 10 q - (n - 1))
      ∧ q / 10 ^ (Int.log 10 q - (n - 1)) < ((10 ^ n : ℕ) : ℚ) := by
  obtain ⟨h1, h2⟩ := log_ten_bounds hq
  have hpos := ten_zpow_pos (Int.log 10 q - (n - 1))
  have e1 : Int.log 10 q = Int.log 10 q - (n - 1) + (n - 1 : ℕ) := by
    push_cast [Nat.cast_sub hn]
    ring
  have e2 : Int.log 10 q + 1 = Int.log 10 q - (n - 1) + n := by ring
  constructor
  · rw [le_div_iff₀ hpos]
    push_cast
    rw [← ten_zpow_add, ← e1]
    exact h1
  · rw [div_lt_iff₀ hpos]
    push_cast
    rw [← ten_zpow_add, ← e2]
    exact h2

theorem sigDigits_bounds (hn : 0 < n) (hq : 0 < q) :
    10 ^ (n - 1) ≤ (sigDigits n q).1 ∧ (sigDigits n q).1 < 10 ^ n := by
  obtain ⟨h1, h2⟩ := digit_units hn hq
  have hnonneg : 0 ≤ q / 10 ^ (Int.log 10 q - (n - 1)) := div_nonneg hq.le (ten_zpow_pos _).le
  have hlo := (roundEven_mono_nat hnonneg).1 h1
  have hhi := (roundEven_mono_nat hnonneg).2 h2.le
  have hpow : 10 ^ (n - 1) < 10 ^ n := Nat.pow_lt_pow_right (by norm_num) (by omega)
  unfold sigDigits
  simp only
  split_ifs with hcarry
  · exact ⟨le_rfl, hpow⟩
  · exact ⟨hlo, lt_of_le_of_ne hhi hcarry⟩

/-- A carry does not change the value. -/
theorem sigValue_eq (hn : 0 < n) (q : ℚ) :
    sigValue n q = roundEven (q / 10 ^ (Int.log 10 q - (n - 1))) * 10 ^ (Int.log 10 q - (n - 1)) := by
  unfold sigValue sigDigits
  simp only
  split_ifs with hcarry
  · have e1 : Int.log 10 q + 1 - (n - 1) = Int.log 10 q - (n - 1) + (1 : ℕ) := by
      push_cast
      ring
    have e2 : (10 : ℚ) ^ n = 10 ^ (n - 1) * 10 := by
      rw [← pow_succ]
      congr 1
      omega
    rw [hcarry, e1, ten_zpow_add]
    push_cast
    rw [e2]
    ring
  · rfl

@[simp] theorem sigValue_zero (n : ℕ) : sigValue n 0 = 0 := by
  have hround : roundEven 0 = 0 := by simp [roundEven]
  have hpow : 0 ≠ 10 ^ n := by positivity
  unfold sigValue sigDigits
  simp only [zero_div, hround]
  rw [if_neg hpow, Nat.cast_zero, zero_mul]

theorem sigValue_sigDecimal (hn : 0 < n) (hq : 0 < q) : SigDecimal n (sigValue n q) :=
  ⟨_, _, (sigDigits_bounds hn hq).2, rfl⟩

theorem sigValue_pos (hn : 0 < n) (hq : 0 < q) : 0 < sigValue n q := by
  have h := (sigDigits_bounds hn hq).1
  have h0 : 0 < 10 ^ (n - 1) := by positivity
  have hm : (0 : ℚ) < (sigDigits n q).1 := by exact_mod_cast h0.trans_le h
  exact mul_pos hm (ten_zpow_pos _)

/-- No multiple of the last digit's unit is nearer. -/
theorem sigValue_nearest_multiple (hn : 0 < n) (hq : 0 < q) (k : ℕ) :
    |q - sigValue n q| ≤ |q - k * 10 ^ (Int.log 10 q - (n - 1))| := by
  have hpos := ten_zpow_pos (Int.log 10 q - (n - 1))
  have hscale : ∀ t : ℚ, |q - t * 10 ^ (Int.log 10 q - (n - 1))|
      = |q / 10 ^ (Int.log 10 q - (n - 1)) - t| * 10 ^ (Int.log 10 q - (n - 1)) := by
    intro t
    rw [← abs_of_pos hpos, ← abs_mul, abs_of_pos hpos, sub_mul, div_mul_cancel₀ _ hpos.ne']
  rw [sigValue_eq hn, hscale, hscale]
  exact mul_le_mul_of_nonneg_right (roundEven_nearest (div_nonneg hq.le hpos.le) k) hpos.le

/-- No decimal with so many digits is nearer. -/
theorem sigValue_nearest (hn : 0 < n) (hq : 0 < q) {d : ℚ} (hd : SigDecimal n d) :
    |q - sigValue n q| ≤ |q - d| := by
  obtain ⟨m, e, hm, rfl⟩ := hd
  set g := Int.log 10 q - ((n : ℤ) - 1) with hg
  rcases le_or_gt g e with he | he
  · have hk : (m : ℚ) * 10 ^ e = ((m * 10 ^ (e - g).toNat : ℕ) : ℚ) * 10 ^ g := by
      have h10 : e = g + (e - g).toNat := by omega
      push_cast
      rw [mul_assoc, ← ten_zpow_add, ← h10]
    rw [hk]
    exact sigValue_nearest_multiple hn hq _
  · -- the decimal is below the power of ten at which `q` starts
    obtain ⟨hlog, -⟩ := log_ten_bounds hq
    have hpow : (10 : ℚ) ^ Int.log 10 q = ((10 ^ (n - 1) : ℕ) : ℚ) * 10 ^ g := by
      have h10 : Int.log 10 q = g + (n - 1 : ℕ) := by
        push_cast [Nat.cast_sub hn]
        rw [hg]
        ring
      push_cast
      rw [← ten_zpow_add, ← h10]
    have hlt : (m : ℚ) * 10 ^ e ≤ 10 ^ Int.log 10 q := by
      calc (m : ℚ) * 10 ^ e ≤ 10 ^ n * 10 ^ e := by
            gcongr
            exact_mod_cast hm.le
        _ = 10 ^ (e + n) := (ten_zpow_add e n).symm
        _ ≤ 10 ^ Int.log 10 q := zpow_le_zpow_right₀ (by norm_num) (by omega)
    calc |q - sigValue n q| ≤ |q - 10 ^ Int.log 10 q| := by
          rw [hpow]
          exact sigValue_nearest_multiple hn hq _
      _ = q - 10 ^ Int.log 10 q := abs_of_nonneg (by linarith)
      _ ≤ q - m * 10 ^ e := by linarith
      _ ≤ |q - m * 10 ^ e| := le_abs_self _

/-- Two decimals with so many digits are not relatively near. -/
theorem sigDecimal_gap {c d : ℚ} (hc : SigDecimal n c) (hd : SigDecimal n d) (hne : c ≠ d) :
    min c d ≤ 10 ^ n * |c - d| := by
  have key : ∀ {m m' : ℕ} {e e' : ℤ}, m < 10 ^ n → e ≤ e' →
      (m : ℚ) * 10 ^ e ≠ m' * 10 ^ e' →
      (m : ℚ) * 10 ^ e ≤ 10 ^ n * |(m : ℚ) * 10 ^ e - m' * 10 ^ e'| := by
    intro m m' e e' hm he hne
    have hpos := ten_zpow_pos e
    have hk : (m' : ℚ) * 10 ^ e' = ((m' * 10 ^ (e' - e).toNat : ℕ) : ℚ) * 10 ^ e := by
      have h10 : e' = e + (e' - e).toNat := by omega
      push_cast
      rw [mul_assoc, ← ten_zpow_add, ← h10]
    rw [hk] at hne ⊢
    generalize m' * 10 ^ (e' - e).toNat = k at hne
    have hmk : (1 : ℚ) ≤ |(m : ℚ) - k| := by
      have hne' : (m : ℤ) - k ≠ 0 := by
        intro h0
        have : (m : ℤ) = k := by omega
        exact hne (by rw [show m = k by exact_mod_cast this])
      have : (1 : ℤ) ≤ |(m : ℤ) - k| := Int.one_le_abs hne'
      exact_mod_cast this
    have hmle : (m : ℚ) ≤ 10 ^ n := by exact_mod_cast hm.le
    rw [← sub_mul, abs_mul, abs_of_pos hpos, ← mul_assoc]
    have h10 : (0 : ℚ) < 10 ^ n := by positivity
    gcongr
    nlinarith
  obtain ⟨m, e, hm, rfl⟩ := hc
  obtain ⟨m', e', hm', rfl⟩ := hd
  rcases le_total e e' with he | he
  · exact (min_le_left _ _).trans (key hm he hne)
  · rw [abs_sub_comm]
    exact (min_le_right _ _).trans (key hm' he hne.symm)

/-- What is rounded to zero is the zero. -/
theorem ratMagnitude_of_rounded_eq_zero {d : ℚ} (hd : 0 < d) (h : rounded d = 0) :
    ratMagnitude d = 0 := by
  have hr : roundEven (d / 2 ^ ratUlpExp d) = 0 := by
    have hne := (two_zpow_pos (ratUlpExp d)).ne'
    unfold rounded at h
    exact_mod_cast (mul_eq_zero.1 h).resolve_right hne
  have hu : ratUlpExp d = -1074 := by
    by_contra hne
    have hlt : -1074 < ratUlpExp d := lt_of_le_of_ne (neg_le_ratUlpExp d) (Ne.symm hne)
    have hle := (roundEven_mono_nat (units_nonneg hd)).1 (le_units hd hlt)
    rw [hr] at hle
    norm_num at hle
  rw [ratMagnitude_of_pos hd, hr, hu]
  norm_num

/-- The decimal nearest to the double of a decimal has the same double. -/
theorem ratMagnitude_sigValue (hn : 0 < n) (h51 : (10 : ℚ) ^ n < 2 ^ 51) {d : ℚ} (hd : 0 < d)
    (hsig : SigDecimal n d) : ratMagnitude (sigValue n (rounded d)) = ratMagnitude d := by
  rcases (rounded_nonneg d).eq_or_lt with h0 | hpos
  · rw [← h0, sigValue_zero, ratMagnitude_of_rounded_eq_zero hd h0.symm]
    rfl
  by_cases heq : sigValue n (rounded d) = d
  · rw [heq]
  have hp := sigValue_pos hn hpos
  have hnear : |sigValue n (rounded d) - rounded d| ≤ |d - rounded d| := by
    rw [abs_sub_comm, abs_sub_comm d]
    exact sigValue_nearest hn hpos hsig
  have hulp := abs_rounded_le hd
  have hdist : |sigValue n (rounded d) - d| ≤ 2 ^ ratUlpExp d := by
    have htri := abs_sub_le (sigValue n (rounded d)) (rounded d) d
    rw [abs_sub_comm (rounded d) d] at htri
    linarith
  have hu := ratUlpExp_eq_of_gap hd hp hdist h51
    (sigDecimal_gap (sigValue_sigDecimal hn hpos) hsig heq)
  exact ratMagnitude_closer hd hp hu hnear

end Double

end Qjs
