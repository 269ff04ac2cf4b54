import Qjs.Lib.Binary64

/-!
# Doubles nearest to rationals

The double nearest to a rational number, with ties to even (`ofRat`), and the quotient of two
doubles. On the numbers `m * 2 ^ e` it is `ofScaled` (`ofRat_scaled`).
-/

namespace Qjs

namespace Double

/-- The integer nearest to `q`, with ties to even, for `q` that is not negative. -/
def roundEven (q : ℚ) : ℕ :=
  if 2 * (q - ⌊q⌋₊) < 1 then ⌊q⌋₊
  else if 1 < 2 * (q - ⌊q⌋₊) then ⌊q⌋₊ + 1
  else ⌊q⌋₊ + ⌊q⌋₊ % 2

/-- The exponent of the last place of the double nearest to `q`. -/
def ratUlpExp (q : ℚ) : ℤ := max (Int.log 2 q - 52) (-1074)

/-- The pattern of the magnitude nearest to `q`. -/
def ratMagnitude (q : ℚ) : ℕ :=
  if q = 0 then 0
  else min ((ratUlpExp q + 1074).toNat * 2 ^ 52 + roundEven (q / 2 ^ ratUlpExp q)) (2047 * 2 ^ 52)

/-- The double nearest to `± q`. -/
def ofRat (neg : Bool) (q : ℚ) : Double :=
  BitVec.ofNat 64 (neg.toNat * 2 ^ 63 + ratMagnitude q)

def div (x y : Double) : Double :=
  match x.decode, y.decode with
  | .nan, _ => qnan
  | _, .nan => qnan
  | .inf _, .inf _ => qnan
  | .inf n, .fin n' _ _ => ofScaled (n ^^ n') 1 1024
  | .fin n _ _, .inf n' => ofScaled (n ^^ n') 0 0
  | .fin n₁ m₁ e₁, .fin n₂ m₂ e₂ =>
    if m₂ = 0 then if m₁ = 0 then qnan else ofScaled (n₁ ^^ n₂) 1 1024
    else ofRat (n₁ ^^ n₂) (m₁ * 2 ^ e₁ / (m₂ * 2 ^ e₂))

/-! ### Scaled integers -/

theorem roundEven_div_two_pow (m k : ℕ) : roundEven (m / 2 ^ k) = shiftRightEven m k := by
  have hf : ⌊(m : ℚ) / 2 ^ k⌋₊ = m / 2 ^ k := by
    have := Nat.floor_div_natCast (m : ℚ) (2 ^ k)
    push_cast at this
    rw [this, Nat.floor_natCast]
  have hk : (0 : ℚ) < 2 ^ k := by positivity
  have hr : (m : ℚ) / 2 ^ k - (m / 2 ^ k : ℕ) = (m % 2 ^ k : ℕ) / 2 ^ k := by
    have h : ((2 ^ k * (m / 2 ^ k) + m % 2 ^ k : ℕ) : ℚ) = m := by rw [Nat.div_add_mod]
    push_cast at h
    rw [eq_div_iff hk.ne', sub_mul, div_mul_cancel₀ _ hk.ne']
    linarith
  have hlt : 2 * ((m % 2 ^ k : ℕ) / 2 ^ k : ℚ) < 1 ↔ 2 * (m % 2 ^ k) < 2 ^ k := by
    rw [← mul_div_assoc, div_lt_one hk]
    exact_mod_cast Iff.rfl
  have hgt : (1 : ℚ) < 2 * ((m % 2 ^ k : ℕ) / 2 ^ k) ↔ 2 ^ k < 2 * (m % 2 ^ k) := by
    rw [← mul_div_assoc, one_lt_div hk]
    exact_mod_cast Iff.rfl
  simp only [roundEven, shiftRightEven, hf, hr, hlt, hgt]

theorem log_scaled {m : ℕ} (hm : m ≠ 0) (e : ℤ) :
    Int.log 2 ((m : ℚ) * 2 ^ e) = Nat.log2 m + e := by
  have h2 : (2 : ℚ) ≠ 0 := by norm_num
  have hpos : (0 : ℚ) < m * 2 ^ e := by positivity
  have hlo : (2 : ℚ) ^ Nat.log2 m ≤ m := by exact_mod_cast Nat.log2_self_le hm
  have hhi : (m : ℚ) < 2 ^ (Nat.log2 m + 1) := by exact_mod_cast Nat.lt_log2_self
  apply le_antisymm
  · rw [← Int.lt_add_one_iff, ← Int.lt_zpow_iff_log_lt one_lt_two hpos]
    calc (m : ℚ) * 2 ^ e < 2 ^ (Nat.log2 m + 1) * 2 ^ e := by gcongr
      _ = ((2 : ℕ) : ℚ) ^ ((Nat.log2 m : ℤ) + e + 1) := by
        rw [← zpow_natCast, ← zpow_add₀ h2]
        push_cast
        congr 1
        ring
  · rw [← Int.zpow_le_iff_le_log one_lt_two hpos]
    calc ((2 : ℕ) : ℚ) ^ ((Nat.log2 m : ℤ) + e) = 2 ^ Nat.log2 m * 2 ^ e := by
          rw [← zpow_natCast, ← zpow_add₀ h2]
          push_cast
          rfl
      _ ≤ m * 2 ^ e := by gcongr

theorem ratUlpExp_scaled {m : ℕ} (hm : m ≠ 0) (e : ℤ) : ratUlpExp (m * 2 ^ e) = ulpExp m e := by
  rw [ratUlpExp, log_scaled hm, ulpExp]

/-- The significand in units of the last place. -/
theorem roundEven_scaled (m : ℕ) (e q : ℤ) :
    roundEven ((m : ℚ) * 2 ^ e / 2 ^ q)
      = shiftRightEven (m * 2 ^ (e - q).toNat) (q - e).toNat := by
  have h2 : (2 : ℚ) ≠ 0 := by norm_num
  rw [← roundEven_div_two_pow]
  congr 1
  push_cast
  rw [mul_div_assoc, mul_div_assoc]
  congr 1
  rw [← zpow_natCast, ← zpow_natCast, ← zpow_sub₀ h2, ← zpow_sub₀ h2]
  congr 1
  omega

theorem ratMagnitude_scaled (m : ℕ) (e : ℤ) : ratMagnitude (m * 2 ^ e) = magnitude m e := by
  by_cases hm : m = 0
  · simp [ratMagnitude, magnitude, hm]
  have hq : (m : ℚ) * 2 ^ e ≠ 0 := by positivity
  rw [ratMagnitude, magnitude, if_neg hq, if_neg hm, ratUlpExp_scaled hm, roundEven_scaled]

theorem ofRat_scaled (neg : Bool) (m : ℕ) (e : ℤ) :
    ofRat neg (m * 2 ^ e) = ofScaled neg m e := by
  rw [ofRat, ratMagnitude_scaled, ofScaled]

theorem ofRat_natCast (neg : Bool) (m : ℕ) : ofRat neg m = ofScaled neg m 0 := by
  have h := ofRat_scaled neg m 0
  rwa [zpow_zero, mul_one] at h

theorem ratMagnitude_lt (q : ℚ) : ratMagnitude q < 2 ^ 63 := by
  unfold ratMagnitude
  split_ifs
  · norm_num
  · exact (min_le_right _ _).trans_lt (by norm_num)

theorem toNat_ofRat (neg : Bool) (q : ℚ) :
    (ofRat neg q).toNat = neg.toNat * 2 ^ 63 + ratMagnitude q := by
  have h := ratMagnitude_lt q
  have hb : neg.toNat ≤ 1 := Bool.toNat_le neg
  rw [ofRat, BitVec.toNat_ofNat]
  exact Nat.mod_eq_of_lt (by omega)

theorem msb_ofRat (neg : Bool) (q : ℚ) : (ofRat neg q).msb = neg := by
  have h := ratMagnitude_lt q
  rw [BitVec.msb_eq_decide, toNat_ofRat]
  cases neg
  · simp only [Bool.toNat_false, zero_mul, zero_add, decide_eq_false_iff_not]
    omega
  · simp only [Bool.toNat_true, decide_eq_true_eq]
    omega

theorem neg_ofRat (n : Bool) (q : ℚ) : neg (ofRat n q) = ofRat (!n) q := by
  apply eq_of_msb_of_mod
  · rw [msb_neg, msb_ofRat, msb_ofRat]
  · rw [toNat_neg_mod, toNat_ofRat, toNat_ofRat]
    omega

/-! ### Doubles that are held exactly -/

/-- The finite pattern `x` has the sign `neg` and the magnitude `q`. -/
def Exact (x : Double) (neg : Bool) (q : ℚ) : Prop :=
  ∃ m e, decode x = .fin neg m e ∧ (m : ℚ) * 2 ^ e = q

section Exact

variable {x y : Double} {n n' : Bool} {q q' : ℚ}

theorem Exact.mul (hx : Exact x n q) (hy : Exact y n' q') :
    Double.mul x y = ofRat (n ^^ n') (q * q') := by
  obtain ⟨m₁, e₁, h₁, rfl⟩ := hx
  obtain ⟨m₂, e₂, h₂, rfl⟩ := hy
  rw [mul_fin h₁ h₂, ← ofRat_scaled, zpow_add₀ (by norm_num)]
  congr 1
  push_cast
  ring

theorem Exact.div (hx : Exact x n q) (hy : Exact y n' q') (hq : q' ≠ 0) :
    Double.div x y = ofRat (n ^^ n') (q / q') := by
  obtain ⟨m₁, e₁, h₁, rfl⟩ := hx
  obtain ⟨m₂, e₂, h₂, rfl⟩ := hy
  have hm : m₂ ≠ 0 := by
    rintro rfl
    simp at hq
  simp only [Double.div, h₁, h₂, hm, if_false]

theorem Exact.value? (hx : Exact x n q) : value? x = some (if n then -q else q) := by
  obtain ⟨m, e, h, rfl⟩ := hx
  rw [value?_fin h]
  cases n <;> simp [signed]

theorem Exact.trunc_natCast {k : ℕ} (hx : Exact x false k) : trunc x = k := by
  unfold trunc
  rw [hx.value?]
  simp

end Exact

theorem exact_ofScaled {m : ℕ} {e : ℤ} (neg : Bool) (hm : m ≠ 0) (h : m < 2 ^ 53)
    (h1 : -1022 ≤ Nat.log2 m + e) (h2 : Nat.log2 m + e ≤ 1023) :
    Exact (ofScaled neg m e) neg (m * 2 ^ e) := by
  have hl := (full_width hm h).1
  refine ⟨_, _, decode_ofScaled_normal neg hm h h1 h2, ?_⟩
  push_cast
  rw [mul_assoc, ← zpow_natCast, ← zpow_add₀ (by norm_num)]
  congr 2
  omega

theorem exact_ofScaled_natCast {m : ℕ} (neg : Bool) (h : m < 2 ^ 53) :
    Exact (ofScaled neg m 0) neg m := by
  by_cases hm : m = 0
  · subst hm
    refine ⟨0, -1074, ?_, by simp⟩
    rw [ofScaled_zero]
    cases neg
    · exact decode_zero
    · exact decode_minusZero
  · have hl := (full_width hm h).1
    have := exact_ofScaled (e := 0) neg hm h (by omega) (by omega)
    rwa [zpow_zero, mul_one] at this

/-- A power of ten whose odd part fits the significand. -/
theorem exact_ten_pow {k : ℕ} (h : 5 ^ k < 2 ^ 53) : Exact (ofRat false (10 ^ k)) false (10 ^ k) := by
  have hk : k ≤ 22 := by
    by_contra hk
    have : (5 : ℕ) ^ 23 ≤ 5 ^ k := Nat.pow_le_pow_right (by norm_num) (by omega)
    norm_num at this h
    omega
  have h10 : (10 : ℚ) ^ k = ((5 ^ k : ℕ) : ℚ) * 2 ^ (k : ℤ) := by
    push_cast
    rw [zpow_natCast, ← mul_pow]
    norm_num
  have h5 : (5 : ℕ) ^ k ≠ 0 := by positivity
  have hl := (full_width h5 h).1
  rw [h10, ofRat_scaled]
  exact exact_ofScaled false h5 h (by omega) (by omega)

/-! ### The nearest integer -/

theorem roundEven_eq_iff {s : ℚ} (hs : 0 ≤ s) {r : ℕ} :
    roundEven s = r ↔ 2 * |s - r| < 1 ∨ 2 * |s - r| = 1 ∧ r % 2 = 0 := by
  have hlo : ((⌊s⌋₊ : ℕ) : ℚ) ≤ s := Nat.floor_le hs
  have hhi : s < (⌊s⌋₊ : ℕ) + 1 := Nat.lt_floor_add_one s
  unfold roundEven
  generalize ⌊s⌋₊ = n at hlo hhi
  have hr : r = n ∨ r = n + 1 ∨ 1 < 2 * |s - r| := by
    rcases lt_trichotomy r n with h | h | h
    · right; right
      have : (r : ℚ) + 1 ≤ n := by exact_mod_cast h
      rw [abs_of_nonneg (by linarith)]
      linarith
    · exact .inl h
    · rcases Nat.lt_or_ge (n + 1) r with h' | h'
      · right; right
        have : (n : ℚ) + 1 + 1 ≤ r := by exact_mod_cast h'
        rw [abs_of_neg (by linarith)]
        linarith
      · exact .inr (.inl (by omega))
  have habs1 : |s - n| = s - n := abs_of_nonneg (by linarith)
  have habs2 : |s - ((n + 1 : ℕ) : ℚ)| = n + 1 - s := by
    push_cast
    rw [abs_of_neg (by linarith)]
    ring
  rcases lt_trichotomy (2 * (s - n)) 1 with h | h | h
  · rw [if_pos h]
    constructor
    · rintro rfl
      exact .inl (by rw [habs1]; exact h)
    · intro hor
      rcases hr with rfl | rfl | hr
      · rfl
      · rw [habs2] at hor
        rcases hor with hor | ⟨hor, -⟩ <;> exfalso <;> linarith
      · rcases hor with hor | ⟨hor, -⟩ <;> exfalso <;> linarith
  · rw [if_neg (by linarith), if_neg (by linarith)]
    constructor
    · rintro rfl
      refine .inr ⟨?_, by omega⟩
      rcases Nat.mod_two_eq_zero_or_one n with h2 | h2
      · rw [h2, add_zero, habs1, h]
      · rw [h2, habs2]
        linarith
    · intro hor
      rcases hr with rfl | rfl | hr
      · rw [habs1] at hor
        rcases hor with hor | ⟨-, h2⟩
        · linarith
        · omega
      · rw [habs2] at hor
        rcases hor with hor | ⟨-, h2⟩
        · linarith
        · omega
      · rcases hor with hor | ⟨hor, -⟩ <;> exfalso <;> linarith
  · rw [if_neg (by linarith), if_pos h]
    constructor
    · rintro rfl
      exact .inl (by rw [habs2]; linarith)
    · intro hor
      rcases hr with rfl | rfl | hr
      · rw [habs1] at hor
        rcases hor with hor | ⟨hor, -⟩ <;> exfalso <;> linarith
      · rfl
      · rcases hor with hor | ⟨hor, -⟩ <;> exfalso <;> linarith

theorem abs_roundEven_le {s : ℚ} (hs : 0 ≤ s) : 2 * |s - roundEven s| ≤ 1 := by
  rcases (roundEven_eq_iff hs).1 rfl with h | h
  · exact h.le
  · exact h.1.le

/-- What is no further from the rounded number is rounded to it too. -/
theorem roundEven_closer {s t : ℚ} (hs : 0 ≤ s) (ht : 0 ≤ t)
    (h : |t - roundEven s| ≤ |s - roundEven s|) : roundEven t = roundEven s := by
  rw [roundEven_eq_iff ht]
  rcases (roundEven_eq_iff hs).1 rfl with h' | ⟨h', h2⟩
  · exact .inl (by linarith)
  · rcases h.lt_or_eq with hlt | heq
    · exact .inl (by linarith)
    · exact .inr ⟨by rw [heq, h'], h2⟩

/-- No integer is nearer. -/
theorem roundEven_nearest {s : ℚ} (hs : 0 ≤ s) (k : ℕ) : |s - roundEven s| ≤ |s - k| := by
  by_cases hk : roundEven s = k
  · rw [hk]
  · have hle := abs_roundEven_le hs
    have hone : (1 : ℚ) ≤ |(roundEven s : ℚ) - k| := by
      have : (1 : ℤ) ≤ |(roundEven s : ℤ) - k| := Int.one_le_abs (by omega)
      exact_mod_cast this
    have htri : |(roundEven s : ℚ) - k| ≤ |s - roundEven s| + |s - k| := by
      have h := abs_sub_le (roundEven s : ℚ) s k
      rwa [abs_sub_comm (roundEven s : ℚ) s] at h
    linarith

theorem roundEven_mono_nat {s : ℚ} (hs : 0 ≤ s) {k : ℕ} :
    ((k : ℚ) ≤ s → k ≤ roundEven s) ∧ (s ≤ k → roundEven s ≤ k) := by
  have hle := abs_roundEven_le hs
  constructor
  · intro h
    by_contra hlt
    have : (roundEven s : ℚ) + 1 ≤ k := by exact_mod_cast not_le.1 hlt
    rw [abs_of_nonneg (by linarith)] at hle
    linarith
  · intro h
    by_contra hlt
    have : (k : ℚ) + 1 ≤ roundEven s := by exact_mod_cast not_le.1 hlt
    rw [abs_of_neg (by linarith)] at hle
    linarith

/-! ### Units in the last place -/

section Ulp

variable {q p : ℚ}

theorem log_bounds (hq : 0 < q) :
    (2 : ℚ) ^ Int.log 2 q ≤ q ∧ q < 2 ^ (Int.log 2 q + 1) := by
  have h1 := Int.zpow_log_le_self (b := 2) one_lt_two hq
  have h2 := Int.lt_zpow_succ_log_self (b := 2) one_lt_two q
  push_cast at h1 h2
  exact ⟨h1, h2⟩

theorem lt_ulp (hq : 0 < q) : q < 2 ^ (ratUlpExp q + 53) :=
  (log_bounds hq).2.trans_le
    (zpow_le_zpow_right₀ one_le_two (by unfold ratUlpExp; omega))

/-- A number with a full significand. -/
theorem ulp_le (hq : 0 < q) (h : -1074 < ratUlpExp q) : (2 : ℚ) ^ (ratUlpExp q + 52) ≤ q :=
  (zpow_le_zpow_right₀ one_le_two (by unfold ratUlpExp at *; omega)).trans (log_bounds hq).1

theorem neg_le_ratUlpExp (q : ℚ) : -1074 ≤ ratUlpExp q := le_max_right _ _

theorem two_zpow_pos (e : ℤ) : (0 : ℚ) < 2 ^ e := by positivity

/-- The number in units of the last place. -/
theorem units_lt (hq : 0 < q) : q / 2 ^ ratUlpExp q < ((2 ^ 53 : ℕ) : ℚ) := by
  rw [div_lt_iff₀ (two_zpow_pos _)]
  push_cast
  calc q < 2 ^ (ratUlpExp q + 53) := lt_ulp hq
    _ = 2 ^ 53 * 2 ^ ratUlpExp q := by
      rw [zpow_add₀ (by norm_num), mul_comm]
      norm_cast

theorem le_units (hq : 0 < q) (h : -1074 < ratUlpExp q) :
    ((2 ^ 52 : ℕ) : ℚ) ≤ q / 2 ^ ratUlpExp q := by
  rw [le_div_iff₀ (two_zpow_pos _)]
  push_cast
  calc (2 : ℚ) ^ 52 * 2 ^ ratUlpExp q = 2 ^ (ratUlpExp q + 52) := by
        rw [zpow_add₀ (by norm_num), mul_comm]
        norm_cast
    _ ≤ q := ulp_le hq h

theorem units_nonneg (hq : 0 < q) : 0 ≤ q / 2 ^ ratUlpExp q :=
  div_nonneg hq.le (two_zpow_pos _).le

/-- The magnitude of the double nearest to `q`, where it is finite. -/
def rounded (q : ℚ) : ℚ := roundEven (q / 2 ^ ratUlpExp q) * 2 ^ ratUlpExp q

theorem abs_rounded_le (hq : 0 < q) : 2 * |q - rounded q| ≤ 2 ^ ratUlpExp q := by
  have hu := two_zpow_pos (ratUlpExp q)
  have h := abs_roundEven_le (units_nonneg hq)
  have heq : q - rounded q
      = (q / 2 ^ ratUlpExp q - roundEven (q / 2 ^ ratUlpExp q)) * 2 ^ ratUlpExp q := by
    unfold rounded
    field_simp
  rw [heq, abs_mul, abs_of_pos hu, ← mul_assoc]
  nlinarith

theorem ratMagnitude_of_pos (hq : 0 < q) : ratMagnitude q =
    min ((ratUlpExp q + 1074).toNat * 2 ^ 52 + roundEven (q / 2 ^ ratUlpExp q)) (2047 * 2 ^ 52) :=
  if_neg hq.ne'

/-- Where the units are the same, what is no further from the rounded number has the same double. -/
theorem ratMagnitude_closer (hq : 0 < q) (hp : 0 < p) (hu : ratUlpExp p = ratUlpExp q)
    (h : |p - rounded q| ≤ |q - rounded q|) : ratMagnitude p = ratMagnitude q := by
  have hpos := two_zpow_pos (ratUlpExp q)
  have hscale : ∀ t : ℚ, |t / 2 ^ ratUlpExp q - roundEven (q / 2 ^ ratUlpExp q)|
      = |t - rounded q| / 2 ^ ratUlpExp q := by
    intro t
    rw [← abs_of_pos hpos, ← abs_div, abs_of_pos hpos]
    congr 1
    unfold rounded
    field_simp
  have hround : roundEven (p / 2 ^ ratUlpExp q) = roundEven (q / 2 ^ ratUlpExp q) := by
    refine roundEven_closer (units_nonneg hq) (div_nonneg hp.le hpos.le) ?_
    rw [hscale, hscale]
    gcongr
  rw [ratMagnitude_of_pos hp, ratMagnitude_of_pos hq, hu, hround]

/-- Numbers that are near for their units, but not relatively near, have the same units. -/
theorem ratUlpExp_eq_of_gap (hq : 0 < q) (hp : 0 < p) (hnear : |p - q| ≤ 2 ^ ratUlpExp q)
    {c : ℚ} (hc : c < 2 ^ 51) (hgap : min p q ≤ c * |p - q|) : ratUlpExp p = ratUlpExp q := by
  by_contra hne
  set u := ratUlpExp q with hu
  have hpos := two_zpow_pos u
  have hpq : p ≤ q + 2 ^ u ∧ q ≤ p + 2 ^ u := by
    rw [abs_le] at hnear
    constructor <;> linarith [hnear.1, hnear.2]
  have hpow : ∀ k : ℕ, (2 : ℚ) ^ (u + k) = 2 ^ k * 2 ^ u := by
    intro k
    rw [zpow_add₀ (by norm_num), zpow_natCast, mul_comm]
  have hq52 : (2 : ℚ) ^ 52 * 2 ^ u ≤ q := by
    rw [← hpow]
    rcases (neg_le_ratUlpExp q).lt_or_eq with hlt | heq
    · exact ulp_le hq hlt
    · have hu' : u = -1074 := by rw [hu, ← heq]
      have hp1 : -1074 < ratUlpExp p := by
        have := neg_le_ratUlpExp p
        omega
      have hple : (2 : ℚ) ^ (u + (53 : ℕ)) ≤ p :=
        (zpow_le_zpow_right₀ one_le_two (by push_cast; omega)).trans (ulp_le hp hp1)
      rw [hpow] at hple ⊢
      nlinarith [hpq.1]
  have hmin : (2 : ℚ) ^ 51 * 2 ^ u ≤ min p q := by
    refine le_min ?_ (by nlinarith)
    nlinarith [hpq.2]
  have habs : 0 ≤ |p - q| := abs_nonneg _
  have hcu : c * |p - q| < 2 ^ 51 * 2 ^ u := by
    rcases habs.lt_or_eq with h0 | h0
    · calc c * |p - q| < 2 ^ 51 * |p - q| := by gcongr
        _ ≤ 2 ^ 51 * 2 ^ u := by gcongr
    · rw [← h0, mul_zero]
      positivity
  linarith

end Ulp

/-! ### Finite results -/

/-- The fields of a pattern with the exponent `k` and the significand `r`, which may carry. -/
theorem decode_pattern {d : Double} {neg : Bool} {k r : ℕ}
    (hd : d.toNat = neg.toNat * 2 ^ 63 + (k * 2 ^ 52 + r)) (hmsb : d.msb = neg) (hr : r ≤ 2 ^ 53)
    (hk : 0 < k → 2 ^ 52 ≤ r) (hfin : k * 2 ^ 52 + r < 2047 * 2 ^ 52) :
    Exact d neg (r * 2 ^ ((k : ℤ) - 1074)) := by
  have hb : neg.toNat ≤ 1 := Bool.toNat_le neg
  have hshift : ∀ (m : ℕ) (e : ℤ), (m : ℚ) * 2 * 2 ^ e = m * 2 ^ (e + 1) := by
    intro m e
    rw [zpow_add₀ (by norm_num), zpow_one]
    ring
  rcases Nat.lt_or_ge r (2 ^ 52) with h1 | h1
  · obtain rfl : k = 0 := by omega
    have hexp : expField d = 0 := by rw [expField, hd]; omega
    have hfrac : fracField d = r := by rw [fracField, hd]; omega
    exact ⟨r, -1074, by rw [decode, hexp, hfrac, hmsb]; rfl, by norm_num⟩
  rcases hr.lt_or_eq with h2 | rfl
  · have hexp : expField d = k + 1 := by rw [expField, hd]; omega
    have hfrac : fracField d = r - 2 ^ 52 := by rw [fracField, hd]; omega
    have hsig : 2 ^ 52 + (r - 2 ^ 52) = r := by omega
    have hpos : ((k + 1 : ℕ) : ℤ) - 1075 = k - 1074 := by
      push_cast
      ring
    refine ⟨r, (k : ℤ) - 1074, ?_, rfl⟩
    rw [decode, hexp, hfrac, hmsb, if_neg (by omega), if_neg (by omega), hsig, hpos]
  · have hexp : expField d = k + 2 := by rw [expField, hd]; omega
    have hfrac : fracField d = 0 := by rw [fracField, hd]; omega
    have hpos : ((k + 2 : ℕ) : ℤ) - 1075 = k - 1074 + 1 := by
      push_cast
      ring
    refine ⟨2 ^ 52 + 0, (k : ℤ) - 1074 + 1, ?_, ?_⟩
    · rw [decode, hexp, hfrac, hmsb, if_neg (by omega), if_neg (by omega), hpos]
    · rw [← hshift]
      norm_num

/-- A rounded number that is in range is held as it is. -/
theorem exact_ofRat {q : ℚ} (neg : Bool) (hq : 0 < q) (hfin : ratMagnitude q < 2047 * 2 ^ 52) :
    Exact (ofRat neg q) neg (rounded q) := by
  obtain ⟨k, hk⟩ : ∃ k : ℕ, ratUlpExp q = (k : ℤ) - 1074 :=
    ⟨(ratUlpExp q + 1074).toNat, by have := neg_le_ratUlpExp q; omega⟩
  have hnonneg := units_nonneg hq
  have hr : roundEven (q / 2 ^ ratUlpExp q) ≤ 2 ^ 53 :=
    (roundEven_mono_nat hnonneg).2 (units_lt hq).le
  have hmag := ratMagnitude_of_pos hq
  have hnat := toNat_ofRat neg q
  have hk' : (ratUlpExp q + 1074).toNat = k := by omega
  rw [hk'] at hmag
  have hmag' : ratMagnitude q = k * 2 ^ 52 + roundEven (q / 2 ^ ratUlpExp q) := by
    rw [hmag] at hfin ⊢
    exact min_eq_left (by omega)
  rw [hmag'] at hfin hnat
  have h52 : 0 < k → 2 ^ 52 ≤ roundEven (q / 2 ^ ratUlpExp q) := fun h0 =>
    (roundEven_mono_nat hnonneg).1 (le_units hq (by omega))
  have hexact := decode_pattern hnat (msb_ofRat neg q) hr h52 hfin
  rwa [← hk] at hexact

theorem rounded_nonneg (q : ℚ) : 0 ≤ rounded q := by
  unfold rounded
  positivity

/-- Out of range is the infinity. -/
theorem decode_ofRat_inf {q : ℚ} (neg : Bool) (h : ¬ ratMagnitude q < 2047 * 2 ^ 52) :
    decode (ofRat neg q) = .inf neg := by
  have hle : ratMagnitude q ≤ 2047 * 2 ^ 52 := by
    unfold ratMagnitude
    split_ifs
    · norm_num
    · exact min_le_right _ _
  have hnat := toNat_ofRat neg q
  have hb : neg.toNat ≤ 1 := Bool.toNat_le neg
  have hexp : expField (ofRat neg q) = 2047 := by rw [expField, hnat]; omega
  have hfrac : fracField (ofRat neg q) = 0 := by rw [fracField, hnat]; omega
  rw [decode, hexp, hfrac, msb_ofRat]
  rfl

end Double

end Qjs
