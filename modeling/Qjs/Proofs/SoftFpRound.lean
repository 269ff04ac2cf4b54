import Qjs.SoftFpOps

/-!
# Rounding and packing

The significand handed to `round_pack_sf` has its leading bit in place and lies like the exact one;
the result is the exact number rounded once.
-/

namespace Qjs

namespace SoftFp

variable {K : Type*} [Field K] [LinearOrder K] [IsStrictOrderedRing K] [FloorSemiring K]

/-! ### The last bits -/

theorem roundMant_eq (f : Format) (neg : Bool) {rnd M : ℕ} (rm : RoundingMode) (hrnd : 1 ≤ rnd)
    (hM : M + 2 ^ rnd ≤ 2 ^ fSize f) :
    roundMant f rnd neg.toNat M rm = (rm.rule neg).round ((M : K) / 2 ^ rnd) := by
  obtain ⟨n, rfl⟩ : ∃ n, rnd = n + 1 := ⟨rnd - 1, by omega⟩
  rw [Rule.round_div_two_pow]
  have hA : 0 < 2 ^ n := by positivity
  unfold roundMant addendOf
  simp only [Nat.add_sub_cancel]
  rw [pow_succ] at *
  generalize 2 ^ n = A at *
  have hdm := Nat.div_add_mod M (A * 2)
  have ht : M % (A * 2) < A * 2 := Nat.mod_lt _ (by omega)
  generalize M / (A * 2) = q at *
  generalize M % (A * 2) = t at *
  -- what is added carries into the bits that are kept or not
  have hcarry (c : ℕ) (hc : c < A * 2) :
      (M + c) % 2 ^ fSize f / (A * 2) = q + if A * 2 ≤ t + c then 1 else 0 := by
    rw [Nat.mod_eq_of_lt (by omega), ← hdm, Nat.add_assoc, Nat.add_comm (_ * q),
      Nat.add_mul_div_left _ _ (by omega)]
    split_ifs with h
    · have h1 : (t + c) / (A * 2) = 1 := Nat.div_eq_of_lt_le (by omega) (by omega)
      rw [h1, Nat.add_comm]
    · rw [Nat.div_eq_of_lt (by omega), Nat.add_comm]
  have htruncate : M % 2 ^ fSize f / (A * 2) = q := by
    have h0 := hcarry 0 (by omega)
    rwa [if_neg (by omega), Nat.add_zero, Nat.add_zero] at h0
  have haway : (M + (A * 2 - 1)) % 2 ^ fSize f / (A * 2) = q + if t = 0 then 0 else 1 := by
    rw [hcarry _ (by omega)]
    split_ifs <;> omega
  cases rm with
  | rne =>
    simp only [RoundingMode.rule, Rule.nearestEven, hcarry A (by omega), true_and]
    rcases lt_trichotomy (2 * t) (A * 2) with h | h | h
    · rw [(cmp_eq_lt_iff _ _).2 h, if_neg (by omega), if_neg (by omega)]
      simp
    · rw [(cmp_eq_eq_iff _ _).2 h, if_pos (by omega), if_pos (by omega), if_neg (by omega)]
      rcases Nat.mod_two_eq_zero_or_one q with h2 | h2 <;> simp [h2] <;> omega
    · rw [(cmp_eq_gt_iff _ _).2 h, if_neg (by omega), if_pos (by omega), if_neg (by omega)]
      rfl
  | rmm =>
    simp only [RoundingMode.rule, Rule.nearestAway, hcarry A (by omega), reduceCtorEq, false_and,
      if_false]
    rcases lt_trichotomy (2 * t) (A * 2) with h | h | h
    · rw [(cmp_eq_lt_iff _ _).2 h, if_neg (by omega)]
      simp
    · rw [(cmp_eq_eq_iff _ _).2 h, if_pos (by omega), if_neg (by omega)]
      rfl
    · rw [(cmp_eq_gt_iff _ _).2 h, if_pos (by omega), if_neg (by omega)]
      rfl
  | rtz => simp [RoundingMode.rule, Rule.truncate, htruncate]
  | rdn =>
    cases neg
    · simp [RoundingMode.rule, Rule.truncate, htruncate]
    · simp [RoundingMode.rule, Rule.away, haway]
  | rup =>
    cases neg
    · simp [RoundingMode.rule, Rule.away, haway]
    · simp [RoundingMode.rule, Rule.truncate, htruncate]

/-- A right shift with a sticky bit lies like the quotient. -/
theorem alike_rshiftRnd (f : Format) {a : ℕ} (ha : a < 2 ^ fSize f) (d : ℕ) :
    Alike 1 ((a : K) / 2 ^ d) (rshiftRnd f a d) := by
  have hsticky := @alike_div K _ _ _ _ a (2 ^ d) (by positivity)
  rw [Nat.cast_pow, Nat.cast_ofNat] at hsticky
  unfold rshiftRnd
  by_cases h0 : d = 0
  · rw [if_pos h0, h0, pow_zero, div_one]
    exact .refl 1 _
  rw [if_neg h0]
  by_cases hsize : fSize f ≤ d
  · -- everything is cut off
    have hlt : a < 2 ^ d := ha.trans_le (Nat.pow_le_pow_right two_pos hsize)
    rw [Nat.div_eq_of_lt hlt, Nat.mod_eq_of_lt hlt, Nat.zero_or] at hsticky
    simpa only [hsize, if_true, ne_eq, ite_not] using hsticky
  · simpa only [hsize, if_false, ne_eq, ite_not] using hsticky

/-! ### Packing -/

theorem addendOf_eq_zero_iff {rnd : ℕ} (hrnd : 1 ≤ rnd) (neg : Bool) (rm : RoundingMode) :
    addendOf rnd neg.toNat rm = 0 ↔ rm.rule neg true .gt = false := by
  have h2 : 2 ^ 1 ≤ 2 ^ rnd := Nat.pow_le_pow_right two_pos hrnd
  cases rm <;> cases neg <;>
    simp [addendOf, RoundingMode.rule, Rule.nearestEven, Rule.nearestAway, Rule.truncate,
      Rule.away] <;> omega

theorem packSf_eq (f : Format) (neg : Bool) (e m : ℕ) :
    packSf f neg.toNat e m = f.pattern neg (e * 2 ^ f.mantSize + m % 2 ^ f.mantSize) := by
  rw [packSf, Format.pattern, Format.signBit, fSize, Nat.add_sub_cancel, Nat.add_assoc]

/-- The end of `round_pack_sf`. -/
theorem pack_eq (f : Format) (hexp : 2 ≤ f.expSize) {rnd : ℕ} (hrnd : 1 ≤ rnd) (neg : Bool)
    (rm : RoundingMode) {e R : ℕ} (he : 1 ≤ e) (hlo : e = 1 ∨ 2 ^ f.mantSize ≤ R)
    (hhi : R ≤ 2 ^ (f.mantSize + 1)) :
    (if R ≤ 2 ^ f.mantSize - 1 then packSf f neg.toNat 0 R
      else if (f.expMask : ℤ) ≤ (e : ℤ) + (R / 2 ^ (f.mantSize + 1) : ℕ) then
        if addendOf rnd neg.toNat rm = 0 then
          packSf f neg.toNat (f.expMask - 1) (2 ^ f.mantSize - 1)
        else packSf f neg.toNat f.expMask 0
      else packSf f neg.toNat ((e : ℤ) + (R / 2 ^ (f.mantSize + 1) : ℕ)).toNat R)
      = f.pattern neg
          (if f.infinity ≤ (e - 1) * 2 ^ f.mantSize + R then
            f.infinity - (if rm.rule neg true .gt then 0 else 1)
          else (e - 1) * 2 ^ f.mantSize + R) := by
  have hmask : 3 ≤ f.expMask := by
    have : 2 ^ 2 ≤ 2 ^ f.expSize := Nat.pow_le_pow_right two_pos hexp
    unfold Format.expMask
    omega
  have hA : 0 < 2 ^ f.mantSize := by positivity
  rw [pow_succ] at hhi
  simp only [packSf_eq, Format.infinity, addendOf_eq_zero_iff hrnd, pow_succ,
    ← apply_ite (f.pattern neg)]
  congr 1
  obtain ⟨A, hA'⟩ : ∃ A, 2 ^ f.mantSize = A := ⟨_, rfl⟩
  obtain ⟨E, hE'⟩ : ∃ E, f.expMask = E := ⟨_, rfl⟩
  simp only [hA', hE'] at *
  obtain ⟨c, rfl⟩ : ∃ c, e = c + 1 := ⟨e - 1, by omega⟩
  obtain ⟨F, rfl⟩ : ∃ F, E = F + 1 := ⟨E - 1, by omega⟩
  simp only [Nat.add_sub_cancel, Nat.mod_eq_of_lt (show A - 1 < A by omega), Nat.zero_mod,
    Nat.zero_mul, Nat.zero_add, Nat.add_zero, Nat.add_mul, Nat.one_mul]
  have hoverflow : (if rm.rule neg true .gt = false then F * A + (A - 1) else F * A + A)
      = F * A + A - if rm.rule neg true .gt = true then 0 else 1 := by
    cases rm.rule neg true .gt <;> simp
    omega
  rcases Nat.lt_or_ge R A with hsub | hnormal
  · -- a subnormal result
    obtain rfl : c = 0 := by omega
    rw [if_pos (by omega), Nat.mod_eq_of_lt hsub, if_neg (by nlinarith)]
    simp
  rw [if_neg (by omega), hoverflow]
  rcases hhi.lt_or_eq with hlt | rfl
  · -- the leading bit is in place
    have hmod : R % A = R - A := by rw [Nat.mod_eq_sub_mod hnormal, Nat.mod_eq_of_lt (by omega)]
    rw [Nat.div_eq_of_lt hlt, hmod]
    have hiff : ((F + 1 : ℕ) : ℤ) ≤ ((c + 1 : ℕ) : ℤ) + (0 : ℕ) ↔ F * A + A ≤ c * A + R := by
      constructor
      · intro h
        have hFc : F * A ≤ c * A := Nat.mul_le_mul_right A (by omega)
        omega
      · intro h
        have hcF : F * A < (c + 1) * A := by rw [Nat.add_mul]; omega
        have := Nat.lt_of_mul_lt_mul_right hcF
        omega
    simp only [hiff]
    by_cases h : F * A + A ≤ c * A + R
    · rw [if_pos h, if_pos h]
    · rw [if_neg h, if_neg h, show (((c + 1 : ℕ) : ℤ) + (0 : ℕ)).toNat = c + 1 by omega,
        Nat.add_mul]
      omega
  · -- a carry into the exponent
    rw [Nat.mul_mod_right, Nat.div_self (by omega)]
    have hiff : ((F + 1 : ℕ) : ℤ) ≤ ((c + 1 : ℕ) : ℤ) + (1 : ℕ)
        ↔ F * A + A ≤ c * A + A * 2 := by
      rw [show F * A + A = (F + 1) * A by ring, show c * A + A * 2 = (c + 2) * A by ring,
        Nat.mul_le_mul_right_iff (by omega)]
      omega
    simp only [hiff]
    by_cases h : F * A + A ≤ c * A + A * 2
    · rw [if_pos h, if_pos h]
    · rw [if_neg h, if_neg h, show (((c + 1 : ℕ) : ℤ) + (1 : ℕ)).toNat = c + 2 by omega,
        Nat.add_mul]
      omega

section RoundPack

variable {f : Format}

omit [IsStrictOrderedRing K] in
/-- Rounding the exact number at its last place, or at the least one. -/
theorem ofValue_eq (rule : Bool → Rule) (neg : Bool) {v : K} (hv : 0 < v) {c : ℕ}
    (hc : f.ulpExp v = c + f.minExp) :
    f.ofValue rule neg v = f.pattern neg
      (if f.infinity ≤ c * 2 ^ f.mantSize + (rule neg).round (v / 2 ^ (c + f.minExp)) then
        f.infinity - (if rule neg true .gt then 0 else 1)
      else c * 2 ^ f.mantSize + (rule neg).round (v / 2 ^ (c + f.minExp))) := by
  rw [Format.ofValue, Format.magnitude, if_neg hv.ne', hc]
  simp only [add_sub_cancel_right, Int.toNat_natCast]

/-- `round_pack_sf` rounds what its significand stands for once. -/
theorem roundPackSf_eq (hexp : 3 ≤ f.expSize) (neg : Bool) (exp : ℤ) {M : ℕ} (rm : RoundingMode)
    {x : K} {t : ℤ} (hx : Alike t x M) (ht : t + 2 ≤ f.expSize)
    (hlo : 2 ^ (f.mantSize + (f.expSize - 1)) ≤ M)
    (hhi : M < 2 ^ (f.mantSize + (f.expSize - 1) + 1)) :
    roundPackSf f neg.toNat exp M rm
      = f.ofValue rm.rule neg (x * 2 ^ (exp + f.minExp - f.expSize)) := by
  obtain ⟨r, hr⟩ : ∃ r, f.expSize = r + 1 := ⟨f.expSize - 1, by omega⟩
  have hrnd : rndSizeSf f = r := by unfold rndSizeSf fSize; omega
  have hsize : fSize f = f.mantSize + r + 2 := by unfold fSize; omega
  rw [hr, Nat.add_sub_cancel] at hlo hhi
  have hxlo : (2 : K) ^ ((f.mantSize + r : ℕ) : ℤ) ≤ x := by
    have h := (hx.mono (s := (f.mantSize + r : ℕ)) (by omega)).le_iff 1
    rw [Int.cast_one, one_mul] at h
    rw [h]
    exact_mod_cast hlo
  have hxhi : x < (2 : K) ^ ((f.mantSize + r + 1 : ℕ) : ℤ) := by
    have h := (hx.mono (s := (f.mantSize + r + 1 : ℕ)) (by omega)).lt_iff 1
    rw [Int.cast_one, one_mul] at h
    rw [h]
    exact_mod_cast hhi
  have hx0 : 0 < x := (zpow_pos two_pos _).trans_le hxlo
  have hv0 : 0 < x * 2 ^ (exp + f.minExp - f.expSize) := mul_pos hx0 (zpow_pos two_pos _)
  have hroom : 2 ^ r ≤ 2 ^ (f.mantSize + r + 1) := Nat.pow_le_pow_right two_pos (by omega)
  have hpow : 2 ^ (f.mantSize + r + 2) = 2 * 2 ^ (f.mantSize + r + 1) := by rw [pow_succ']
  unfold roundPackSf
  rw [hrnd]
  by_cases hexp0 : exp ≤ 0
  · -- the last place is the least one
    obtain ⟨d, hd⟩ : ∃ d : ℕ, 1 - exp = d := ⟨(1 - exp).toNat, by omega⟩
    obtain rfl : exp = 1 - d := by omega
    have hd1 : 1 ≤ d := by omega
    have hxd : x / 2 ^ d ≤ 2 ^ (f.mantSize + r) := by
      rw [div_le_iff₀ (by positivity)]
      have h1 : x < (2 : K) ^ (f.mantSize + r + 1) := by exact_mod_cast hxhi
      rw [pow_succ] at h1
      have h2 : (2 : K) ≤ 2 ^ d := by
        calc (2 : K) = 2 ^ 1 := (pow_one 2).symm
          _ ≤ 2 ^ d := pow_le_pow_right₀ one_le_two hd1
      exact h1.le.trans (mul_le_mul_of_nonneg_left h2 (by positivity))
    have hM : M < 2 ^ fSize f := by
      rw [hsize]
      omega
    -- the sticky bit adds to what the significand does not say
    have halike : Alike (r - 1) (x / 2 ^ d) (rshiftRnd f M d : K) :=
      ((hx.div_two_pow d).mono (by omega)).trans ((alike_rshiftRnd f hM d).mono (by omega))
    have hM' : rshiftRnd f M d < 2 ^ (f.mantSize + r + 1) := by
      have h := (halike.mono (s := (f.mantSize + r + 1 : ℕ)) (by omega)).lt_iff 1
      have hlt : x / 2 ^ d < (2 : K) ^ (f.mantSize + r + 1) :=
        hxd.trans_lt (pow_lt_pow_right₀ one_lt_two (by omega))
      rw [Int.cast_one, one_mul, zpow_natCast] at h
      exact_mod_cast h.1 hlt
    have hround : roundMant f r neg.toNat (rshiftRnd f M d) rm
        = (rm.rule neg).round (x / 2 ^ d / 2 ^ r) := by
      rw [@roundMant_eq K _ _ _ _ f neg r _ rm (by omega) (by rw [hsize]; omega)]
      exact (halike.round_div_eq (by omega) (by positivity) (by positivity) _).symm
    have hulp : f.ulpExp (x * 2 ^ (1 - (d : ℤ) + f.minExp - f.expSize))
        = (0 : ℕ) + f.minExp := by
      rw [Format.ulpExp_eq_minExp hv0, Nat.cast_zero, zero_add]
      have h := mul_lt_mul_of_pos_right hxhi
        (zpow_pos (two_pos (α := K)) (1 - (d : ℤ) + f.minExp - f.expSize))
      rw [← zpow_add₀ two_ne_zero] at h
      exact h.trans_le (zpow_le_zpow_right₀ one_le_two (by rw [hr]; push_cast; omega))
    have hdiv : x * 2 ^ (1 - (d : ℤ) + f.minExp - f.expSize) / 2 ^ ((0 : ℕ) + f.minExp)
        = x / 2 ^ d / 2 ^ r := by
      rw [mul_div_assoc, ← zpow_sub₀ two_ne_zero, div_div, ← pow_add, div_eq_mul_inv,
        ← zpow_natCast, ← zpow_neg, hr]
      congr 2
      push_cast
      ring
    rw [ofValue_eq rm.rule neg hv0 hulp, hdiv, ← hround]
    simp only [if_pos hexp0, sub_sub_cancel, Int.toNat_natCast]
    refine pack_eq f (by omega) (by omega) neg rm le_rfl (.inl rfl) ?_
    rw [hround]
    apply Rule.round_le_natCast _ (by positivity)
    rw [div_le_iff₀ (by positivity)]
    refine hxd.trans ?_
    rw [pow_add]
    push_cast
    exact mul_le_mul_of_nonneg_right (pow_le_pow_right₀ one_le_two (by omega)) (by positivity)
  · obtain ⟨c, rfl⟩ : ∃ c : ℕ, exp = (c + 1 : ℕ) := ⟨(exp - 1).toNat, by omega⟩
    have hround : roundMant f r neg.toNat M rm = (rm.rule neg).round (x / 2 ^ r) := by
      rw [@roundMant_eq K _ _ _ _ f neg r M rm (by omega) (by rw [hsize]; omega)]
      exact (hx.round_div_eq (by omega) hx0.le (by positivity) _).symm
    have hulp : f.ulpExp (x * 2 ^ (((c + 1 : ℕ) : ℤ) + f.minExp - f.expSize)) = c + f.minExp := by
      have hl : (f.mantSize + r : ℕ) + (((c + 1 : ℕ) : ℤ) + f.minExp - f.expSize)
          = f.mantSize + (c + f.minExp) := by
        rw [hr]
        push_cast
        ring
      have hl' : (f.mantSize + r + 1 : ℕ) + (((c + 1 : ℕ) : ℤ) + f.minExp - f.expSize)
          = f.mantSize + (c + f.minExp) + 1 := by
        rw [← hl]
        push_cast
        ring
      have h1 := mul_le_mul_of_nonneg_right hxlo
        (zpow_pos (two_pos (α := K)) (((c + 1 : ℕ) : ℤ) + f.minExp - f.expSize)).le
      have h2 := mul_lt_mul_of_pos_right hxhi
        (zpow_pos (two_pos (α := K)) (((c + 1 : ℕ) : ℤ) + f.minExp - f.expSize))
      rw [← zpow_add₀ two_ne_zero, hl] at h1
      rw [← zpow_add₀ two_ne_zero, hl'] at h2
      rw [Format.ulpExp_eq h1 h2]
      omega
    have hdiv : x * 2 ^ (((c + 1 : ℕ) : ℤ) + f.minExp - f.expSize) / 2 ^ (c + f.minExp)
        = x / 2 ^ r := by
      rw [mul_div_assoc, ← zpow_sub₀ two_ne_zero, div_eq_mul_inv, ← zpow_natCast, ← zpow_neg, hr]
      congr 2
      push_cast
      ring
    rw [ofValue_eq rm.rule neg hv0 hulp, hdiv, ← hround]
    simp only [if_neg hexp0]
    refine pack_eq f (by omega) (by omega) neg rm (by omega) (.inr ?_) ?_
    · rw [hround]
      apply Rule.natCast_le_round
      rw [le_div_iff₀ (by positivity)]
      have h : (2 : K) ^ (f.mantSize + r) ≤ x := by exact_mod_cast hxlo
      rw [pow_add] at h
      exact_mod_cast h
    · rw [hround]
      apply Rule.round_le_natCast _ (by positivity)
      rw [div_le_iff₀ (by positivity)]
      have h : x < (2 : K) ^ (f.mantSize + 1 + r) := by
        rw [Nat.add_right_comm]
        exact_mod_cast hxhi
      rw [pow_add] at h
      exact_mod_cast h.le

/-- Zero is packed as such, whatever its exponent. -/
theorem roundPackSf_zero (hexp : 2 ≤ f.expSize) (neg : Bool) (exp : ℤ) (rm : RoundingMode) :
    roundPackSf f neg.toNat exp 0 rm = f.pattern neg 0 := by
  have hrnd : 1 ≤ rndSizeSf f := by unfold rndSizeSf fSize; omega
  have hshift (d : ℕ) : rshiftRnd f 0 d = 0 := by
    unfold rshiftRnd
    split_ifs <;> simp_all
  have hround : roundMant f (rndSizeSf f) neg.toNat 0 rm = 0 := by
    have hroom : 2 ^ rndSizeSf f ≤ 2 ^ fSize f :=
      Nat.pow_le_pow_right two_pos (by unfold rndSizeSf; omega)
    rw [@roundMant_eq ℚ _ _ _ _ f neg _ 0 rm hrnd (by omega), Nat.cast_zero, zero_div,
      Rule.round_zero]
  simp only [roundPackSf, hshift, ite_self, hround]
  rw [if_pos (Nat.zero_le _), packSf_eq, Nat.zero_mul, Nat.zero_mod]

theorem normalizeSf_zero (hexp : 2 ≤ f.expSize) (neg : Bool) (exp : ℤ) (rm : RoundingMode) :
    normalizeSf f neg.toNat exp 0 rm = f.pattern neg 0 := by
  rw [normalizeSf, Nat.zero_mul, Nat.zero_mod]
  exact roundPackSf_zero hexp neg _ rm

/-- `normalize_sf` rounds what its significand stands for once. -/
theorem normalizeSf_eq (hexp : 3 ≤ f.expSize) (neg : Bool) (exp : ℤ) {M : ℕ} (rm : RoundingMode)
    {x : K} {t : ℤ} (hx : Alike t x M) (ht : 2 ^ (t + f.mantSize + 1) ≤ (M : K)) (hM : 0 < M)
    (hM' : M < 2 ^ (f.expSize + f.mantSize)) :
    normalizeSf f neg.toNat exp M rm
      = f.ofValue rm.rule neg (x * 2 ^ (exp + f.minExp - f.expSize)) := by
  obtain ⟨l, hl⟩ : ∃ l, Nat.log2 M = l := ⟨_, rfl⟩
  have hlo : 2 ^ l ≤ M := hl ▸ Nat.log2_self_le hM.ne'
  have hhi : M < 2 ^ (l + 1) := hl ▸ Nat.lt_log2_self
  have hle : l + 1 ≤ f.expSize + f.mantSize := by
    have := Nat.pow_lt_pow_iff_right (one_lt_two) |>.1 (hlo.trans_lt hM')
    omega
  have htl : t + f.mantSize + 1 < l + 1 := by
    have h : (2 : K) ^ (t + f.mantSize + 1) < 2 ^ ((l + 1 : ℕ) : ℤ) := by
      refine ht.trans_lt ?_
      exact_mod_cast hhi
    rw [zpow_lt_zpow_iff_right₀ one_lt_two] at h
    exact_mod_cast h
  obtain ⟨s, hs⟩ : ∃ s, l + 1 + s = f.expSize + f.mantSize := ⟨_, Nat.add_sub_of_le hle⟩
  have hshift : clz (fSize f) M - 1 = s := by
    rw [clz, if_neg hM.ne', hl, fSize, ← hs]
    push_cast
    ring
  have hsize : fSize f = l + 1 + s + 1 := by rw [fSize, hs]
  have hmod : M * 2 ^ s % 2 ^ fSize f = M * 2 ^ s := by
    apply Nat.mod_eq_of_lt
    rw [hsize, show l + 1 + s + 1 = l + 1 + 1 + s by omega, pow_add]
    refine Nat.mul_lt_mul_of_pos_right (hhi.trans ?_) (by positivity)
    exact Nat.pow_lt_pow_right one_lt_two (by omega)
  have hscaled : Alike (t + s) (x * 2 ^ s) ((M * 2 ^ s : ℕ) : K) := by
    have h := hx.mul_two_zpow s
    rw [zpow_natCast] at h
    exact_mod_cast h
  rw [normalizeSf, hshift, Int.toNat_natCast, hmod]
  rw [roundPackSf_eq hexp neg (exp - s) rm hscaled (by omega)]
  · congr 1
    rw [mul_assoc, ← zpow_natCast, ← zpow_add₀ two_ne_zero]
    congr 2
    ring
  · rw [show f.mantSize + (f.expSize - 1) = l + s by omega, pow_add]
    exact Nat.mul_le_mul_right _ hlo
  · rw [show f.mantSize + (f.expSize - 1) + 1 = l + 1 + s by omega, pow_add]
    exact Nat.mul_lt_mul_of_pos_right hhi (by positivity)

/-- The significand is exact. -/
theorem normalizeSf_natCast (hexp : 3 ≤ f.expSize) (neg : Bool) (exp : ℤ) {M : ℕ}
    (rm : RoundingMode) (hM' : M < 2 ^ (f.expSize + f.mantSize)) :
    normalizeSf f neg.toNat exp M rm
      = f.ofValue rm.rule neg ((M : K) * 2 ^ (exp + f.minExp - f.expSize)) := by
  rcases M.eq_zero_or_pos with rfl | hM
  · rw [normalizeSf_zero (by omega), Nat.cast_zero, zero_mul, Format.ofValue,
      Format.magnitude_zero]
  · refine normalizeSf_eq hexp neg exp rm (.refl (-f.mantSize - 1) _) ?_ hM hM'
    rw [show -(f.mantSize : ℤ) - 1 + f.mantSize + 1 = 0 by ring, zpow_zero]
    exact_mod_cast hM

end RoundPack

end SoftFp

end Qjs
