import Qjs.Lib.RatRound

/-!
# Integers among the doubles

A number other than zero has one pattern (`value?_injective`). The integer part of a double is held
exactly by a double (`value?_ofInt_trunc`). The quotient of two integers of 32 bits, rounded to a
double, has the integer part of the quotient (`trunc_div_ofInt`).
-/

namespace Qjs

namespace Double

/-! ### A number has one pattern -/

theorem toNat_fields (d : Double) :
    d.toNat = d.msb.toNat * 2 ^ 63 + (d.expField * 2 ^ 52 + d.fracField) := by
  have hlt := d.isLt
  rw [expField, fracField, BitVec.msb_eq_decide]
  by_cases h : 2 ^ (64 - 1) ≤ d.toNat
  · rw [decide_eq_true h, Bool.toNat_true]
    omega
  · rw [decide_eq_false h, Bool.toNat_false]
    omega

/-- A finite pattern is the one its number is rounded to. -/
theorem ofScaled_decode {d : Double} {n : Bool} {m : ℕ} {e : ℤ} (h : decode d = .fin n m e) :
    ofScaled n m e = d := by
  have hfrac : fracField d < 2 ^ 52 := Nat.mod_lt _ (by norm_num)
  have key : magnitude m e = d.expField * 2 ^ 52 + d.fracField → d.msb = n → ofScaled n m e = d := by
    intro hmag hn
    apply BitVec.eq_of_toNat_eq
    rw [toNat_ofScaled, toNat_fields, hmag, hn]
  unfold decode at h
  split_ifs at h with hmax hinf hsub
  · obtain ⟨hn, rfl, rfl⟩ := Class.fin.inj h
    refine key ?_ hn
    unfold magnitude
    split_ifs with h0
    · omega
    · have hulp : ulpExp d.fracField (-1074) = -1074 := by
        have hlog := (Nat.log2_lt h0).2 (show d.fracField < 2 ^ 53 by omega)
        unfold ulpExp
        omega
      rw [hulp, hsub, neg_add_cancel, sub_self, Int.toNat_zero, shiftRightEven_zero, pow_zero,
        mul_one]
      exact min_eq_left (by omega)
  · obtain ⟨hn, rfl, rfl⟩ := Class.fin.inj h
    refine key ?_ hn
    have hE : d.expField < 2048 := Nat.mod_lt _ (by norm_num)
    have hm : 2 ^ 52 + d.fracField ≠ 0 := by omega
    have hlog : Nat.log2 (2 ^ 52 + d.fracField) = 52 := (Nat.log2_eq_iff hm).2 ⟨by omega, by omega⟩
    rw [magnitude_exact hm (by omega) (by omega) (by omega), hlog, Nat.sub_self, pow_zero, mul_one,
      show (((52 : ℕ) : ℤ) + ((d.expField : ℤ) - 1075) + 1022).toNat = d.expField - 1 by omega]
    omega

/-- Doubles that stand for one number are equal, but for the two zeros. -/
theorem value?_injective {x y : Double} {q : ℚ} (hq : q ≠ 0) (hx : value? x = some q)
    (hy : value? y = some q) : x = y := by
  have key : ∀ {d : Double}, value? d = some q → d = ofRat (decide (q < 0)) |q| := by
    intro d hd
    unfold value? at hd
    split at hd
    · next n m e hdec =>
      have hpos : (0 : ℚ) < 2 ^ e := by positivity
      obtain rfl := Option.some.inj hd
      have hm : (m : ℚ) ≠ 0 := by
        rintro hm
        rcases n with _ | _ <;> simp [signed, hm] at hq
      have hm0 : (0 : ℚ) < m := lt_of_le_of_ne (Nat.cast_nonneg m) hm.symm
      have habs : |((signed n m : ℤ) : ℚ) * 2 ^ e| = (m : ℚ) * 2 ^ e := by
        rw [abs_mul, abs_of_pos hpos]
        rcases n with _ | _ <;> simp [signed]
      have hsign : decide (((signed n m : ℤ) : ℚ) * 2 ^ e < 0) = n := by
        rcases n with _ | _
        · simp only [signed, Bool.false_eq_true, if_false, Int.cast_natCast, decide_eq_false_iff_not]
          exact not_lt.2 (by positivity)
        · simp only [signed, if_true, Int.cast_neg, Int.cast_natCast, neg_mul, Left.neg_neg_iff,
            decide_eq_true_eq]
          positivity
      rw [hsign, habs, ofRat_scaled, ofScaled_decode hdec]
    · cases hd
  rw [key hx, ← key hy]

/-! ### Integer parts -/

theorem decode_lt {d : Double} {neg : Bool} {m : ℕ} {e : ℤ} (h : decode d = .fin neg m e) :
    m < 2 ^ 53 := by
  have hfrac : fracField d < 2 ^ 52 := Nat.mod_lt _ (by norm_num)
  unfold decode at h
  split_ifs at h
  · cases h
    omega
  · cases h
    omega

theorem value?_ofScaled {m k : ℕ} (neg : Bool) (h : m < 2 ^ 53) (hk : m * 2 ^ k < 2 ^ 64) :
    value? (ofScaled neg (m * 2 ^ k) 0) = some (signed neg (m * 2 ^ k) : ℚ) := by
  by_cases hm : m = 0
  · subst hm
    rw [Nat.zero_mul, ofScaled_zero]
    cases neg <;> simp [value?, signed]
  · have hlog : Nat.log2 m + k < 64 := by
      rw [← log2_mul_two_pow hm]
      exact (Nat.log2_lt (by positivity)).2 hk
    rw [ofScaled_mul_two_pow, zero_add,
      (exact_ofScaled (e := (k : ℤ)) neg hm h (by omega) (by omega)).value?]
    cases neg <;> simp [signed]

/-- An integer of 64 bits with few significant ones is held exactly. -/
theorem value?_ofInt_of_scaled {z : ℤ} {m k : ℕ} (hz : z.natAbs = m * 2 ^ k) (h : m < 2 ^ 53)
    (hz64 : z.natAbs < 2 ^ 64) : value? (ofInt z) = some (z : ℚ) := by
  rw [ofInt, hz, value?_ofScaled _ h (hz ▸ hz64), ← hz, signed_natAbs]

theorem trunc_of_value? {d : Double} {z : ℤ} (h : value? d = some (z : ℚ)) : trunc d = z := by
  unfold trunc
  rw [h]
  simp

/-- The integer part of a finite double. -/
theorem trunc_fin {d : Double} {n : Bool} {m : ℕ} {e : ℤ} (h : decode d = .fin n m e) :
    trunc d = signed n (m * 2 ^ e.toNat / 2 ^ (-e).toNat) := by
  have hval : (m : ℚ) * 2 ^ e = ((m * 2 ^ e.toNat : ℕ) : ℚ) / ((2 ^ (-e).toNat : ℕ) : ℚ) := by
    rcases le_or_gt 0 e with he | he
    · obtain ⟨k, rfl⟩ := Int.eq_ofNat_of_zero_le he
      simp
    · obtain ⟨k, hk⟩ : ∃ k : ℕ, e = -(k : ℤ) := ⟨(-e).toNat, by omega⟩
      subst hk
      simp [div_eq_mul_inv]
  have hfloor : ⌊(m : ℚ) * 2 ^ e⌋ = ((m * 2 ^ e.toNat / 2 ^ (-e).toNat : ℕ) : ℤ) := by
    rw [hval]
    exact_mod_cast Rat.floor_natCast_div_natCast _ _
  have h0 : 0 ≤ (m : ℚ) * 2 ^ e := by positivity
  rw [trunc, value?_fin h]
  rcases n with _ | _
  · simp only [signed, Bool.false_eq_true, if_false, Int.cast_natCast, if_pos h0]
    exact hfloor
  · simp only [signed, if_true, Int.cast_neg, Int.cast_natCast, neg_mul, Left.nonneg_neg_iff,
      Int.ceil_neg, hfloor]
    split_ifs with hz
    · have hz0 : (m : ℚ) * 2 ^ e = 0 := le_antisymm hz h0
      rw [hz0, Int.floor_zero] at hfloor
      rw [← hfloor, hz0]
      simp
    · rfl

/-- The integer part of a double is an integer with few significant bits. -/
theorem trunc_scaled {d : Double} {q : ℚ} (h : value? d = some q) :
    ∃ m k : ℕ, (trunc d).natAbs = m * 2 ^ k ∧ m < 2 ^ 53 := by
  unfold value? at h
  rcases hd : decode d with _ | _ | ⟨neg, m, e⟩
  · rw [hd] at h
    cases h
  · rw [hd] at h
    cases h
  rw [hd] at h
  have hm := decode_lt hd
  have hval : value? d = some ((signed neg m : ℚ) * 2 ^ e) := by
    unfold value?
    rw [hd]
  rcases le_or_gt 0 e with he | he
  · obtain ⟨k, rfl⟩ := Int.eq_ofNat_of_zero_le he
    refine ⟨m, k, ?_, hm⟩
    have hint : value? d = some ((signed neg m * 2 ^ k : ℤ) : ℚ) := by
      rw [hval]
      push_cast
      rfl
    rw [trunc_of_value? hint, Int.natAbs_mul, Int.natAbs_pow]
    congr 1
    unfold signed
    split_ifs <;> simp
  · refine ⟨(trunc d).natAbs, 0, by simp, ?_⟩
    have hle : (2 : ℚ) ^ e ≤ 1 := zpow_le_one_of_nonpos₀ (by norm_num) he.le
    have hpos := two_zpow_pos e
    have hmul : (m : ℚ) * 2 ^ e ≤ m := mul_le_of_le_one_right (by positivity) hle
    have hmul0 : 0 ≤ (m : ℚ) * 2 ^ e := by positivity
    unfold trunc
    rw [hval]
    rcases neg
    · have hfloor : ⌊(m : ℚ) * 2 ^ e⌋ ≤ (m : ℤ) := by
        exact_mod_cast (Int.floor_le _).trans hmul
      have hfloor0 : 0 ≤ ⌊(m : ℚ) * 2 ^ e⌋ := Int.floor_nonneg.2 hmul0
      simp only [signed, Bool.false_eq_true, if_false, Int.cast_natCast, if_pos hmul0]
      omega
    · have hceil : -(m : ℤ) ≤ ⌈-(m : ℚ) * 2 ^ e⌉ := by
        have hneg : -(m : ℚ) ≤ -(m : ℚ) * 2 ^ e := by linarith
        exact_mod_cast hneg.trans (Int.le_ceil _)
      have hceil0 : ⌈-(m : ℚ) * 2 ^ e⌉ ≤ 0 := Int.ceil_le.2 (by push_cast; linarith)
      simp only [signed, if_true, Int.cast_neg, Int.cast_natCast]
      split_ifs with h0
      · have hzero : (m : ℚ) * 2 ^ e = 0 := by linarith
        rw [neg_mul, hzero]
        simp
      · omega

theorem value?_ofInt_trunc {d : Double} {q : ℚ} (h : value? d = some q)
    (hr : (trunc d).natAbs < 2 ^ 64) : value? (ofInt (trunc d)) = some (trunc d : ℚ) := by
  obtain ⟨m, k, hmk, hm⟩ := trunc_scaled h
  exact value?_ofInt_of_scaled hmk hm hr

/-! ### Quotients -/

theorem roundEven_natCast (n : ℕ) : roundEven n = n := by
  have h := roundEven_div_two_pow n 0
  rw [pow_zero, div_one, shiftRightEven_zero] at h
  exact h

/-- A number with a low exponent that is an integer is not rounded. -/
theorem rounded_natCast {n : ℕ} (hn : 0 < n) (h : n < 2 ^ 53) : rounded n = n := by
  have hq : (0 : ℚ) < n := by exact_mod_cast hn
  obtain ⟨hlo, -⟩ := log_bounds hq
  have hlog : Int.log 2 (n : ℚ) < 53 := by
    by_contra hge
    have h53 : (2 : ℚ) ^ (53 : ℤ) ≤ n :=
      (zpow_le_zpow_right₀ one_le_two (not_lt.1 hge)).trans hlo
    have : (2 : ℚ) ^ 53 ≤ n := by exact_mod_cast h53
    have hcast : (n : ℚ) < 2 ^ 53 := by exact_mod_cast h
    linarith
  obtain ⟨k, hk⟩ : ∃ k : ℕ, ratUlpExp n = -(k : ℤ) :=
    ⟨(-ratUlpExp n).toNat, by unfold ratUlpExp; omega⟩
  have hunits : (n : ℚ) / 2 ^ ratUlpExp n = ((n * 2 ^ k : ℕ) : ℚ) := by
    rw [hk, zpow_neg, zpow_natCast, div_inv_eq_mul]
    push_cast
    rfl
  rw [rounded, hunits, roundEven_natCast, ← hunits, div_mul_cancel₀ _ (two_zpow_pos _).ne']

/-- The unit of the last place of a quotient of integers of 32 bits. -/
theorem ulp_div_lt {a b : ℕ} (ha : 0 < a) (hb : 0 < b) (ha32 : a < 2 ^ 32) (hb32 : b < 2 ^ 32) :
    (2 : ℚ) ^ ratUlpExp ((a : ℚ) / b) < 1 / b := by
  have hbq : (0 : ℚ) < b := by exact_mod_cast hb
  have haq : (1 : ℚ) ≤ a := by exact_mod_cast ha
  have hpos : (0 : ℚ) < a / b := div_pos (by linarith) hbq
  obtain ⟨hlo, hhi⟩ := log_bounds hpos
  have hlog : -33 ≤ Int.log 2 ((a : ℚ) / b) := by
    by_contra hlt
    have h33 : (a : ℚ) / b < 2 ^ (-32 : ℤ) :=
      hhi.trans_le (zpow_le_zpow_right₀ one_le_two (by omega))
    have hb' : (b : ℚ) ≤ 4294967295 := by exact_mod_cast (by omega : b ≤ 4294967295)
    rw [div_lt_iff₀ hbq] at h33
    norm_num at h33
    linarith
  have hulp : ratUlpExp ((a : ℚ) / b) = Int.log 2 ((a : ℚ) / b) - 52 := by
    unfold ratUlpExp
    omega
  have ha' : (a : ℚ) < 2 ^ 32 := by exact_mod_cast ha32
  calc (2 : ℚ) ^ ratUlpExp ((a : ℚ) / b)
      = 2 ^ Int.log 2 ((a : ℚ) / b) / 2 ^ 52 := by
        rw [hulp, zpow_sub₀ (by norm_num)]
        norm_num
    _ ≤ (a / b) / 2 ^ 52 := by gcongr
    _ < 1 / b := by
        rw [div_div, div_lt_div_iff₀ (by positivity) hbq]
        nlinarith

/-- A quotient of integers of 32 bits is rounded by less than its distance from the integers. -/
theorem rounded_div_bounds {a b : ℕ} (ha : 0 < a) (hb : 0 < b) (ha32 : a < 2 ^ 32)
    (hb32 : b < 2 ^ 32) :
    ((a / b : ℕ) : ℚ) ≤ rounded ((a : ℚ) / b) ∧ rounded ((a : ℚ) / b) < (a / b : ℕ) + 1 := by
  have hbq : (0 : ℚ) < b := by exact_mod_cast hb
  have haq : (0 : ℚ) < a := by exact_mod_cast ha
  have hpos : (0 : ℚ) < a / b := div_pos haq hbq
  have hround := abs_rounded_le hpos
  have hulp := ulp_div_lt ha hb ha32 hb32
  have hsplit : (a : ℚ) / b = (a / b : ℕ) + ((a % b : ℕ) : ℚ) / b := by
    rw [eq_comm, ← mul_div_cancel_left₀ ((a / b : ℕ) : ℚ) hbq.ne', ← add_div]
    congr 1
    exact_mod_cast Nat.div_add_mod a b
  have hmod : ((a % b : ℕ) : ℚ) / b + 1 / b ≤ 1 := by
    rw [← add_div, div_le_one hbq]
    exact_mod_cast Nat.mod_lt a hb
  rcases Nat.eq_zero_or_pos (a % b) with h0 | h0
  · have hint : (a : ℚ) / b = (a / b : ℕ) := by rw [hsplit, h0]; simp
    have hdiv : 0 < a / b := by
      have := hpos
      rw [hint] at this
      exact_mod_cast this
    have hlt : a / b < 2 ^ 53 := by
      have := Nat.div_le_self a b
      omega
    rw [hint, rounded_natCast hdiv hlt]
    exact ⟨le_rfl, by linarith⟩
  · have h1 : 1 / (b : ℚ) ≤ ((a % b : ℕ) : ℚ) / b := by
      gcongr
      exact_mod_cast h0
    have hnonneg := abs_nonneg ((a : ℚ) / b - rounded ((a : ℚ) / b))
    have hlt : |(a : ℚ) / b - rounded ((a : ℚ) / b)| < 1 / b := by linarith
    obtain ⟨hlo, hhi⟩ := abs_lt.1 hlt
    exact ⟨by linarith, by linarith⟩

theorem trunc_of_exact {d : Double} {neg : Bool} {q : ℚ} {k : ℕ} (h : Exact d neg q)
    (hlo : (k : ℚ) ≤ q) (hhi : q < k + 1) : trunc d = if neg then -(k : ℤ) else k := by
  have hq : 0 ≤ q := le_trans (by positivity) hlo
  have hfloor : ⌊q⌋ = (k : ℤ) := Int.floor_eq_iff.2 ⟨by exact_mod_cast hlo, by exact_mod_cast hhi⟩
  unfold trunc
  rw [h.value?]
  rcases neg
  · simp only [Bool.false_eq_true, if_false, if_pos hq, hfloor]
  · simp only [if_true, Int.ceil_neg, hfloor]
    split_ifs with h0
    · have hzero : q = 0 := by linarith
      have hk : k = 0 := by
        rw [hzero] at hlo
        exact_mod_cast le_antisymm hlo (by positivity)
      simp [hzero, hk]
    · rfl

theorem exact_ofInt {z : ℤ} (h : z.natAbs < 2 ^ 53) : Exact (ofInt z) (decide (z < 0)) z.natAbs :=
  exact_ofScaled_natCast _ h

theorem ratMagnitude_finite {q : ℚ} (hq : 0 < q) (h : q < 2 ^ 64) :
    ratMagnitude q < 2047 * 2 ^ 52 := by
  have hlog : Int.log 2 q < 64 := by
    by_contra hge
    have h64 : (2 : ℚ) ^ (64 : ℤ) ≤ q :=
      (zpow_le_zpow_right₀ one_le_two (not_lt.1 hge)).trans (log_bounds hq).1
    have : (2 : ℚ) ^ 64 ≤ q := by exact_mod_cast h64
    linarith
  have hunits := (roundEven_mono_nat (units_nonneg hq)).2 (units_lt hq).le
  have hulp : (ratUlpExp q + 1074).toNat ≤ 1085 := by
    unfold ratUlpExp
    omega
  rw [ratMagnitude_of_pos hq]
  refine lt_of_le_of_lt (min_le_left _ _) ?_
  have := Nat.mul_le_mul_right (2 ^ 52) hulp
  omega

/-- The quotient of the magnitudes with the sign of the quotient. -/
theorem signed_tdiv (a b : ℤ) :
    (if (decide (a < 0) ^^ decide (b < 0)) = true then -((a.natAbs / b.natAbs : ℕ) : ℤ)
      else (a.natAbs / b.natAbs : ℕ)) = a.tdiv b := by
  have hpos : ∀ n : ℕ, ¬ ((n : ℤ) < 0) := fun n => by omega
  obtain ⟨n, rfl | rfl⟩ := Int.eq_nat_or_neg a
  · obtain ⟨m, rfl | rfl⟩ := Int.eq_nat_or_neg b
    · simp [hpos]
    · rcases Nat.eq_zero_or_pos m with rfl | hm
      · simp
      · simp [hpos, hm]
  · rcases Nat.eq_zero_or_pos n with rfl | hn
    · simp
    obtain ⟨m, rfl | rfl⟩ := Int.eq_nat_or_neg b
    · simp [hpos, hn]
    · rcases Nat.eq_zero_or_pos m with rfl | hm
      · simp
      · simp [hn, hm]

/-- The double quotient of two integers of 32 bits has the quotient as its integer part. -/
theorem trunc_div_ofInt {a b : ℤ} (hb : b ≠ 0) (ha32 : a.natAbs < 2 ^ 32)
    (hb32 : b.natAbs < 2 ^ 32) :
    (value? (div (ofInt a) (ofInt b))).isSome ∧ trunc (div (ofInt a) (ofInt b)) = a.tdiv b := by
  have hbpos : 0 < b.natAbs := Int.natAbs_pos.2 hb
  have hdiv := (exact_ofInt (z := a) (by omega)).div (exact_ofInt (z := b) (by omega))
    (by exact_mod_cast hbpos.ne')
  rw [← signed_tdiv]
  rcases Nat.eq_zero_or_pos a.natAbs with h0 | hapos
  · have hexact : Exact (div (ofInt a) (ofInt b)) (decide (a < 0) ^^ decide (b < 0)) (0 : ℕ) := by
      rw [hdiv, h0, Nat.cast_zero, zero_div]
      have h := exact_ofScaled_natCast (m := 0) (decide (a < 0) ^^ decide (b < 0)) (by norm_num)
      rwa [← ofRat_natCast, Nat.cast_zero] at h
    rw [trunc_of_exact (k := 0) hexact (by simp) (by simp), hexact.value?, h0]
    simp
  · have hq : (0 : ℚ) < (a.natAbs : ℚ) / b.natAbs := by positivity
    obtain ⟨hlo, hhi⟩ := rounded_div_bounds hapos hbpos ha32 hb32
    have hsmall : (a.natAbs : ℚ) / b.natAbs < 2 ^ 64 := by
      have h1 : (1 : ℚ) ≤ b.natAbs := by exact_mod_cast hbpos
      have h2 : (a.natAbs : ℚ) < 2 ^ 64 := by exact_mod_cast ha32.trans (by norm_num)
      exact (div_le_self (by positivity) h1).trans_lt h2
    have hexact := exact_ofRat (decide (a < 0) ^^ decide (b < 0)) hq (ratMagnitude_finite hq hsmall)
    rw [hdiv, trunc_of_exact hexact hlo hhi, hexact.value?]
    simp

end Double

end Qjs
