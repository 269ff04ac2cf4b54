import Qjs.Lib.IntDouble
import Qjs.Number
import Qjs.Proofs.Value

/-!
# Numbers in every representation

For every double, wherever it is kept, `JS_ToInt32` is the integer part modulo `2 ^ 32` and
`JS_ToInt32Sat` the integer part clamped (`jsToInt32_spec`). `JS_NewFloat64` loses nothing, finds
the short integers, and its two versions agree (`jsNewFloat64_canonical`).
-/

namespace Qjs

open Double

variable {a : Arch} {d : Double}

/-! ### The fields of a double -/

theorem fracField_lt (d : Double) : d.fracField < 2 ^ 52 := Nat.mod_lt _ (by norm_num)

theorem decode_of_normal (h0 : d.expField ≠ 0) (h1 : d.expField ≠ 2047) :
    d.decode = .fin d.msb (2 ^ 52 + d.fracField) (d.expField - 1075) := by
  rw [decode, if_neg h1, if_neg h0]

theorem trunc_of_normal (h0 : d.expField ≠ 0) (h1 : d.expField ≠ 2047) :
    d.trunc = signed d.msb
      ((2 ^ 52 + d.fracField) * 2 ^ (d.expField - 1075) / 2 ^ (1075 - d.expField)) := by
  have e1 : ((d.expField : ℤ) - 1075).toNat = d.expField - 1075 := by omega
  have e2 : (-((d.expField : ℤ) - 1075)).toNat = 1075 - d.expField := by omega
  rw [trunc_fin (decode_of_normal h0 h1), e1, e2]

/-- Up to the exponent of `2 ^ 30` the integer part is an `int`. -/
theorem trunc_natAbs_lt (he : d.expField ≤ 1053) : d.trunc.natAbs < 2 ^ 31 := by
  have hfrac := fracField_lt d
  have key : ∀ (n : Bool) (m : ℕ), (signed n m).natAbs = m := by
    intro n m
    cases n <;> simp [signed]
  by_cases h0 : d.expField = 0
  · have hd : d.decode = .fin d.msb d.fracField (-1074) := by
      rw [decode, if_neg (by omega), if_pos h0]
    have hzero : d.fracField / 2 ^ 1074 = 0 :=
      Nat.div_eq_of_lt (hfrac.trans_le (Nat.pow_le_pow_right Nat.two_pos (by norm_num)))
    rw [trunc_fin hd, key, show (-1074 : ℤ).toNat = 0 from rfl,
      show (-(-1074 : ℤ)).toNat = 1074 from rfl, pow_zero, mul_one, hzero]
    norm_num
  · rw [trunc_of_normal h0 (by omega), key, show d.expField - 1075 = 0 by omega, pow_zero, mul_one,
      Nat.div_lt_iff_lt_mul (by positivity), ← pow_add]
    calc 2 ^ 52 + d.fracField < 2 ^ 53 := by omega
      _ ≤ 2 ^ (31 + (1075 - d.expField)) := Nat.pow_le_pow_right (by norm_num) (by omega)

/-- From the exponent of `2 ^ 31` on it is none, or just the least. -/
theorem le_trunc_natAbs (he : 1053 < d.expField) :
    2 ^ 31 ≤ (2 ^ 52 + d.fracField) * 2 ^ (d.expField - 1075) / 2 ^ (1075 - d.expField) := by
  rw [Nat.le_div_iff_mul_le (by positivity), ← pow_add]
  calc 2 ^ (31 + (1075 - d.expField)) ≤ 2 ^ (52 + (d.expField - 1075)) :=
        Nat.pow_le_pow_right (by norm_num) (by omega)
    _ = 2 ^ 52 * 2 ^ (d.expField - 1075) := pow_add _ _ _
    _ ≤ _ := Nat.mul_le_mul_right _ (by omega)

theorem ofInt_signed (n : Bool) (m : ℕ) :
    BitVec.ofInt 32 (signed n m) = if n then -BitVec.ofNat 32 m else BitVec.ofNat 32 m := by
  cases n <;> simp [signed, BitVec.ofInt_neg]

/-! ### Modulo -/

/-- The upper half of the shifted significand is the integer part, modulo `2 ^ 32`. -/
theorem shifted_significand {m E : ℕ} (h1 : 1053 < E) (h2 : E ≤ 1106) :
    ((BitVec.ofNat 64 m <<< (E + 32 - 1023 - 52)) >>> 32).setWidth 32
      = BitVec.ofNat 32 (m * 2 ^ (E - 1075) / 2 ^ (1075 - E)) := by
  apply BitVec.eq_of_toNat_eq
  rw [BitVec.toNat_setWidth, BitVec.toNat_ushiftRight, BitVec.toNat_shiftLeft, BitVec.toNat_ofNat,
    BitVec.toNat_ofNat, Nat.shiftRight_eq_div_pow, Nat.shiftLeft_eq, Nat.mod_mul_mod]
  have hdiv : m * 2 ^ (E + 32 - 1023 - 52) / 2 ^ 32
      = m * 2 ^ (E - 1075) / 2 ^ (1075 - E) := by
    rcases Nat.lt_or_ge E 1075 with hE | hE
    · obtain ⟨j, hj⟩ : ∃ j, 1075 - E = j := ⟨_, rfl⟩
      obtain ⟨k, hk⟩ : ∃ k, E + 32 - 1023 - 52 = k := ⟨_, rfl⟩
      have hjk : 32 = j + k := by omega
      have hE0 : E - 1075 = 0 := Nat.sub_eq_zero_of_le hE.le
      have hpos : 0 < 2 ^ k := by positivity
      rw [hj, hk, hE0, hjk, pow_add, Nat.mul_div_mul_right m (2 ^ j) hpos, pow_zero, mul_one]
    · rw [show E + 32 - 1023 - 52 = E - 1075 + 32 by omega, pow_add, ← mul_assoc,
        Nat.mul_div_cancel _ (by positivity), show 1075 - E = 0 by omega, pow_zero, Nat.div_one]
  rw [← hdiv]
  generalize m * 2 ^ (E + 32 - 1023 - 52) = x
  omega

/-- The double branch without saturation. -/
theorem handleFloat64_false (d : Double) : handleFloat64 false d = BitVec.ofInt 32 d.trunc := by
  unfold handleFloat64
  simp only [Bool.not_false, if_true]
  split_ifs with h1 h2 h3
  · rfl
  · rw [trunc_of_normal (by omega) (by omega), ofInt_signed, if_pos h3, add_comm d.fracField,
      shifted_significand (by omega) h2]
  · rw [trunc_of_normal (by omega) (by omega), ofInt_signed, if_neg h3, add_comm d.fracField,
      shifted_significand (by omega) h2]
  · -- nothing of the significand is left below `2 ^ 32`
    by_cases hmax : d.expField = 2047
    · have hnone : d.value? = none := by
        unfold value? decode
        rw [if_pos hmax]
        split_ifs <;> rfl
      simp [trunc, hnone]
    · have hdvd : 2 ^ 32 ∣ 2 ^ (d.expField - 1075) := pow_dvd_pow 2 (by omega)
      have hzero : BitVec.ofNat 32 ((2 ^ 52 + d.fracField) * 2 ^ (d.expField - 1075)) = 0#32 := by
        apply BitVec.eq_of_toNat_eq
        rw [BitVec.toNat_ofNat, Nat.mod_eq_zero_of_dvd (hdvd.mul_left _)]
        rfl
      rw [trunc_of_normal (by omega) hmax, ofInt_signed, show 1075 - d.expField = 0 by omega,
        pow_zero, Nat.div_one, hzero]
      simp

/-! ### Clamping -/

/-- The integer part of a double clamped to the range of `int`, with 0 for NaN. -/
def clampInt32 (d : Double) : ℤ :=
  match d.decode with
  | .nan => 0
  | .inf neg => if neg then -2 ^ 31 else 2 ^ 31 - 1
  | .fin .. => max (-2 ^ 31) (min (2 ^ 31 - 1) d.trunc)

theorem clampInt32_of_fin {n : Bool} {m : ℕ} {e : ℤ} (hd : d.decode = .fin n m e) :
    clampInt32 d = max (-2 ^ 31) (min (2 ^ 31 - 1) d.trunc) := by
  simp only [clampInt32, hd]

/-- The double branch with saturation. -/
theorem handleFloat64_true (d : Double) : (handleFloat64 true d).toInt = clampInt32 d := by
  have hmin : (0x80000000#32).toInt = -2 ^ 31 := by decide
  have hmax : (0x7fffffff#32).toInt = 2 ^ 31 - 1 := by decide
  unfold handleFloat64
  simp only [Bool.not_true, Bool.false_eq_true, if_false]
  by_cases h1 : d.expField ≤ 1023 + 30
  · have hlt := trunc_natAbs_lt h1
    have hfin : ∃ n m e, d.decode = .fin n m e := by
      unfold decode
      rw [if_neg (by omega)]
      split_ifs <;> exact ⟨_, _, _, rfl⟩
    obtain ⟨n, m, e, hd⟩ := hfin
    rw [if_pos h1, BitVec.toInt_ofInt_eq_self (by norm_num) (by norm_num; omega)
      (by norm_num; omega)]
    rw [clampInt32_of_fin hd]
    omega
  rw [if_neg h1]
  by_cases h2 : d.expField = 2047
  · unfold clampInt32 decode
    rw [if_pos h2]
    split_ifs with h3 h4 h5 h6
    all_goals simp_all
  · have hbig := le_trunc_natAbs (d := d) (by omega)
    have htr := trunc_of_normal (d := d) (by omega) h2
    rw [if_neg (by tauto)]
    rw [clampInt32_of_fin (decode_of_normal (by omega) h2), htr]
    unfold signed
    split_ifs with hneg <;> omega

/-! ### Every representation -/

/-- A short integer converted to a double and back. -/
theorem handleFloat64_ofInt (satFlag : Bool) {z : ℤ} (h1 : jsShortIntMin ≤ z)
    (h2 : z ≤ jsShortIntMax) : handleFloat64 satFlag (Double.ofInt z) = BitVec.ofInt 32 z := by
  unfold jsShortIntMin at h1
  unfold jsShortIntMax at h2
  have hz : z.natAbs < 2 ^ 53 := by omega
  have htr : (Double.ofInt z).trunc = z := trunc_of_value? (value?_ofInt hz)
  rcases satFlag with _ | _
  · rw [handleFloat64_false, htr]
  · obtain ⟨k, hd⟩ := decode_ofInt hz
    apply BitVec.eq_of_toInt_eq
    rw [handleFloat64_true, BitVec.toInt_ofInt_eq_self (by norm_num) (by norm_num; omega)
      (by norm_num; omega)]
    rw [clampInt32_of_fin hd, htr]
    omega

/-- The conversions see a number only through the double it stands for. -/
theorem jsToInt32Internal_eq {v : Boxed a} (hv : v.denote = .number d) (satFlag : Bool) :
    jsToInt32Internal satFlag v = some (handleFloat64 satFlag d) := by
  rcases v with w | _ | d'
  · simp only [Boxed.denote] at hv
    simp only [jsToInt32Internal]
    split_ifs at hv ⊢ with h1 h2 h3
    · obtain rfl := Prim.number.inj hv
      obtain ⟨hlo, hhi⟩ := jsValueGetInt_bounds w
      rw [handleFloat64_ofInt satFlag hlo hhi]
    · obtain rfl := Prim.number.inj hv
      rfl
  · obtain rfl := Prim.number.inj hv
    rfl
  · obtain rfl := Prim.number.inj hv
    rfl

/-- For every double, wherever it is kept, `JS_ToInt32` is its integer part modulo `2 ^ 32` in the
range of `int`, 0 when it has none, and `JS_ToInt32Sat` its integer part clamped to that range. -/
theorem jsToInt32_spec (a : Arch) (d : Double) (v : Boxed a) (hv : v.denote = .number d) :
    jsToInt32Boxed v = some (d.trunc.bmod (2 ^ 32))
      ∧ (d.value? = none → jsToInt32Boxed v = some 0)
      ∧ jsToInt32Sat v = some (clampInt32 d) := by
  have hmod : jsToInt32Boxed v = some (d.trunc.bmod (2 ^ 32)) := by
    rw [jsToInt32Boxed, jsToInt32Internal_eq hv, handleFloat64_false, Option.map_some,
      BitVec.toInt_ofInt]
  refine ⟨hmod, ?_, ?_⟩
  · intro hnone
    rw [hmod, trunc, hnone]
    rfl
  · rw [jsToInt32Sat, jsToInt32Internal_eq hv, Option.map_some, handleFloat64_true]

/-- The block that holds `2 ^ 31`. -/
theorem jsToInt32_spec_two_pow :
    jsToInt32Boxed (.float64 0x41e0000000000000#64 : Boxed .jsw8)
      = some ((trunc 0x41e0000000000000#64).bmod (2 ^ 32)) :=
  (jsToInt32_spec .jsw8 0x41e0000000000000#64 (.float64 0x41e0000000000000#64) rfl).1

/-! ### The soft-float version of `JS_NewFloat64` -/

/-- A double that is a short integer becomes one. -/
theorem jsNewFloat64_ofInt {z : ℤ} (h1 : jsShortIntMin ≤ z) (h2 : z ≤ jsShortIntMax) :
    (jsNewFloat64 (Double.ofInt z) : Boxed a) = .word (jsNewShortInt z) := by
  have hz : z.natAbs < 2 ^ 53 := by
    unfold jsShortIntMin at h1
    unfold jsShortIntMax at h2
    omega
  have hv := value?_ofInt hz
  have htr := trunc_of_value? hv
  have hlo : (Double.ofInt jsShortIntMin).value? = some ((jsShortIntMin : ℤ) : ℚ) :=
    value?_ofInt (by decide)
  have hhi : (Double.ofInt jsShortIntMax).value? = some ((jsShortIntMax : ℤ) : ℚ) :=
    value?_ofInt (by decide)
  rw [jsNewFloat64, le_of_value? hlo hv, le_of_value? hv hhi, htr]
  simp [h1, h2]

/-- The others do not. -/
theorem jsNewFloat64_of_ne (h : ∀ z, jsShortIntMin ≤ z → z ≤ jsShortIntMax → d ≠ Double.ofInt z) :
    (jsNewFloat64 d : Boxed a) = jsNewFloat64Aux d := by
  have hlo : (Double.ofInt jsShortIntMin).value? = some ((jsShortIntMin : ℤ) : ℚ) :=
    value?_ofInt (by decide)
  have hhi : (Double.ofInt jsShortIntMax).value? = some ((jsShortIntMax : ℤ) : ℚ) :=
    value?_ofInt (by decide)
  unfold jsNewFloat64
  split_ifs with hr hd
  · rw [Bool.and_eq_true] at hr
    obtain ⟨q, hq, h1, h2⟩ := value?_between hlo hhi hr.1 hr.2
    obtain ⟨h3, h4⟩ := trunc_between hq h1 h2
    exact absurd hd (h _ h3 h4)
  · rfl
  · rfl

theorem value?_of_normal (h0 : d.expField ≠ 0) (h1 : d.expField ≤ 1075) :
    d.value? = some ((signed d.msb (2 ^ 52 + d.fracField) : ℚ) / 2 ^ (1075 - d.expField)) := by
  have he : ((d.expField : ℤ) - 1075) = -((1075 - d.expField : ℕ) : ℤ) := by omega
  rw [value?_fin (decode_of_normal h0 (by omega)), he, zpow_neg, zpow_natCast, div_eq_mul_inv]

/-- The exponent of an integer. -/
theorem expField_ofInt {z : ℤ} (hz : z ≠ 0) (h : z.natAbs < 2 ^ 53) :
    (Double.ofInt z).expField = Nat.log2 z.natAbs + 1023 := by
  have hz' : z.natAbs ≠ 0 := by omega
  obtain ⟨hl, hlo, hhi⟩ := full_width hz' h
  have hmag := magnitude_exact (e := 0) hz' h (by omega) (by omega)
  rw [show ((Nat.log2 z.natAbs : ℤ) + 0 + 1022).toNat = Nat.log2 z.natAbs + 1022 by omega] at hmag
  rw [expField, Double.ofInt, toNat_ofScaled, hmag]
  omega

theorem natAbs_lt_of_short {z : ℤ} (h1 : jsShortIntMin ≤ z) (h2 : z ≤ jsShortIntMax) :
    z.natAbs < 2 ^ 53 := by
  unfold jsShortIntMin at h1
  unfold jsShortIntMax at h2
  omega

theorem signed_natAbs_eq (n : Bool) (m : ℕ) : (signed n m).natAbs = m := by
  cases n <;> simp [signed]

/-- A double with a bit below the point is not an integer. -/
theorem ne_ofInt_of_mod {s : ℕ} (h0 : d.expField ≠ 0) (h1 : d.expField ≤ 1075)
    (hs : s = 1075 - d.expField) (hm : (d.fracField + 2 ^ 52) % 2 ^ s ≠ 0) {z : ℤ}
    (hz : z.natAbs < 2 ^ 53) : d ≠ Double.ofInt z := by
  intro hd
  have hpow : (2 : ℚ) ^ s ≠ 0 := by positivity
  have hv := value?_of_normal h0 h1
  rw [hd, value?_ofInt hz, ← hd, ← hs, Option.some.injEq, eq_div_iff hpow] at hv
  have hint : z * 2 ^ s = signed d.msb (2 ^ 52 + d.fracField) := by exact_mod_cast hv
  have habs := congrArg Int.natAbs hint
  rw [signed_natAbs_eq, Int.natAbs_mul, Int.natAbs_pow] at habs
  rw [add_comm, ← habs] at hm
  exact hm (Nat.mul_mod_left _ _)

/-- Without one it is. -/
theorem eq_ofInt_of_mod {s b : ℕ} (h0 : d.expField ≠ 0) (h1 : d.expField ≤ 1075)
    (hs : s = 1075 - d.expField) (hb : d.fracField + 2 ^ 52 = b * 2 ^ s) (hlt : b < 2 ^ 53) :
    d = Double.ofInt (if d.msb then -(b : ℤ) else b) := by
  have hpow : (2 : ℚ) ^ s ≠ 0 := by positivity
  have hsig : ∀ n : Bool, (if n then -(b : ℤ) else (b : ℤ)) = signed n b := by
    intro n
    cases n <;> rfl
  have hb0 : b ≠ 0 := by
    rintro rfl
    omega
  have hne : ((signed d.msb b : ℤ) : ℚ) ≠ 0 := by
    have := signed_natAbs_eq d.msb b
    intro h
    have : signed d.msb b = 0 := by exact_mod_cast h
    omega
  have hz := value?_ofInt (z := signed d.msb b) (by rw [signed_natAbs_eq]; exact hlt)
  have hd := value?_of_normal h0 h1
  rw [add_comm, hb, ← hs, signed_mul] at hd
  push_cast at hd
  rw [mul_div_cancel_right₀ _ hpow] at hd
  rw [hsig]
  exact value?_injective hne hd hz

/-- The range that the soft-float version tests the exponent for. -/
theorem jsNewFloat64_of_exponent (he : 1023 ≤ d.expField ∧ d.expField ≤ 1052) :
    (if (d.fracField + 2 ^ 52) % 2 ^ (1075 - d.expField) ≠ 0 then jsNewFloat64Aux d
      else .word (jsNewShortInt (if d.msb then
        -(((d.fracField + 2 ^ 52) / 2 ^ (1075 - d.expField) : ℕ) : ℤ)
        else ((d.fracField + 2 ^ 52) / 2 ^ (1075 - d.expField) : ℕ))) : Boxed a)
      = jsNewFloat64 d := by
  have hfrac := fracField_lt d
  obtain ⟨s, hs⟩ : ∃ s, s = 1075 - d.expField := ⟨_, rfl⟩
  rw [← hs]
  by_cases hm : (d.fracField + 2 ^ 52) % 2 ^ s = 0
  · rw [if_neg (not_not.2 hm)]
    obtain ⟨b, hb⟩ := Nat.dvd_of_mod_eq_zero hm
    have hb30 : b < 2 ^ 30 := by
      by_contra hge
      have h23 : 2 ^ 23 ≤ 2 ^ s := Nat.pow_le_pow_right (by norm_num) (by omega)
      have := Nat.mul_le_mul h23 (not_lt.1 hge)
      omega
    have hd := eq_ofInt_of_mod (by omega) (by omega) hs (hb.trans (Nat.mul_comm _ _)) (by omega)
    have hshort := @jsNewFloat64_ofInt a (if d.msb then -(b : ℤ) else b)
      (by unfold jsShortIntMin; split_ifs <;> omega) (by unfold jsShortIntMax; split_ifs <;> omega)
    rw [← hd] at hshort
    rw [hshort, hb, Nat.mul_div_cancel_left _ (by positivity)]
  · rw [if_pos hm]
    refine (jsNewFloat64_of_ne ?_).symm
    intro z h1 h2
    exact ne_ofInt_of_mod (by omega) (by omega) hs hm (natAbs_lt_of_short h1 h2)

theorem ofInt_jsShortIntMin : Double.ofInt jsShortIntMin = 0xc1d0000000000000#64 := by
  have hd := @eq_ofInt_of_mod 0xc1d0000000000000#64 22 (2 ^ 30) (by decide) (by decide)
    (by decide) (by decide) (by norm_num)
  exact hd.symm

/-- The soft-float version finds the same integers. -/
theorem jsNewFloat64Soft_eq (d : Double) : (jsNewFloat64Soft d : Boxed a) = jsNewFloat64 d := by
  unfold jsNewFloat64Soft
  by_cases h0 : d = 0#64
  · rw [if_pos h0, h0, ← ofInt_zero]
    exact (jsNewFloat64_ofInt (by decide) (by decide)).symm
  rw [if_neg h0]
  by_cases he : 1023 ≤ d.expField ∧ d.expField ≤ 1023 + 30 - 1
  · have hs : 52 - (d.expField - 1023) = 1075 - d.expField := by omega
    rw [if_pos he, ← jsNewFloat64_of_exponent he]
    simp only [hs]
  rw [if_neg he]
  by_cases hp : d = 0xc1d0000000000000#64
  · rw [if_pos hp, hp, ← ofInt_jsShortIntMin]
    exact (jsNewFloat64_ofInt le_rfl (by decide)).symm
  · rw [if_neg hp]
    refine (jsNewFloat64_of_ne ?_).symm
    intro z h1 h2 hd
    have hz : z ≠ 0 := by
      rintro rfl
      exact h0 (hd.trans ofInt_zero)
    have hexp := expField_ofInt hz (natAbs_lt_of_short h1 h2)
    rw [← hd] at hexp
    -- only the least short integer has the exponent of `2 ^ 30`
    have hlog : ¬Nat.log2 z.natAbs < 30 := by omega
    have hbig : 2 ^ 30 ≤ z.natAbs := by
      by_contra hlt
      exact hlog ((Nat.log2_lt (by omega)).2 (not_le.1 hlt))
    have hmin : z = jsShortIntMin := by
      unfold jsShortIntMin at h1 ⊢
      unfold jsShortIntMax at h2
      omega
    exact hp (hd.trans (hmin ▸ ofInt_jsShortIntMin))

/-! ### The representation is canonical -/

theorem jsToNumberBoxed_jsNewFloat64 (d : Double) :
    jsToNumberBoxed (jsNewFloat64 d : Boxed a) = some d := by
  have hden := denote_jsNewFloat64 (a := a) d
  generalize (jsNewFloat64 d : Boxed a) = v at hden
  rcases v with w | _ | d'
  · simp only [Boxed.denote] at hden
    simp only [jsToNumberBoxed, jsToNumber]
    split_ifs at hden ⊢
    · rw [Prim.number.inj hden]
    · rw [Prim.number.inj hden]
  · exact congrArg some (Prim.number.inj hden)
  · exact congrArg some (Prim.number.inj hden)

/-- A word from `__JS_NewFloat64` is a short float. -/
theorem jsNewFloat64Aux_word {w : JSValue a} (h : jsNewFloat64Aux d = .word w) :
    jsIsShortFloat w = true ∧ w.toNat % 8 = jsTagShortFloat := by
  unfold jsNewFloat64Aux at h
  split_ifs at h with h1 h2
  obtain rfl := Boxed.word.inj h
  rw [Bool.and_eq_true] at h2
  obtain rfl := jsw8_of_useShortFloat a h2.1
  have htag := toNat_jsToShortFloat_mod h2.2
  refine ⟨?_, htag⟩
  simp only [jsIsShortFloat, Arch.useShortFloat, Bool.true_and, beq_iff_eq]
  exact htag

/-- The integers that are short, as the numbers doubles stand for. -/
def IsShortInt (d : Double) : Prop :=
  d ≠ Double.minusZero ∧
    ∃ z : ℤ, jsShortIntMin ≤ z ∧ z ≤ jsShortIntMax ∧ d.value? = some (z : ℚ)

theorem isShortInt_iff : IsShortInt d ↔
    ∃ z, jsShortIntMin ≤ z ∧ z ≤ jsShortIntMax ∧ d = Double.ofInt z := by
  constructor
  · rintro ⟨hd, z, h1, h2, hv⟩
    refine ⟨z, h1, h2, ?_⟩
    have hz := value?_ofInt (natAbs_lt_of_short h1 h2)
    by_cases h0 : z = 0
    · subst h0
      rw [ofInt_zero] at hz ⊢
      have heq : Double.eq d 0#64 = true := by
        rw [eq_of_value? hv hz]
        simp
      exact (eq_zero_cases heq).resolve_right hd
    · exact value?_injective (Int.cast_ne_zero.2 h0) hv hz
  · rintro ⟨z, h1, h2, rfl⟩
    have hlt := natAbs_lt_of_short h1 h2
    refine ⟨?_, z, h1, h2, value?_ofInt hlt⟩
    intro hmin
    have hmsb : (Double.ofInt z).msb = decide (z < 0) := msb_ofScaled _ _ _
    rw [hmin] at hmsb
    have hneg : z < 0 := of_decide_eq_true (hmsb.symm.trans (by decide))
    have hexp := expField_ofInt hneg.ne hlt
    rw [hmin] at hexp
    have : expField minusZero = 0 := by decide
    omega

/-- `JS_NewFloat64` keeps every double; it makes a short integer of exactly the integers in range
but minus zero, any other word has the tag of short floats and no other, and the soft-float version
gives the same value. -/
theorem jsNewFloat64_canonical (a : Arch) (d : Double) :
    jsToNumberBoxed (jsNewFloat64 d : Boxed a) = some d
      ∧ ((∃ w : JSValue a, jsNewFloat64 d = .word w ∧ jsIsInt w = true) ↔ IsShortInt d)
      ∧ (∀ w : JSValue a, jsNewFloat64 d = .word w → jsIsInt w = false →
        w.toNat % 8 = jsTagShortFloat ∧ jsIsShortFloat w = true ∧ jsIsPtr w = false
          ∧ w.toNat % 4 ≠ jsTagBool)
      ∧ (jsNewFloat64Soft d : Boxed a) = jsNewFloat64 d := by
  have htag : ∀ w : JSValue a, w.toNat % 8 = jsTagShortFloat → jsIsInt w = false := by
    intro w hw
    unfold jsTagShortFloat at hw
    simp only [jsIsInt, beq_eq_false_iff_ne]
    omega
  refine ⟨jsToNumberBoxed_jsNewFloat64 d, ?_, ?_, jsNewFloat64Soft_eq d⟩
  · rw [isShortInt_iff]
    constructor
    · rintro ⟨w, hw, hint⟩
      by_contra hno
      push Not at hno
      rw [jsNewFloat64_of_ne hno] at hw
      rw [htag w (jsNewFloat64Aux_word hw).2] at hint
      cases hint
    · rintro ⟨z, h1, h2, rfl⟩
      refine ⟨_, jsNewFloat64_ofInt h1 h2, ?_⟩
      exact jsIsInt_of_toInt32 (toInt32_jsNewShortInt (le_bits a) h1 h2)
  · intro w hw hint
    by_cases hs : ∃ z, jsShortIntMin ≤ z ∧ z ≤ jsShortIntMax ∧ d = Double.ofInt z
    · obtain ⟨z, h1, h2, rfl⟩ := hs
      rw [jsNewFloat64_ofInt h1 h2] at hw
      obtain rfl := Boxed.word.inj hw
      rw [jsIsInt_of_toInt32 (toInt32_jsNewShortInt (le_bits a) h1 h2)] at hint
      cases hint
    · push Not at hs
      rw [jsNewFloat64_of_ne hs] at hw
      obtain ⟨hfloat, hmod⟩ := jsNewFloat64Aux_word hw
      refine ⟨hmod, hfloat, ?_, ?_⟩
      · unfold jsTagShortFloat at hmod
        have hjsw : a = .jsw8 := by
          unfold jsIsShortFloat at hfloat
          exact jsw8_of_useShortFloat a (Bool.and_eq_true _ _ ▸ hfloat).1
        have h8 : a.jsw = 8 := congrArg Arch.jsw hjsw
        simp only [jsIsPtr, beq_eq_false_iff_ne, jsTagPtr, h8]
        omega
      · unfold jsTagShortFloat at hmod
        unfold jsTagBool
        omega

end Qjs
