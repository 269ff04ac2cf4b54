import Qjs.Value

/-!
# What a word stands for

`denote` reads back what the constructors of numbers and booleans store: a short integer
whatever is in its upper half (`denote_word_of_toInt32`), a short float
(`denote_jsToShortFloat`), and so every double (`denote_jsNewFloat64`).
-/

namespace Qjs

section Words

variable {n : ℕ}

theorem toInt32_ofInt32 (hn : 32 ≤ n) (z : ℤ) : toInt32 (ofInt32 z : BitVec n) = int32 z := by
  have h : (BitVec.ofInt n z).setWidth 32 = BitVec.ofInt 32 z := by
    apply BitVec.eq_of_toNat_eq
    have hd : (2 ^ 32 : ℤ) ∣ 2 ^ n := pow_dvd_pow 2 hn
    simp only [BitVec.toNat_setWidth, BitVec.toNat_ofInt]
    zify
    rw [Int.toNat_of_nonneg (Int.emod_nonneg _ (by positivity)),
      Int.toNat_of_nonneg (Int.emod_nonneg _ (by positivity))]
    push_cast
    exact Int.emod_emod_of_dvd _ hd
  rw [toInt32, ofInt32, h, int32]

theorem toInt32_ofUint32 (hn : 32 ≤ n) (z : ℤ) : toInt32 (ofUint32 z : BitVec n) = int32 z := by
  rw [toInt32, ofUint32, BitVec.setWidth_setWidth_of_le _ hn, BitVec.setWidth_eq, int32]

theorem int32_eq_self {z : ℤ} (h1 : -2 ^ 31 ≤ z) (h2 : z < 2 ^ 31) : int32 z = z := by
  rw [int32, BitVec.toInt_ofInt_eq_self (by norm_num) (by simpa using h1) (by simpa using h2)]

theorem toInt32_bounds (v : BitVec n) : -2 ^ 31 ≤ toInt32 v ∧ toInt32 v < 2 ^ 31 := by
  have h1 := BitVec.le_toInt (v.setWidth 32)
  have h2 := BitVec.toInt_lt (x := v.setWidth 32)
  exact ⟨by simpa [toInt32] using h1, by simpa [toInt32] using h2⟩

theorem toInt32_emod_two (v : BitVec n) : toInt32 v % 2 = (v.toNat % 2 : ℕ) := by
  rw [toInt32, BitVec.toInt_eq_toNat_cond, BitVec.toNat_setWidth]
  split_ifs <;> omega

/-- A word whose low half is even holds half of it. -/
theorem toInt32_of_jsIsInt {v : BitVec n} (h : jsIsInt v) : toInt32 v = 2 * jsValueGetInt v := by
  have h2 := toInt32_emod_two v
  simp only [jsIsInt, beq_iff_eq] at h
  rw [jsValueGetInt]
  omega

theorem jsIsInt_of_toInt32 {v : BitVec n} {z : ℤ} (h : toInt32 v = 2 * z) : jsIsInt v := by
  have h2 := toInt32_emod_two v
  simp only [jsIsInt, beq_iff_eq]
  omega

theorem jsValueGetInt_of_toInt32 {v : BitVec n} {z : ℤ} (h : toInt32 v = 2 * z) :
    jsValueGetInt v = z := by
  rw [jsValueGetInt]
  omega

theorem jsValueGetInt_bounds (v : BitVec n) :
    jsShortIntMin ≤ jsValueGetInt v ∧ jsValueGetInt v ≤ jsShortIntMax := by
  have := toInt32_bounds v
  rw [jsValueGetInt, jsShortIntMin, jsShortIntMax]
  omega

theorem toInt32_jsNewShortInt (hn : 32 ≤ n) {z : ℤ} (h1 : jsShortIntMin ≤ z)
    (h2 : z ≤ jsShortIntMax) : toInt32 (jsNewShortInt z : BitVec n) = 2 * z := by
  rw [jsShortIntMin] at h1
  rw [jsShortIntMax] at h2
  have h : int32 (2 * z) = 2 * z := int32_eq_self (by omega) (by omega)
  rw [jsNewShortInt, toInt32_ofInt32 hn, h, h]

theorem jsValueIsBothInt_iff {v w : BitVec n} :
    jsValueIsBothInt v w = true ↔ jsIsInt v = true ∧ jsIsInt w = true := by
  have h := @Nat.or_mod_two_eq_one v.toNat w.toNat
  simp only [jsValueIsBothInt, jsIsInt, beq_iff_eq, BitVec.toNat_or]
  omega

end Words

variable {a : Arch}

theorem le_bits (a : Arch) : 32 ≤ a.bits := by
  cases a <;> decide

theorem denote_word_of_toInt32 {v : JSValue a} {z : ℤ} (h : toInt32 v = 2 * z) :
    (Boxed.word v).denote = .number (Double.ofInt z) := by
  simp only [Boxed.denote, jsIsInt_of_toInt32 h, if_true, jsValueGetInt_of_toInt32 h]

theorem denote_jsNewShortInt {z : ℤ} (h1 : jsShortIntMin ≤ z) (h2 : z ≤ jsShortIntMax) :
    (Boxed.word (jsNewShortInt z : JSValue a)).denote = .number (Double.ofInt z) :=
  denote_word_of_toInt32 (toInt32_jsNewShortInt (le_bits a) h1 h2)

theorem denote_jsNewBool (b : Bool) :
    (Boxed.word (jsNewBool b : JSValue a)).denote = .boolean b := by
  cases a <;> cases b <;> rfl

/-! ### Short floats -/

theorem rotl64_rotl64 (x : BitVec 64) : rotl64 (rotl64 x 4) 60 = x := by
  ext i hi
  simp only [rotl64, BitVec.getElem_or, BitVec.getElem_shiftLeft, BitVec.getElem_ushiftRight,
    BitVec.getLsbD_or, BitVec.getLsbD_shiftLeft, BitVec.getLsbD_ushiftRight]
  grind

/-- The top four bits come to the bottom. -/
theorem toNat_rotl64_mod (x : BitVec 64) : (rotl64 x 4).toNat % 2 ^ 4 = x.toNat / 2 ^ 60 := by
  have hx : x.toNat / 2 ^ 60 < 2 ^ 4 := by omega
  rw [rotl64, BitVec.toNat_or, BitVec.toNat_shiftLeft, BitVec.toNat_ushiftRight, Nat.or_mod_two_pow,
    Nat.shiftRight_eq_div_pow, Nat.shiftLeft_eq, Nat.mod_eq_of_lt hx]
  have h0 : x.toNat * 2 ^ 4 % 2 ^ 64 % 2 ^ 4 = 0 := by omega
  rw [h0, Nat.zero_or]

theorem expField_of_inShortFloatRange {d : Double} (h : inShortFloatRange d) :
    896 ≤ d.expField ∧ d.expField ≤ 1151 := by
  simp only [inShortFloatRange, Bool.and_eq_true] at h
  have hx : Double.value? 0x3800000000000000#64 = some (2 ^ (-127 : ℤ)) := by
    rw [Double.value?_fin (show Double.decode _ = .fin false (2 ^ 52) (-179) by decide)]
    norm_num [Double.signed]
  have hy : Double.value? 0x47F0000000000000#64 = some (2 ^ (128 : ℤ)) := by
    rw [Double.value?_fin (show Double.decode _ = .fin false (2 ^ 52) 76 by decide)]
    norm_num [Double.signed]
  have := Double.expField_between (by norm_num) hx hy h.1 h.2
  omega

theorem toNat_jsFloat64ValueAddend : jsFloat64ValueAddend.toNat = 2 ^ 64 - 384 * 2 ^ 52 := by
  decide

/-- The three tag bits of a short float are the top of the rebased exponent. -/
theorem rebased_div {d : Double} (h : inShortFloatRange d) :
    (d - jsFloat64ValueAddend).toNat / 2 ^ 60 % 8 = 5 := by
  have he := expField_of_inShortFloatRange h
  have ha := toNat_jsFloat64ValueAddend
  rw [Double.expField] at he
  rw [BitVec.toNat_sub, ha]
  omega

variable (a) in
theorem jsw8_of_useShortFloat (h : a.useShortFloat = true) : a = .jsw8 := by
  cases a
  · cases h
  · rfl

theorem toNat_jsToShortFloat_mod {d : Double} (h : inShortFloatRange d) :
    (jsToShortFloat d : JSValue .jsw8).toNat % 8 = 5 := by
  have hb : Arch.bits .jsw8 = 64 := rfl
  have h1 := toNat_rotl64_mod (d - jsFloat64ValueAddend)
  have h2 := rebased_div h
  rw [jsToShortFloat, BitVec.toNat_setWidth, hb]
  omega

theorem jsGetShortFloat_jsToShortFloat (d : Double) :
    jsGetShortFloat (jsToShortFloat d : JSValue .jsw8) = d := by
  have hb : 64 ≤ Arch.bits .jsw8 := le_rfl
  simp only [jsGetShortFloat, jsToShortFloat]
  rw [BitVec.setWidth_setWidth_of_le _ hb, BitVec.setWidth_eq, rotl64_rotl64,
    BitVec.sub_add_cancel]

theorem denote_jsToShortFloat {d : Double} (ha : a.useShortFloat = true)
    (h : inShortFloatRange d) : (Boxed.word (jsToShortFloat d : JSValue a)).denote = .number d := by
  obtain rfl := jsw8_of_useShortFloat a ha
  have htag := toNat_jsToShortFloat_mod h
  have hint : jsIsInt (jsToShortFloat d : JSValue .jsw8) = false := by
    simp only [jsIsInt, beq_eq_false_iff_ne]
    omega
  have hfloat : jsIsShortFloat (jsToShortFloat d : JSValue .jsw8) = true := by
    simp only [jsIsShortFloat, Arch.useShortFloat, Bool.true_and, beq_iff_eq]
    exact htag
  simp only [Boxed.denote, hint, hfloat, jsGetShortFloat_jsToShortFloat, if_true,
    Bool.false_eq_true, if_false]

/-! ### Every double -/

theorem denote_jsNewFloat64Aux (d : Double) : (jsNewFloat64Aux d : Boxed a).denote = .number d := by
  unfold jsNewFloat64Aux
  split_ifs with h1 h2
  · rw [h1]
    rfl
  · rw [Bool.and_eq_true] at h2
    exact denote_jsToShortFloat h2.1 h2.2
  · rfl

/-- Towards zero, between two integers stays between them. -/
theorem trunc_between {d : Double} {lo hi : ℤ} {q : ℚ} (hq : d.value? = some q) (hlo : lo ≤ q)
    (hhi : q ≤ hi) : lo ≤ d.trunc ∧ d.trunc ≤ hi := by
  simp only [Double.trunc, hq]
  split_ifs with h
  · exact ⟨Int.le_floor.mpr hlo, by exact_mod_cast (Int.floor_le q).trans hhi⟩
  · exact ⟨by exact_mod_cast hlo.trans (Int.le_ceil q), Int.ceil_le.mpr hhi⟩

theorem denote_jsNewFloat64 (d : Double) : (jsNewFloat64 d : Boxed a).denote = .number d := by
  unfold jsNewFloat64
  split_ifs with hr hd
  · rw [Bool.and_eq_true] at hr
    have hlo : (Double.ofInt jsShortIntMin).value? = some ((jsShortIntMin : ℤ) : ℚ) :=
      Double.value?_ofInt (by decide)
    have hhi : (Double.ofInt jsShortIntMax).value? = some ((jsShortIntMax : ℤ) : ℚ) :=
      Double.value?_ofInt (by decide)
    obtain ⟨q, hq, h1, h2⟩ := Double.value?_between hlo hhi hr.1 hr.2
    obtain ⟨h3, h4⟩ := trunc_between hq h1 h2
    rw [denote_jsNewShortInt h3 h4, ← hd]
  · exact denote_jsNewFloat64Aux d
  · exact denote_jsNewFloat64Aux d

theorem denote_jsNewInt64 (z : ℤ) : (jsNewInt64 z : Boxed a).denote = .number (Double.ofInt z) := by
  unfold jsNewInt64
  split_ifs with h
  · simp only [int64IsShortInt, Bool.and_eq_true, decide_eq_true_eq] at h
    exact denote_jsNewShortInt h.1 h.2
  · exact denote_jsNewFloat64Aux _

end Qjs
