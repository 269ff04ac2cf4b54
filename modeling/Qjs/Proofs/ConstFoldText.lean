import Qjs.ConstFold
import Qjs.Lib.IntDouble
import Qjs.Proofs.AetherFormat
import Qjs.Proofs.DeadCode

/-!
# The texts of folded constants

How C reads the text that `create_numeric_literal` writes. `%lld` is read as the integer it is of
(`cRead_formatLld`). `%.10g` is read as a double just when its ten digits are no integer below
`10 ^ 10` (`cRead_formatG10`, `cRead_not_pointed`).
-/

namespace Qjs

namespace Aether

open JsonText Double ASTNode

/-! ### Reading -/

/-- A number in its parts, as C reads it. -/
structure Parts (t : List ℕ) (d : Decimal) (f x : List ℕ) : Prop where
  text : t = signText d.neg ++ (d.int ++ (f ++ x))
  int : IntText d.int
  frac : FracText f d.frac
  exp : ExpText x d.expNeg d.exp

variable {t f x : List ℕ} {d : Decimal}

theorem atof_parts (h : Parts t d f x) : atof t = d.double := by
  obtain ⟨rfl, hn, hf, hx⟩ := h
  have hpeek := peek_digits (intText_digits hn) (f ++ x)
  have hskip := (skipSign_eq (.inl (signText_signText d.neg)) hpeek).2
  have hword : ∀ c w, c = 0x69 ∨ c = 0x6e → ¬ (d.int ++ (f ++ x)).take 3 = c :: w := by
    intro c w hc h
    generalize d.int ++ (f ++ x) = s at hpeek h
    cases s with
    | nil => cases h
    | cons b s =>
      have hb : b = c := by simpa using congrArg List.head? h
      have hdigit : 0x30 ≤ b ∧ b ≤ 0x39 := hpeek
      omega
  have hd := strtod_text (signText_signText d.neg) hn hf hx
  unfold atof
  simp only [hskip, if_neg (hword 0x69 _ (.inl rfl)), if_neg (hword 0x6e _ (.inr rfl)), hd]

theorem all_isDigit {ds : List ℕ} (h : ∀ c ∈ ds, IsDigit c) : ds.all isDigit = true :=
  List.all_eq_true.2 fun c hc => isDigit_iff.2 (h c hc)

/-- There is a point or an exponent in the text. -/
theorem not_all_isDigit (hf : FracText f d.frac) (hx : ExpText x d.expNeg d.exp)
    (h : f ++ x ≠ []) : (d.int ++ (f ++ x)).all isDigit = false := by
  rw [List.all_append, Bool.and_eq_false_iff]
  refine .inr ?_
  have hx' : x ≠ [] → x.all isDigit = false := by
    generalize d.exp = es, d.expNeg = b at hx
    cases hx with
    | none => simp
    | some he => rcases he with rfl | rfl <;> simp [isDigit]
  generalize d.frac = ds at hf
  cases hf with
  | none => exact hx' h
  | some => simp [isDigit]

/-- A text with a point or an exponent is a floating constant. -/
theorem cConstant_float (h : Parts t d f x) (hneg : d.neg = false) (hne : f ++ x ≠ []) :
    cConstant t = some (.dbl d.double) := by
  obtain ⟨rfl, hn, hf, hx⟩ := h
  have hd := strtod_text (signText_signText d.neg) hn hf hx
  have hpeek := peek_digits (intText_digits hn) (f ++ x)
  rw [hneg] at hd ⊢
  change cConstant (d.int ++ (f ++ x)) = _
  change strtod (d.int ++ (f ++ x)) = _ at hd
  unfold cConstant
  rw [if_neg (by simp [not_all_isDigit hf hx hne]),
    if_pos ⟨.inl (isDigit_iff.2 hpeek), by rw [hd]⟩, hd]

/-- The value of an integer that fits. -/
def integer (n : ℕ) : CVal := if n < 2 ^ 31 then .int n else .long n

theorem integer_num (n : ℕ) : (integer n).num = .inl n := by
  unfold integer
  split_ifs <;> rfl

theorem not_octal {n : List ℕ} (h : IntText n) : ¬ (n.head? = some 0x30 ∧ 1 < n.length) := by
  rintro ⟨h0, hlen⟩
  rcases h with rfl | ⟨-, h⟩
  · simp at hlen
  · exact h h0

theorem cConstant_intText {n : List ℕ} (h : IntText n) :
    cConstant n = if digitsValue n < 2 ^ 63 then some (integer (digitsValue n)) else none := by
  have hd := intText_digits h
  unfold cConstant integer
  rw [if_pos ⟨hd.1, all_isDigit hd.2⟩, if_neg (not_octal h)]
  by_cases h31 : digitsValue n < 2 ^ 31
  · rw [if_pos h31, if_pos (h31.trans (by norm_num)), if_pos h31]
  · rw [if_neg h31, if_neg h31]

theorem cConstant_num {n : List ℕ} {v : CVal} (h : IntText n) (hv : cConstant n = some v) :
    v.num = .inl (digitsValue n) := by
  rw [cConstant_intText h] at hv
  split_ifs at hv with hfits
  cases hv
  exact integer_num _

theorem cRead_sign (neg : Bool) {s : List ℕ} (h : peek s ≠ 0x2d) :
    cRead (signText neg ++ s) = (cConstant s).map fun x => if neg then x.neg else x := by
  cases neg
  · change cRead s = _
    rw [cRead, if_neg h]
    simp
  · rfl

theorem CVal.neg_num {v : CVal} {n : ℤ} (h : v.num = .inl n) : v.neg.num = .inl (-n) := by
  cases v with
  | int m => cases h; rfl
  | long m => cases h; rfl
  | dbl d => cases h

theorem peek_ne_minus {n : List ℕ} (h : Digits n) (r : List ℕ) : peek (n ++ r) ≠ 0x2d := by
  have hd : 0x30 ≤ peek (n ++ r) ∧ _ := peek_digits h r
  omega

/-! ### Integers -/

theorem intText_natText (n : ℕ) : IntText (natText n) := by
  unfold natText
  by_cases h0 : n = 0
  · subst h0
    exact .inl rfl
  · refine .inr ⟨⟨?_, decDigits_digit _ _⟩, decDigits_head _ _ ?_ ?_⟩
    · intro h
      have hlen := congrArg List.length h
      rw [decDigits_length] at hlen
      cases hlen
    · exact Nat.pow_log_le_self 10 h0
    · exact Nat.lt_pow_succ_log_self (by norm_num) n

@[simp] theorem digitsValue_natText (n : ℕ) : digitsValue (natText n) = n :=
  digitsValue_decDigits _ _ (Nat.lt_pow_succ_log_self (by norm_num) n)

theorem parts_formatLld (z : ℤ) :
    Parts (formatLld z) ⟨decide (z < 0), natText z.natAbs, [], false, []⟩ [] [] :=
  ⟨by simp [formatLld], intText_natText _, .none, .none⟩

/-- `%lld` is read back as its number is rounded. -/
theorem atof_formatLld (z : ℤ) : atof (formatLld z) = ofInt z := by
  rw [atof_parts (parts_formatLld z), Decimal.double]
  simp only [Decimal.magnitude, Decimal.exponent, digitsValue_nil, List.append_nil,
    digitsValue_natText, List.length_nil, Bool.false_eq_true, if_false, Nat.cast_zero, sub_zero,
    zpow_zero, mul_one]
  rw [ofRat_natCast, ofInt]

theorem cRead_sign_natText (z : ℤ) : cRead (formatLld z) =
    (cConstant (natText z.natAbs)).map fun v => if decide (z < 0) then v.neg else v := by
  have hpeek := peek_ne_minus (intText_digits (intText_natText z.natAbs)) []
  rw [List.append_nil] at hpeek
  exact cRead_sign _ hpeek

theorem cRead_formatLld {z : ℤ} (hlo : -2 ^ 63 < z) (hhi : z < 2 ^ 63) :
    ∃ v, cRead (formatLld z) = some v ∧ v.num = .inl z := by
  have hnum := integer_num z.natAbs
  rw [cRead_sign_natText, cConstant_intText (intText_natText _), digitsValue_natText,
    if_pos (by omega), Option.map_some]
  refine ⟨_, rfl, ?_⟩
  by_cases hneg : z < 0
  · rw [if_pos (by simpa using hneg), CVal.neg_num hnum]
    congr 1
    omega
  · rw [if_neg (by simpa using hneg), hnum]
    congr 1
    omega

/-- The magnitude of the least `long` has no signed type. -/
theorem cRead_formatLld_min : cRead (formatLld (-2 ^ 63)) = none := by
  rw [cRead_sign_natText, cConstant_intText (intText_natText _), digitsValue_natText,
    if_neg (by norm_num), Option.map_none]

/-! ### Doubles -/

theorem stripZeros_eq_nil {ds : List ℕ} (h : ∀ c ∈ ds, IsDigit c) :
    stripZeros ds = [] ↔ digitsValue ds = 0 := by
  have hz := digitsValue_foldl ds 0 (all_isDigit h)
  have hv : digitsValue ds = 0 ↔ ds.any (· != 0x30) = false := by
    rw [digitsValue, hz]
    simp
  rw [hv, stripZeros, List.reverse_eq_nil_iff, List.dropWhile_eq_nil_iff, List.any_eq_false]
  simp

theorem pointText_all (ds : List ℕ) :
    (pointText ds).all isDigit = true ↔ ds = [] := by
  unfold pointText
  split_ifs with h0
  · simp [h0]
  · simp [isDigit, h0]

section Digits

variable {n m : ℕ} {x : ℤ} (h1 : 10 ^ n ≤ m) (h2 : m < 10 ^ (n + 1))

include h1 h2

/-- Below one. -/
theorem scaled_ne_natCast_of_neg (hx : x < 0) (k : ℕ) : (m : ℚ) * 10 ^ (x - n) ≠ k := by
  intro h
  have hm : (0 : ℚ) < m := by
    exact_mod_cast (by positivity : 0 < 10 ^ n).trans_le h1
  have hpos : (0 : ℚ) < k := h ▸ mul_pos hm (ten_zpow_pos _)
  have hlt : (m : ℚ) < 10 ^ (n + 1) := by exact_mod_cast h2
  have hone : (k : ℚ) < 1 := by
    calc (k : ℚ) = m * 10 ^ (x - n) := h.symm
      _ < 10 ^ (n + 1) * 10 ^ (x - n) := mul_lt_mul_of_pos_right hlt (ten_zpow_pos _)
      _ = 10 ^ (x + 1) := by
        rw [← zpow_natCast, ← zpow_add₀ (by norm_num)]
        congr 1
        push_cast
        ring
      _ ≤ 1 := zpow_le_one_of_nonpos₀ (by norm_num) (by omega)
  have hk : 0 < k := by exact_mod_cast hpos
  have hk' : k < 1 := by exact_mod_cast hone
  omega

omit h2 in
theorem le_scaled (hx : (n : ℤ) < x) : (10 : ℚ) ^ (n + 1) ≤ m * 10 ^ (x - n) := by
  have hm : (10 : ℚ) ^ n ≤ m := by exact_mod_cast h1
  calc (10 : ℚ) ^ (n + 1) = 10 ^ ((n : ℤ) + 1) := by norm_cast
    _ ≤ 10 ^ x := zpow_le_zpow_right₀ (by norm_num) (by omega)
    _ = 10 ^ n * 10 ^ (x - n) := by
      rw [← zpow_natCast, ← zpow_add₀ (by norm_num)]
      congr 1
      ring
    _ ≤ m * 10 ^ (x - n) := mul_le_mul_of_nonneg_right hm (ten_zpow_pos _).le

omit h1 in
/-- The number has no digit after the point. -/
theorem scaled_natCast_iff {a b j : ℕ} (hj : j ≤ n) (hm : m = a * 10 ^ (n - j) + b)
    (hb : b < 10 ^ (n - j)) :
    b = 0 ↔ ∃ k : ℕ, k < 10 ^ (n + 1) ∧ (m : ℚ) * 10 ^ ((j : ℤ) - n) = k := by
  have hpow : (10 : ℚ) ^ ((j : ℤ) - n) * 10 ^ (n - j) = 1 := by
    rw [← zpow_natCast, ← zpow_add₀ (by norm_num), Nat.cast_sub hj]
    simp
  constructor
  · rintro rfl
    have hpos : 0 < 10 ^ (n - j) := by positivity
    have ha : a ≤ m := by
      rw [hm, Nat.add_zero]
      exact Nat.le_mul_of_pos_right a hpos
    refine ⟨a, ha.trans_lt h2, ?_⟩
    calc (m : ℚ) * 10 ^ ((j : ℤ) - n) = a * (10 ^ ((j : ℤ) - n) * 10 ^ (n - j)) := by
          rw [hm]
          push_cast
          ring
      _ = a := by rw [hpow, mul_one]
  · rintro ⟨k, -, hk⟩
    have hmk : m = k * 10 ^ (n - j) := by
      have : (m : ℚ) = k * 10 ^ (n - j) := by
        rw [← hk, mul_assoc, hpow, mul_one]
      exact_mod_cast this
    have hmod := congrArg (· % 10 ^ (n - j)) (hm.symm.trans hmk)
    simpa [Nat.mod_eq_of_lt hb] using hmod

theorem textF_all (hx : x ≤ n) : (textF (decDigits (n + 1) m) x).all isDigit = true ↔
    ∃ k : ℕ, k < 10 ^ (n + 1) ∧ (m : ℚ) * 10 ^ (x - n) = k := by
  have hval := digitsValue_decDigits (n + 1) m h2
  have hdig := decDigits_digit (n + 1) m
  have hlen := decDigits_length (n + 1) m
  unfold textF
  split_ifs with h0
  · obtain ⟨j, rfl⟩ : ∃ j : ℕ, x = j := ⟨x.toNat, by omega⟩
    have hj : j ≤ n := by exact_mod_cast hx
    rw [Int.toNat_natCast]
    generalize decDigits (n + 1) m = ds at hval hdig hlen
    have hdrop : ∀ c ∈ ds.drop (j + 1), IsDigit c := fun c hc => hdig c (List.mem_of_mem_drop hc)
    have htake : ∀ c ∈ ds.take (j + 1), IsDigit c := fun c hc => hdig c (List.mem_of_mem_take hc)
    have hdl : (ds.drop (j + 1)).length = n - j := by
      rw [List.length_drop, hlen]
      omega
    have hm : m = digitsValue (ds.take (j + 1)) * 10 ^ (n - j) + digitsValue (ds.drop (j + 1)) := by
      rw [← hdl, ← digitsValue_append, List.take_append_drop, hval]
    have hb : digitsValue (ds.drop (j + 1)) < 10 ^ (n - j) := by
      rw [← hdl]
      exact digitsValue_lt hdrop
    rw [List.all_append, all_isDigit htake, Bool.true_and,
      pointText_all, stripZeros_eq_nil hdrop]
    exact scaled_natCast_iff h2 hj hm hb
  · have hneg : x < 0 := by omega
    have hno : ¬ ∃ k : ℕ, k < 10 ^ (n + 1) ∧ (m : ℚ) * 10 ^ (x - n) = k := by
      rintro ⟨k, -, hk⟩
      exact scaled_ne_natCast_of_neg h1 h2 hneg k hk
    have hz : ∀ c ∈ List.replicate (-x - 1).toNat 0x30 ++ decDigits (n + 1) m, IsDigit c := by
      intro c hc
      rcases List.mem_append.1 hc with hc | hc
      · rw [List.eq_of_mem_replicate hc]
        unfold IsDigit
        omega
      · exact hdig c hc
    have hm0 : m ≠ 0 := by
      have : 0 < 10 ^ n := by positivity
      omega
    rw [List.all_cons, Bool.and_eq_true, pointText_all,
      stripZeros_eq_nil hz, digitsValue_append, replicate_zeros, hval]
    simp [hm0, hno]

theorem textE_all (hx : x < 0 ∨ n < x) : (textE (decDigits (n + 1) m) x).all isDigit = false ∧
    ¬ ∃ k : ℕ, k < 10 ^ (n + 1) ∧ (m : ℚ) * 10 ^ (x - n) = k := by
  constructor
  · simp [textE, isDigit]
  · rintro ⟨k, hk, heq⟩
    rcases hx with hx | hx
    · exact scaled_ne_natCast_of_neg h1 h2 hx k heq
    · have hle := le_scaled h1 hx
      rw [heq] at hle
      have : 10 ^ (n + 1) ≤ k := by exact_mod_cast hle
      omega

end Digits

theorem signText_eq {s : List ℕ} {neg : Bool} (h : SignText s neg) : s = signText neg := by
  cases h <;> rfl

theorem parts_of_prints {neg : Bool} {q : ℚ} (h : Prints t neg q) :
    ∃ d f x, Parts t d f x ∧ d.neg = neg ∧ d.magnitude = q := by
  obtain ⟨d, hneg, hq, -, htext⟩ := h
  have h0 := htext []
  rw [List.append_nil] at h0
  cases h0 with
  | @mk s f x _ _ hs hn hf hx =>
    refine ⟨d, f, x, ⟨?_, hn, hf, hx⟩, hneg, hq⟩
    rw [signText_eq hs, List.append_nil]

/-- The text without its sign is all digits just when its parts after the point are empty. -/
theorem Parts.all_iff (h : Parts t d f x) :
    (d.int ++ (f ++ x)).all isDigit = true ↔ f ++ x = [] := by
  constructor
  · intro hall
    by_contra hne
    rw [not_all_isDigit h.frac h.exp hne] at hall
    cases hall
  · intro hnil
    rw [hnil, List.append_nil]
    exact all_isDigit (intText_digits h.int).2

/-- Ten digits that make an integer below `10 ^ 10`. -/
def Whole (q : ℚ) : Prop := ∃ k : ℕ, k < 10 ^ 10 ∧ sigValue 10 q = k

theorem prints_textG10 (neg : Bool) {q : ℚ} (hq : 0 ≤ q) :
    Prints (signText neg ++ textG10 q) neg (sigValue 10 q)
      ∧ ((textG10 q).all isDigit = true ↔ Whole q) := by
  unfold textG10 Whole
  split_ifs with h0
  · subst h0
    have hq : Decimal.magnitude ⟨neg, [0x30], [], false, []⟩ = sigValue 10 0 := by
      simp [Decimal.magnitude, digitsValue]
    refine ⟨prints_of_parts (.inl rfl) (by simp) .none (by simp) hq, ?_⟩
    simp only [sigValue_zero, List.all_cons, List.all_nil, Bool.and_true]
    exact ⟨fun _ => ⟨0, by norm_num, by norm_num⟩, fun _ => rfl⟩
  · have hpos : 0 < q := lt_of_le_of_ne hq (Ne.symm h0)
    obtain ⟨hm1, hm2⟩ := sigDigits_bounds (n := 10) (by norm_num) hpos
    have hv : sigValue 10 q = (sigDigits 10 q).1 * 10 ^ ((sigDigits 10 q).2 - (9 : ℕ)) := by
      unfold sigValue
      norm_num
    rw [hv]
    generalize sigDigits 10 q = s at hm1 hm2
    obtain ⟨m, x⟩ := s
    simp only at hm1 hm2 ⊢
    split_ifs with hx
    · exact ⟨prints_textF hm1 hm2 neg (by norm_num) hx.1 (by push_cast; omega),
        textF_all hm1 hm2 (by push_cast; omega)⟩
    · obtain ⟨h1, h2⟩ := textE_all hm1 hm2 (x := x) (by push_cast; omega)
      refine ⟨prints_textE hm1 hm2 neg (by norm_num), ?_⟩
      rw [h1]
      exact ⟨fun h => absurd h (by simp), fun h => absurd h h2⟩

theorem pointed_iff {res : Double} {neg : Bool} {m : ℕ} {e : ℤ} (h : res.decode = .fin neg m e) :
    Pointed res ↔ ¬ Whole (m * 2 ^ e) := by
  unfold Pointed Whole
  constructor
  · rintro ⟨_, _, _, h', hk⟩ ⟨k, hlt, heq⟩
    rw [h] at h'
    cases h'
    exact hk k hlt heq
  · intro hno
    exact ⟨neg, m, e, h, fun k hlt heq => hno ⟨k, hlt, heq⟩⟩

/-- The parts of what `%.10g` writes of a finite double. -/
theorem parts_formatG10 {res : Double} {neg : Bool} {m : ℕ} {e : ℤ}
    (h : res.decode = .fin neg m e) : ∃ d f x, Parts (formatG10 res) d f x
      ∧ d.double = tenDouble res ∧ (f ++ x ≠ [] ↔ Pointed res) := by
  obtain ⟨hprints, hall⟩ := prints_textG10 neg (q := m * 2 ^ e) (by positivity)
  obtain ⟨d, f, x, hparts, hneg, hmag⟩ := parts_of_prints hprints
  refine ⟨d, f, x, ?_, ?_, ?_⟩
  · rwa [formatG10, h]
  · rw [Decimal.double, hneg, hmag, tenDouble, h]
  · have htext : textG10 (m * 2 ^ e) = d.int ++ (f ++ x) := by
      have := hparts.text
      rw [hneg] at this
      exact List.append_cancel_left this
    rw [pointed_iff h, ← hall, htext, hparts.all_iff]

/-- `%.10g` with a point or an exponent is read as the double of its ten digits. -/
theorem atof_formatG10 {res : Double} (h : Pointed res) : atof (formatG10 res) = tenDouble res := by
  obtain ⟨neg, m, e, hdec, -⟩ := id h
  obtain ⟨d, f, x, hparts, hd, -⟩ := parts_formatG10 hdec
  rw [atof_parts hparts, hd]

theorem cRead_parts (h : Parts t d f x) :
    cRead t = (cConstant (d.int ++ (f ++ x))).map fun v => if d.neg then v.neg else v := by
  rw [h.text]
  exact cRead_sign _ (peek_ne_minus (intText_digits h.int) _)

theorem cRead_formatG10 {res : Double} (h : Pointed res) :
    cRead (formatG10 res) = some (.dbl (tenDouble res)) := by
  obtain ⟨neg, m, e, hdec, -⟩ := id h
  obtain ⟨d, f, x, hparts, hd, hne⟩ := parts_formatG10 hdec
  have hfloat := cConstant_float (t := d.int ++ (f ++ x)) (d := { d with neg := false })
    ⟨rfl, hparts.int, hparts.frac, hparts.exp⟩ rfl (hne.2 h)
  rw [cRead_parts hparts, hfloat, ← hd, Option.map_some]
  obtain ⟨neg, n, fr, eneg, es⟩ := d
  cases neg
  · rfl
  · simp only [if_true, CVal.neg, Decimal.double, neg_ofRat]
    rfl

/-- A text without a point is no double to C. -/
theorem cRead_not_pointed {res : Double} (h : ¬ Pointed res) (y : Double) :
    cRead (formatG10 res) ≠ some (.dbl y) := by
  rcases hdec : res.decode with _ | neg | ⟨neg, m, e⟩
  · rw [formatG10, hdec]
    cases res.msb <;> simp [signText, cRead, peek, cConstant, isDigit]
  · rw [formatG10, hdec]
    cases neg <;> simp [signText, cRead, peek, cConstant, isDigit]
  · obtain ⟨d, f, x, hparts, -, hne⟩ := parts_formatG10 hdec
    have hnil : f ++ x = [] := by
      by_contra hf
      exact h (hne.1 hf)
    rw [cRead_parts hparts, hnil, List.append_nil]
    intro heq
    obtain ⟨v, hv, heq⟩ := Option.map_eq_some_iff.1 heq
    have hnum := congrArg CVal.num heq
    have hint := cConstant_num hparts.int hv
    by_cases hneg : d.neg = true
    · rw [if_pos hneg, CVal.neg_num hint] at hnum
      cases hnum
    · rw [if_neg hneg, hint] at hnum
      cases hnum

end Aether

end Qjs
