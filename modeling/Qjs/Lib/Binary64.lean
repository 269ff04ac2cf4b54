import Mathlib

/-!
# Doubles as bit patterns

A double is its 64-bit pattern. `decode` reads it as a NaN, an infinity or `± m * 2 ^ e`, and
every operation is the exact result rounded once, to nearest with ties to even (`ofScaled`).

Rounding only depends on the number, not on how it is scaled (`ofScaled_mul_two_pow`), so on
integers below `2 ^ 53` the arithmetic is the integers' own, rounded at the end (`add_ofInt`,
`sub_ofInt`, `mul_ofInt`).
-/

namespace Qjs

/-- The bit pattern of a double. -/
abbrev Double := BitVec 64

namespace Double

/-- What a pattern stands for; a finite one is `± m * 2 ^ e`. -/
inductive Class
  | nan
  | inf (neg : Bool)
  | fin (neg : Bool) (m : ℕ) (e : ℤ)
  deriving DecidableEq, Repr

def expField (d : Double) : ℕ := d.toNat / 2 ^ 52 % 2 ^ 11

def fracField (d : Double) : ℕ := d.toNat % 2 ^ 52

def decode (d : Double) : Class :=
  if d.expField = 2047 then
    if d.fracField = 0 then .inf d.msb else .nan
  else if d.expField = 0 then .fin d.msb d.fracField (-1074)
  else .fin d.msb (2 ^ 52 + d.fracField) (d.expField - 1075)

/-- `m / 2 ^ k`, to nearest, ties to even. -/
def shiftRightEven (m k : ℕ) : ℕ :=
  if 2 * (m % 2 ^ k) < 2 ^ k then m / 2 ^ k
  else if 2 ^ k < 2 * (m % 2 ^ k) then m / 2 ^ k + 1
  else m / 2 ^ k + m / 2 ^ k % 2

/-- The exponent of the last place of the double nearest to `m * 2 ^ e`. -/
def ulpExp (m : ℕ) (e : ℤ) : ℤ := max (Nat.log2 m + e - 52) (-1074)

/-- The pattern of the magnitude nearest to `m * 2 ^ e`: a carry out of the significand goes on
into the exponent field, and what is too large is the infinity. -/
def magnitude (m : ℕ) (e : ℤ) : ℕ :=
  if m = 0 then 0
  else min ((ulpExp m e + 1074).toNat * 2 ^ 52
    + shiftRightEven (m * 2 ^ (e - ulpExp m e).toNat) (ulpExp m e - e).toNat) (2047 * 2 ^ 52)

/-- The double nearest to `± m * 2 ^ e`. -/
def ofScaled (neg : Bool) (m : ℕ) (e : ℤ) : Double :=
  BitVec.ofNat 64 (neg.toNat * 2 ^ 63 + magnitude m e)

/-- The conversion of an integer to a double. -/
def ofInt (z : ℤ) : Double := ofScaled (z < 0) z.natAbs 0

def qnan : Double := 0x7ff8000000000000

def minusZero : Double := 0x8000000000000000

def signed (neg : Bool) (m : ℕ) : ℤ := if neg then -m else m

/-- The number a finite pattern stands for. -/
def value? (d : Double) : Option ℚ :=
  match d.decode with
  | .fin neg m e => some (signed neg m * 2 ^ e)
  | _ => none

/-- The exact sum `± m₁ * 2 ^ e₁ ± m₂ * 2 ^ e₂`, rounded; an exact zero is negative only when
both terms are. -/
def addScaled (n₁ : Bool) (m₁ : ℕ) (e₁ : ℤ) (n₂ : Bool) (m₂ : ℕ) (e₂ : ℤ) : Double :=
  let e := min e₁ e₂
  let s := signed n₁ m₁ * 2 ^ (e₁ - e).toNat + signed n₂ m₂ * 2 ^ (e₂ - e).toNat
  if s = 0 then ofScaled (n₁ && n₂) 0 0 else ofScaled (s < 0) s.natAbs e

def add (x y : Double) : Double :=
  match x.decode, y.decode with
  | .nan, _ => qnan
  | _, .nan => qnan
  | .inf n, .inf n' => if n = n' then x else qnan
  | .inf _, .fin .. => x
  | .fin .., .inf _ => y
  | .fin n₁ m₁ e₁, .fin n₂ m₂ e₂ => addScaled n₁ m₁ e₁ n₂ m₂ e₂

/-- The sign bit flipped. -/
def neg (x : Double) : Double := x ^^^ minusZero

def sub (x y : Double) : Double := add x (neg y)

def mul (x y : Double) : Double :=
  match x.decode, y.decode with
  | .nan, _ => qnan
  | _, .nan => qnan
  | .inf n, .inf n' => ofScaled (n ^^ n') 1 1024
  | .inf n, .fin n' m _ => if m = 0 then qnan else ofScaled (n ^^ n') 1 1024
  | .fin n m _, .inf n' => if m = 0 then qnan else ofScaled (n ^^ n') 1 1024
  | .fin n₁ m₁ e₁, .fin n₂ m₂ e₂ => ofScaled (n₁ ^^ n₂) (m₁ * m₂) (e₁ + e₂)

/-- The order of the doubles that are not NaNs, infinities at the ends. -/
def toExtended (d : Double) : Option (WithBot (WithTop ℚ)) :=
  match d.decode with
  | .nan => none
  | .inf true => some ⊥
  | .inf false => some ((⊤ : WithTop ℚ) : WithBot (WithTop ℚ))
  | .fin neg m e => some (((signed neg m * 2 ^ e : ℚ) : WithTop ℚ) : WithBot (WithTop ℚ))

/-- `x < y`, false when one is a NaN. -/
def lt (x y : Double) : Bool :=
  match x.toExtended, y.toExtended with
  | some a, some b => a < b
  | _, _ => false

/-- `x <= y`, false when one is a NaN. -/
def le (x y : Double) : Bool :=
  match x.toExtended, y.toExtended with
  | some a, some b => a ≤ b
  | _, _ => false

/-- `x == y`, false when one is a NaN, and the two zeros are equal. -/
def eq (x y : Double) : Bool :=
  match x.toExtended, y.toExtended with
  | some a, some b => a = b
  | _, _ => false

/-- The sign bit cleared. -/
def fabs (x : Double) : Double := x &&& ~~~minusZero

/-- The conversion to an integer type, towards zero; what has no integer part is left at 0. -/
def trunc (x : Double) : ℤ :=
  match x.value? with
  | some q => if 0 ≤ q then ⌊q⌋ else ⌈q⌉
  | none => 0

/-! ### Rounding does not see the scale -/

theorem shiftRightEven_mul_two_pow (m j k : ℕ) :
    shiftRightEven (m * 2 ^ k) (j + k) = shiftRightEven m j := by
  have hk : 0 < 2 ^ k := by positivity
  have hmod : m * 2 ^ k % 2 ^ (j + k) = m % 2 ^ j * 2 ^ k := by
    rw [pow_add, Nat.mul_mod_mul_right]
  have hdiv : m * 2 ^ k / 2 ^ (j + k) = m / 2 ^ j := by
    rw [pow_add, Nat.mul_div_mul_right _ _ hk]
  have hlt : 2 * (m % 2 ^ j * 2 ^ k) < 2 ^ (j + k) ↔ 2 * (m % 2 ^ j) < 2 ^ j := by
    rw [pow_add, ← mul_assoc, Nat.mul_lt_mul_right hk]
  have hgt : 2 ^ (j + k) < 2 * (m % 2 ^ j * 2 ^ k) ↔ 2 ^ j < 2 * (m % 2 ^ j) := by
    rw [pow_add, ← mul_assoc, Nat.mul_lt_mul_right hk]
  simp only [shiftRightEven, hmod, hdiv, hlt, hgt]

theorem shiftRightEven_zero (m : ℕ) : shiftRightEven m 0 = m := by
  simp [shiftRightEven, Nat.mod_one]

theorem log2_mul_two_pow {m : ℕ} (hm : m ≠ 0) (k : ℕ) :
    Nat.log2 (m * 2 ^ k) = Nat.log2 m + k := by
  simp only [Nat.log2_eq_log_two]
  induction k with
  | zero => simp
  | succ k ih =>
    rw [pow_succ, ← mul_assoc, Nat.log_mul_base (by norm_num) (by positivity), ih]
    rfl

theorem magnitude_mul_two_pow (m k : ℕ) (e : ℤ) :
    magnitude (m * 2 ^ k) e = magnitude m (e + k) := by
  by_cases hm : m = 0
  · simp [magnitude, hm]
  have hmk : m * 2 ^ k ≠ 0 := by positivity
  have hq : ulpExp (m * 2 ^ k) e = ulpExp m (e + k) := by
    simp only [ulpExp, log2_mul_two_pow hm]
    congr 1
    push_cast
    ring
  simp only [magnitude, hm, hmk, if_false, hq]
  set q := ulpExp m (e + k)
  congr 2
  rcases le_or_gt q (e + k) with h | h
  · -- the wider significand is cut back to the shorter one, exactly
    have h1 : m * 2 ^ k * 2 ^ (e - q).toNat
        = m * 2 ^ (e + k - q).toNat * 2 ^ (q - e).toNat := by
      rw [mul_assoc, mul_assoc, ← pow_add, ← pow_add]
      congr 2
      omega
    have h2 : (q - (e + k)).toNat = 0 := by omega
    have h3 := shiftRightEven_mul_two_pow (m * 2 ^ (e + k - q).toNat) 0 (q - e).toNat
    rw [Nat.zero_add] at h3
    rw [h1, h2, h3]
  · have h1 : (e - q).toNat = 0 := by omega
    have h2 : (e + k - q).toNat = 0 := by omega
    have h3 : (q - e).toNat = (q - (e + k)).toNat + k := by omega
    rw [h1, h2, h3, pow_zero, mul_one, mul_one, shiftRightEven_mul_two_pow]

theorem ofScaled_mul_two_pow (neg : Bool) (m k : ℕ) (e : ℤ) :
    ofScaled neg (m * 2 ^ k) e = ofScaled neg m (e + k) := by
  simp only [ofScaled, magnitude_mul_two_pow]

theorem magnitude_lt (m : ℕ) (e : ℤ) : magnitude m e < 2 ^ 63 := by
  unfold magnitude
  split_ifs
  · norm_num
  · exact (min_le_right _ _).trans_lt (by norm_num)

theorem toNat_ofScaled (neg : Bool) (m : ℕ) (e : ℤ) :
    (ofScaled neg m e).toNat = neg.toNat * 2 ^ 63 + magnitude m e := by
  have h := magnitude_lt m e
  have hb : neg.toNat ≤ 1 := Bool.toNat_le neg
  rw [ofScaled, BitVec.toNat_ofNat]
  exact Nat.mod_eq_of_lt (by omega)

theorem msb_ofScaled (neg : Bool) (m : ℕ) (e : ℤ) : (ofScaled neg m e).msb = neg := by
  have h := magnitude_lt m e
  rw [BitVec.msb_eq_decide, toNat_ofScaled]
  cases neg
  · simp only [Bool.toNat_false, zero_mul, zero_add, decide_eq_false_iff_not]
    omega
  · simp only [Bool.toNat_true, decide_eq_true_eq]
    omega

/-! ### Integers -/

/-- The significand of an integer below `2 ^ 53`, moved up to its full width. -/
theorem full_width {m : ℕ} (hm : m ≠ 0) (h : m < 2 ^ 53) :
    Nat.log2 m ≤ 52 ∧ 2 ^ 52 ≤ m * 2 ^ (52 - Nat.log2 m)
      ∧ m * 2 ^ (52 - Nat.log2 m) < 2 ^ 53 := by
  have hl : Nat.log2 m ≤ 52 := by
    have := (Nat.log2_lt hm).2 h
    omega
  have hlo : 2 ^ Nat.log2 m ≤ m := Nat.log2_self_le hm
  have hhi : m < 2 ^ (Nat.log2 m + 1) := Nat.lt_log2_self
  refine ⟨hl, ?_, ?_⟩
  · calc 2 ^ 52 = 2 ^ Nat.log2 m * 2 ^ (52 - Nat.log2 m) := by rw [← pow_add]; congr 1; omega
      _ ≤ m * 2 ^ (52 - Nat.log2 m) := Nat.mul_le_mul_right _ hlo
  · calc m * 2 ^ (52 - Nat.log2 m)
        < 2 ^ (Nat.log2 m + 1) * 2 ^ (52 - Nat.log2 m) :=
          Nat.mul_lt_mul_of_pos_right hhi (by positivity)
      _ = 2 ^ 53 := by rw [← pow_add]; congr 1; omega

/-- What fits the significand and the normal range is not rounded. -/
theorem magnitude_exact {m : ℕ} {e : ℤ} (hm : m ≠ 0) (h : m < 2 ^ 53)
    (h1 : -1022 ≤ Nat.log2 m + e) (h2 : Nat.log2 m + e ≤ 1023) :
    magnitude m e = (Nat.log2 m + e + 1022).toNat * 2 ^ 52 + m * 2 ^ (52 - Nat.log2 m) := by
  obtain ⟨hl, -, hM⟩ := full_width hm h
  have hq : ulpExp m e = Nat.log2 m + e - 52 := by
    simp only [ulpExp]
    omega
  have e1 : (e - (Nat.log2 m + e - 52)).toNat = 52 - Nat.log2 m := by omega
  have e2 : ((Nat.log2 m : ℤ) + e - 52 - e).toNat = 0 := by omega
  have e3 : ((Nat.log2 m : ℤ) + e - 52 + 1074).toNat = (Nat.log2 m + e + 1022).toNat := by
    omega
  have hx : (Nat.log2 m + e + 1022).toNat ≤ 2045 := by omega
  rw [magnitude, if_neg hm, hq, e1, e2, e3, shiftRightEven_zero]
  refine min_eq_left ?_
  calc (Nat.log2 m + e + 1022).toNat * 2 ^ 52 + m * 2 ^ (52 - Nat.log2 m)
      ≤ 2045 * 2 ^ 52 + 2 ^ 53 := add_le_add (Nat.mul_le_mul_right _ hx) hM.le
    _ = 2047 * 2 ^ 52 := by norm_num

theorem toNat_ofInt_of_pos {z : ℤ} (h0 : 0 < z) (h : z.natAbs < 2 ^ 53) :
    (ofInt z).toNat
      = (Nat.log2 z.natAbs + 1022) * 2 ^ 52 + z.natAbs * 2 ^ (52 - Nat.log2 z.natAbs) := by
  have hz : z.natAbs ≠ 0 := by omega
  have hs : decide (z < 0) = false := decide_eq_false (by omega)
  have hl := (full_width hz h).1
  have hmag := magnitude_exact (e := 0) hz h (by omega) (by omega)
  rw [show ((Nat.log2 z.natAbs : ℤ) + 0 + 1022).toNat = Nat.log2 z.natAbs + 1022 by omega] at hmag
  rw [ofInt, toNat_ofScaled, hs, hmag, Bool.toNat_false, zero_mul, zero_add]

/-- What fits the significand and the normal range keeps its value. -/
theorem decode_ofScaled_normal {m : ℕ} {e : ℤ} (neg : Bool) (hm : m ≠ 0) (h : m < 2 ^ 53)
    (h1 : -1022 ≤ Nat.log2 m + e) (h2 : Nat.log2 m + e ≤ 1023) :
    decode (ofScaled neg m e)
      = .fin neg (m * 2 ^ (52 - Nat.log2 m)) (Nat.log2 m + e - 52) := by
  obtain ⟨hl, hM1, hM2⟩ := full_width hm h
  have hmag := magnitude_exact hm h h1 h2
  obtain ⟨x, hx⟩ : ∃ x : ℕ, (Nat.log2 m : ℤ) + e + 1022 = x :=
    ⟨(Nat.log2 m + e + 1022).toNat, by omega⟩
  rw [hx, Int.toNat_natCast] at hmag
  set M := m * 2 ^ (52 - Nat.log2 m)
  have hb : neg.toNat ≤ 1 := Bool.toNat_le neg
  have hnat : (ofScaled neg m e).toNat = neg.toNat * 2 ^ 63 + (x * 2 ^ 52 + M) := by
    rw [toNat_ofScaled, hmag]
  have hexp : expField (ofScaled neg m e) = x + 1 := by
    rw [expField, hnat]
    omega
  have hfrac : fracField (ofScaled neg m e) = M - 2 ^ 52 := by
    rw [fracField, hnat]
    omega
  have h3 : 2 ^ 52 + (M - 2 ^ 52) = M := by omega
  have h4 : ((x + 1 : ℕ) : ℤ) - 1075 = Nat.log2 m + e - 52 := by
    push_cast
    omega
  rw [decode, hexp, hfrac, msb_ofScaled, if_neg (by omega), if_neg (by omega), h3, h4]

/-- An integer that fits the significand keeps its value. -/
theorem decode_ofScaled {m : ℕ} (neg : Bool) (hm : m ≠ 0) (h : m < 2 ^ 53) :
    decode (ofScaled neg m 0)
      = .fin neg (m * 2 ^ (52 - Nat.log2 m)) (Nat.log2 m - 52) := by
  have hl := (full_width hm h).1
  rw [decode_ofScaled_normal neg hm h (by omega) (by omega), add_zero]

@[simp] theorem decode_zero : decode 0#64 = .fin false 0 (-1074) := by decide

@[simp] theorem decode_minusZero : decode minusZero = .fin true 0 (-1074) := by decide

theorem ofScaled_zero (neg : Bool) (e : ℤ) :
    ofScaled neg 0 e = if neg then minusZero else 0#64 := by
  cases neg <;> simp [ofScaled, magnitude, minusZero]

@[simp] theorem ofInt_zero : ofInt 0 = 0#64 := by simp [ofInt, ofScaled_zero]

theorem signed_natAbs (z : ℤ) : signed (decide (z < 0)) z.natAbs = z := by
  unfold signed
  split_ifs with h <;> simp only [decide_eq_true_eq] at h <;> omega

/-- An integer below `2 ^ 53` is held as itself, scaled by a power of two. -/
theorem decode_ofInt {z : ℤ} (h : z.natAbs < 2 ^ 53) :
    ∃ k : ℕ, decode (ofInt z) = .fin (z < 0) (z.natAbs * 2 ^ k) (-(k : ℤ)) := by
  by_cases hz : z = 0
  · subst hz
    have h0 : ∀ k : ℕ, (0 : ℤ).natAbs * 2 ^ k = 0 := by simp
    refine ⟨1074, ?_⟩
    rw [h0, ofInt_zero, decode_zero]
    rfl
  have hz' : z.natAbs ≠ 0 := by omega
  have hl : Nat.log2 z.natAbs ≤ 52 := by
    have := (Nat.log2_lt hz').2 h
    omega
  refine ⟨52 - Nat.log2 z.natAbs, ?_⟩
  rw [ofInt, decode_ofScaled _ hz' h]
  congr 1
  omega

theorem signed_mul (neg : Bool) (m k : ℕ) : signed neg (m * k) = signed neg m * k := by
  unfold signed
  split_ifs <;> push_cast <;> ring

theorem value?_ofInt {z : ℤ} (h : z.natAbs < 2 ^ 53) : value? (ofInt z) = some (z : ℚ) := by
  obtain ⟨k, hd⟩ := decode_ofInt h
  rw [value?, hd]
  simp only [signed_mul, signed_natAbs, zpow_neg, zpow_natCast]
  push_cast
  field_simp

/-- The exact sum of two scaled integers is the scaled sum. -/
theorem addScaled_scaled {n₁ n₂ : Bool} {p q : ℕ} {a b : ℤ} (j k : ℕ) (hp : signed n₁ p = a)
    (hq : signed n₂ q = b) :
    addScaled n₁ (p * 2 ^ j) (-(j : ℤ)) n₂ (q * 2 ^ k) (-(k : ℤ))
      = if a + b = 0 then ofScaled (n₁ && n₂) 0 0 else ofInt (a + b) := by
  set e := min (-(j : ℤ)) (-(k : ℤ)) with he
  obtain ⟨n, hn⟩ : ∃ n : ℕ, e = -(n : ℤ) := ⟨max j k, by omega⟩
  have hj : (2 : ℤ) ^ j * 2 ^ (-(j : ℤ) - e).toNat = 2 ^ n := by
    rw [← pow_add]; congr 1; omega
  have hk : (2 : ℤ) ^ k * 2 ^ (-(k : ℤ) - e).toNat = 2 ^ n := by
    rw [← pow_add]; congr 1; omega
  have hs : signed n₁ (p * 2 ^ j) * 2 ^ (-(j : ℤ) - e).toNat
      + signed n₂ (q * 2 ^ k) * 2 ^ (-(k : ℤ) - e).toNat = (a + b) * 2 ^ n := by
    rw [signed_mul, signed_mul, hp, hq]
    push_cast
    rw [mul_assoc, mul_assoc, hj, hk, add_mul]
  have h2 : (0 : ℤ) < 2 ^ n := by positivity
  simp only [addScaled]
  rw [← he, hs]
  by_cases h0 : a + b = 0
  · simp [h0]
  · have hsign : ((a + b) * 2 ^ n < 0) ↔ (a + b < 0) := by
      constructor <;> intro h <;> nlinarith
    have habs : ((a + b) * 2 ^ n).natAbs = (a + b).natAbs * 2 ^ n := by
      rw [Int.natAbs_mul]; simp [Int.natAbs_pow]
    rw [if_neg (by positivity), if_neg h0, ofInt]
    simp only [hsign, habs]
    rw [ofScaled_mul_two_pow, hn]
    simp

theorem add_fin {x y : Double} {n₁ n₂ : Bool} {m₁ m₂ : ℕ} {e₁ e₂ : ℤ}
    (hx : decode x = .fin n₁ m₁ e₁) (hy : decode y = .fin n₂ m₂ e₂) :
    add x y = addScaled n₁ m₁ e₁ n₂ m₂ e₂ := by
  simp only [add, hx, hy]

theorem mul_fin {x y : Double} {n₁ n₂ : Bool} {m₁ m₂ : ℕ} {e₁ e₂ : ℤ}
    (hx : decode x = .fin n₁ m₁ e₁) (hy : decode y = .fin n₂ m₂ e₂) :
    mul x y = ofScaled (n₁ ^^ n₂) (m₁ * m₂) (e₁ + e₂) := by
  simp only [mul, hx, hy]

theorem add_ofInt {a b : ℤ} (ha : a.natAbs < 2 ^ 53) (hb : b.natAbs < 2 ^ 53) :
    add (ofInt a) (ofInt b) = ofInt (a + b) := by
  obtain ⟨j, hj⟩ := decode_ofInt ha
  obtain ⟨k, hk⟩ := decode_ofInt hb
  rw [add_fin hj hk, addScaled_scaled j k (signed_natAbs a) (signed_natAbs b)]
  split_ifs with h0
  · have hab : (decide (a < 0) && decide (b < 0)) = false := by
      simp only [Bool.and_eq_false_iff, decide_eq_false_iff_not]
      omega
    rw [hab, h0, ofScaled_zero, ofInt_zero, if_neg (by simp)]
  · rfl

theorem toNat_neg_mod (d : Double) : (neg d).toNat % 2 ^ 63 = d.toNat % 2 ^ 63 := by
  have h : (minusZero).toNat % 2 ^ 63 = 0 := by decide
  rw [neg, BitVec.toNat_xor, Nat.xor_mod_two_pow, h, Nat.xor_zero]

theorem expField_eq_of_mod {x y : Double} (h : x.toNat % 2 ^ 63 = y.toNat % 2 ^ 63) :
    expField x = expField y := by
  simp only [expField]
  omega

theorem fracField_eq_of_mod {x y : Double} (h : x.toNat % 2 ^ 63 = y.toNat % 2 ^ 63) :
    fracField x = fracField y := by
  simp only [fracField]
  omega

theorem msb_neg (d : Double) : (neg d).msb = !d.msb := by
  have h : (minusZero).msb = true := by decide
  rw [neg, BitVec.msb_xor, h, Bool.xor_true]

theorem decode_neg {d : Double} {n : Bool} {m : ℕ} {e : ℤ} (h : decode d = .fin n m e) :
    decode (neg d) = .fin (!n) m e := by
  have he := expField_eq_of_mod (toNat_neg_mod d)
  have hf := fracField_eq_of_mod (toNat_neg_mod d)
  unfold decode at h ⊢
  rw [he, hf, msb_neg]
  split_ifs at h ⊢ <;> simp only [Class.fin.injEq] at h ⊢ <;>
    exact ⟨by rw [h.1], h.2⟩

theorem eq_of_msb_of_mod {x y : Double} (hs : x.msb = y.msb)
    (hm : x.toNat % 2 ^ 63 = y.toNat % 2 ^ 63) : x = y := by
  apply BitVec.eq_of_toNat_eq
  have hx := x.isLt
  have hy := y.isLt
  rw [BitVec.msb_eq_decide, BitVec.msb_eq_decide, decide_eq_decide] at hs
  omega

theorem neg_ofScaled (n : Bool) (m : ℕ) (e : ℤ) : neg (ofScaled n m e) = ofScaled (!n) m e := by
  apply eq_of_msb_of_mod
  · rw [msb_neg, msb_ofScaled, msb_ofScaled]
  · rw [toNat_neg_mod, toNat_ofScaled, toNat_ofScaled]
    omega

theorem neg_ofInt {z : ℤ} (h : z ≠ 0) : neg (ofInt z) = ofInt (-z) := by
  have hs : (!decide (z < 0)) = decide (-z < 0) := by
    rw [← decide_not, decide_eq_decide]
    omega
  rw [ofInt, neg_ofScaled, hs, ofInt, Int.natAbs_neg]

theorem sub_ofInt {a b : ℤ} (ha : a.natAbs < 2 ^ 53) (hb : b.natAbs < 2 ^ 53) :
    sub (ofInt a) (ofInt b) = ofInt (a - b) := by
  obtain ⟨j, hj⟩ := decode_ofInt ha
  obtain ⟨k, hk⟩ := decode_ofInt hb
  have hs : signed (!decide (b < 0)) b.natAbs = -b := by
    unfold signed
    split_ifs with h <;> simp only [Bool.not_eq_true', decide_eq_false_iff_not] at h <;> omega
  rw [sub, add_fin hj (decode_neg hk), addScaled_scaled j k (signed_natAbs a) hs]
  split_ifs with h0
  · have hab : (decide (a < 0) && !decide (b < 0)) = false := by
      simp only [Bool.and_eq_false_iff, decide_eq_false_iff_not, Bool.not_eq_false',
        decide_eq_true_eq]
      omega
    rw [hab, show a - b = 0 by omega, ofScaled_zero, ofInt_zero, if_neg (by simp)]
  · rfl

theorem mul_ofInt {a b : ℤ} (ha : a.natAbs < 2 ^ 53) (hb : b.natAbs < 2 ^ 53) :
    mul (ofInt a) (ofInt b) = ofScaled (decide (a < 0) ^^ decide (b < 0)) (a * b).natAbs 0 := by
  obtain ⟨j, hj⟩ := decode_ofInt ha
  obtain ⟨k, hk⟩ := decode_ofInt hb
  have hm : a.natAbs * 2 ^ j * (b.natAbs * 2 ^ k) = (a * b).natAbs * 2 ^ (j + k) := by
    rw [Int.natAbs_mul, pow_add]
    ring
  rw [mul_fin hj hk, hm, ofScaled_mul_two_pow]
  congr 1
  push_cast
  ring

theorem mul_ofInt_of_ne {a b : ℤ} (ha : a.natAbs < 2 ^ 53) (hb : b.natAbs < 2 ^ 53)
    (h : a * b ≠ 0) : mul (ofInt a) (ofInt b) = ofInt (a * b) := by
  have hs : (decide (a < 0) ^^ decide (b < 0)) = decide (a * b < 0) := by
    have ha0 : a ≠ 0 := left_ne_zero_of_mul h
    have hb0 : b ≠ 0 := right_ne_zero_of_mul h
    rcases lt_or_gt_of_ne ha0 with h1 | h1 <;> rcases lt_or_gt_of_ne hb0 with h2 | h2
    · simp [h1, h2, not_lt.2 (mul_pos_of_neg_of_neg h1 h2).le]
    · simp [h1, not_lt.2 h2.le, mul_neg_of_neg_of_pos h1 h2]
    · simp [not_lt.2 h1.le, h2, mul_neg_of_pos_of_neg h1 h2]
    · simp [not_lt.2 h1.le, not_lt.2 h2.le, not_lt.2 (mul_pos h1 h2).le]
  rw [mul_ofInt ha hb, hs, ofInt]

/-! ### Order -/

theorem value?_fin {d : Double} {n : Bool} {m : ℕ} {e : ℤ} (h : decode d = .fin n m e) :
    value? d = some ((signed n m : ℚ) * 2 ^ e) := by
  simp only [value?, h]

theorem toExtended_of_value? {d : Double} {q : ℚ} (h : value? d = some q) :
    toExtended d = some ((q : WithTop ℚ) : WithBot (WithTop ℚ)) := by
  unfold value? at h
  unfold toExtended
  split at h
  · rename_i n m e hd
    simp only [hd]
    simp only [Option.some.injEq] at h
    rw [h]
  · simp at h

theorem lt_of_value? {x y : Double} {p q : ℚ} (hx : value? x = some p) (hy : value? y = some q) :
    lt x y = decide (p < q) := by
  simp [lt, toExtended_of_value? hx, toExtended_of_value? hy]

theorem le_of_value? {x y : Double} {p q : ℚ} (hx : value? x = some p) (hy : value? y = some q) :
    le x y = decide (p ≤ q) := by
  simp [le, toExtended_of_value? hx, toExtended_of_value? hy]

theorem eq_of_value? {x y : Double} {p q : ℚ} (hx : value? x = some p) (hy : value? y = some q) :
    eq x y = decide (p = q) := by
  simp [eq, toExtended_of_value? hx, toExtended_of_value? hy]

/-- What lies between two finite doubles is finite, and its number between theirs. -/
theorem value?_between {x y d : Double} {p q : ℚ} (hx : value? x = some p)
    (hy : value? y = some q) (h1 : le x d = true) (h2 : le d y = true) :
    ∃ v, value? d = some v ∧ p ≤ v ∧ v ≤ q := by
  have hex := toExtended_of_value? hx
  have hey := toExtended_of_value? hy
  rcases hd : decode d with _ | n | ⟨n, m, e⟩
  · have h : toExtended d = none := by simp only [toExtended, hd]
    simp [le, h] at h1
  · cases n
    · have h : toExtended d = some ((⊤ : WithTop ℚ) : WithBot (WithTop ℚ)) := by
        simp only [toExtended, hd]
      simp [le, h, hey] at h2
    · have h : toExtended d = some ⊥ := by simp only [toExtended, hd]
      simp [le, h, hex] at h1
  · have hv := value?_fin hd
    rw [le_of_value? hx hv, decide_eq_true_eq] at h1
    rw [le_of_value? hv hy, decide_eq_true_eq] at h2
    exact ⟨_, hv, h1, h2⟩

theorem le_of_eq {x y : Double} (h : eq x y = true) : le x y = true ∧ le y x = true := by
  unfold eq at h
  unfold le
  split at h
  · rename_i p q hp hq
    rw [decide_eq_true_eq] at h
    simp [hp, hq, h]
  · cases h

/-- Only the two zeros compare equal to zero. -/
theorem eq_zero_cases {d : Double} (h : eq d 0#64 = true) : d = 0#64 ∨ d = minusZero := by
  have hmin : minusZero.toNat = 2 ^ 63 := by decide
  have hz : value? 0#64 = some 0 := by
    rw [value?_fin decode_zero]
    simp [signed]
  obtain ⟨h1, h2⟩ := le_of_eq h
  obtain ⟨v, hv, hlo, hhi⟩ := value?_between hz hz h2 h1
  have hv0 : v = 0 := le_antisymm hhi hlo
  have hfields : expField d = 0 ∧ fracField d = 0 := by
    simp only [value?, decode, hv0] at hv
    split_ifs at hv with hmax hinf hsub <;>
      simp only [Option.some.injEq, mul_eq_zero, Int.cast_eq_zero] at hv <;>
      rcases hv with hs | hs
    · simp only [signed] at hs
      split_ifs at hs <;> omega
    · exact absurd hs (by positivity)
    · simp only [signed] at hs
      split_ifs at hs <;> omega
    · exact absurd hs (by positivity)
  rw [expField, fracField] at hfields
  rcases hb : d.msb with _ | _
  · left
    apply BitVec.eq_of_toNat_eq
    rw [BitVec.msb_eq_decide, decide_eq_false_iff_not] at hb
    rw [BitVec.toNat_ofNat]
    omega
  · right
    apply BitVec.eq_of_toNat_eq
    rw [BitVec.msb_eq_decide, decide_eq_true_eq] at hb
    omega

theorem fabs_mod (d : Double) : (fabs d).toNat % 2 ^ 63 = d.toNat % 2 ^ 63 := by
  have h : (~~~minusZero).toNat = 2 ^ 63 - 1 := by decide
  rw [fabs, BitVec.toNat_and, h, Nat.and_two_pow_sub_one_eq_mod, Nat.mod_mod]

theorem msb_fabs (d : Double) : (fabs d).msb = false := by
  have h : (~~~minusZero).msb = false := by decide
  rw [fabs, BitVec.msb_and, h, Bool.and_false]

/-- A magnitude between two powers of two has its exponent field between theirs. -/
theorem expField_between {x y d : Double} {p q : ℤ} (hp : -1022 ≤ p)
    (hx : value? x = some (2 ^ p)) (hy : value? y = some (2 ^ q))
    (h1 : le x (fabs d) = true) (h2 : le (fabs d) y = true) :
    p + 1023 ≤ expField d ∧ (expField d : ℤ) ≤ q + 1023 := by
  obtain ⟨v, hv, hlo, hhi⟩ := value?_between hx hy h1 h2
  have he := expField_eq_of_mod (fabs_mod d)
  have hf := fracField_eq_of_mod (fabs_mod d)
  have hflt : fracField d < 2 ^ 52 := Nat.mod_lt _ (by norm_num)
  have h2p : (1 : ℚ) < 2 := by norm_num
  unfold value? decode at hv
  rw [he, hf, msb_fabs] at hv
  split_ifs at hv with hmax hinf hsub
  · -- a subnormal is below every normal power of two
    simp only [signed, Bool.false_eq_true, if_false, Option.some.injEq] at hv
    exfalso
    have hfq : ((fracField d : ℤ) : ℚ) < 2 ^ (52 : ℤ) := by exact_mod_cast hflt
    have : (2 : ℚ) ^ p < 2 ^ (52 : ℤ) * 2 ^ (-1074 : ℤ) := by
      calc (2 : ℚ) ^ p ≤ (fracField d : ℤ) * 2 ^ (-1074 : ℤ) := by rw [hv]; exact hlo
        _ < _ := by gcongr
    rw [← zpow_add₀ (by norm_num), zpow_lt_zpow_iff_right₀ h2p] at this
    omega
  · simp only [signed, Bool.false_eq_true, if_false, Option.some.injEq] at hv
    have hM1 : (2 : ℚ) ^ (52 : ℤ) ≤ ((2 ^ 52 + fracField d : ℕ) : ℤ) := by
      have : 2 ^ 52 ≤ 2 ^ 52 + fracField d := Nat.le_add_right _ _
      exact_mod_cast this
    have hM2 : (((2 ^ 52 + fracField d : ℕ) : ℤ) : ℚ) < 2 ^ (53 : ℤ) := by
      have : 2 ^ 52 + fracField d < 2 ^ 53 := by omega
      exact_mod_cast this
    constructor
    · have : (2 : ℚ) ^ p < 2 ^ (53 : ℤ) * 2 ^ ((expField d : ℤ) - 1075) := by
        calc (2 : ℚ) ^ p ≤ _ := hlo
          _ = _ := hv.symm
          _ < _ := by gcongr
      rw [← zpow_add₀ (by norm_num), zpow_lt_zpow_iff_right₀ h2p] at this
      omega
    · have : (2 : ℚ) ^ (52 : ℤ) * 2 ^ ((expField d : ℤ) - 1075) ≤ 2 ^ q := by
        calc (2 : ℚ) ^ (52 : ℤ) * 2 ^ ((expField d : ℤ) - 1075) ≤ _ := by gcongr
          _ = v := hv
          _ ≤ 2 ^ q := hhi
      rw [← zpow_add₀ (by norm_num), zpow_le_zpow_iff_right₀ h2p] at this
      omega

end Double

end Qjs
