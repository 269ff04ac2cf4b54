import Mathlib
import Qjs.Lib.Binary64

/-!
# Floating-point formats

A rounding rule says when a number between two integers goes to the upper one. It only sees how the
number lies to the integers and the halves between them, so numbers that lie alike to all multiples
of a small enough power of two are rounded alike (`Alike.round_eq`), and a last bit that is set when
something was cut off is enough to know of the rest (`alike_sticky`).

A format has a significand and an exponent of some sizes, and a pattern of it is a natural number.
The pattern of a number, rounded by a rule, is its distance from zero in patterns with the sign
before it (`ofValue`): the last place is that of the number or the least one there is, a carry goes
on into the exponent, and from the infinity on the rule says whether it is the infinity or the
greatest number.

The operations round the exact result once (`addBy`, `mulBy`, `divBy`, `sqrtBy`); `rule` gives the
rule for each sign.
-/

namespace Qjs

/-! ### Rules -/

section Rules

/-- When to round up, from whether the integer below is odd and how what is above it compares with
one half. -/
def Rule := Bool → Ordering → Bool

variable {K : Type*} [Field K] [LinearOrder K]

namespace Rule

def nearestEven : Rule := fun odd c => c == .gt || (c == .eq && odd)

def nearestAway : Rule := fun _ c => c != .lt

def truncate : Rule := fun _ _ => false

def away : Rule := fun _ _ => true

variable [FloorSemiring K]

/-- The integer that a number, which is not negative, is rounded to. -/
def round (r : Rule) (x : K) : ℕ :=
  if x = (⌊x⌋₊ : ℕ) then ⌊x⌋₊
  else ⌊x⌋₊ + (r (⌊x⌋₊ % 2 == 1) (cmp (2 * (x - (⌊x⌋₊ : ℕ))) 1)).toNat

theorem floor_le_round (r : Rule) (x : K) : ⌊x⌋₊ ≤ r.round x := by
  unfold round
  split_ifs <;> omega

/-- What is at least an integer is not rounded below it. -/
theorem natCast_le_round (r : Rule) {x : K} {n : ℕ} (h : (n : K) ≤ x) : n ≤ r.round x :=
  (Nat.le_floor h).trans (r.floor_le_round x)

variable [IsStrictOrderedRing K]

@[simp] theorem round_natCast (r : Rule) (n : ℕ) : r.round (n : K) = n := by
  rw [round, Nat.floor_natCast, if_pos rfl]

@[simp] theorem round_zero (r : Rule) : r.round (0 : K) = 0 := by
  have h := r.round_natCast (K := K) 0
  rwa [Nat.cast_zero] at h

/-- What is at most an integer is not rounded above it. -/
theorem round_le_natCast (r : Rule) {x : K} {n : ℕ} (h0 : 0 ≤ x) (h : x ≤ n) :
    r.round x ≤ n := by
  have hfloor := Nat.floor_le h0
  unfold round
  split_ifs with hx
  · exact Nat.floor_le_of_le h
  · have hlt : (⌊x⌋₊ : K) < n := (lt_of_le_of_ne hfloor (Ne.symm hx)).trans_le h
    have hlt' : ⌊x⌋₊ < n := by exact_mod_cast hlt
    have := Bool.toNat_le (r (⌊x⌋₊ % 2 == 1) (cmp (2 * (x - (⌊x⌋₊ : ℕ))) 1))
    omega

/-- The rounding of a fraction, on the bits that are cut off. -/
theorem round_div_two_pow (r : Rule) (m k : ℕ) :
    r.round ((m : K) / 2 ^ k)
      = m / 2 ^ k + if m % 2 ^ k = 0 then 0
          else (r (m / 2 ^ k % 2 == 1) (cmp (2 * (m % 2 ^ k)) (2 ^ k))).toNat := by
  have hpos : (0 : K) < 2 ^ k := by positivity
  have hfloor : ⌊(m : K) / 2 ^ k⌋₊ = m / 2 ^ k := by
    have := Nat.floor_div_natCast (m : K) (2 ^ k)
    rw [Nat.floor_natCast] at this
    exact_mod_cast this
  have hdm : (m : K) = (m / 2 ^ k : ℕ) * 2 ^ k + (m % 2 ^ k : ℕ) := by
    exact_mod_cast (Nat.div_add_mod' m (2 ^ k)).symm
  rw [round, hfloor]
  generalize m / 2 ^ k = q at *
  generalize m % 2 ^ k = t at *
  have hfrac : (m : K) / 2 ^ k = q + t / 2 ^ k := by
    rw [hdm, add_div, mul_div_assoc, div_self hpos.ne', mul_one]
  have hint : (m : K) / 2 ^ k = q ↔ t = 0 := by
    rw [hfrac, add_eq_left, div_eq_zero_iff, or_iff_left hpos.ne', Nat.cast_eq_zero]
  have hcmp : cmp (2 * ((m : K) / 2 ^ k - q)) 1 = cmp (2 * t) (2 ^ k) := by
    have h1 : 2 * ((m : K) / 2 ^ k - q) = ((2 * t : ℕ) : K) / ((2 ^ k : ℕ) : K) := by
      rw [hfrac]
      push_cast
      ring
    have hpos' : (0 : K) < ((2 ^ k : ℕ) : K) := by exact_mod_cast hpos
    rw [h1]
    simp only [cmp, cmpUsing, div_lt_one hpos', one_lt_div hpos', Nat.cast_lt]
  rw [hcmp]
  simp only [hint]
  split_ifs <;> rfl

end Rule

/-! ### Powers of two -/

section Scale

variable [IsStrictOrderedRing K]

theorem natCast_mul_two_pow_mul (m k : ℕ) (e : ℤ) :
    ((m * 2 ^ k : ℕ) : K) * 2 ^ e = m * 2 ^ (k + e) := by
  rw [zpow_add₀ two_ne_zero, zpow_natCast, ← mul_assoc]
  push_cast
  rfl

theorem div_two_pow_mul (x : K) (d : ℕ) (e : ℤ) : x / 2 ^ d * 2 ^ e = x * 2 ^ (e - d) := by
  rw [zpow_sub₀ two_ne_zero, zpow_natCast, div_mul_eq_mul_div, mul_div_assoc]

end Scale

/-! ### Numbers that lie alike -/

/-- The two numbers compare alike with each multiple of `2 ^ t`. -/
def Alike (t : ℤ) (x y : K) : Prop := ∀ z : ℤ, cmp x (z * 2 ^ t) = cmp y (z * 2 ^ t)

section Alike

variable {s t : ℤ} {x y : K}

theorem Alike.refl (t : ℤ) (x : K) : Alike t x x := fun _ => rfl

theorem Alike.trans {z : K} (h₁ : Alike t x y) (h₂ : Alike t y z) : Alike t x z :=
  fun m => (h₁ m).trans (h₂ m)

theorem Alike.lt_iff (h : Alike t x y) (z : ℤ) : x < z * 2 ^ t ↔ y < z * 2 ^ t := by
  rw [← cmp_eq_lt_iff, h z, cmp_eq_lt_iff]

theorem Alike.gt_iff (h : Alike t x y) (z : ℤ) : z * 2 ^ t < x ↔ z * 2 ^ t < y := by
  rw [← cmp_eq_gt_iff, h z, cmp_eq_gt_iff]

theorem Alike.eq_iff (h : Alike t x y) (z : ℤ) : x = z * 2 ^ t ↔ y = z * 2 ^ t := by
  rw [← cmp_eq_eq_iff, h z, cmp_eq_eq_iff]

theorem Alike.le_iff (h : Alike t x y) (z : ℤ) : z * 2 ^ t ≤ x ↔ z * 2 ^ t ≤ y := by
  rw [← not_lt, ← not_lt, h.lt_iff]

variable [IsStrictOrderedRing K]

theorem Alike.mono (h : Alike t x y) (hts : t ≤ s) : Alike s x y := by
  intro z
  have hs : (z : K) * 2 ^ s = ((z * 2 ^ (s - t).toNat : ℤ) : K) * 2 ^ t := by
    push_cast
    rw [mul_assoc, ← zpow_natCast, Int.toNat_of_nonneg (by omega), ← zpow_add₀ two_ne_zero,
      sub_add_cancel]
  rw [hs]
  exact h _

theorem Alike.mul_two_zpow (h : Alike t x y) (s : ℤ) : Alike (t + s) (x * 2 ^ s) (y * 2 ^ s) := by
  intro z
  have hpos : (0 : K) < 2 ^ s := zpow_pos two_pos s
  rw [zpow_add₀ two_ne_zero, ← mul_assoc, cmp_mul_pos_right hpos, cmp_mul_pos_right hpos]
  exact h z

theorem Alike.div_two_pow (h : Alike t x y) (k : ℕ) : Alike (t - k) (x / 2 ^ k) (y / 2 ^ k) := by
  have hk (z : K) : z / 2 ^ k = z * 2 ^ (-k : ℤ) := by
    rw [zpow_neg, zpow_natCast, div_eq_mul_inv]
  rw [hk, hk]
  exact h.mul_two_zpow (-k)

/-- A multiple of the power of two is added. -/
theorem Alike.add_left (h : Alike t x y) (m : ℤ) :
    Alike t (m * 2 ^ t + x) (m * 2 ^ t + y) := by
  intro z
  have hz : (z : K) * 2 ^ t = m * 2 ^ t + ((z - m : ℤ) : K) * 2 ^ t := by
    push_cast
    ring
  rw [hz, cmp_add_left, cmp_add_left]
  exact h _

/-- They are subtracted from a multiple of the power of two. -/
theorem Alike.sub_left (h : Alike t x y) (m : ℤ) :
    Alike t (m * 2 ^ t - x) (m * 2 ^ t - y) := by
  intro z
  have hlt (w : K) : m * 2 ^ t - w < z * 2 ^ t ↔ ((m - z : ℤ) : K) * 2 ^ t < w := by
    push_cast
    rw [sub_mul, sub_lt_comm]
  have hgt (w : K) : z * 2 ^ t < m * 2 ^ t - w ↔ w < ((m - z : ℤ) : K) * 2 ^ t := by
    push_cast
    rw [sub_mul, lt_sub_comm]
  simp only [cmp, cmpUsing, hlt, hgt, h.lt_iff, h.gt_iff]

end Alike

section Round

variable [IsStrictOrderedRing K] [FloorSemiring K] {t : ℤ} {x y : K}

theorem cmp_two_mul_sub (x : K) (n : ℕ) :
    cmp (2 * (x - n)) 1 = cmp x (((2 * n + 1 : ℤ) : K) * 2 ^ (-1 : ℤ)) := by
  have hlt : 2 * (x - n) < 1 ↔ x < ((2 * n + 1 : ℤ) : K) * 2 ^ (-1 : ℤ) := by
    push_cast
    rw [zpow_neg_one, ← div_eq_mul_inv, lt_div_iff₀ two_pos]
    constructor <;> intro h <;> linarith
  have hgt : 1 < 2 * (x - n) ↔ ((2 * n + 1 : ℤ) : K) * 2 ^ (-1 : ℤ) < x := by
    push_cast
    rw [zpow_neg_one, ← div_eq_mul_inv, div_lt_iff₀ two_pos]
    constructor <;> intro h <;> linarith
  simp only [cmp, cmpUsing, hlt, hgt]

/-- What lies alike to the integers and the halves between them is rounded alike. -/
theorem Alike.round_eq (h : Alike t x y) (ht : t ≤ -1) (hx : 0 ≤ x) (hy : 0 ≤ y) (r : Rule) :
    r.round x = r.round y := by
  have hhalf := h.mono ht
  have hint (n : ℕ) : (n : K) = ((2 * n : ℤ) : K) * 2 ^ (-1 : ℤ) := by
    push_cast
    rw [zpow_neg_one, mul_comm 2, mul_assoc, mul_inv_cancel₀ two_ne_zero, mul_one]
  have hfloor : ⌊x⌋₊ = ⌊y⌋₊ := by
    apply le_antisymm
    · apply Nat.le_floor
      rw [hint, ← hhalf.le_iff, ← hint]
      exact Nat.floor_le hx
    · apply Nat.le_floor
      rw [hint, hhalf.le_iff, ← hint]
      exact Nat.floor_le hy
  have heq : x = (⌊y⌋₊ : ℕ) ↔ y = (⌊y⌋₊ : ℕ) := by
    rw [hint, hhalf.eq_iff]
  rw [Rule.round, Rule.round, hfloor, cmp_two_mul_sub, cmp_two_mul_sub, hhalf]
  simp only [heq]

theorem Alike.round_div_eq (h : Alike t x y) {k : ℕ} (ht : t + 1 ≤ k) (hx : 0 ≤ x) (hy : 0 ≤ y)
    (r : Rule) : r.round (x / 2 ^ k) = r.round (y / 2 ^ k) :=
  (h.div_two_pow k).round_eq (by omega) (by positivity) (by positivity) r

/-- A last bit that is set when something was cut off stands for all of it. -/
theorem alike_sticky (hx : 0 ≤ x) :
    Alike 1 x ((⌊x⌋₊ ||| (if x = (⌊x⌋₊ : ℕ) then 0 else 1) : ℕ) : K) := by
  by_cases h : x = (⌊x⌋₊ : ℕ)
  · rw [if_pos h, Nat.or_zero, ← h]
    exact .refl 1 x
  · have hlo : ((⌊x⌋₊ : ℕ) : K) < x := lt_of_le_of_ne (Nat.floor_le hx) (Ne.symm h)
    have hhi : x < (⌊x⌋₊ : ℕ) + 1 := Nat.lt_floor_add_one x
    rw [if_neg h]
    generalize ⌊x⌋₊ = n at hlo hhi
    have hor : n ||| 1 = 2 * (n / 2) + 1 := by
      have hdiv : (n ||| 1) / 2 = n / 2 := by
        have := Nat.or_div_two_pow (a := n) (b := 1) (n := 1)
        simpa using this
      have hmod : (n ||| 1) % 2 = 1 := by
        have := Nat.or_mod_two_pow (a := n) (b := 1) (n := 1)
        rcases Nat.mod_two_eq_zero_or_one n with h2 | h2 <;> simp_all
      omega
    intro z
    rw [zpow_one]
    rcases le_or_gt z (n / 2 : ℕ) with hz | hz
    · have hz1 : (z : K) * 2 ≤ n := by
        have : z * 2 ≤ (n : ℤ) := by omega
        exact_mod_cast this
      have hz2 : (z : K) * 2 < ((n ||| 1 : ℕ) : K) := by
        have : z * 2 < ((n ||| 1 : ℕ) : ℤ) := by omega
        exact_mod_cast this
      rw [(cmp_eq_gt_iff _ _).2 (hz1.trans_lt hlo), (cmp_eq_gt_iff _ _).2 hz2]
    · have hz1 : ((n : K) + 1) ≤ z * 2 := by
        have : (n : ℤ) + 1 ≤ z * 2 := by omega
        exact_mod_cast this
      have hz2 : ((n ||| 1 : ℕ) : K) < z * 2 := by
        have : ((n ||| 1 : ℕ) : ℤ) < z * 2 := by omega
        exact_mod_cast this
      rw [(cmp_eq_lt_iff _ _).2 (hhi.trans_le hz1), (cmp_eq_lt_iff _ _).2 hz2]

/-- The sticky bit of an integer division. -/
theorem alike_div {a b : ℕ} (hb : 0 < b) :
    Alike 1 ((a : K) / b) ((a / b ||| (if a % b = 0 then 0 else 1) : ℕ) : K) := by
  have hpos : (0 : K) < b := by exact_mod_cast hb
  have hfloor : ⌊(a : K) / b⌋₊ = a / b := by
    rw [Nat.floor_div_natCast, Nat.floor_natCast]
  have hint : (a : K) / b = (a / b : ℕ) ↔ a % b = 0 := by
    have hdm := Nat.div_add_mod' a b
    rw [div_eq_iff hpos.ne']
    constructor
    · intro h
      have h' : a = a / b * b := by exact_mod_cast h
      omega
    · intro h
      have h' : a = a / b * b := by omega
      exact_mod_cast h'
  have hsticky := @alike_sticky K _ _ _ _ ((a : K) / b) (by positivity)
  rw [hfloor] at hsticky
  simpa only [hint] using hsticky

end Round

end Rules

/-! ### Formats -/

/-- The same with the other sign. -/
def Double.Class.neg : Double.Class → Double.Class
  | .nan => .nan
  | .inf n => .inf (!n)
  | .fin n m e => .fin (!n) m e

structure Format where
  mantSize : ℕ
  expSize : ℕ

namespace Format

open Double (signed)

variable (f : Format)

def signBit : ℕ := 2 ^ (f.expSize + f.mantSize)

def expMask : ℕ := 2 ^ f.expSize - 1

/-- The pattern of infinity. -/
def infinity : ℕ := f.expMask * 2 ^ f.mantSize

def qnan : ℕ := f.infinity + 2 ^ (f.mantSize - 1)

/-- The exponent of the least number. -/
def minExp : ℤ := 2 - 2 ^ (f.expSize - 1) - f.mantSize

def pattern (neg : Bool) (mag : ℕ) : ℕ := neg.toNat * f.signBit + mag

/-- What a pattern stands for. -/
def decode (p : ℕ) : Double.Class :=
  let neg := p / f.signBit == 1
  let exp := p / 2 ^ f.mantSize % 2 ^ f.expSize
  let frac := p % 2 ^ f.mantSize
  if exp = f.expMask then if frac = 0 then .inf neg else .nan
  else if exp = 0 then .fin neg frac f.minExp
  else .fin neg (2 ^ f.mantSize + frac) ((exp - 1 : ℕ) + f.minExp)

section Value

variable {K : Type*} [Field K] [LinearOrder K] [FloorSemiring K]

/-- The exponent of the last place of the pattern nearest to `q`. -/
def ulpExp (q : K) : ℤ := max (Int.log 2 q - f.mantSize) f.minExp

/-- The magnitude of `q` in patterns. -/
def magnitude (r : Rule) (q : K) : ℕ :=
  if q = 0 then 0
  else
    let n := (f.ulpExp q - f.minExp).toNat * 2 ^ f.mantSize + r.round (q / 2 ^ f.ulpExp q)
    if f.infinity ≤ n then f.infinity - (if r true .gt then 0 else 1) else n

variable (rule : Bool → Rule)

def ofValue (neg : Bool) (q : K) : ℕ := f.pattern neg (f.magnitude (rule neg) q)

end Value

/-! ### Operations -/

section Operations

variable (rule : Bool → Rule)

/-- The sum; `zeroNeg` is the sign of an exact zero that is the sum of two numbers with different
signs. -/
def addBy (zeroNeg : Bool) (a b : ℕ) : ℕ :=
  match f.decode a, f.decode b with
  | .nan, _ => f.qnan
  | _, .nan => f.qnan
  | .inf n₁, .inf n₂ => if n₁ = n₂ then f.pattern n₁ f.infinity else f.qnan
  | .inf n, .fin .. => f.pattern n f.infinity
  | .fin .., .inf n => f.pattern n f.infinity
  | .fin n₁ m₁ e₁, .fin n₂ m₂ e₂ =>
    let s : ℚ := signed n₁ m₁ * 2 ^ e₁ + signed n₂ m₂ * 2 ^ e₂
    if s = 0 then f.pattern (if n₁ = n₂ then n₁ else zeroNeg) 0 else f.ofValue rule (s < 0) |s|

/-- The difference; `zeroNeg` is as in `addBy`. -/
def subBy (zeroNeg : Bool) (a b : ℕ) : ℕ :=
  match f.decode a, f.decode b with
  | .nan, _ => f.qnan
  | _, .nan => f.qnan
  | .inf n₁, .inf n₂ => if n₁ = n₂ then f.qnan else f.pattern n₁ f.infinity
  | .inf n, .fin .. => f.pattern n f.infinity
  | .fin .., .inf n => f.pattern (!n) f.infinity
  | .fin n₁ m₁ e₁, .fin n₂ m₂ e₂ =>
    let s : ℚ := signed n₁ m₁ * 2 ^ e₁ - signed n₂ m₂ * 2 ^ e₂
    if s = 0 then f.pattern (if n₁ = n₂ then zeroNeg else n₁) 0 else f.ofValue rule (s < 0) |s|

def mulBy (a b : ℕ) : ℕ :=
  match f.decode a, f.decode b with
  | .nan, _ => f.qnan
  | _, .nan => f.qnan
  | .inf n₁, .inf n₂ => f.pattern (n₁ ^^ n₂) f.infinity
  | .inf n₁, .fin n₂ m _ => if m = 0 then f.qnan else f.pattern (n₁ ^^ n₂) f.infinity
  | .fin n₁ m _, .inf n₂ => if m = 0 then f.qnan else f.pattern (n₁ ^^ n₂) f.infinity
  | .fin n₁ m₁ e₁, .fin n₂ m₂ e₂ =>
    f.ofValue rule (n₁ ^^ n₂) (m₁ * 2 ^ e₁ * (m₂ * 2 ^ e₂) : ℚ)

def divBy (a b : ℕ) : ℕ :=
  match f.decode a, f.decode b with
  | .nan, _ => f.qnan
  | _, .nan => f.qnan
  | .inf _, .inf _ => f.qnan
  | .inf n₁, .fin n₂ _ _ => f.pattern (n₁ ^^ n₂) f.infinity
  | .fin n₁ _ _, .inf n₂ => f.pattern (n₁ ^^ n₂) 0
  | .fin n₁ m₁ e₁, .fin n₂ m₂ e₂ =>
    if m₂ = 0 then if m₁ = 0 then f.qnan else f.pattern (n₁ ^^ n₂) f.infinity
    else f.ofValue rule (n₁ ^^ n₂) (m₁ * 2 ^ e₁ / (m₂ * 2 ^ e₂) : ℚ)

/-- The square root; that of minus zero is minus zero. -/
noncomputable def sqrtBy (a : ℕ) : ℕ :=
  match f.decode a with
  | .nan => f.qnan
  | .inf n => if n then f.qnan else f.pattern false f.infinity
  | .fin n m e =>
    if m = 0 then f.pattern n 0
    else if n then f.qnan
    else f.ofValue rule false (√(m * 2 ^ e) : ℝ)

/-- The integer next to zero of the two around a number. -/
def trunc (q : ℚ) : ℤ := if 0 ≤ q then ⌊q⌋ else ⌈q⌉

/-- The remainder of the division that is cut off: it is exact and has the sign of the first
operand. -/
def IsRem (a b r : ℕ) : Prop :=
  match f.decode a, f.decode b with
  | .nan, _ => r = f.qnan
  | _, .nan => r = f.qnan
  | .inf _, _ => r = f.qnan
  | .fin .., .inf _ => r = a
  | .fin n₁ m₁ e₁, .fin n₂ m₂ e₂ =>
    if m₂ = 0 then r = f.qnan
    else ∃ m e, f.decode r = .fin n₁ m e ∧
      (signed n₁ m * 2 ^ e : ℚ) = signed n₁ m₁ * 2 ^ e₁
        - signed n₂ m₂ * 2 ^ e₂ * trunc (signed n₁ m₁ * 2 ^ e₁ / (signed n₂ m₂ * 2 ^ e₂))

/-! ### Conversions -/

/-- The rounded integer, or the bound it is beyond; NaN is above all integers. -/
def toIntBy (lo hi : ℤ) (a : ℕ) : ℤ :=
  match f.decode a with
  | .nan => hi
  | .inf n => if n then lo else hi
  | .fin n m e =>
    let z := signed n ((rule n).round (m * 2 ^ e : ℚ))
    if z < lo then lo else if hi < z then hi else z

/-- The pattern of an integer. -/
def ofIntBy (z : ℤ) : ℕ := f.ofValue rule (z < 0) (z.natAbs : ℚ)

/-- The pattern of the format `g`. -/
def convertBy (g : Format) (a : ℕ) : ℕ :=
  match f.decode a with
  | .nan => g.qnan
  | .inf n => g.pattern n g.infinity
  | .fin n m e => g.ofValue rule n (m * 2 ^ e : ℚ)

end Operations

/-! ### Magnitudes -/

section Magnitude

variable {f} {K : Type*} [Field K] [LinearOrder K] [IsStrictOrderedRing K] [FloorSemiring K]

/-- The exponent of the last place from the power of two below. -/
theorem ulpExp_eq {q : K} {l : ℤ} (hlo : 2 ^ l ≤ q) (hhi : q < 2 ^ (l + 1)) :
    f.ulpExp q = max (l - f.mantSize) f.minExp := by
  have hpos : 0 < q := (zpow_pos two_pos l).trans_le hlo
  have hlog : Int.log 2 q = l := by
    apply le_antisymm
    · rw [← Int.lt_add_one_iff, ← Int.lt_zpow_iff_log_lt one_lt_two hpos]
      exact_mod_cast hhi
    · rw [← Int.zpow_le_iff_le_log one_lt_two hpos]
      exact_mod_cast hlo
  rw [ulpExp, hlog]

/-- Below the least normal number the last place is the least one. -/
theorem ulpExp_eq_minExp {q : K} (hpos : 0 < q) (hhi : q < 2 ^ (f.mantSize + 1 + f.minExp)) :
    f.ulpExp q = f.minExp := by
  have hlog : Int.log 2 q < f.mantSize + 1 + f.minExp := by
    rw [← Int.lt_zpow_iff_log_lt one_lt_two hpos]
    exact_mod_cast hhi
  rw [ulpExp, max_eq_right (by omega)]

omit [IsStrictOrderedRing K] in
@[simp] theorem magnitude_zero (r : Rule) : f.magnitude r (0 : K) = 0 := if_pos rfl

omit [IsStrictOrderedRing K] in
theorem ofValue_le (rule : Bool → Rule) (neg : Bool) (q : K) :
    f.ofValue rule neg q ≤ f.signBit + f.infinity := by
  have hmag : f.magnitude (rule neg) q ≤ f.infinity := by
    unfold magnitude
    dsimp only
    split_ifs <;> omega
  have hneg : neg.toNat * f.signBit ≤ 1 * f.signBit := Nat.mul_le_mul_right _ (Bool.toNat_le neg)
  rw [ofValue, pattern]
  omega

/-- A significand with its leading bit in place, or below the least exponent that has one. -/
theorem decode_pattern (neg : Bool) {d R : ℕ} (hR : R < 2 ^ (f.mantSize + 1))
    (hd : d = 0 ∨ 2 ^ f.mantSize ≤ R) (h : d * 2 ^ f.mantSize + R < f.infinity) :
    f.decode (f.pattern neg (d * 2 ^ f.mantSize + R)) = .fin neg R (d + f.minExp) := by
  have hsign : f.signBit = 2 ^ f.expSize * 2 ^ f.mantSize := pow_add 2 _ _
  have hE : 0 < 2 ^ f.expSize := by positivity
  have hA : 0 < 2 ^ f.mantSize := by positivity
  rw [pow_succ] at hR
  rw [infinity, expMask] at h
  unfold decode pattern
  rw [hsign, expMask]
  generalize 2 ^ f.mantSize = A at *
  generalize 2 ^ f.expSize = E at *
  have hlt : d * A + R < E * A := h.trans_le (Nat.mul_le_mul_right _ (Nat.sub_le _ _))
  have hneg : ((neg.toNat * (E * A) + (d * A + R)) / (E * A) == 1) = neg := by
    rw [Nat.add_comm, Nat.add_mul_div_right _ _ (by positivity), Nat.div_eq_of_lt hlt]
    cases neg <;> rfl
  have hle : d + R / A < E - 1 := by
    have hdiv := Nat.div_mul_le_self R A
    refine Nat.lt_of_mul_lt_mul_right (a := A) ?_
    rw [Nat.add_mul]
    omega
  have hexp : (neg.toNat * (E * A) + (d * A + R)) / A % E = d + R / A := by
    have hdiv : (neg.toNat * (E * A) + (d * A + R)) / A = E * neg.toNat + (d + R / A) := by
      rw [show neg.toNat * (E * A) + (d * A + R) = R + (E * neg.toNat + d) * A by ring,
        Nat.add_mul_div_right _ _ hA]
      ring
    rw [hdiv, Nat.mul_add_mod, Nat.mod_eq_of_lt (by omega)]
  have hfrac : (neg.toNat * (E * A) + (d * A + R)) % A = R % A := by
    rw [show neg.toNat * (E * A) + (d * A + R) = R + (neg.toNat * E + d) * A by ring,
      Nat.add_mul_mod_self_right]
  simp only [hneg, hexp, hfrac]
  rcases Nat.lt_or_ge R A with hlt | hge
  · have hd0 : d = 0 := by omega
    rw [hd0, Nat.div_eq_of_lt hlt, Nat.mod_eq_of_lt hlt] at *
    rw [if_neg (by omega), if_pos rfl, Nat.cast_zero, zero_add]
  · have hone : R / A = 1 := Nat.div_eq_of_lt_le (by omega) (by omega)
    have hmod : R % A = R - A := by
      rw [Nat.mod_eq_sub_mod hge, Nat.mod_eq_of_lt (by omega)]
    rw [hone] at hle ⊢
    rw [if_neg (by omega), if_neg (by omega), hmod, Nat.add_sub_cancel' hge, Nat.add_sub_cancel]

/-- Below half of the least number only the rule matters. -/
theorem magnitude_tiny {r : Rule} {q : K} (hpos : 0 < q) (hq : q < 2 ^ (f.minExp - 1))
    (hinf : 1 < f.infinity) : f.magnitude r q = (r false .lt).toNat := by
  have hscale : (0 : K) < 2 ^ f.minExp := zpow_pos two_pos _
  have hulp : f.ulpExp q = f.minExp :=
    ulpExp_eq_minExp hpos (hq.trans_le (zpow_le_zpow_right₀ one_le_two (by omega)))
  have hhalf : q / 2 ^ f.minExp < 1 / 2 := by
    rw [div_lt_iff₀ hscale]
    rw [zpow_sub_one₀ two_ne_zero, mul_comm] at hq
    rwa [one_div]
  have hfloor : ⌊q / 2 ^ f.minExp⌋₊ = 0 := by
    rw [Nat.floor_eq_zero]
    linarith
  have hx0 : q / 2 ^ f.minExp ≠ ((0 : ℕ) : K) := by
    rw [Nat.cast_zero]
    positivity
  have hround : r.round (q / 2 ^ f.minExp) = (r false .lt).toNat := by
    rw [Rule.round, hfloor, if_neg hx0, Nat.zero_add, Nat.cast_zero, sub_zero,
      (cmp_eq_lt_iff _ _).2 (by linarith)]
    rfl
  have hle := Bool.toNat_le (r false .lt)
  rw [magnitude, if_neg hpos.ne', hulp, sub_self, Int.toNat_zero, Nat.zero_mul, Nat.zero_add,
    hround, if_neg (by omega)]

/-- A number of the format is not rounded. -/
theorem ofValue_exact (rule : Bool → Rule) (neg : Bool) {d R : ℕ} (hR : R < 2 ^ (f.mantSize + 1))
    (hd : d = 0 ∨ 2 ^ f.mantSize ≤ R) (h : d * 2 ^ f.mantSize + R < f.infinity) :
    f.ofValue rule neg ((R : K) * 2 ^ (d + f.minExp)) = f.pattern neg (d * 2 ^ f.mantSize + R) := by
  have hpos : (0 : K) < 2 ^ (d + f.minExp) := zpow_pos two_pos _
  rw [ofValue, magnitude]
  rcases R.eq_zero_or_pos with rfl | hR0
  · have hd0 : d = 0 := hd.resolve_right (Nat.not_le.2 (by positivity))
    rw [hd0, Nat.cast_zero, zero_mul, if_pos rfl, Nat.zero_mul]
  have hR0' : (0 : K) < R := by exact_mod_cast hR0
  have hulp : f.ulpExp ((R : K) * 2 ^ (d + f.minExp)) = d + f.minExp := by
    have hhi : (R : K) < 2 ^ ((f.mantSize : ℤ) + 1) := by exact_mod_cast hR
    have hhi' := mul_lt_mul_of_pos_right hhi hpos
    rw [← zpow_add₀ two_ne_zero] at hhi'
    rcases hd with rfl | hlo
    · rw [Nat.cast_zero, zero_add] at *
      exact ulpExp_eq_minExp (mul_pos hR0' hpos) hhi'
    · have hlo' : (2 : K) ^ (f.mantSize : ℤ) ≤ R := by exact_mod_cast hlo
      have hlo'' := mul_le_mul_of_nonneg_right hlo' hpos.le
      rw [← zpow_add₀ two_ne_zero] at hlo''
      rw [add_right_comm] at hhi'
      rw [ulpExp_eq hlo'' hhi']
      omega
  rw [if_neg (mul_pos hR0' hpos).ne', hulp, mul_div_assoc, div_self hpos.ne', mul_one,
    Rule.round_natCast, add_sub_cancel_right, Int.toNat_natCast, if_neg (not_le.2 h)]

/-- A number with few enough bits, none of them below the least exponent, is one of the format. -/
theorem decode_ofValue_exact (rule : Bool → Rule) (neg : Bool) {n d : ℕ}
    (hn : n < 2 ^ (f.mantSize + 1)) (hd : d + 2 ≤ f.expMask) :
    ∃ m e, f.decode (f.ofValue rule neg ((n : K) * 2 ^ (d + f.minExp))) = .fin neg m e ∧
      (m : K) * 2 ^ e = n * 2 ^ (d + f.minExp) := by
  have hinf {d R : ℕ} (hR : R < 2 ^ (f.mantSize + 1)) (hd : d + 2 ≤ f.expMask) :
      d * 2 ^ f.mantSize + R < f.infinity := by
    have hmul := Nat.mul_le_mul_right (2 ^ f.mantSize) hd
    rw [pow_succ] at hR
    rw [infinity]
    rw [Nat.add_mul] at hmul
    omega
  induction d generalizing n with
  | zero =>
    refine ⟨n, ((0 : ℕ) : ℤ) + f.minExp, ?_, rfl⟩
    rw [ofValue_exact rule neg hn (.inl rfl) (hinf hn hd)]
    exact decode_pattern neg hn (.inl rfl) (hinf hn hd)
  | succ d ih =>
    rcases Nat.lt_or_ge n (2 ^ f.mantSize) with hlt | hge
    · -- there is room for another bit
      have hscale : (n : K) * 2 ^ (((d + 1 : ℕ) : ℤ) + f.minExp)
          = ((n * 2 ^ 1 : ℕ) : K) * 2 ^ (d + f.minExp) := by
        rw [natCast_mul_two_pow_mul]
        congr 2
        push_cast
        ring
      rw [hscale]
      exact ih (by rw [pow_succ]; omega) (by omega)
    · refine ⟨n, ((d + 1 : ℕ) : ℤ) + f.minExp, ?_, rfl⟩
      rw [ofValue_exact rule neg hn (.inr hge) (hinf hn hd)]
      exact decode_pattern neg hn (.inr hge) (hinf hn hd)

end Magnitude

/-! ### Sums -/

section Sum

variable {f} {rule : Bool → Rule} {zeroNeg : Bool} {a b : ℕ}

theorem ofValue_zero {K : Type*} [Field K] [LinearOrder K] [FloorSemiring K] (neg : Bool) :
    f.ofValue rule neg (0 : K) = f.pattern neg 0 := by
  rw [ofValue, magnitude_zero]

theorem signed_cast_mul (neg : Bool) (m : ℕ) (p : ℚ) :
    (signed neg m : ℚ) * p = if neg then -(m * p) else m * p := by
  cases neg <;> simp [signed]

/-- The sum of two finite numbers, the greater magnitude first. -/
theorem addBy_fin {n₁ n₂ : Bool} {m₁ m₂ : ℕ} {e₁ e₂ : ℤ} (h₁ : f.decode a = .fin n₁ m₁ e₁)
    (h₂ : f.decode b = .fin n₂ m₂ e₂) (hle : (m₂ * 2 ^ e₂ : ℚ) ≤ m₁ * 2 ^ e₁) :
    f.addBy rule zeroNeg a b =
      if n₁ = n₂ then f.ofValue rule n₁ (m₁ * 2 ^ e₁ + m₂ * 2 ^ e₂ : ℚ)
      else if (m₁ * 2 ^ e₁ : ℚ) = m₂ * 2 ^ e₂ then f.pattern zeroNeg 0
      else f.ofValue rule n₁ (m₁ * 2 ^ e₁ - m₂ * 2 ^ e₂ : ℚ) := by
  have hq : (0 : ℚ) ≤ m₂ * 2 ^ e₂ := by positivity
  have hpos (z r : ℚ) (p' : ℕ) (hz : z = r) (hr : 0 < r) :
      (if z = 0 then p' else f.ofValue rule (z < 0) |z|) = f.ofValue rule false r := by
    rw [hz, if_neg hr.ne', abs_of_pos hr, decide_eq_false hr.not_gt]
  have hneg (z r : ℚ) (p' : ℕ) (hz : z = -r) (hr : 0 < r) :
      (if z = 0 then p' else f.ofValue rule (z < 0) |z|) = f.ofValue rule true r := by
    have hlt : -r < 0 := neg_lt_zero.2 hr
    rw [hz, if_neg hlt.ne, abs_of_neg hlt, decide_eq_true hlt, neg_neg]
  simp only [addBy, h₁, h₂, signed_cast_mul]
  generalize (m₁ * 2 ^ e₁ : ℚ) = p at *
  generalize (m₂ * 2 ^ e₂ : ℚ) = q at *
  have hp : 0 ≤ p := hq.trans hle
  rcases eq_or_ne n₁ n₂ with rfl | hne
  · rw [if_pos rfl]
    rcases (add_nonneg hp hq).lt_or_eq with hlt | heq
    · cases n₁
      · exact hpos _ _ _ rfl hlt
      · exact hneg _ _ _ (by simp; ring) hlt
    · -- both are zero
      obtain rfl : p = 0 := by linarith
      obtain rfl : q = 0 := by linarith
      simp [ofValue_zero]
  · rw [if_neg hne]
    rcases hle.lt_or_eq with hlt | rfl
    · rw [if_neg hlt.ne']
      cases n₁ <;> cases n₂
      · exact absurd rfl hne
      · exact hpos _ _ _ (by simp; ring) (sub_pos.2 hlt)
      · exact hneg _ _ _ (by simp; ring) (sub_pos.2 hlt)
      · exact absurd rfl hne
    · rw [if_pos rfl, if_neg hne, if_pos]
      cases n₁ <;> cases n₂ <;> simp_all

/-- The order of the operands does not matter. -/
theorem addBy_comm : f.addBy rule zeroNeg a b = f.addBy rule zeroNeg b a := by
  unfold addBy
  cases f.decode a with
  | nan => cases f.decode b <;> rfl
  | inf n₁ =>
    cases f.decode b with
    | nan | fin => rfl
    | inf n₂ => cases n₁ <;> cases n₂ <;> rfl
  | fin n₁ m₁ e₁ =>
    cases f.decode b with
    | nan | inf => rfl
    | fin n₂ m₂ e₂ =>
      dsimp only
      rw [add_comm (signed n₁ m₁ * 2 ^ e₁ : ℚ)]
      cases n₁ <;> cases n₂ <;> rfl

/-- The difference is the sum with the other sign. -/
theorem subBy_eq_addBy {b' : ℕ} (h : f.decode b' = (f.decode b).neg) :
    f.subBy rule zeroNeg a b = f.addBy rule zeroNeg a b' := by
  unfold subBy addBy
  rw [h]
  cases f.decode a with
  | nan => rfl
  | inf n₁ =>
    cases f.decode b with
    | nan | fin => rfl
    | inf n₂ => cases n₁ <;> cases n₂ <;> rfl
  | fin n₁ m₁ e₁ =>
    cases f.decode b with
    | nan | inf => rfl
    | fin n₂ m₂ e₂ =>
      have hneg : ((signed (!n₂) m₂ : ℤ) : ℚ) = -(signed n₂ m₂ : ℤ) := by
        cases n₂ <;> simp [signed]
      dsimp only [Double.Class.neg]
      rw [hneg, neg_mul, ← sub_eq_add_neg]
      cases n₁ <;> cases n₂ <;> rfl

end Sum

/-! ### Remainders -/

theorem trunc_neg (q : ℚ) : trunc (-q) = -trunc q := by
  unfold trunc
  rcases lt_trichotomy q 0 with h | rfl | h
  · rw [if_pos (by linarith), if_neg (by linarith), Int.floor_neg]
  · simp
  · rw [if_neg (by linarith), if_pos h.le, Int.ceil_neg]

/-- The signs do not matter for the magnitude of the remainder. -/
theorem sub_mul_trunc (n₁ n₂ : Bool) {p q : ℚ} (hp : 0 ≤ p) (hq : 0 ≤ q) :
    (if n₁ then -p else p) - (if n₂ then -q else q)
        * trunc ((if n₁ then -p else p) / (if n₂ then -q else q))
      = if n₁ then -(p - q * ⌊p / q⌋) else p - q * ⌊p / q⌋ := by
  have htrunc : trunc (p / q) = ⌊p / q⌋ := if_pos (div_nonneg hp hq)
  cases n₁ <;> cases n₂ <;>
    simp only [Bool.false_eq_true, if_true, if_false, neg_div, div_neg, neg_neg, trunc_neg,
      htrunc, Int.cast_neg] <;> ring

end Format

end Qjs
