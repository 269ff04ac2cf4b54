import Mathlib

/-!
# Streams of bits in bytes

The bits of a list of bytes, the high bit of each byte first. `HasBits buf index n v` says that the
`n` bits from `index` on are those of the number `v`. A number is made self-delimiting by as many
zeros before it as it has bits after its first one.
-/

namespace Qjs

namespace BitStream

def bitAt (buf : List ℕ) (k : ℕ) : Bool := (buf.getD (k / 8) 0).testBit (7 - k % 8)

def HasBits (buf : List ℕ) (index n v : ℕ) : Prop :=
  ∀ i < n, bitAt buf (index + i) = v.testBit (n - 1 - i)

variable {buf buf' : List ℕ} {index n m v w : ℕ}

/-- Only the bits that are read count. -/
theorem HasBits.congr (h : HasBits buf index n v)
    (hb : ∀ k, index ≤ k → k < index + n → bitAt buf' k = bitAt buf k) :
    HasBits buf' index n v := by
  intro i hi
  rw [hb _ (Nat.le_add_right _ _) (by omega)]
  exact h i hi

theorem HasBits.append (h1 : HasBits buf index m (v / 2 ^ n)) (h2 : HasBits buf (index + m) n (v % 2 ^ n)) :
    HasBits buf index (m + n) v := by
  intro i hi
  by_cases him : i < m
  · rw [h1 i him, Nat.testBit_div_two_pow]
    congr 1
    omega
  · have := h2 (i - m) (by omega)
    rw [show index + m + (i - m) = index + i by omega, Nat.testBit_mod_two_pow] at this
    rw [this, show n - 1 - (i - m) = m + n - 1 - i by omega, decide_eq_true (by omega),
      Bool.true_and]

theorem HasBits.unique (hv : v < 2 ^ n) (hw : w < 2 ^ n) (h1 : HasBits buf index n v)
    (h2 : HasBits buf index n w) : v = w := by
  refine Nat.eq_of_testBit_eq fun t => ?_
  by_cases ht : t < n
  · have e1 := h1 (n - 1 - t) (by omega)
    have e2 := h2 (n - 1 - t) (by omega)
    rw [show n - 1 - (n - 1 - t) = t by omega] at e1 e2
    rw [← e1, e2]
  · rw [Nat.testBit_lt_two_pow (hv.trans_le (Nat.pow_le_pow_right two_pos (by omega))),
      Nat.testBit_lt_two_pow (hw.trans_le (Nat.pow_le_pow_right two_pos (by omega)))]

/-! ### Words of four bytes -/

/-- The bits of four bytes, most significant first. -/
theorem testBit_bytes4 {b0 b1 b2 b3 j : ℕ} (h1 : b1 < 2 ^ 8) (h2 : b2 < 2 ^ 8) (h3 : b3 < 2 ^ 8)
    (hj : j < 32) :
    (2 ^ 8 * (2 ^ 8 * (2 ^ 8 * b0 + b1) + b2) + b3).testBit (31 - j)
      = (if j < 8 then b0 else if j < 16 then b1 else if j < 24 then b2 else b3).testBit
        (7 - j % 8) := by
  rw [Nat.testBit_two_pow_mul_add _ h3]
  by_cases c3 : 31 - j < 8
  · rw [if_pos c3, if_neg (by omega), if_neg (by omega), if_neg (by omega)]
    congr 1
    omega
  rw [if_neg c3, Nat.testBit_two_pow_mul_add _ h2]
  by_cases c2 : 31 - j - 8 < 8
  · rw [if_pos c2, if_neg (by omega), if_neg (by omega), if_pos (by omega)]
    congr 1
    omega
  rw [if_neg c2, Nat.testBit_two_pow_mul_add _ h1]
  by_cases c1 : 31 - j - 8 - 8 < 8
  · rw [if_pos c1, if_neg (by omega), if_pos (by omega)]
    congr 1
    omega
  · rw [if_neg c1, if_pos (by omega)]
    congr 1
    omega

/-! ### Self-delimiting numbers -/

/-- `u` with the zeros before it, for `u ≠ 0`. -/
def HasGamma (buf : List ℕ) (index u : ℕ) : Prop :=
  HasBits buf index (u.size - 1) 0 ∧ HasBits buf (index + (u.size - 1)) u.size u

/-- The number of bits of it. -/
def gammaLen (u : ℕ) : ℕ := u.size - 1 + u.size

theorem HasGamma.congr {u : ℕ} (h : HasGamma buf index u)
    (hb : ∀ k, index ≤ k → k < index + gammaLen u → bitAt buf' k = bitAt buf k) :
    HasGamma buf' index u := by
  unfold gammaLen at hb
  exact ⟨h.1.congr fun k h1 h2 => hb k h1 (by omega), h.2.congr fun k h1 h2 => hb k (by omega) (by omega)⟩

/-- The first bit of a number is a one. -/
theorem div_two_pow_size {u : ℕ} (hu : u ≠ 0) : u / 2 ^ (u.size - 1) = 1 := by
  have hs : 0 < u.size := Nat.size_pos.2 (Nat.pos_of_ne_zero hu)
  have hlt : u < 2 ^ u.size := Nat.lt_size_self u
  have hge : 2 ^ (u.size - 1) ≤ u := Nat.lt_size.1 (by omega)
  refine Nat.div_eq_of_lt_le (by omega) ?_
  rw [← Nat.pow_succ']
  rwa [show (u.size - 1).succ = u.size by omega]

/-- The first one is where the number starts. -/
theorem HasGamma.one {u : ℕ} (h : HasGamma buf index u) (hu : u ≠ 0) :
    bitAt buf (index + (u.size - 1)) = true := by
  have hs : 0 < u.size := Nat.size_pos.2 (Nat.pos_of_ne_zero hu)
  have := h.2 0 hs
  rw [Nat.add_zero, Nat.sub_zero] at this
  rw [this, Nat.testBit_eq_decide_div_mod_eq, div_two_pow_size hu]
  rfl

theorem HasGamma.zero {u : ℕ} (h : HasGamma buf index u) {i : ℕ} (hi : i < u.size - 1) :
    bitAt buf (index + i) = false := by
  rw [h.1 i hi, Nat.zero_testBit]

/-- What is left of the number after its first one. -/
theorem HasGamma.rest {u : ℕ} (h : HasGamma buf index u) (hu : u ≠ 0) :
    HasBits buf (index + u.size) (u.size - 1) (u % 2 ^ (u.size - 1)) := by
  have hs : 0 < u.size := Nat.size_pos.2 (Nat.pos_of_ne_zero hu)
  intro i hi
  have := h.2 (i + 1) (by omega)
  rw [show index + (u.size - 1) + (i + 1) = index + u.size + i by omega] at this
  rw [this, Nat.testBit_mod_two_pow, decide_eq_true (by omega), Bool.true_and]
  congr 1
  omega

theorem two_pow_or_mod {u : ℕ} (hu : u ≠ 0) : 2 ^ (u.size - 1) ||| u % 2 ^ (u.size - 1) = u := by
  have hmod : u % 2 ^ (u.size - 1) < 2 ^ (u.size - 1) := Nat.mod_lt _ (Nat.two_pow_pos _)
  have hor := Nat.two_pow_add_eq_or_of_lt hmod 1
  rw [Nat.mul_one] at hor
  have hsum := Nat.div_add_mod u (2 ^ (u.size - 1))
  rw [div_two_pow_size hu, Nat.mul_one] at hsum
  rw [← hor, hsum]

end BitStream

end Qjs
