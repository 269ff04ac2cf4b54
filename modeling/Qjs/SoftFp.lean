import Qjs.Lib.Binary64

/-!
# Soft-float remainder

`js_fmod` is the bit-level `fmod_sf64`, in every build: significands are taken apart, the first
one is reduced by repeated doubling, and the rest is packed again. Patterns are natural numbers
below `2 ^ 64`, exponents integers.
-/

namespace Qjs

namespace SoftFp

/-- The rounding modes, in the source's order. -/
inductive RoundingMode
  | rne
  | rtz
  | rdn
  | rup
  | rmm
  deriving DecidableEq, Repr

def mantSize : ℕ := 52

def expMask : ℕ := 2 ^ 11 - 1

def mantMask : ℕ := 2 ^ mantSize - 1

def signMask : ℕ := 2 ^ 63

def rndSize : ℕ := 10

def qnan64 : ℕ := expMask * 2 ^ mantSize + 2 ^ (mantSize - 1)

/-- `clz64`; the builtin leaves 0 undefined, and `roundPackSf64_zero` shows that the value given
there does not matter. -/
def clz64 (a : ℕ) : ℤ := if a = 0 then 64 else 63 - Nat.log2 a

def packSf64 (sign exp mant : ℕ) : ℕ := sign * 2 ^ 63 + exp * 2 ^ mantSize + mant % 2 ^ mantSize

/-- `rshift_rnd`: a right shift that keeps a sticky bit. -/
def rshiftRnd64 (a d : ℕ) : ℕ :=
  if d = 0 then a
  else if 64 ≤ d then if a ≠ 0 then 1 else 0
  else (a / 2 ^ d) ||| (if a % 2 ^ d ≠ 0 then 1 else 0)

def rndAddend (sign : ℕ) : RoundingMode → ℕ
  | .rne | .rmm => 2 ^ (rndSize - 1)
  | .rtz => 0
  | .rdn => if sign ≠ 0 then 2 ^ rndSize - 1 else 0
  | .rup => if sign = 0 then 2 ^ rndSize - 1 else 0

/-- `round_pack_sf`: `mant` has its top bit at bit 62. -/
def roundPackSf64 (sign : ℕ) (exp : ℤ) (mant : ℕ) (rm : RoundingMode) : ℕ :=
  let addend := rndAddend sign rm
  let mant := if exp ≤ 0 then rshiftRnd64 mant (1 - exp).toNat else mant
  let exp := if exp ≤ 0 then 1 else exp
  let rndBits := mant % 2 ^ rndSize
  let mant := (mant + addend) % 2 ^ 64 / 2 ^ rndSize
  let mant := if rm = .rne ∧ rndBits = 2 ^ (rndSize - 1) then mant - mant % 2 else mant
  let exp := exp + (mant / 2 ^ (mantSize + 1) : ℕ)
  if mant ≤ mantMask then packSf64 sign 0 mant
  else if (expMask : ℤ) ≤ exp then
    if addend = 0 then packSf64 sign (expMask - 1) mantMask else packSf64 sign expMask 0
  else packSf64 sign exp.toNat mant

def normalizeSf64 (sign : ℕ) (exp : ℤ) (mant : ℕ) (rm : RoundingMode) : ℕ :=
  let shift := clz64 mant - 1
  roundPackSf64 sign (exp - shift) (mant * 2 ^ shift.toNat % 2 ^ 64) rm

/-- `normalize_subnormal_sf`: the exponent and the significand with its top bit in place. -/
def normalizeSubnormalSf64 (mant : ℕ) : ℤ × ℕ :=
  let shift := mantSize - (63 - clz64 mant)
  (1 - shift, mant * 2 ^ shift.toNat % 2 ^ 64)

/-- The exponent and significand `fmod_sf64` works with. -/
def unpackNormal (a : ℕ) : ℤ × ℕ :=
  let exp : ℕ := a / 2 ^ mantSize % 2 ^ 11
  let mant := a % 2 ^ mantSize
  if exp = 0 then normalizeSubnormalSf64 mant else (exp, mant + 2 ^ mantSize)

/-- The loop of `fmod_sf64`: `n` doublings, each reduced. -/
def fmodLoop (bMant : ℕ) : ℕ → ℕ → ℕ
  | 0, aMant => aMant
  | n + 1, aMant =>
    let aMant := aMant * 2 % 2 ^ 64
    fmodLoop bMant n (if bMant ≤ aMant then aMant - bMant else aMant)

def fmodSf64 (a b : ℕ) : ℕ :=
  let aAbs := a % signMask
  let bAbs := b % signMask
  if bAbs = 0 ∨ expMask * 2 ^ mantSize ≤ aAbs ∨ expMask * 2 ^ mantSize < bAbs then qnan64
  else if aAbs < bAbs then a
  else if aAbs = bAbs then a - aAbs
  else
    let aSign := a / 2 ^ 63
    let (aExp, aMant) := unpackNormal a
    let (bExp, bMant) := unpackNormal b
    let aMant := if bMant ≤ aMant then aMant - bMant else aMant
    let aMant := fmodLoop bMant (aExp - bExp).toNat aMant
    normalizeSf64 aSign bExp (aMant * 2 ^ rndSize % 2 ^ 64) .rne

end SoftFp

open SoftFp in
/-- `js_fmod`. -/
def jsFmod (a b : Double) : Double := BitVec.ofNat 64 (fmodSf64 a.toNat b.toNat)

end Qjs
