import Qjs.SoftFp
import Qjs.Lib.FloatFormat

/-!
# Soft-float operations

The functions of `softfp_template.h` at its two formats, and those of `softfp_template_icvt.h`
between binary64 and the integers of 32 and 64 bits. `int128` says whether the compiler has 128-bit
integers; without them products, quotients and square roots are put together from 64-bit ones.
-/

namespace Qjs

namespace SoftFp

def sf32 : Format := ⟨23, 8⟩

def sf64 : Format := ⟨52, 11⟩

/-! ### Packing -/

section Template

variable (f : Format)

/-- `F_SIZE` -/
def fSize : ℕ := f.expSize + f.mantSize + 1

/-- `RND_SIZE` -/
def rndSizeSf : ℕ := fSize f - 2 - f.mantSize

def packSf (sign exp mant : ℕ) : ℕ :=
  sign * 2 ^ (fSize f - 1) + exp * 2 ^ f.mantSize + mant % 2 ^ f.mantSize

def rshiftRnd (a d : ℕ) : ℕ :=
  if d = 0 then a
  else if fSize f ≤ d then if a ≠ 0 then 1 else 0
  else (a / 2 ^ d) ||| (if a % 2 ^ d ≠ 0 then 1 else 0)

/-- The `addend` of a rounding mode. -/
def addendOf (rnd sign : ℕ) : RoundingMode → ℕ
  | .rne | .rmm => 2 ^ (rnd - 1)
  | .rtz => 0
  | .rdn => if sign ≠ 0 then 2 ^ rnd - 1 else 0
  | .rup => if sign = 0 then 2 ^ rnd - 1 else 0

/-- The significand without its last `rnd` bits. -/
def roundMant (rnd sign mant : ℕ) (rm : RoundingMode) : ℕ :=
  let rndBits := mant % 2 ^ rnd
  let mant := (mant + addendOf rnd sign rm) % 2 ^ fSize f / 2 ^ rnd
  if rm = .rne ∧ rndBits = 2 ^ (rnd - 1) then mant - mant % 2 else mant

/-- `round_pack_sf` -/
def roundPackSf (sign : ℕ) (exp : ℤ) (mant : ℕ) (rm : RoundingMode) : ℕ :=
  let rnd := rndSizeSf f
  let mant := if exp ≤ 0 then rshiftRnd f mant (1 - exp).toNat else mant
  let exp := if exp ≤ 0 then 1 else exp
  let mant := roundMant f rnd sign mant rm
  let exp := exp + (mant / 2 ^ (f.mantSize + 1) : ℕ)
  if mant ≤ 2 ^ f.mantSize - 1 then packSf f sign 0 mant
  else if (f.expMask : ℤ) ≤ exp then
    if addendOf rnd sign rm = 0 then packSf f sign (f.expMask - 1) (2 ^ f.mantSize - 1)
    else packSf f sign f.expMask 0
  else packSf f sign exp.toNat mant

/-- `clz32` and `clz64`; the builtin leaves 0 undefined, and what comes of it does not matter. -/
def clz (n a : ℕ) : ℤ := if a = 0 then n else n - 1 - Nat.log2 a

def normalizeSf (sign : ℕ) (exp : ℤ) (mant : ℕ) (rm : RoundingMode) : ℕ :=
  let shift := clz (fSize f) mant - 1
  roundPackSf f sign (exp - shift) (mant * 2 ^ shift.toNat % 2 ^ fSize f) rm

def normalizeSubnormalSf (mant : ℕ) : ℤ × ℕ :=
  let shift := f.mantSize - (fSize f - 1 - clz (fSize f) mant)
  (1 - shift, mant * 2 ^ shift.toNat % 2 ^ fSize f)

def isnanSf (a : ℕ) : Bool :=
  a / 2 ^ f.mantSize % 2 ^ f.expSize == f.expMask && a % 2 ^ f.mantSize != 0

end Template

/-! ### Addition -/

def addSf64 (a b : ℕ) (rm : RoundingMode) : ℕ :=
  -- the greater magnitude first
  let (a, b) := if a % signMask < b % signMask then (b, a) else (a, b)
  let aSign := a / 2 ^ 63
  let bSign := b / 2 ^ 63
  let aExp : ℕ := a / 2 ^ mantSize % 2 ^ 11
  let bExp : ℕ := b / 2 ^ mantSize % 2 ^ 11
  let aMant := a % 2 ^ mantSize * 2 ^ 3
  let bMant := b % 2 ^ mantSize * 2 ^ 3
  if aExp = expMask then
    if aMant ≠ 0 then qnan64
    else if bExp = expMask ∧ aSign ≠ bSign then qnan64
    else a
  else
    let aMant := if aExp = 0 then aMant else aMant + 2 ^ (mantSize + 3)
    let aExp : ℕ := if aExp = 0 then 1 else aExp
    let bMant := if bExp = 0 then bMant else bMant + 2 ^ (mantSize + 3)
    let bExp : ℕ := if bExp = 0 then 1 else bExp
    let bMant := rshiftRnd sf64 bMant (aExp - bExp)
    let rExp : ℤ := (aExp : ℕ) + (rndSize - 3 : ℕ)
    if aSign = bSign then normalizeSf sf64 aSign rExp (aMant + bMant) rm
    else
      let aMant := aMant - bMant
      let aSign := if aMant = 0 then if rm = .rdn then 1 else 0 else aSign
      normalizeSf sf64 aSign rExp aMant rm

def subSf64 (a b : ℕ) (rm : RoundingMode) : ℕ := addSf64 a (b ^^^ signMask) rm

/-! ### Multiplication -/

/-- `mul_u` with 64-bit products of the halves: the upper and the lower half. -/
def mulUHalves (a b : ℕ) : ℕ × ℕ :=
  let a0 := a % 2 ^ 32
  let a1 := a / 2 ^ 32
  let b0 := b % 2 ^ 32
  let b1 := b / 2 ^ 32
  let r00 := a0 * b0
  let r01 := a0 * b1
  let r10 := a1 * b0
  let r11 := a1 * b1
  let r0 := r00 % 2 ^ 32
  let c := (r00 / 2 ^ 32 + r01 % 2 ^ 32 + r10 % 2 ^ 32) % 2 ^ 64
  let r1 := c % 2 ^ 32
  let c := (c / 2 ^ 32 + r01 / 2 ^ 32 + r10 / 2 ^ 32 + r11 % 2 ^ 32) % 2 ^ 64
  let r2 := c % 2 ^ 32
  let r3 := (c / 2 ^ 32 + r11 / 2 ^ 32) % 2 ^ 32
  (r3 * 2 ^ 32 + r2, r1 * 2 ^ 32 + r0)

def mulU (int128 : Bool) (a b : ℕ) : ℕ × ℕ :=
  if int128 then (a * b / 2 ^ 64 % 2 ^ 64, a * b % 2 ^ 64) else mulUHalves a b

/-- The exponent and the significand of a number that is not zero. -/
def unpackSf64 (a : ℕ) : ℤ × ℕ :=
  let exp : ℕ := a / 2 ^ mantSize % 2 ^ 11
  let mant := a % 2 ^ mantSize
  if exp = 0 then normalizeSubnormalSf sf64 mant else (exp, mant + 2 ^ mantSize)

def isZeroSf64 (a : ℕ) : Bool := a / 2 ^ mantSize % 2 ^ 11 == 0 && a % 2 ^ mantSize == 0

def mulSf64 (int128 : Bool) (a b : ℕ) (rm : RoundingMode) : ℕ :=
  let rSign := (a / 2 ^ 63) ^^^ (b / 2 ^ 63)
  let aExp := a / 2 ^ mantSize % 2 ^ 11
  let bExp := b / 2 ^ mantSize % 2 ^ 11
  if aExp = expMask ∨ bExp = expMask then
    if isnanSf sf64 a ∨ isnanSf sf64 b then qnan64
    else if (aExp = expMask ∧ isZeroSf64 b) ∨ (bExp = expMask ∧ isZeroSf64 a) then qnan64
    else packSf sf64 rSign expMask 0
  else if isZeroSf64 a then packSf sf64 rSign 0 0
  else if isZeroSf64 b then packSf sf64 rSign 0 0
  else
    let (aExp, aMant) := unpackSf64 a
    let (bExp, bMant) := unpackSf64 b
    let rExp := aExp + bExp - 2 ^ 10 + 2
    let (rMant, rMantLow) :=
      mulU int128 (aMant * 2 ^ rndSize % 2 ^ 64) (bMant * 2 ^ (rndSize + 1) % 2 ^ 64)
    normalizeSf sf64 rSign rExp (rMant ||| (if rMantLow ≠ 0 then 1 else 0)) rm

/-! ### Division -/

/-- The loop of `divrem_u`, one bit of the quotient at each turn. -/
def divremLoop (b : ℕ) : ℕ → ℕ → ℕ → ℕ × ℕ
  | 0, a1, a0 => (a0, a1)
  | n + 1, a1, a0 =>
    let ab := a1 / 2 ^ 63
    let a1 := a1 * 2 % 2 ^ 64 + a0 / 2 ^ 63
    if ab ≠ 0 ∨ b ≤ a1 then
      divremLoop b n ((a1 + 2 ^ 64 - b) % 2 ^ 64) (a0 * 2 % 2 ^ 64 + 1)
    else divremLoop b n a1 (a0 * 2 % 2 ^ 64)

/-- `divrem_u`: the quotient and the remainder of `a1 * 2 ^ 64 + a0`. -/
def divremU (int128 : Bool) (a1 a0 b : ℕ) : ℕ × ℕ :=
  if int128 then ((a1 * 2 ^ 64 + a0) / b % 2 ^ 64, (a1 * 2 ^ 64 + a0) % b)
  else divremLoop b 64 a1 a0

def divSf64 (int128 : Bool) (a b : ℕ) (rm : RoundingMode) : ℕ :=
  let rSign := (a / 2 ^ 63) ^^^ (b / 2 ^ 63)
  let aExp := a / 2 ^ mantSize % 2 ^ 11
  let bExp := b / 2 ^ mantSize % 2 ^ 11
  if aExp = expMask then
    if a % 2 ^ mantSize ≠ 0 ∨ isnanSf sf64 b then qnan64
    else if bExp = expMask then qnan64
    else packSf sf64 rSign expMask 0
  else if bExp = expMask then
    if b % 2 ^ mantSize ≠ 0 then qnan64 else packSf sf64 rSign 0 0
  else if isZeroSf64 b then
    if isZeroSf64 a then qnan64 else packSf sf64 rSign expMask 0
  else if isZeroSf64 a then packSf sf64 rSign 0 0
  else
    let (aExp, aMant) := unpackSf64 a
    let (bExp, bMant) := unpackSf64 b
    let rExp := aExp - bExp + 2 ^ 10 - 1
    let (rMant, r) := divremU int128 aMant 0 (bMant * 2 ^ 2 % 2 ^ 64)
    normalizeSf sf64 rSign rExp (if r ≠ 0 then rMant ||| 1 else rMant) rm

/-! ### Square root -/

/-- A step of Newton's method. -/
def sqrtNext (int128 : Bool) (a1 a0 s : ℕ) : ℕ :=
  if int128 then ((a1 * 2 ^ 64 + a0) / s + s) / 2
  else ((divremU false a1 a0 s).1 + s) % 2 ^ 64 / 2

/-- The loop of `sqrtrem_u`, from above. -/
def sqrtLoop (int128 : Bool) (a1 a0 s : ℕ) : ℕ :=
  if _h : s ≤ sqrtNext int128 a1 a0 s then s
  else sqrtLoop int128 a1 a0 (sqrtNext int128 a1 a0 s)
  termination_by s
  decreasing_by exact Nat.lt_of_not_le _h

/-- `sqrtrem_u`: the integer square root, and whether it is not exact. -/
def sqrtremU (int128 : Bool) (a1 a0 : ℕ) : ℕ × Bool :=
  if a1 = 0 ∧ a0 = 0 then (0, false)
  else
    let l := if a1 ≠ 0 then 2 * 64 - clz 64 (a1 - 1) else 64 - clz 64 (a0 - 1)
    let s := sqrtLoop int128 a1 a0 (2 ^ ((l + 1) / 2).toNat)
    if int128 then (s, a1 * 2 ^ 64 + a0 - s * s != 0)
    else
      let (sq1, sq0) := mulU false s s
      (s, sq0 != a0 || sq1 != a1)

def sqrtSf64 (int128 : Bool) (a : ℕ) (rm : RoundingMode) : ℕ :=
  let aSign := a / 2 ^ 63
  let aExp := a / 2 ^ mantSize % 2 ^ 11
  if aExp = expMask then
    if a % 2 ^ mantSize ≠ 0 then qnan64 else if aSign ≠ 0 then qnan64 else a
  else if aSign ≠ 0 then if isZeroSf64 a then a else qnan64
  else if isZeroSf64 a then packSf sf64 0 0 0
  else
    let (aExp, aMant) := unpackSf64 a
    let aExp := aExp - (expMask / 2 : ℕ)
    -- an even exponent
    let (aExp, aMant) := if aExp % 2 ≠ 0 then (aExp - 1, aMant * 2 % 2 ^ 64) else (aExp, aMant)
    let aExp := aExp / 2 + (expMask / 2 : ℕ)
    let (rMant, inexact) := sqrtremU int128 (aMant * 2 ^ (64 - 4 - mantSize) % 2 ^ 64) 0
    normalizeSf sf64 0 aExp (if inexact then rMant ||| 1 else rMant) rm

/-! ### Integers -/

/-- `internal_cvt_sf64_i32` and `internal_cvt_sf64_i64`, for integers of `size` bits. -/
def internalCvtSf64I (size a : ℕ) (rm : RoundingMode) (isUnsigned : Bool) : ℕ :=
  let aExp : ℕ := a / 2 ^ mantSize % 2 ^ 11
  let aMant := a % 2 ^ mantSize
  -- NaN is like infinity
  let aSign := if aExp = expMask ∧ aMant ≠ 0 then 0 else a / 2 ^ 63
  let aMant := if aExp = 0 then aMant else aMant + 2 ^ mantSize
  let aExp : ℕ := if aExp = 0 then 1 else aExp
  let aMant := aMant * 2 ^ rndSize % 2 ^ 64
  let aExp : ℤ := aExp - (expMask / 2 : ℕ) - mantSize
  let rMax := if isUnsigned then (aSign + 2 ^ size - 1) % 2 ^ size
    else 2 ^ (size - 1) - (aSign ^^^ 1)
  if 0 ≤ aExp then
    if aExp ≤ size - 1 - mantSize then
      let r := aMant / 2 ^ rndSize % 2 ^ size * 2 ^ aExp.toNat % 2 ^ size
      if rMax < r then rMax else if aSign ≠ 0 then (2 ^ size - r) % 2 ^ size else r
    else rMax
  else
    let r := roundMant sf64 rndSize aSign (rshiftRnd sf64 aMant (-aExp).toNat) rm
    if rMax < r then rMax else if aSign ≠ 0 then (2 ^ size - r) % 2 ^ size else r

def cvtSf64I (size a : ℕ) (rm : RoundingMode) : ℤ :=
  (BitVec.ofNat size (internalCvtSf64I size a rm false)).toInt

def cvtSf64I32 (a : ℕ) (rm : RoundingMode) : ℤ := cvtSf64I 32 a rm

def cvtSf64U32 (a : ℕ) (rm : RoundingMode) : ℕ := internalCvtSf64I 32 a rm true

def cvtSf64I64 (a : ℕ) (rm : RoundingMode) : ℤ := cvtSf64I 64 a rm

def cvtSf64U64 (a : ℕ) (rm : RoundingMode) : ℕ := internalCvtSf64I 64 a rm true

/-- `internal_cvt_i32_sf64` and `internal_cvt_i64_sf64`, of a word of `size` bits. -/
def internalCvtISf64 (size a : ℕ) (rm : RoundingMode) (isUnsigned : Bool) : ℕ :=
  let neg := !isUnsigned && decide (2 ^ (size - 1) ≤ a)
  let aSign := if neg then 1 else 0
  let r := if neg then (2 ^ size - a) % 2 ^ size else a
  let aExp : ℤ := (expMask / 2 : ℕ) + 64 - 2
  let l := size - clz size r - (64 - 1)
  if 0 < l then
    let r := (r / 2 ^ l.toNat) ||| (if r % 2 ^ l.toNat ≠ 0 then 1 else 0)
    normalizeSf sf64 aSign (aExp + l) r rm
  else normalizeSf sf64 aSign aExp r rm

def cvtI32Sf64 (a : ℕ) (rm : RoundingMode) : ℕ := internalCvtISf64 32 a rm false

def cvtU32Sf64 (a : ℕ) (rm : RoundingMode) : ℕ := internalCvtISf64 32 a rm true

def cvtI64Sf64 (a : ℕ) (rm : RoundingMode) : ℕ := internalCvtISf64 64 a rm false

def cvtU64Sf64 (a : ℕ) (rm : RoundingMode) : ℕ := internalCvtISf64 64 a rm true

/-! ### The two formats -/

def qnan32 : ℕ := (2 ^ 8 - 1) * 2 ^ 23 + 2 ^ 22

def cvtSf32Sf64 (a : ℕ) : ℕ :=
  let aSign := a / 2 ^ 31
  let aExp : ℕ := a / 2 ^ 23 % 2 ^ 8
  let aMant := a % 2 ^ 23
  if aExp = 0xff then if aMant ≠ 0 then qnan64 else packSf sf64 aSign expMask 0
  else if aExp = 0 ∧ aMant = 0 then packSf sf64 aSign 0 0
  else
    let (exp, aMant) : ℤ × ℕ :=
      if aExp = 0 then normalizeSubnormalSf sf32 aMant else (aExp, aMant)
    let exp := exp - 0x7f + (expMask / 2 : ℕ)
    packSf sf64 aSign exp.toNat (aMant * 2 ^ (mantSize - 23))

def cvtSf64Sf32 (a : ℕ) (rm : RoundingMode) : ℕ :=
  let aSign := a / 2 ^ 63
  let aExp : ℕ := a / 2 ^ mantSize % 2 ^ 11
  let aMant := a % 2 ^ mantSize
  if aExp = expMask then if aMant ≠ 0 then qnan32 else packSf sf32 aSign 0xff 0
  else if aExp = 0 ∧ aMant = 0 then packSf sf32 aSign 0 0
  else
    -- for a subnormal number only the exponent is taken from `normalize_subnormal_sf`
    let exp : ℤ := if aExp = 0 then (normalizeSubnormalSf sf64 aMant).1 else aExp
    let aMant := if aExp = 0 then aMant else aMant + 2 ^ mantSize
    let exp := exp - (expMask / 2 : ℕ) + 0x7f
    normalizeSf sf32 aSign exp (rshiftRnd sf64 aMant (mantSize - (32 - 2))) rm

/-- The rule of a rounding mode for each sign. -/
def RoundingMode.rule : RoundingMode → Bool → Rule
  | .rne, _ => .nearestEven
  | .rtz, _ => .truncate
  | .rdn, neg => if neg then .away else .truncate
  | .rup, neg => if neg then .truncate else .away
  | .rmm, _ => .nearestAway

end SoftFp

end Qjs
