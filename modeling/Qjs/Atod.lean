import Qjs.Json
import Qjs.Lib.Binary64

/-!
# Strings to numbers

`js_atod` and `js_atod1`. A pointer into the text is the list of the bytes from there on; past the
end zero is read. A big number is a natural number, so the limbs are not seen. What overflows an
`int` is undefined in the source, here it is the exact number.
-/

namespace Qjs

namespace Atod

open Json (cur infinityText skipSpaces)

/-! ### Flags and tables -/

def intOnly (flags : ℕ) : Bool := flags.testBit 0

def acceptBinOct (flags : ℕ) : Bool := flags.testBit 1

def acceptLegacyOctal (flags : ℕ) : Bool := flags.testBit 2

def acceptUnderscores (flags : ℕ) : Bool := flags.testBit 3

/-- `JS_ATOD_TOSTRING`. -/
def atodToString (flags : ℕ) : Bool := flags.testBit 8

def digitsPerLimbTable : List ℕ :=
  [32, 20, 16, 13, 12, 11, 10, 10, 9, 9, 8, 8, 8, 8, 8, 7, 7, 7, 7, 7, 7, 7, 6, 6, 6, 6, 6, 6, 6, 6,
    6, 6, 6, 6, 6]

def radixBaseTable : List ℕ :=
  [0x00000000, 0xcfd41b91, 0x00000000, 0x48c27395, 0x81bf1000, 0x75db9c97, 0x40000000, 0xcfd41b91,
    0x3b9aca00, 0x8c8b6d2b, 0x19a10000, 0x309f1021, 0x57f6c100, 0x98c29b81, 0x00000000, 0x18754571,
    0x247dbc80, 0x3547667b, 0x4c4b4000, 0x6b5a6e1d, 0x94ace180, 0xcaf18367, 0x0b640000, 0x0e8d4a51,
    0x1269ae40, 0x17179149, 0x1cb91000, 0x23744899, 0x2b73a840, 0x34e63b41, 0x40000000, 0x4cfa3cc1,
    0x5c13d840, 0x6d91b519, 0x81bf1000]

def atodMaxDigitsTable : List ℕ :=
  [64, 80, 32, 55, 49, 45, 21, 40, 38, 37, 35, 34, 33, 32, 16, 31, 30, 30, 29, 29, 28, 28, 27, 27,
    27, 26, 26, 26, 26, 25, 12, 25, 25, 24, 24]

def maxExponent : List ℤ :=
  [1024, 647, 512, 442, 397, 365, 342, 324, 309, 297, 286, 277, 269, 263, 256, 251, 246, 242, 237,
    234, 230, 227, 224, 221, 218, 216, 214, 211, 209, 207, 205, 203, 202, 200, 199]

def minExponent : List ℤ :=
  [-1075, -679, -538, -463, -416, -383, -359, -340, -324, -311, -300, -291, -283, -276, -269, -263,
    -258, -254, -249, -245, -242, -238, -235, -232, -229, -227, -224, -222, -220, -217, -215, -214,
    -212, -210, -208]

/-! ### Big numbers -/

/-- `mpb_mul1_base`: the base 0 is `2 ^ 32`. -/
def mpbMul1Base (r radixBase a : ℕ) : ℕ := r * (if radixBase = 0 then 2 ^ 32 else radixBase) + a

/-- `mpb_floor_log2`. -/
def mpbFloorLog2 (a : ℕ) : ℤ := if a = 0 then -1 else Nat.log2 a

inductive RndMode
  | rndn
  | rndna
  | rndz
  deriving DecidableEq, Repr

/-- `mpb_shr_round`: `r / 2 ^ shift` rounded. -/
def mpbShrRound (r : ℕ) (shift : ℤ) (rndMode : RndMode) : ℕ :=
  if shift ≤ 0 then r <<< (-shift).toNat
  else
    let k := shift.toNat
    let addOne :=
      match rndMode with
      | .rndz => false
      | .rndna => r.testBit (k - 1)
      | .rndn => r.testBit (k - 1) && (r % 2 ^ (k - 1) ≠ 0 || r.testBit k)
    (r >>> k) + addOne.toNat

/-- The division loop of `mul_pow`: the quotient, and whether there was a remainder. -/
def divPow (radix1 d : ℕ) : ℕ → ℕ → ℕ → ℕ → ℕ × ℕ
  | 0, a, rem, _ => (a, rem)
  | fuel + 1, a, rem, f =>
    if f = 0 then (a, rem)
    else
      let n := min f d
      let b := radix1 ^ n
      divPow radix1 d fuel (a / b) (rem ||| a % b) (f - n)

/-- `mul_pow`: the number and the offset of its exponent. -/
def mulPow (a radix1 radixShift : ℕ) (f : ℤ) (isInt : Bool) (e : ℤ) : ℕ × ℤ :=
  let eOffset := -f * radixShift
  if radix1 = 1 then (a, eOffset)
  else
    let d := digitsPerLimbTable.getD (radix1 - 2) 0
    if 0 ≤ f then (a * radix1 ^ f.toNat, eOffset)
    else
      let f := (-f).toNat
      let l := (f + d - 1) / d
      let eOffset := eOffset + l * 32
      let extraBits := if isInt then max (2 + e - eOffset) 0 else max (e - mpbFloorLog2 a) 0
      let a := mpbShrRound a (-(l * 32 + extraBits)) .rndz
      let (a, rem) := divPow radix1 d f a 0 f
      (if rem ≠ 0 then a ||| 1 else a, eOffset + extraBits)

/-- `round_to_d`: the significand and the exponent. -/
def roundToD (a : ℕ) (eOffset : ℤ) (rndMode : RndMode) : ℕ × ℤ :=
  if a = 0 then (0, 0)
  else
    let e := mpbFloorLog2 a + 1 - eOffset
    let prec := if e < -1021 then 53 - (-1021 - e) else 53
    let m := mpbShrRound a (e + eOffset - prec) rndMode
    let m := m <<< (53 - prec).toNat
    if m ≥ 2 ^ 53 then (m >>> 1, e + 1) else (m, e)

def mulPowRoundToD (a radix1 radixShift : ℕ) (f : ℤ) (rndMode : RndMode) : ℕ × ℤ :=
  let (a, eOffset) := mulPow a radix1 radixShift f false 55
  roundToD a eOffset rndMode

def ctz32 (n : ℕ) : ℕ := ((List.range 32).find? (n.testBit ·)).getD 32

/-! ### Reading digits -/

def toDigit (c : ℕ) : ℕ :=
  if 0x30 ≤ c ∧ c ≤ 0x39 then c - 0x30
  else if 0x41 ≤ c ∧ c ≤ 0x5a then c - 0x41 + 10
  else if 0x61 ≤ c ∧ c ≤ 0x7a then c - 0x61 + 10
  else 36

/-- What the scan keeps fixed; `start` is the length of what follows the sign. -/
structure Cfg where
  radix : ℕ
  sep : ℕ
  intOnly : Bool
  start : ℕ

/-- `goto fail` at a pointer, or what is found. -/
abbrev Scan (α : Type) := Except (List ℕ) α

/-- A point that may be skipped; no answer is `break`. -/
def skipDot (c : Cfg) (p : List ℕ) (pos : ℕ) (dotPos : Option ℕ) :
    Scan (Option (List ℕ × Option ℕ)) :=
  if cur p = 0x2e ∧ (p.length < c.start ∨ toDigit (cur p.tail) < c.radix) ∧ c.intOnly = false then
    if cur p = c.sep then .error p
    else if dotPos.isSome then .ok none
    else .ok (some (p.tail, some pos))
  else .ok (some (p, dotPos))

/-- The loop over leading zeros, with a turn for each byte at most. -/
def skipZeros (c : Cfg) : ℕ → List ℕ → ℕ → Option ℕ → Scan (List ℕ × ℕ × Option ℕ)
  | 0, p, pos, dotPos => .ok (p, pos, dotPos)
  | fuel + 1, p, pos, dotPos =>
    match skipDot c p pos dotPos with
    | .error p => .error p
    | .ok none => .ok (p, pos, dotPos)
    | .ok (some (p, dotPos)) =>
      let p := if cur p = c.sep ∧ p.length < c.start ∧ cur p.tail = 0x30 then p.tail else p
      if cur p ≠ 0x30 then .ok (p, pos, dotPos) else skipZeros c fuel p.tail (pos + 1) dotPos

/-- The variables of the loop over digits. -/
structure Digits where
  p : List ℕ
  pos : ℕ
  dotPos : Option ℕ
  curLimb : ℕ
  limbDigitCount : ℕ
  digitCount : ℕ
  tmp0 : ℕ
  extraDigits : ℕ

/-- One digit taken in. -/
def putDigit (radix : ℕ) (s : Digits) (d : ℕ) : Digits :=
  let s := { s with p := s.p.tail, pos := s.pos + 1 }
  if s.digitCount < atodMaxDigitsTable.getD (radix - 2) 0 then
    let limb := s.curLimb * radix + d
    if s.limbDigitCount + 1 = digitsPerLimbTable.getD (radix - 2) 0 then
      { s with
        tmp0 := mpbMul1Base s.tmp0 (radixBaseTable.getD (radix - 2) 0) limb
        curLimb := 0, limbDigitCount := 0, digitCount := s.digitCount + 1 }
    else
      { s with
        curLimb := limb, limbDigitCount := s.limbDigitCount + 1, digitCount := s.digitCount + 1 }
  else { s with extraDigits := s.extraDigits ||| d }

def readDigits (c : Cfg) : ℕ → Digits → Scan Digits
  | 0, s => .ok s
  | fuel + 1, s =>
    match skipDot c s.p s.pos s.dotPos with
    | .error p => .error p
    | .ok none => .ok s
    | .ok (some (p, dotPos)) =>
      let p :=
        if cur p = c.sep ∧ p.length < c.start ∧ toDigit (cur p.tail) < c.radix then p.tail else p
      let s := { s with p := p, dotPos := dotPos }
      if toDigit (cur p) ≥ c.radix then .ok s
      else readDigits c fuel (putDigit c.radix s (toDigit (cur p)))

/-- The digits left over in the limb. -/
def flushLimb (radix : ℕ) (s : Digits) : Digits :=
  if s.limbDigitCount ≠ 0 then
    { s with tmp0 := mpbMul1Base s.tmp0 (radix ^ s.limbDigitCount) s.curLimb }
  else s

/-! ### Prefix and exponent -/

/-- What comes after the sign. -/
inductive Start
  | digits (p : List ℕ) (radix sep : ℕ)
  | infinity (p : List ℕ)
  | fail (p : List ℕ)
  deriving DecidableEq, Repr

/-- There must be a digit after the prefix. -/
def afterPrefix (p : List ℕ) (radix sep : ℕ) : Start :=
  if toDigit (cur p) ≥ radix then .fail p else .digits p radix sep

def readPrefix (p : List ℕ) (radix flags sep : ℕ) : Start :=
  if cur p = 0x30 then
    let c := cur p.tail
    if (c = 0x78 ∨ c = 0x58) ∧ (radix = 0 ∨ radix = 16) then afterPrefix (p.drop 2) 16 sep
    else if (c = 0x6f ∨ c = 0x4f) ∧ radix = 0 ∧ acceptBinOct flags then
      afterPrefix (p.drop 2) 8 sep
    else if (c = 0x62 ∨ c = 0x42) ∧ radix = 0 ∧ acceptBinOct flags then
      afterPrefix (p.drop 2) 2 sep
    else if (0x30 ≤ c ∧ c ≤ 0x39) ∧ radix = 0 ∧ acceptLegacyOctal flags then
      let q := p.tail.dropWhile fun c => 0x30 ≤ c && c ≤ 0x37
      if cur q = 0x38 ∨ cur q = 0x39 then .digits p radix 256 else afterPrefix p.tail 8 256
    else .digits p radix sep
  else if intOnly flags = false ∧ infinityText.isPrefixOf p then .infinity (p.drop 8)
  else .digits p radix sep

/-- The digits of the exponent. -/
def readExponent (sep : ℕ) : ℕ → List ℕ → ℤ → Bool → List ℕ × ℤ × Bool
  | 0, p, expn, overflow => (p, expn, overflow)
  | fuel + 1, p, expn, overflow =>
    let p := if cur p = sep ∧ toDigit (cur p.tail) < 10 then p.tail else p
    let c := toDigit (cur p)
    if c ≥ 10 then (p, expn, overflow)
    else if overflow then readExponent sep fuel p.tail expn overflow
    else if expn > (2 ^ 31 - 1 - 2 - 9) / 10 then readExponent sep fuel p.tail expn true
    else readExponent sep fuel p.tail (expn * 10 + c) false

/-! ### The number -/

def infinityBits : ℕ := 0x7ff * 2 ^ 52

/-- From the rounded significand and exponent to the pattern. -/
def packDouble (r : ℕ × ℤ) : ℕ :=
  if r.1 = 0 then 0
  else if r.2 > 1024 then infinityBits
  else if r.2 < -1073 then 0
  else if r.2 < -1021 then r.1 >>> (-r.2 - 1021).toNat
  else ((r.2 + 1022).toNat <<< 52) ||| (r.1 % 2 ^ 52)

/-- The end of `js_atod`: the pattern of the digits with the exponent. -/
def digitsToBits (radix : ℕ) (digitCount tmp0 : ℕ) (expnOffset expn : ℤ) (isBinExp : Bool) : ℕ :=
  let radixShift := ctz32 radix
  let radix1 := radix >>> radixShift
  if radix1 = 1 then
    let expn := if isBinExp then expn else expn * radixShift
    let expn := expn - expnOffset * radixShift
    let expn1 := expn + digitCount * radixShift
    if expn1 ≥ 1024 + radixShift then infinityBits
    else if expn1 ≤ -1075 then 0
    else packDouble (roundToD tmp0 (-expn) .rndn)
  else
    let expn := expn - expnOffset
    let expn1 := expn + digitCount
    if expn1 ≥ maxExponent.getD (radix - 2) 0 + 1 then infinityBits
    else if expn1 ≤ minExponent.getD (radix - 2) 0 then 0
    else packDouble (mulPowRoundToD tmp0 radix1 radixShift expn .rndn)

def withSign (isNeg : Bool) (bits : ℕ) : Double :=
  BitVec.ofNat 64 (bits ||| (if isNeg then 2 ^ 63 else 0))

/-- An exponent may follow the digits. -/
def atExponent (c : Cfg) (p : List ℕ) : Prop :=
  c.intOnly = false ∧
    ((c.radix = 10 ∧ (cur p = 0x65 ∨ cur p = 0x45))
      ∨ (c.radix ≠ 10 ∧ (cur p = 0x40
        ∨ ((c.radix >>> ctz32 c.radix = 1 ∧ 1 ≤ ctz32 c.radix ∧ ctz32 c.radix ≤ 4)
          ∧ (cur p = 0x70 ∨ cur p = 0x50)))))
    ∧ p.length < c.start

instance (c : Cfg) (p : List ℕ) : Decidable (atExponent c p) := inferInstanceAs (Decidable (_ ∧ _))

/-- What the digits and the exponent give: the number and the pointer after them. -/
def finish (c : Cfg) (isNeg : Bool) (sigPos : ℕ) (s : Digits) : Double × List ℕ :=
  let isZero := s.digitCount = 0
  let expnOffset : ℤ :=
    if isZero then 0 else (sigPos : ℤ) + s.digitCount - ((s.dotPos.getD s.pos : ℕ) : ℤ)
  -- the extra digits round a number whose base is a power of two
  let tmp0 := if c.radix >>> ctz32 c.radix = 1 ∧ s.extraDigits ≠ 0 then s.tmp0 ||| 1 else s.tmp0
  let number (p : List ℕ) (expn : ℤ) (isBinExp : Bool) : Double × List ℕ :=
    if p.length = c.start then (Double.qnan, p)
    else if isZero then (withSign isNeg 0, p)
    else (withSign isNeg (digitsToBits c.radix s.digitCount tmp0 expnOffset expn isBinExp), p)
  if atExponent c s.p then
    let isBinExp := cur s.p = 0x70 ∨ cur s.p = 0x50
    let p := s.p.tail
    let expIsNeg := cur p = 0x2d
    let p := if cur p = 0x2b ∨ cur p = 0x2d then p.tail else p
    if toDigit (cur p) ≥ 10 then (Double.qnan, p)
    else
      let (p, expn, overflow) := readExponent c.sep p.length p.tail (toDigit (cur p)) false
      if !isZero ∧ overflow then (withSign isNeg (if expIsNeg then 0 else infinityBits), p)
      else number p (if expIsNeg then -expn else expn) isBinExp
  else number s.p 0 false

/-- `js_atod`: the number and `*pnext`. -/
def jsAtod (str : List ℕ) (radix flags : ℕ) : Double × List ℕ :=
  let sep := if acceptUnderscores flags then 0x5f else 256
  let isNeg := cur str = 0x2d
  let p := if cur str = 0x2b ∨ cur str = 0x2d then str.tail else str
  match readPrefix p radix flags sep with
  | .fail p => (Double.qnan, p)
  | .infinity p => (withSign isNeg infinityBits, p)
  | .digits q radix sep =>
    let c : Cfg := ⟨if radix = 0 then 10 else radix, sep, intOnly flags, p.length⟩
    match skipZeros c (q.length + 1) q 0 none with
    | .error p => (Double.qnan, p)
    | .ok (q, pos, dotPos) =>
      match readDigits c (q.length + 1) ⟨q, pos, dotPos, 0, 0, 0, 0, 0⟩ with
      | .error p => (Double.qnan, p)
      | .ok s => finish c isNeg pos (flushLimb c.radix s)

end Atod

open Atod Json in
/-- `js_atod1`; `mem` says whether the working space can be allocated, and no answer is an
exception. -/
def jsAtod1 (mem : Bool) (h : StrHeap) (v : StrVal) (radix flags : ℕ) : Option Double :=
  match v with
  | .char c => some (if 0x30 ≤ c ∧ c ≤ 0x39 then Double.ofInt (c - 0x30 : ℕ) else Double.qnan)
  | .ref id =>
    if mem then
      let p1 := skipSpaces (getStringPtr h (.ref id)).buf
      if p1 = [] then some (if atodToString flags then 0 else Double.qnan)
      else
        let (d, p1) := jsAtod p1 radix flags
        if atodToString flags ∧ skipSpaces p1 ≠ [] then some Double.qnan else some d
    else none

end Qjs
