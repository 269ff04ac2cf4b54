import Qjs.Lib.Binary64

/-!
# Tagged words

A `JSValue` is a machine word of 32 or 64 bits. Short integers have bit 0 clear and hold twice
the number in the low 32 bits; the upper half of a 64-bit word is whatever the code that wrote it
left there. Pointers, special values and, with 64 bits, short floats have odd tags.
-/

namespace Qjs

/-- The two builds: `JSW` is 4 or 8, and only the second has short floats. -/
inductive Arch
  | jsw4
  | jsw8
  deriving DecidableEq, Repr

namespace Arch

def jsw : Arch → ℕ
  | jsw4 => 4
  | jsw8 => 8

def bits (a : Arch) : ℕ := 8 * a.jsw

/-- `JS_USE_SHORT_FLOAT`. -/
def useShortFloat : Arch → Bool
  | jsw4 => false
  | jsw8 => true

end Arch

abbrev JSValue (a : Arch) := BitVec a.bits

section Conversions

variable {n : ℕ}

/-- `(int)v`: the low 32 bits, signed. -/
def toInt32 (v : BitVec n) : ℤ := (v.setWidth 32).toInt

/-- An arithmetic result brought back to the range of `int`. -/
def int32 (z : ℤ) : ℤ := (BitVec.ofInt 32 z).toInt

/-- An `int` stored in a word: the sign is extended. -/
def ofInt32 (z : ℤ) : BitVec n := BitVec.ofInt n z

/-- A `uint32_t` stored in a word: the upper half is zero. -/
def ofUint32 (z : ℤ) : BitVec n := (BitVec.ofInt 32 z).setWidth n

def jsIsInt (v : BitVec n) : Bool := v.toNat % 2 == 0

/-- `JS_VALUE_GET_INT`. -/
def jsValueGetInt (v : BitVec n) : ℤ := toInt32 v / 2

/-- `JS_VALUE_IS_BOTH_INT`. -/
def jsValueIsBothInt (v w : BitVec n) : Bool := (v ||| w).toNat % 2 == 0

def jsNewShortInt (z : ℤ) : BitVec n := ofInt32 (int32 (2 * z))

end Conversions

def jsShortIntMin : ℤ := -2 ^ 30

def jsShortIntMax : ℤ := 2 ^ 30 - 1

/-! The tags: 2 bits for a pointer, 3 for a short float, 5 for the special values. -/

def jsTagPtr : ℕ := 1

def jsTagShortFloat : ℕ := 5

def jsTagBool : ℕ := 3

def jsTagNull : ℕ := 7

def jsTagUndefined : ℕ := 11

def jsTagException : ℕ := 15

def jsTagShortFunc : ℕ := 19

def jsTagUninitialized : ℕ := 23

def jsTagStringChar : ℕ := 27

def jsTagCatchOffset : ℕ := 31

/-- `JS_VALUE_MAKE_SPECIAL`. -/
def jsValueMakeSpecial {n : ℕ} (tag v : ℕ) : BitVec n := BitVec.ofNat n (tag + 32 * v)

/-- `JS_VALUE_GET_SPECIAL_TAG`. -/
def jsValueGetSpecialTag {n : ℕ} (v : BitVec n) : ℕ := v.toNat % 32

/-- `JS_VALUE_GET_SPECIAL_VALUE`. -/
def jsValueGetSpecialValue {n : ℕ} (v : BitVec n) : ℤ := toInt32 v / 32

def jsNull {n : ℕ} : BitVec n := jsValueMakeSpecial jsTagNull 0

def jsUndefined {n : ℕ} : BitVec n := jsValueMakeSpecial jsTagUndefined 0

def jsUninitialized {n : ℕ} : BitVec n := jsValueMakeSpecial jsTagUninitialized 0

def jsNewBool {n : ℕ} (b : Bool) : BitVec n := jsValueMakeSpecial jsTagBool b.toNat

variable {a : Arch}

def jsIsPtr (v : JSValue a) : Bool := v.toNat % a.jsw == jsTagPtr

def jsIsShortFloat (v : JSValue a) : Bool := a.useShortFloat && v.toNat % 8 == jsTagShortFloat

/-- `JS_VALUE_IS_BOTH_SHORT_FLOAT`. -/
def jsValueIsBothShortFloat (v w : JSValue a) : Bool :=
  a.useShortFloat &&
    ((v - BitVec.ofNat _ jsTagShortFloat) ||| (w - BitVec.ofNat _ jsTagShortFloat)).toNat % 8 == 0

/-! ### Doubles in words -/

def rotl64 (d : BitVec 64) (n : ℕ) : BitVec 64 := (d <<< n) ||| (d >>> (64 - n))

/-- `JS_FLOAT64_VALUE_ADDEND`. -/
def jsFloat64ValueAddend : BitVec 64 := BitVec.ofInt 64 (((1023 - 127) - 5 * 2 ^ 8) * 2 ^ 52)

def jsGetShortFloat (v : JSValue a) : Double := rotl64 (v.setWidth 64) 60 + jsFloat64ValueAddend

def jsToShortFloat (d : Double) : JSValue a := (rotl64 (d - jsFloat64ValueAddend) 4).setWidth _

/-- `fabs(d) >= 0x1p-127 && fabs(d) <= 0x1p+128`. -/
def inShortFloatRange (d : Double) : Bool :=
  Double.le 0x3800000000000000#64 d.fabs && Double.le d.fabs 0x47F0000000000000#64

/-- A value as the engine hands it on: a word that is complete by itself, the shared block of
minus zero, or a new `JSFloat64` block. -/
inductive Boxed (a : Arch)
  | word (v : JSValue a)
  | minusZero
  | float64 (d : Double)
  deriving DecidableEq

/-- `__JS_NewFloat64`. -/
def jsNewFloat64Aux (d : Double) : Boxed a :=
  if d = Double.minusZero then .minusZero
  else if a.useShortFloat && inShortFloatRange d then .word (jsToShortFloat d)
  else .float64 d

def jsNewFloat64 (d : Double) : Boxed a :=
  if Double.le (Double.ofInt jsShortIntMin) d && Double.le d (Double.ofInt jsShortIntMax) then
    -- minus zero compares equal to 0, so the patterns are compared
    if d = Double.ofInt d.trunc then .word (jsNewShortInt d.trunc) else jsNewFloat64Aux d
  else jsNewFloat64Aux d

def int64IsShortInt (z : ℤ) : Bool := jsShortIntMin ≤ z && z ≤ jsShortIntMax

def jsNewInt64 (z : ℤ) : Boxed a :=
  if int64IsShortInt z then .word (jsNewShortInt z) else jsNewFloat64Aux (Double.ofInt z)

def jsNewInt32 (z : ℤ) : Boxed a := jsNewInt64 z

def jsNewUint32 (z : ℤ) : Boxed a := jsNewInt64 z

/-- What a value stands for, as far as words alone say it. -/
inductive Prim
  | number (d : Double)
  | boolean (b : Bool)
  | other
  deriving DecidableEq

/-- The number or the boolean a value stands for: what `JS_ToNumber` reads from an integer, a
short float and a float block, and the payload of a boolean. -/
def Boxed.denote : Boxed a → Prim
  | .word v =>
    if jsIsInt v then .number (Double.ofInt (jsValueGetInt v))
    else if jsIsShortFloat v then .number (jsGetShortFloat v)
    else if jsValueGetSpecialTag v = jsTagBool then .boolean (jsValueGetSpecialValue v ≠ 0)
    else .other
  | .minusZero => .number Double.minusZero
  | .float64 d => .number d

end Qjs
