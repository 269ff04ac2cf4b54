import Qjs.Arith

/-!
# Numbers in every representation

A number is a short integer, a short float or a `JSFloat64` block; minus zero has a block of its
own. Here are the conversions that take any of them, `JS_ToInt32Internal` with both values of its
flag, and the version of `JS_NewFloat64` for builds without floating point.
-/

namespace Qjs

variable {a : Arch}

/-- `JS_ToNumber` of a number or another value that is not an object or a string in the heap. -/
def jsToNumberBoxed : Boxed a → Option Double
  | .word v => jsToNumber v
  | .minusZero => some Double.minusZero
  | .float64 d => some d

/-- The label `handle_float64` of `JS_ToInt32Internal`. -/
def handleFloat64 (satFlag : Bool) (d : Double) : BitVec 32 :=
  if d.expField ≤ 1023 + 30 then BitVec.ofInt 32 d.trunc -- fast case
  else if !satFlag then
    if d.expField ≤ 1023 + 30 + 53 then
      let v := BitVec.ofNat 64 (d.fracField + 2 ^ 52) <<< (d.expField + 32 - 1023 - 52)
      let ret := (v >>> 32).setWidth 32
      if d.msb then -ret else ret
    else 0 -- also handles NaN and +inf
  else if d.expField = 2047 ∧ d.fracField ≠ 0 then 0
  else if d.msb then 0x80000000#32
  else 0x7fffffff#32

/-- `JS_ToInt32Internal`. -/
def jsToInt32Internal (satFlag : Bool) : Boxed a → Option (BitVec 32)
  | .word v =>
    if jsIsInt v then some (BitVec.ofInt 32 (jsValueGetInt v))
    else if jsIsShortFloat v then some (handleFloat64 satFlag (jsGetShortFloat v))
    else if jsIsPtr v then none
    else if jsValueGetSpecialTag v = jsTagBool ∨ jsValueGetSpecialTag v = jsTagNull
        ∨ jsValueGetSpecialTag v = jsTagUndefined then
      some (BitVec.ofInt 32 (jsValueGetSpecialValue v))
    else (jsToNumber v).map (handleFloat64 satFlag)
  | .minusZero => some (handleFloat64 satFlag Double.minusZero)
  | .float64 d => some (handleFloat64 satFlag d)

/-- `JS_ToInt32` with its result as an `int`. -/
def jsToInt32Boxed (v : Boxed a) : Option ℤ := (jsToInt32Internal false v).map BitVec.toInt

def jsToInt32Sat (v : Boxed a) : Option ℤ := (jsToInt32Internal true v).map BitVec.toInt

/-- `JS_NewFloat64` with `USE_SOFTFLOAT`. -/
def jsNewFloat64Soft (d : Double) : Boxed a :=
  if d = 0#64 then .word (jsNewShortInt 0)
  else if 1023 ≤ d.expField ∧ d.expField ≤ 1023 + 30 - 1 then
    let m : ℕ := d.fracField + 2 ^ 52
    let shift : ℕ := 52 - (d.expField - 1023)
    if m % 2 ^ shift ≠ 0 then jsNewFloat64Aux d
    else
      let b : ℕ := m / 2 ^ shift
      .word (jsNewShortInt (if d.msb then -b else b))
  else if d = 0xc1d0000000000000#64 then .word (jsNewShortInt (-2 ^ 30))
  else jsNewFloat64Aux d

end Qjs
