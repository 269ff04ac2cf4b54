import Qjs.SoftFp
import Qjs.Value

/-!
# Arithmetic opcodes

The arithmetic, logical and comparison opcodes of `JS_Call` with their integer and short float
fast paths, and the slow functions they fall back to. Strings, objects and float blocks live in
the heap: on a pointer the functions here give `none`.
-/

namespace Qjs

inductive OpCode
  | add
  | sub
  | mul
  | mod
  | neg
  | inc
  | dec
  | postDec
  | postInc
  | not
  | shl
  | sar
  | shr
  | and
  | or
  | xor
  | lt
  | lte
  | gt
  | gte
  | eq
  | neq
  | strictEq
  | strictNeq
  deriving DecidableEq, Repr

variable {a : Arch}

section Conversions

/-- `JS_IsString` of a value that is not a pointer. -/
def jsIsString (v : JSValue a) : Bool := jsValueGetSpecialTag v == jsTagStringChar

/-- `JS_IsNumber` of a value that is not a pointer. -/
def jsIsNumber (v : JSValue a) : Bool := jsIsInt v || jsIsShortFloat v

/-- `JS_ToNumber`. -/
def jsToNumber (v : JSValue a) : Option Double :=
  if jsIsInt v then some (Double.ofInt (jsValueGetInt v))
  else if jsIsShortFloat v then some (jsGetShortFloat v)
  else if jsIsPtr v then none
  else if jsValueGetSpecialTag v = jsTagNull ∨ jsValueGetSpecialTag v = jsTagBool then
    some (Double.ofInt (jsValueGetSpecialValue v))
  else if jsIsString v && 48 ≤ jsValueGetSpecialValue v && jsValueGetSpecialValue v ≤ 57 then
    some (Double.ofInt (jsValueGetSpecialValue v - 48))
  else some Double.qnan

/-- The double branch of `JS_ToInt32Internal`, modulo `2 ^ 32`. -/
def float64ToInt32 (d : Double) : BitVec 32 :=
  if d.expField ≤ 1023 + 30 then BitVec.ofInt 32 d.trunc
  else if d.expField ≤ 1023 + 30 + 53 then
    let v := BitVec.ofNat 64 (d.fracField + 2 ^ 52) <<< (d.expField + 32 - 1023 - 52)
    let ret := (v >>> 32).setWidth 32
    if d.msb then -ret else ret
  else 0 -- also handles NaN and the infinities

/-- `JS_ToInt32`, which is `JS_ToUint32` too. -/
def jsToInt32 (v : JSValue a) : Option (BitVec 32) :=
  if jsIsInt v then some (BitVec.ofInt 32 (jsValueGetInt v))
  else if jsIsShortFloat v then some (float64ToInt32 (jsGetShortFloat v))
  else if jsIsPtr v then none
  else if jsValueGetSpecialTag v = jsTagBool ∨ jsValueGetSpecialTag v = jsTagNull
      ∨ jsValueGetSpecialTag v = jsTagUndefined then
    some (BitVec.ofInt 32 (jsValueGetSpecialValue v))
  else (jsToNumber v).map float64ToInt32

end Conversions

/-! ### Slow paths

`sp1` and `sp0` are the operands `ctx->sp[1]` and `ctx->sp[0]`. -/

section Slow

variable (op : OpCode) (sp1 sp0 : JSValue a)

def jsAddSlow : Option (Boxed a) :=
  if jsIsPtr sp1 || jsIsPtr sp0 || jsIsString sp1 || jsIsString sp0 then none
  else do
    let d1 ← jsToNumber sp1
    let d2 ← jsToNumber sp0
    return jsNewFloat64 (d1.add d2)

def jsBinaryArithSlow : Option (Boxed a) := do
  let d1 ← jsToNumber sp1
  let d2 ← jsToNumber sp0
  match op with
  | .sub => return jsNewFloat64 (d1.sub d2)
  | .mul => return jsNewFloat64 (d1.mul d2)
  | .mod => return jsNewFloat64 (jsFmod d1 d2)
  | _ => none

def jsUnaryArithSlow : Option (Boxed a) := do
  let d ← jsToNumber sp0
  match op with
  | .inc => return jsNewFloat64 (d.add (Double.ofInt 1))
  | .dec => return jsNewFloat64 (d.sub (Double.ofInt 1))
  | .neg => return jsNewFloat64 d.neg
  | _ => none

/-- `2 * (op - OP_post_dec)`. -/
def postStep : OpCode → ℤ
  | .postInc => 2
  | _ => 0

/-- The new value, and the old one converted to a number. -/
def jsPostIncSlow : Option (List (Boxed a)) := do
  let d ← jsToNumber sp0
  let r := (d.add (Double.ofInt (postStep op))).sub (Double.ofInt 1)
  return [jsNewFloat64 r, jsNewFloat64 d]

def jsBinaryLogicSlow : Option (Boxed a) := do
  let v1 ← jsToInt32 sp1
  let v2 ← jsToInt32 sp0
  let s := (v2 &&& 0x1f).toNat
  match op with
  | .shl => return jsNewInt32 (v1 <<< s).toInt
  | .sar => return jsNewInt32 (v1.sshiftRight s).toInt
  | .shr => return jsNewUint32 (v1 >>> s).toNat
  | .and => return jsNewInt32 (v1 &&& v2).toInt
  | .or => return jsNewInt32 (v1 ||| v2).toInt
  | .xor => return jsNewInt32 (v1 ^^^ v2).toInt
  | _ => none

def jsNotSlow : Option (Boxed a) := do
  let r ← jsToInt32 sp0
  return jsNewInt32 (~~~r).toInt

/-- The comparison of two doubles; `gte` is the default case. -/
def compareDoubles (d1 d2 : Double) : OpCode → Bool
  | .lt => d1.lt d2
  | .lte => d1.le d2
  | .gt => d2.lt d1
  | _ => d2.le d1

def jsRelationalSlow : Option (Boxed a) :=
  if jsIsPtr sp1 || jsIsPtr sp0 || (jsIsString sp1 && jsIsString sp0) then none
  else do
    let d1 ← jsToNumber sp1
    let d2 ← jsToNumber sp0
    return .word (jsNewBool (compareDoubles d1 d2 op))

def jsStrictEq : Option Bool :=
  if jsIsPtr sp1 || jsIsPtr sp0 then none
  else if jsIsNumber sp1 then
    if jsIsNumber sp0 then do
      let d1 ← jsToNumber sp1
      let d2 ← jsToNumber sp0
      return d1.eq d2
    else some false
  -- two strings that are not pointers are one code point each
  else some (sp1 == sp0)

def jsStrictEqSlow (isNeq : Bool) : Option (Boxed a) := do
  let res ← jsStrictEq sp1 sp0
  return .word (jsNewBool (res ^^ isNeq))

def jsEtagNumber : ℕ := 3 + 8 * 4

def jsEtagString : ℕ := 3 + 9 * 4

def jsEtagObject : ℕ := 3 + 10 * 4

def jsEqGetType (v : JSValue a) : ℕ :=
  if jsIsNumber v then jsEtagNumber
  else if jsValueGetSpecialTag v = jsTagStringChar then jsEtagString
  else if jsValueGetSpecialTag v = jsTagShortFunc then jsEtagObject
  else jsValueGetSpecialTag v

/-- The loop of `js_eq_slow`: a boolean is replaced by its number and the test is made again, at
most once for each operand. A function against a number or a string is converted in the heap. -/
def jsEqLoop : ℕ → JSValue a → JSValue a → Option Bool
  | 0, _, _ => none
  | fuel + 1, op1, op2 =>
    let tag1 := jsEqGetType op1
    let tag2 := jsEqGetType op2
    if tag1 = tag2 then jsStrictEq op1 op2
    else if (tag1 = jsTagNull ∧ tag2 = jsTagUndefined)
        ∨ (tag2 = jsTagNull ∧ tag1 = jsTagUndefined) then some true
    else if (tag1 = jsEtagString ∧ tag2 = jsEtagNumber)
        ∨ (tag2 = jsEtagString ∧ tag1 = jsEtagNumber) then do
      let d1 ← jsToNumber op1
      let d2 ← jsToNumber op2
      return d1.eq d2
    else if tag1 = jsTagBool then jsEqLoop fuel (jsNewShortInt (jsValueGetSpecialValue op1)) op2
    else if tag2 = jsTagBool then jsEqLoop fuel op1 (jsNewShortInt (jsValueGetSpecialValue op2))
    else if (tag1 = jsEtagObject ∧ (tag2 = jsEtagNumber ∨ tag2 = jsEtagString))
        ∨ (tag2 = jsEtagObject ∧ (tag1 = jsEtagNumber ∨ tag1 = jsEtagString)) then none
    else some false

def jsEqSlow (isNeq : Bool) : Option (Boxed a) :=
  if jsIsPtr sp1 || jsIsPtr sp0 then none
  else do
    let res ← jsEqLoop 3 sp1 sp0
    return .word (jsNewBool (res ^^ isNeq))

/-- The slow function of an opcode: the values it leaves on the stack, the top first. -/
def slowPath : Option (List (Boxed a)) :=
  match op with
  | .add => do return [← jsAddSlow sp1 sp0]
  | .sub | .mul | .mod => do return [← jsBinaryArithSlow op sp1 sp0]
  | .neg | .inc | .dec => do return [← jsUnaryArithSlow op sp0]
  | .postDec | .postInc => jsPostIncSlow op sp0
  | .not => do return [← jsNotSlow sp0]
  | .shl | .sar | .shr | .and | .or | .xor => do return [← jsBinaryLogicSlow op sp1 sp0]
  | .lt | .lte | .gt | .gte => do return [← jsRelationalSlow op sp1 sp0]
  | .eq => do return [← jsEqSlow sp1 sp0 false]
  | .neq => do return [← jsEqSlow sp1 sp0 true]
  | .strictEq => do return [← jsStrictEqSlow sp1 sp0 false]
  | .strictNeq => do return [← jsStrictEqSlow sp1 sp0 true]

end Slow

/-! ### Fast paths -/

section Fast

/-- The label `float_result`, with 64-bit words only: the result is not turned back into a short
integer. -/
def floatResult (dr : Double) : Boxed a :=
  if inShortFloatRange dr then .word (jsToShortFloat dr)
  else if dr.eq 0 then
    if dr ≠ 0 then .minusZero else .word (jsNewShortInt 0)
  else .float64 dr

/-- An integer result too large for a short integer: `float_result` where short floats exist,
else the slow path. -/
def largeResult (dr : Double) (slow : Option (Boxed a)) : Option (Boxed a) :=
  if a.useShortFloat then some (floatResult dr) else slow

/-- `__builtin_add_overflow` and `__builtin_sub_overflow`: the exact result does not fit. -/
def overflow (r : ℤ) : Bool := r ≠ int32 r

variable (op : OpCode) (op1 op2 : JSValue a)

/-- `OP_add` and `OP_sub`: `r` is the exact result on the words, `dr` the one on doubles. -/
def opAddSub (r : ℤ) (dr : Double → Double → Double) (slow : Option (Boxed a)) :
    Option (Boxed a) :=
  if jsValueIsBothInt op1 op2 then
    if overflow r then slow else some (.word (ofUint32 r))
  else if jsValueIsBothShortFloat op1 op2 then
    some (floatResult (dr (jsGetShortFloat op1) (jsGetShortFloat op2)))
  else slow

def opAdd : Option (Boxed a) :=
  opAddSub op1 op2 (toInt32 op1 + toInt32 op2) Double.add (jsAddSlow op1 op2)

def opSub : Option (Boxed a) :=
  opAddSub op1 op2 (toInt32 op1 - toInt32 op2) Double.sub (jsBinaryArithSlow .sub op1 op2)

def opMul : Option (Boxed a) :=
  let slow := jsBinaryArithSlow .mul op1 op2
  if jsValueIsBothInt op1 op2 then
    let v1 := toInt32 op1
    let v2 := toInt32 op2 / 2
    let r := v1 * v2
    if r ≠ int32 r then largeResult (Double.ofInt (r / 2)) slow
    -- `(v1 | v2) < 0`
    else if r = 0 ∧ (v1 < 0 ∨ v2 < 0) then some .minusZero
    else some (.word (ofUint32 r))
  else if jsValueIsBothShortFloat op1 op2 then
    some (floatResult ((jsGetShortFloat op1).mul (jsGetShortFloat op2)))
  else slow

def opMod : Option (Boxed a) :=
  let slow := jsBinaryArithSlow .mod op1 op2
  if jsValueIsBothInt op1 op2 then
    let v1 := jsValueGetInt op1
    let v2 := jsValueGetInt op2
    if v1 < 0 ∨ v2 ≤ 0 then slow else some (.word (jsNewShortInt (v1 % v2)))
  else slow

def opNeg : Option (Boxed a) :=
  let slow := jsUnaryArithSlow .neg op1
  if jsIsInt op1 then
    let v1 := toInt32 op1
    if v1 = 0 then some .minusZero
    else if v1 = -2 ^ 31 then largeResult (Double.ofInt jsShortIntMin).neg slow
    else some (.word (ofInt32 (-v1)))
  else if jsIsShortFloat op1 then some (floatResult (jsGetShortFloat op1).neg)
  else slow

def opInc : Option (Boxed a) :=
  let slow := jsUnaryArithSlow .inc op1
  if jsIsInt op1 then
    let v1 := jsValueGetInt op1
    if v1 = jsShortIntMax then slow else some (.word (jsNewShortInt (v1 + 1)))
  else slow

def opDec : Option (Boxed a) :=
  let slow := jsUnaryArithSlow .dec op1
  if jsIsInt op1 then
    let v1 := jsValueGetInt op1
    if v1 = jsShortIntMin then slow else some (.word (jsNewShortInt (v1 - 1)))
  else slow

/-- `OP_post_inc` and `OP_post_dec`: the new value is pushed above the old one. -/
def opPostIncDec : Option (List (Boxed a)) :=
  let slow := jsPostIncSlow op op1
  if jsIsInt op1 then
    let v1 := jsValueGetInt op1 + postStep op - 1
    if v1 < jsShortIntMin ∨ v1 > jsShortIntMax then slow
    else some [.word (jsNewShortInt v1), .word op1]
  else slow

def opNot : Option (Boxed a) :=
  if jsIsInt op1 then some (.word (~~~op1 &&& ~~~1)) else jsNotSlow op1

def opShl : Option (Boxed a) :=
  let slow := jsBinaryLogicSlow .shl op1 op2
  if jsValueIsBothInt op1 op2 then
    let s := (BitVec.ofInt 32 (jsValueGetInt op2) &&& 0x1f).toNat
    let r := (BitVec.ofInt 32 (jsValueGetInt op1) <<< s).toInt
    if r < jsShortIntMin ∨ r > jsShortIntMax then largeResult (Double.ofInt r) slow
    else some (.word (jsNewShortInt r))
  else slow

def opShr : Option (Boxed a) :=
  let slow := jsBinaryLogicSlow .shr op1 op2
  if jsValueIsBothInt op1 op2 then
    let s := (BitVec.ofInt 32 (jsValueGetInt op2) &&& 0x1f).toNat
    let r : ℤ := (BitVec.ofInt 32 (jsValueGetInt op1) >>> s).toNat
    if r > jsShortIntMax then largeResult (Double.ofInt r) slow
    else some (.word (jsNewShortInt r))
  else slow

def opSar : Option (Boxed a) :=
  if jsValueIsBothInt op1 op2 then
    let s := (BitVec.ofInt 32 (jsValueGetInt op2) &&& 0x1f).toNat
    some (.word (ofInt32 ((op1.setWidth 32).sshiftRight s &&& ~~~1).toInt))
  else jsBinaryLogicSlow .sar op1 op2

/-- `OP_and`, `OP_or` and `OP_xor` work on the whole words. -/
def opLogic (f : JSValue a → JSValue a → JSValue a) : Option (Boxed a) :=
  if jsValueIsBothInt op1 op2 then some (.word (f op1 op2)) else jsBinaryLogicSlow op op1 op2

/-- `OP_CMP`. -/
def opCmp (binaryOp : ℤ → ℤ → Bool) (slowCall : Option (Boxed a)) : Option (Boxed a) :=
  if jsValueIsBothInt op1 op2 then
    some (.word (jsNewBool (binaryOp (jsValueGetInt op1) (jsValueGetInt op2))))
  else slowCall

/-- An opcode of `JS_Call` on the operands `sp[1]` and `sp[0]`: the values it leaves in their
place, the top first. -/
def jsCallOp (sp1 sp0 : JSValue a) : Option (List (Boxed a)) :=
  match op with
  | .add => do return [← opAdd sp1 sp0]
  | .sub => do return [← opSub sp1 sp0]
  | .mul => do return [← opMul sp1 sp0]
  | .mod => do return [← opMod sp1 sp0]
  | .neg => do return [← opNeg sp0]
  | .inc => do return [← opInc sp0]
  | .dec => do return [← opDec sp0]
  | .postDec | .postInc => opPostIncDec op sp0
  | .not => do return [← opNot sp0]
  | .shl => do return [← opShl sp1 sp0]
  | .sar => do return [← opSar sp1 sp0]
  | .shr => do return [← opShr sp1 sp0]
  | .and => do return [← opLogic op sp1 sp0 (· &&& ·)]
  | .or => do return [← opLogic op sp1 sp0 (· ||| ·)]
  | .xor => do return [← opLogic op sp1 sp0 (· ^^^ ·)]
  | .lt => do return [← opCmp sp1 sp0 (· < ·) (jsRelationalSlow op sp1 sp0)]
  | .lte => do return [← opCmp sp1 sp0 (· ≤ ·) (jsRelationalSlow op sp1 sp0)]
  | .gt => do return [← opCmp sp1 sp0 (· > ·) (jsRelationalSlow op sp1 sp0)]
  | .gte => do return [← opCmp sp1 sp0 (· ≥ ·) (jsRelationalSlow op sp1 sp0)]
  | .eq => do return [← opCmp sp1 sp0 (· = ·) (jsEqSlow sp1 sp0 false)]
  | .neq => do return [← opCmp sp1 sp0 (· ≠ ·) (jsEqSlow sp1 sp0 true)]
  | .strictEq => do return [← opCmp sp1 sp0 (· = ·) (jsStrictEqSlow sp1 sp0 false)]
  | .strictNeq => do return [← opCmp sp1 sp0 (· ≠ ·) (jsStrictEqSlow sp1 sp0 true)]

end Fast

end Qjs
