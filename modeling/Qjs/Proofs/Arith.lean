import Qjs.Arith
import Qjs.Proofs.SoftFp
import Qjs.Proofs.Value

/-!
# The fast paths and the slow paths agree

`intResult` says what an opcode means on two integers: the exact result converted to a double,
minus zero where the double operations give it, and 32-bit registers for the logical operations.
On short integers both the opcode itself (`denote_jsCallOp`) and its slow function
(`denote_slowPath`) leave that on the stack, whichever branch the fast path takes.
-/

namespace Qjs

open Double (ofInt minusZero)

/-- The shift count `y & 0x1f`. -/
def shiftCount (y : ℤ) : ℕ := (BitVec.ofInt 32 y &&& 0x1f).toNat

/-- What an opcode leaves on the stack for the integers `x` in `sp[1]` and `y` in `sp[0]`. -/
def intResult (op : OpCode) (x y : ℤ) : List Prim :=
  match op with
  | .add => [.number (ofInt (x + y))]
  | .sub => [.number (ofInt (x - y))]
  | .mul => [.number (if x * y = 0 ∧ (x < 0 ∨ y < 0) then minusZero else ofInt (x * y))]
  | .mod => [.number (if 0 ≤ x ∧ 0 < y then ofInt (x % y) else jsFmod (ofInt x) (ofInt y))]
  | .neg => [.number (if y = 0 then minusZero else ofInt (-y))]
  | .inc => [.number (ofInt (y + 1))]
  | .dec => [.number (ofInt (y - 1))]
  | .postInc => [.number (ofInt (y + 1)), .number (ofInt y)]
  | .postDec => [.number (ofInt (y - 1)), .number (ofInt y)]
  | .not => [.number (ofInt (~~~BitVec.ofInt 32 y).toInt)]
  | .shl => [.number (ofInt (BitVec.ofInt 32 x <<< shiftCount y).toInt)]
  | .sar => [.number (ofInt ((BitVec.ofInt 32 x).sshiftRight (shiftCount y)).toInt)]
  | .shr => [.number (ofInt (BitVec.ofInt 32 x >>> shiftCount y).toNat)]
  | .and => [.number (ofInt (BitVec.ofInt 32 x &&& BitVec.ofInt 32 y).toInt)]
  | .or => [.number (ofInt (BitVec.ofInt 32 x ||| BitVec.ofInt 32 y).toInt)]
  | .xor => [.number (ofInt (BitVec.ofInt 32 x ^^^ BitVec.ofInt 32 y).toInt)]
  | .lt => [.boolean (x < y)]
  | .lte => [.boolean (x ≤ y)]
  | .gt => [.boolean (y < x)]
  | .gte => [.boolean (y ≤ x)]
  | .eq | .strictEq => [.boolean (x = y)]
  | .neq | .strictNeq => [.boolean (x ≠ y)]

variable {a : Arch} {v w : JSValue a}

/-! ### Short integers as operands -/

section Operands

theorem natAbs_jsValueGetInt_lt (v : JSValue a) : (jsValueGetInt v).natAbs < 2 ^ 53 := by
  have := jsValueGetInt_bounds v
  rw [jsShortIntMin, jsShortIntMax] at this
  omega

/-- The integer in a register is the low half of the word, shifted. -/
theorem jsValueGetInt_eq_toInt (v : JSValue a) :
    jsValueGetInt v = ((v.setWidth 32).sshiftRight 1).toInt := by
  rw [BitVec.toInt_sshiftRight, Int.shiftRight_eq_div_pow]
  rfl

theorem ofInt_jsValueGetInt (v : JSValue a) :
    BitVec.ofInt 32 (jsValueGetInt v) = (v.setWidth 32).sshiftRight 1 := by
  rw [jsValueGetInt_eq_toInt, BitVec.ofInt_toInt]

theorem getLsbD_setWidth_zero (v : JSValue a) : (v.setWidth 32).getLsbD 0 = v.getLsbD 0 := by
  simp

theorem jsIsInt_iff_getLsbD : jsIsInt v = true ↔ v.getLsbD 0 = false := by
  rw [jsIsInt, beq_iff_eq, BitVec.getLsbD, Nat.testBit_zero, decide_eq_false_iff_not]
  omega

theorem setWidth_ofInt32 {n : ℕ} (hn : 32 ≤ n) (r : BitVec 32) :
    (ofInt32 r.toInt : BitVec n).setWidth 32 = r := by
  apply BitVec.eq_of_toInt_eq
  have h := toInt32_ofInt32 hn r.toInt
  rwa [int32, BitVec.ofInt_toInt] at h

variable (hv : jsIsInt v = true)
include hv

theorem toNat_mod_two : v.toNat % 2 = 0 := by
  simpa only [jsIsInt, beq_iff_eq] using hv

theorem not_jsIsPtr : jsIsPtr v = false := by
  have := toNat_mod_two hv
  cases a <;> simp only [jsIsPtr, Arch.jsw, jsTagPtr, beq_eq_false_iff_ne] <;> omega

theorem not_jsIsString : jsIsString v = false := by
  have := toNat_mod_two hv
  simp only [jsIsString, jsValueGetSpecialTag, jsTagStringChar, beq_eq_false_iff_ne]
  omega

theorem jsToNumber_int : jsToNumber v = some (ofInt (jsValueGetInt v)) := by
  simp only [jsToNumber, hv, if_true]

theorem jsToInt32_int : jsToInt32 v = some (BitVec.ofInt 32 (jsValueGetInt v)) := by
  simp only [jsToInt32, hv, if_true]

theorem jsEqGetType_int : jsEqGetType v = jsEtagNumber := by
  simp only [jsEqGetType, jsIsNumber, hv, Bool.true_or, if_true]

theorem denote_word_int : (Boxed.word v).denote = .number (ofInt (jsValueGetInt v)) :=
  denote_word_of_toInt32 (toInt32_of_jsIsInt hv)

theorem denote_word_register {r : BitVec 32} (h : (v.setWidth 32).sshiftRight 1 = r) :
    (Boxed.word v).denote = .number (ofInt r.toInt) := by
  rw [denote_word_int hv, jsValueGetInt_eq_toInt, h]

end Operands

/-! ### The slow functions -/

/-- The product of two integers below `2 ^ 53`, with the sign of zero. -/
theorem mul_ofInt_signed {x y : ℤ} (hx : x.natAbs < 2 ^ 53) (hy : y.natAbs < 2 ^ 53) :
    (ofInt x).mul (ofInt y)
      = if x * y = 0 ∧ (x < 0 ∨ y < 0) then minusZero else ofInt (x * y) := by
  by_cases h0 : x * y = 0
  · have hs : (decide (x < 0) ^^ decide (y < 0)) = decide (x < 0 ∨ y < 0) := by
      rcases mul_eq_zero.1 h0 with rfl | rfl <;> simp
    rw [Double.mul_ofInt hx hy, h0, hs, Int.natAbs_zero, Double.ofScaled_zero, Double.ofInt_zero]
    simp only [true_and, decide_eq_true_eq]
  · rw [Double.mul_ofInt_of_ne hx hy h0, if_neg (fun h => h0 h.1)]

theorem neg_ofInt_signed (x : ℤ) :
    (ofInt x).neg = if x = 0 then minusZero else ofInt (-x) := by
  split_ifs with h
  · rw [h, Double.ofInt_zero]
    decide
  · exact Double.neg_ofInt h

theorem jsFmod_ofInt_signed {x y : ℤ} (hx : x.natAbs < 2 ^ 53) (hy : y.natAbs < 2 ^ 53) :
    jsFmod (ofInt x) (ofInt y)
      = if 0 ≤ x ∧ 0 < y then ofInt (x % y) else jsFmod (ofInt x) (ofInt y) := by
  split_ifs with h
  · exact jsFmod_ofInt h.1 hx h.2 hy
  · rfl

section SlowPath

theorem compareDoubles_int (v w : JSValue a) (op : OpCode) :
    compareDoubles (ofInt (jsValueGetInt v)) (ofInt (jsValueGetInt w)) op
      = match op with
        | .lt => decide (jsValueGetInt v < jsValueGetInt w)
        | .lte => decide (jsValueGetInt v ≤ jsValueGetInt w)
        | .gt => decide (jsValueGetInt w < jsValueGetInt v)
        | _ => decide (jsValueGetInt w ≤ jsValueGetInt v) := by
  have h1 := Double.value?_ofInt (natAbs_jsValueGetInt_lt v)
  have h2 := Double.value?_ofInt (natAbs_jsValueGetInt_lt w)
  cases op <;>
    simp [compareDoubles, Double.lt_of_value? h1 h2, Double.le_of_value? h1 h2,
      Double.lt_of_value? h2 h1, Double.le_of_value? h2 h1]

variable (hv : jsIsInt v = true) (hw : jsIsInt w = true)

include hv in
theorem denote_jsPostIncSlow (op : OpCode) : (jsPostIncSlow op v).map (List.map Boxed.denote)
    = some [.number (ofInt (jsValueGetInt v + postStep op - 1)),
        .number (ofInt (jsValueGetInt v))] := by
  have hb := jsValueGetInt_bounds v
  have hs : 0 ≤ postStep op ∧ postStep op ≤ 2 := by
    cases op <;> decide
  rw [jsShortIntMin, jsShortIntMax] at hb
  have h1 : (jsValueGetInt v + postStep op).natAbs < 2 ^ 53 := by omega
  have h2 : (postStep op).natAbs < 2 ^ 53 := by omega
  simp only [jsPostIncSlow, jsToNumber_int hv, Option.bind_eq_bind, Option.bind_some,
    Option.pure_def, Option.map_some, List.map_cons, List.map_nil, denote_jsNewFloat64]
  rw [Double.add_ofInt (natAbs_jsValueGetInt_lt v) h2, Double.sub_ofInt h1 (by norm_num)]

include hv hw

theorem jsStrictEq_int :
    jsStrictEq v w = some (decide (jsValueGetInt v = jsValueGetInt w)) := by
  have h := Double.eq_of_value? (Double.value?_ofInt (natAbs_jsValueGetInt_lt v))
    (Double.value?_ofInt (natAbs_jsValueGetInt_lt w))
  simp [jsStrictEq, jsIsNumber, hv, hw, not_jsIsPtr, jsToNumber_int, h]

theorem jsEqLoop_int (fuel : ℕ) :
    jsEqLoop (fuel + 1) v w = some (decide (jsValueGetInt v = jsValueGetInt w)) := by
  rw [jsEqLoop, jsEqGetType_int hv, jsEqGetType_int hw]
  exact jsStrictEq_int hv hw

/-- On short integers, the slow function of every opcode gives the opcode's meaning. -/
theorem denote_slowPath (op : OpCode) : (slowPath op v w).map (List.map Boxed.denote)
    = some (intResult op (jsValueGetInt v) (jsValueGetInt w)) := by
  have h1 := natAbs_jsValueGetInt_lt v
  have h2 := natAbs_jsValueGetInt_lt w
  cases op with
  | add =>
    simp [slowPath, jsAddSlow, not_jsIsPtr, not_jsIsString, jsToNumber_int, hv, hw,
      denote_jsNewFloat64, intResult, Double.add_ofInt h1 h2]
  | sub =>
    simp [slowPath, jsBinaryArithSlow, jsToNumber_int, hv, hw, denote_jsNewFloat64, intResult,
      Double.sub_ofInt h1 h2]
  | mul =>
    simp only [slowPath, jsBinaryArithSlow, jsToNumber_int, hv, hw, Option.bind_eq_bind,
      Option.bind_some, Option.pure_def, Option.map_some, List.map_cons, List.map_nil,
      denote_jsNewFloat64, intResult, mul_ofInt_signed h1 h2]
  | mod =>
    simp only [slowPath, jsBinaryArithSlow, jsToNumber_int, hv, hw, Option.bind_eq_bind,
      Option.bind_some, Option.pure_def, Option.map_some, List.map_cons, List.map_nil,
      denote_jsNewFloat64, intResult]
    rw [← jsFmod_ofInt_signed h1 h2]
  | neg =>
    simp only [slowPath, jsUnaryArithSlow, jsToNumber_int, hw, Option.bind_eq_bind,
      Option.bind_some, Option.pure_def, Option.map_some, List.map_cons, List.map_nil,
      denote_jsNewFloat64, intResult, neg_ofInt_signed]
  | inc =>
    simp [slowPath, jsUnaryArithSlow, jsToNumber_int, hw, denote_jsNewFloat64, intResult,
      Double.add_ofInt h2]
  | dec =>
    simp [slowPath, jsUnaryArithSlow, jsToNumber_int, hw, denote_jsNewFloat64, intResult,
      Double.sub_ofInt h2]
  | postDec =>
    simp [slowPath, denote_jsPostIncSlow hw, postStep, intResult]
  | postInc =>
    have h : jsValueGetInt w + 2 - 1 = jsValueGetInt w + 1 := by omega
    simp [slowPath, denote_jsPostIncSlow hw, postStep, intResult, h]
  | not => simp [slowPath, jsNotSlow, jsToInt32_int, hw, jsNewInt32, denote_jsNewInt64, intResult]
  | shl | sar | shr | and | or | xor =>
    simp [slowPath, jsBinaryLogicSlow, jsToInt32_int, hv, hw, jsNewInt32, jsNewUint32,
      denote_jsNewInt64, intResult, shiftCount]
  | lt | lte | gt | gte =>
    simp [slowPath, jsRelationalSlow, not_jsIsPtr, not_jsIsString, jsToNumber_int, hv, hw,
      compareDoubles_int, denote_jsNewBool, intResult]
  | eq | neq =>
    simp [slowPath, jsEqSlow, not_jsIsPtr, hv, hw, jsEqLoop_int hv hw, denote_jsNewBool, intResult]
  | strictEq | strictNeq =>
    simp [slowPath, jsStrictEqSlow, jsStrictEq_int hv hw, denote_jsNewBool, intResult]

end SlowPath

/-! ### The fast paths -/

theorem denote_floatResult (ha : a.useShortFloat = true) (d : Double) :
    (floatResult d : Boxed a).denote = .number d := by
  unfold floatResult
  split_ifs with h1 h2 h3
  · exact denote_jsToShortFloat ha h1
  · rcases Double.eq_zero_cases h2 with rfl | rfl
    · exact absurd rfl h3
    · rfl
  · rw [denote_jsNewShortInt (by decide) (by decide), Double.ofInt_zero]
    rw [not_not] at h3
    rw [h3]
    rfl
  · rfl

theorem denote_largeResult {d : Double} {slow : Option (Boxed a)}
    (h : slow.map Boxed.denote = some (.number d)) :
    (largeResult d slow).map Boxed.denote = some (.number d) := by
  unfold largeResult
  split_ifs with ha
  · rw [Option.map_some, denote_floatResult ha]
  · exact h

theorem map_singleton {o : Option (Boxed a)} {p : Prim} :
    (do return [← o] : Option (List (Boxed a))).map (List.map Boxed.denote) = some [p]
      ↔ o.map Boxed.denote = some p := by
  cases o <;> simp

section FastPath

variable (hv : jsIsInt v = true) (hw : jsIsInt w = true)
include hv hw

theorem jsValueIsBothInt_int : jsValueIsBothInt v w = true := jsValueIsBothInt_iff.2 ⟨hv, hw⟩

theorem denote_opAddSub {r z : ℤ} (hr : r = 2 * z) {dr : Double → Double → Double}
    {slow : Option (Boxed a)} (h : slow.map Boxed.denote = some (.number (ofInt z))) :
    (opAddSub v w r dr slow).map Boxed.denote = some (.number (ofInt z)) := by
  rw [opAddSub, if_pos (jsValueIsBothInt_int hv hw)]
  split_ifs with ho
  · exact h
  · simp only [overflow, ne_eq, decide_not, Bool.not_eq_true', decide_eq_false_iff_not,
      not_not] at ho
    rw [Option.map_some, denote_word_of_toInt32]
    rw [toInt32_ofUint32 (le_bits a), ← ho, hr]

theorem denote_opMul : (opMul v w).map Boxed.denote
    = some (.number (if jsValueGetInt v * jsValueGetInt w = 0
        ∧ (jsValueGetInt v < 0 ∨ jsValueGetInt w < 0) then minusZero
      else ofInt (jsValueGetInt v * jsValueGetInt w))) := by
  have hslow := map_singleton.1 (denote_slowPath hv hw .mul)
  have hx := toInt32_of_jsIsInt hv
  have hy : toInt32 w / 2 = jsValueGetInt w := rfl
  have hr : ∀ z : ℤ, 2 * z / 2 = z := by omega
  simp only [opMul, jsValueIsBothInt_int hv hw, if_true, hx, hy, mul_assoc, hr]
  generalize jsValueGetInt v = x at *
  generalize jsValueGetInt w = y at *
  split_ifs with h1 h2 h3
  · -- a product that does not fit is not zero
    rw [h2.1] at h1
    exact absurd rfl h1
  · rw [if_neg h2] at hslow
    exact denote_largeResult hslow
  · rfl
  · omega
  · omega
  · rw [Option.map_some, denote_word_of_toInt32]
    rw [not_not] at h1
    rw [toInt32_ofUint32 (le_bits a), ← h1]

theorem denote_opMod : (opMod v w).map Boxed.denote
    = (jsBinaryArithSlow .mod v w).map Boxed.denote := by
  have hslow := map_singleton.1 (denote_slowPath hv hw .mod)
  have hb := jsValueGetInt_bounds w
  simp only [opMod, jsValueIsBothInt_int hv hw, if_true]
  split_ifs with h
  · rfl
  · have hx : 0 ≤ jsValueGetInt v := by omega
    have hy : 0 < jsValueGetInt w := by omega
    have h1 := Int.emod_nonneg (jsValueGetInt v) hy.ne'
    have h2 := Int.emod_lt_of_pos (jsValueGetInt v) hy
    rw [hslow, if_pos ⟨hx, hy⟩, Option.map_some,
      denote_jsNewShortInt (by rw [jsShortIntMin]; omega) (by omega)]

omit hv in
theorem denote_opNeg : (opNeg w).map Boxed.denote = (jsUnaryArithSlow .neg w).map Boxed.denote := by
  have hslow := map_singleton.1 (denote_slowPath hw hw .neg)
  have hy := toInt32_of_jsIsInt hw
  have hb := toInt32_bounds w
  simp only [opNeg, hw, if_true]
  split_ifs with h0 h1
  · rw [hslow, if_pos (by omega)]
    rfl
  · have hmin : jsValueGetInt w = jsShortIntMin := by
      rw [jsShortIntMin]
      omega
    rw [if_neg (by omega), hmin] at hslow
    rw [Double.neg_ofInt (by decide)]
    exact (denote_largeResult hslow).trans hslow.symm
  · rw [hslow, if_neg (by omega), Option.map_some, denote_word_of_toInt32]
    rw [toInt32_ofInt32 (le_bits a), int32_eq_self (by omega) (by omega)]
    omega

omit hv in
theorem denote_opInc : (opInc w).map Boxed.denote = (jsUnaryArithSlow .inc w).map Boxed.denote := by
  have hslow := map_singleton.1 (denote_slowPath hw hw .inc)
  have hb := jsValueGetInt_bounds w
  simp only [opInc, hw, if_true]
  split_ifs with h
  · rfl
  · rw [hslow, Option.map_some, denote_jsNewShortInt (by omega) (by omega)]

omit hv in
theorem denote_opDec : (opDec w).map Boxed.denote = (jsUnaryArithSlow .dec w).map Boxed.denote := by
  have hslow := map_singleton.1 (denote_slowPath hw hw .dec)
  have hb := jsValueGetInt_bounds w
  simp only [opDec, hw, if_true]
  split_ifs with h
  · rfl
  · rw [hslow, Option.map_some, denote_jsNewShortInt (by omega) (by omega)]

omit hv in
theorem denote_opPostIncDec (op : OpCode) : (opPostIncDec op w).map (List.map Boxed.denote)
    = (jsPostIncSlow op w).map (List.map Boxed.denote) := by
  simp only [opPostIncDec, hw, if_true]
  split_ifs with h
  · rfl
  · rw [denote_jsPostIncSlow hw]
    simp only [Option.map_some, List.map_cons, List.map_nil, denote_word_int hw]
    rw [denote_jsNewShortInt (by omega) (by omega)]

omit hv in
theorem denote_opNot : (opNot w).map Boxed.denote = (jsNotSlow w).map Boxed.denote := by
  have hslow := map_singleton.1 (denote_slowPath hw hw .not)
  rw [hslow, opNot, if_pos hw, ofInt_jsValueGetInt, Option.map_some, denote_word_register]
  · exact jsIsInt_iff_getLsbD.2 (by simp)
  · ext i hi
    have := le_bits a
    simp only [BitVec.getElem_sshiftRight, BitVec.getElem_not, BitVec.getLsbD_and,
      BitVec.getLsbD_not, BitVec.msb_setWidth, BitVec.getElem_setWidth]
    grind

theorem denote_opShl : (opShl v w).map Boxed.denote
    = (jsBinaryLogicSlow .shl v w).map Boxed.denote := by
  have hslow := map_singleton.1 (denote_slowPath hv hw .shl)
  simp only [opShl, jsValueIsBothInt_int hv hw, if_true]
  split_ifs with h
  · exact (denote_largeResult hslow).trans hslow.symm
  · rw [hslow, Option.map_some, denote_jsNewShortInt (by omega) (by omega)]
    rfl

theorem denote_opShr : (opShr v w).map Boxed.denote
    = (jsBinaryLogicSlow .shr v w).map Boxed.denote := by
  have hslow := map_singleton.1 (denote_slowPath hv hw .shr)
  simp only [opShr, jsValueIsBothInt_int hv hw, if_true]
  split_ifs with h
  · exact (denote_largeResult hslow).trans hslow.symm
  · rw [hslow, Option.map_some, denote_jsNewShortInt (by rw [jsShortIntMin]; omega) (by omega)]
    rfl

theorem denote_opSar : (opSar v w).map Boxed.denote
    = (jsBinaryLogicSlow .sar v w).map Boxed.denote := by
  have hslow := map_singleton.1 (denote_slowPath hv hw .sar)
  rw [hslow, opSar, if_pos (jsValueIsBothInt_int hv hw), Option.map_some, denote_word_register]
  · rw [jsIsInt_iff_getLsbD, ← getLsbD_setWidth_zero, setWidth_ofInt32 (le_bits a)]
    simp
  · rw [setWidth_ofInt32 (le_bits a), BitVec.sshiftRight_and_distrib, ofInt_jsValueGetInt v,
      ← BitVec.sshiftRight_add, ← BitVec.sshiftRight_add, add_comm]
    have h1 : (~~~1#32).sshiftRight 1 = BitVec.allOnes 32 := by decide
    exact (congrArg _ h1).trans (BitVec.and_allOnes)

/-- `f` on whole words and `g` on registers are the same operation on every bit. -/
theorem denote_opLogic {op : OpCode} {f : JSValue a → JSValue a → JSValue a}
    {g : BitVec 32 → BitVec 32 → BitVec 32}
    (hf : jsIsInt (f v w) = true)
    (hfg : ((f v w).setWidth 32).sshiftRight 1
      = g ((v.setWidth 32).sshiftRight 1) ((w.setWidth 32).sshiftRight 1)) :
    (opLogic op v w f).map Boxed.denote = some (.number (ofInt
      (g (BitVec.ofInt 32 (jsValueGetInt v)) (BitVec.ofInt 32 (jsValueGetInt w))).toInt)) := by
  rw [opLogic, if_pos (jsValueIsBothInt_int hv hw), Option.map_some, denote_word_register hf hfg,
    ofInt_jsValueGetInt, ofInt_jsValueGetInt]

theorem denote_opCmp {binaryOp : ℤ → ℤ → Bool} {slowCall : Option (Boxed a)} :
    (opCmp v w binaryOp slowCall).map Boxed.denote
      = some (.boolean (binaryOp (jsValueGetInt v) (jsValueGetInt w))) := by
  rw [opCmp, if_pos (jsValueIsBothInt_int hv hw), Option.map_some, denote_jsNewBool]

/-- On short integers, every opcode gives its meaning. -/
theorem denote_jsCallOp (op : OpCode) : (jsCallOp op v w).map (List.map Boxed.denote)
    = some (intResult op (jsValueGetInt v) (jsValueGetInt w)) := by
  have hslow := denote_slowPath hv hw op
  have hx := toInt32_of_jsIsInt hv
  have hy := toInt32_of_jsIsInt hw
  have hv0 := jsIsInt_iff_getLsbD.1 hv
  have hw0 := jsIsInt_iff_getLsbD.1 hw
  cases op with
  | add =>
    refine map_singleton.2 (denote_opAddSub hv hw ?_ (map_singleton.1 hslow))
    rw [hx, hy]
    ring
  | sub =>
    refine map_singleton.2 (denote_opAddSub hv hw ?_ (map_singleton.1 hslow))
    rw [hx, hy]
    ring
  | mul => exact map_singleton.2 (denote_opMul hv hw)
  | mod => exact map_singleton.2 ((denote_opMod hv hw).trans (map_singleton.1 hslow))
  | neg => exact map_singleton.2 ((denote_opNeg hw).trans (map_singleton.1 hslow))
  | inc => exact map_singleton.2 ((denote_opInc hw).trans (map_singleton.1 hslow))
  | dec => exact map_singleton.2 ((denote_opDec hw).trans (map_singleton.1 hslow))
  | postDec => exact (denote_opPostIncDec hw .postDec).trans hslow
  | postInc => exact (denote_opPostIncDec hw .postInc).trans hslow
  | not => exact map_singleton.2 ((denote_opNot hw).trans (map_singleton.1 hslow))
  | shl => exact map_singleton.2 ((denote_opShl hv hw).trans (map_singleton.1 hslow))
  | sar => exact map_singleton.2 ((denote_opSar hv hw).trans (map_singleton.1 hslow))
  | shr => exact map_singleton.2 ((denote_opShr hv hw).trans (map_singleton.1 hslow))
  | and =>
    refine map_singleton.2 (denote_opLogic hv hw ?_ ?_)
    · simp [jsIsInt_iff_getLsbD, hv0, hw0]
    · rw [BitVec.setWidth_and, BitVec.sshiftRight_and_distrib]
  | or =>
    refine map_singleton.2 (denote_opLogic hv hw ?_ ?_)
    · simp [jsIsInt_iff_getLsbD, hv0, hw0]
    · rw [BitVec.setWidth_or, BitVec.sshiftRight_or_distrib]
  | xor =>
    refine map_singleton.2 (denote_opLogic hv hw ?_ ?_)
    · simp [jsIsInt_iff_getLsbD, hv0, hw0]
    · rw [BitVec.setWidth_xor, BitVec.sshiftRight_xor_distrib]
  | lt | lte | gt | gte | eq | neq | strictEq | strictNeq =>
    exact map_singleton.2 (denote_opCmp hv hw)

end FastPath

/-- On every pair of short integers and for every opcode, the value left by the fast path and the
value the slow function would give stand for the same number or boolean, the sign of zero
included. -/
theorem jsCallOp_agrees_slowPath (op : OpCode) (sp1 sp0 : JSValue a) (h1 : jsIsInt sp1 = true)
    (h0 : jsIsInt sp0 = true) :
    ∃ fast slow : List (Boxed a), jsCallOp op sp1 sp0 = some fast ∧ slowPath op sp1 sp0 = some slow
      ∧ fast.map Boxed.denote = intResult op (jsValueGetInt sp1) (jsValueGetInt sp0)
      ∧ fast.map Boxed.denote = slow.map Boxed.denote := by
  obtain ⟨fast, hf, hfast⟩ := Option.map_eq_some_iff.1 (denote_jsCallOp h1 h0 op)
  obtain ⟨slow, hs, hslow⟩ := Option.map_eq_some_iff.1 (denote_slowPath h1 h0 op)
  exact ⟨fast, slow, hf, hs, hfast, hfast.trans hslow.symm⟩

/-- A product that is minus zero. -/
theorem jsCallOp_agrees_slowPath_mul :
    jsIsInt (jsNewShortInt (-3) : JSValue .jsw8) = true
      ∧ ∃ fast slow : List (Boxed .jsw8),
        jsCallOp .mul (jsNewShortInt (-3)) (jsNewShortInt 0) = some fast
        ∧ slowPath .mul (jsNewShortInt (-3)) (jsNewShortInt 0) = some slow
        ∧ fast.map Boxed.denote = intResult .mul (jsValueGetInt (jsNewShortInt (-3) : JSValue .jsw8))
          (jsValueGetInt (jsNewShortInt 0 : JSValue .jsw8))
        ∧ fast.map Boxed.denote = slow.map Boxed.denote :=
  ⟨by decide, jsCallOp_agrees_slowPath .mul _ _ (by decide) (by decide)⟩

end Qjs
