import Mathlib

/-!
# Bytecode

The opcodes of the interpreter with their sizes and stack effects, and the words in the bytecode.
An instruction carries as many operand bytes as its opcode asks for.
-/

namespace Qjs

inductive OPCodeEnum
  | opInvalid | opPushValue | opPushConst | opFclosure | opUndefined | opNull | opPushThis
  | opPushFalse | opPushTrue | opObject | opThisFunc | opArguments | opNewTarget | opDrop | opNip
  | opDup | opDup1 | opDup2 | opInsert2 | opInsert3 | opPerm3 | opPerm4 | opSwap | opRot3l
  | opCallConstructor | opCall | opCallMethod | opArrayFrom | opReturn | opReturnUndef | opThrow
  | opRegexp | opGetField | opGetField2 | opPutField | opGetArrayEl | opGetArrayEl2 | opPutArrayEl
  | opGetLength | opGetLength2 | opDefineField | opDefineGetter | opDefineSetter | opSetProto
  | opGetLoc | opPutLoc | opGetArg | opPutArg | opGetVarRef | opPutVarRef | opGetVarRefNocheck
  | opPutVarRefNocheck | opIfFalse | opIfTrue | opGoto | opCatch | opGosub | opRet | opForInStart
  | opForOfStart | opForOfNext | opNeg | opPlus | opDec | opInc | opPostDec | opPostInc | opNot
  | opLnot | opTypeof | opDelete | opMul | opDiv | opMod | opAdd | opSub | opPow | opShl | opSar
  | opShr | opLt | opLte | opGt | opGte | opInstanceof | opIn | opEq | opNeq | opStrictEq
  | opStrictNeq | opAnd | opXor | opOr | opNop | opPushMinus1 | opPush0 | opPush1 | opPush2
  | opPush3 | opPush4 | opPush5 | opPush6 | opPush7 | opPushI8 | opPushI16 | opPushConst8
  | opFclosure8 | opPushEmptyString | opGetLoc8 | opPutLoc8 | opGetLoc0 | opGetLoc1 | opGetLoc2
  | opGetLoc3 | opPutLoc0 | opPutLoc1 | opPutLoc2 | opPutLoc3 | opGetArg0 | opGetArg1 | opGetArg2
  | opGetArg3 | opPutArg0 | opPutArg1 | opPutArg2 | opPutArg3
  deriving DecidableEq, Repr

/-- `OP_FMT_*`: what the operand is. -/
inductive OpFmt
  | none | value | const16 | u16 | npop | loc | arg | varRef | label | noneInt | i8 | i16 | const8
  | loc8 | noneLoc | noneArg
  deriving DecidableEq, Repr

/-- `JSOpCode`. -/
structure JSOpCode where
  size : ℕ
  nPop : ℕ
  nPush : ℕ
  fmt : OpFmt
  deriving DecidableEq, Repr

def opcodeInfo : OPCodeEnum → JSOpCode
  | .opInvalid => ⟨1, 0, 0, .none⟩
  | .opPushValue => ⟨5, 0, 1, .value⟩
  | .opPushConst | .opFclosure => ⟨3, 0, 1, .const16⟩
  | .opUndefined | .opNull | .opPushThis | .opPushFalse | .opPushTrue => ⟨1, 0, 1, .none⟩
  | .opObject => ⟨3, 0, 1, .u16⟩
  | .opThisFunc | .opArguments | .opNewTarget => ⟨1, 0, 1, .none⟩
  | .opDrop => ⟨1, 1, 0, .none⟩
  | .opNip => ⟨1, 2, 1, .none⟩
  | .opDup => ⟨1, 1, 2, .none⟩
  | .opDup1 => ⟨1, 2, 3, .none⟩
  | .opDup2 => ⟨1, 2, 4, .none⟩
  | .opInsert2 => ⟨1, 2, 3, .none⟩
  | .opInsert3 => ⟨1, 3, 4, .none⟩
  | .opPerm3 => ⟨1, 3, 3, .none⟩
  | .opPerm4 => ⟨1, 4, 4, .none⟩
  | .opSwap => ⟨1, 2, 2, .none⟩
  | .opRot3l => ⟨1, 3, 3, .none⟩
  | .opCallConstructor | .opCall => ⟨3, 1, 1, .npop⟩
  | .opCallMethod => ⟨3, 2, 1, .npop⟩
  | .opArrayFrom => ⟨3, 0, 1, .npop⟩
  | .opReturn => ⟨1, 1, 0, .none⟩
  | .opReturnUndef => ⟨1, 0, 0, .none⟩
  | .opThrow => ⟨1, 1, 0, .none⟩
  | .opRegexp => ⟨1, 2, 1, .none⟩
  | .opGetField => ⟨3, 1, 1, .const16⟩
  | .opGetField2 => ⟨3, 1, 2, .const16⟩
  | .opPutField => ⟨3, 2, 0, .const16⟩
  | .opGetArrayEl => ⟨1, 2, 1, .none⟩
  | .opGetArrayEl2 => ⟨1, 2, 2, .none⟩
  | .opPutArrayEl => ⟨1, 3, 0, .none⟩
  | .opGetLength => ⟨1, 1, 1, .none⟩
  | .opGetLength2 => ⟨1, 1, 2, .none⟩
  | .opDefineField | .opDefineGetter | .opDefineSetter => ⟨3, 2, 1, .const16⟩
  | .opSetProto => ⟨1, 2, 1, .none⟩
  | .opGetLoc => ⟨3, 0, 1, .loc⟩
  | .opPutLoc => ⟨3, 1, 0, .loc⟩
  | .opGetArg => ⟨3, 0, 1, .arg⟩
  | .opPutArg => ⟨3, 1, 0, .arg⟩
  | .opGetVarRef => ⟨3, 0, 1, .varRef⟩
  | .opPutVarRef => ⟨3, 1, 0, .varRef⟩
  | .opGetVarRefNocheck => ⟨3, 0, 1, .varRef⟩
  | .opPutVarRefNocheck => ⟨3, 1, 0, .varRef⟩
  | .opIfFalse | .opIfTrue => ⟨5, 1, 0, .label⟩
  | .opGoto => ⟨5, 0, 0, .label⟩
  | .opCatch => ⟨5, 0, 1, .label⟩
  | .opGosub => ⟨5, 0, 0, .label⟩
  | .opRet => ⟨1, 1, 0, .none⟩
  | .opForInStart | .opForOfStart => ⟨1, 1, 1, .none⟩
  | .opForOfNext => ⟨1, 1, 3, .none⟩
  | .opNeg | .opPlus | .opDec | .opInc => ⟨1, 1, 1, .none⟩
  | .opPostDec | .opPostInc => ⟨1, 1, 2, .none⟩
  | .opNot | .opLnot | .opTypeof => ⟨1, 1, 1, .none⟩
  | .opDelete | .opMul | .opDiv | .opMod | .opAdd | .opSub | .opPow | .opShl | .opSar
  | .opShr | .opLt | .opLte | .opGt | .opGte | .opInstanceof | .opIn | .opEq | .opNeq
  | .opStrictEq | .opStrictNeq | .opAnd | .opXor | .opOr => ⟨1, 2, 1, .none⟩
  | .opNop => ⟨1, 0, 0, .none⟩
  | .opPushMinus1 | .opPush0 | .opPush1 | .opPush2 | .opPush3 | .opPush4 | .opPush5
  | .opPush6 | .opPush7 => ⟨1, 0, 1, .noneInt⟩
  | .opPushI8 => ⟨2, 0, 1, .i8⟩
  | .opPushI16 => ⟨3, 0, 1, .i16⟩
  | .opPushConst8 | .opFclosure8 => ⟨2, 0, 1, .const8⟩
  | .opPushEmptyString => ⟨1, 0, 1, .none⟩
  | .opGetLoc8 => ⟨2, 0, 1, .loc8⟩
  | .opPutLoc8 => ⟨2, 1, 0, .loc8⟩
  | .opGetLoc0 | .opGetLoc1 | .opGetLoc2 | .opGetLoc3 => ⟨1, 0, 1, .noneLoc⟩
  | .opPutLoc0 | .opPutLoc1 | .opPutLoc2 | .opPutLoc3 => ⟨1, 1, 0, .noneLoc⟩
  | .opGetArg0 | .opGetArg1 | .opGetArg2 | .opGetArg3 => ⟨1, 0, 1, .noneArg⟩
  | .opPutArg0 | .opPutArg1 | .opPutArg2 | .opPutArg3 => ⟨1, 1, 0, .noneArg⟩

def OPCodeEnum.size (op : OPCodeEnum) : ℕ := (opcodeInfo op).size

/-- The opcodes in the order of their codes. -/
def opcodes : List OPCodeEnum :=
  [.opInvalid, .opPushValue, .opPushConst, .opFclosure, .opUndefined, .opNull, .opPushThis,
    .opPushFalse, .opPushTrue, .opObject, .opThisFunc, .opArguments, .opNewTarget, .opDrop, .opNip,
    .opDup, .opDup1, .opDup2, .opInsert2, .opInsert3, .opPerm3, .opPerm4, .opSwap, .opRot3l,
    .opCallConstructor, .opCall, .opCallMethod, .opArrayFrom, .opReturn, .opReturnUndef, .opThrow,
    .opRegexp, .opGetField, .opGetField2, .opPutField, .opGetArrayEl, .opGetArrayEl2,
    .opPutArrayEl, .opGetLength, .opGetLength2, .opDefineField, .opDefineGetter, .opDefineSetter,
    .opSetProto, .opGetLoc, .opPutLoc, .opGetArg, .opPutArg, .opGetVarRef, .opPutVarRef,
    .opGetVarRefNocheck, .opPutVarRefNocheck, .opIfFalse, .opIfTrue, .opGoto, .opCatch, .opGosub,
    .opRet, .opForInStart, .opForOfStart, .opForOfNext, .opNeg, .opPlus, .opDec, .opInc,
    .opPostDec, .opPostInc, .opNot, .opLnot, .opTypeof, .opDelete, .opMul, .opDiv, .opMod, .opAdd,
    .opSub, .opPow, .opShl, .opSar, .opShr, .opLt, .opLte, .opGt, .opGte, .opInstanceof, .opIn,
    .opEq, .opNeq, .opStrictEq, .opStrictNeq, .opAnd, .opXor, .opOr, .opNop, .opPushMinus1,
    .opPush0, .opPush1, .opPush2, .opPush3, .opPush4, .opPush5, .opPush6, .opPush7, .opPushI8,
    .opPushI16, .opPushConst8, .opFclosure8, .opPushEmptyString, .opGetLoc8, .opPutLoc8,
    .opGetLoc0, .opGetLoc1, .opGetLoc2, .opGetLoc3, .opPutLoc0, .opPutLoc1, .opPutLoc2, .opPutLoc3,
    .opGetArg0, .opGetArg1, .opGetArg2, .opGetArg3, .opPutArg0, .opPutArg1, .opPutArg2, .opPutArg3]

def OPCodeEnum.code (op : OPCodeEnum) : ℕ := op.ctorIdx

def opcodeOf (b : ℕ) : Option OPCodeEnum := opcodes[b]?

/-- `opcode_info[op].size` for a byte of the bytecode. -/
def opSize (b : ℕ) : ℕ := ((opcodeOf b).map OPCodeEnum.size).getD 1

/-! ### Words -/

def getU8 (code : List ℕ) (pos : ℕ) : ℕ := code.getD pos 0

def getU16 (code : List ℕ) (pos : ℕ) : ℕ := getU8 code pos + 2 ^ 8 * getU8 code (pos + 1)

def getU32 (code : List ℕ) (pos : ℕ) : ℕ :=
  getU16 code pos + 2 ^ 16 * getU16 code (pos + 2)

def putU16 (code : List ℕ) (pos v : ℕ) : List ℕ :=
  (code.set pos (v % 2 ^ 8)).set (pos + 1) (v / 2 ^ 8 % 2 ^ 8)

def putU32 (code : List ℕ) (pos v : ℕ) : List ℕ :=
  putU16 (putU16 code pos v) (pos + 2) (v / 2 ^ 16)

/-- The bytes that `emit_u16` and `emit_u32` append. -/
def u16Bytes (v : ℕ) : List ℕ := [v % 2 ^ 8, v / 2 ^ 8 % 2 ^ 8]

def u32Bytes (v : ℕ) : List ℕ := u16Bytes v ++ u16Bytes (v / 2 ^ 16)

/-! ### Instructions -/

structure Instr where
  op : OPCodeEnum
  args : List ℕ
  args_length : args.length + 1 = op.size
  args_lt : ∀ b ∈ args, b < 2 ^ 8

/-- The 16-bit operand. -/
def Instr.u16 (i : Instr) : ℕ := getU16 i.args 0

def Instr.encode (i : Instr) : List ℕ := i.op.code :: i.args

def encodeInstrs (is : List Instr) : List ℕ := is.flatMap Instr.encode

end Qjs
