import Qjs.Bytecode
import Qjs.Str

/-!
# Emission of bytecode

The compiler appends instructions to a byte array. Beside it the table from program counters to
source positions is written as a stream of bits: for each instruction the difference of the line and
column to those of the instruction before. Jumps to labels that are not known yet are threaded
through the operands of the jumps, and the code of the hoisted functions is put in front at the end.
-/

namespace Qjs

variable (a : Arch) (mem : ℕ → Bool)

/-! ### The stream of bits, written -/

def getBe32 (buf : List ℕ) (pos : ℕ) : ℕ :=
  2 ^ 8 * (2 ^ 8 * (2 ^ 8 * getU8 buf pos + getU8 buf (pos + 1)) + getU8 buf (pos + 2))
    + getU8 buf (pos + 3)

def putBe32 (buf : List ℕ) (pos val : ℕ) : List ℕ :=
  (((buf.set pos (val / 2 ^ 24 % 2 ^ 8)).set (pos + 1) (val / 2 ^ 16 % 2 ^ 8)).set (pos + 2)
    (val / 2 ^ 8 % 2 ^ 8)).set (pos + 3) (val % 2 ^ 8)

/-- The table with its length in bits. -/
structure Pc2line where
  buf : List ℕ
  bitLen : ℕ
  deriving DecidableEq, Repr

/-- `pc2line_put_bits_short`, for `1 ≤ n ≤ 25`. The other bits of the word are kept. -/
def pc2linePutBitsShort (t : Pc2line) (n bits : ℕ) : Option Pc2line := do
  let pos := t.bitLen / 8
  let buf ← jsResizeByteArray a mem t.buf (pos + 4)
  let shift := 32 - t.bitLen % 8 - n
  let val := getBe32 buf pos &&& (2 ^ 32 - 1 - (2 ^ n - 1) * 2 ^ shift)
  some ⟨putBe32 buf pos (val ||| bits * 2 ^ shift % 2 ^ 32), t.bitLen + n⟩

/-- `pc2line_put_bits`, for `1 ≤ n ≤ 32`. -/
def pc2linePutBits (t : Pc2line) (n bits : ℕ) : Option Pc2line :=
  if n > 25 then do
    let t ← pc2linePutBitsShort a mem t (n - 25) (bits / 2 ^ 25)
    pc2linePutBitsShort a mem t 25 (bits % 2 ^ 25)
  else pc2linePutBitsShort a mem t n bits

/-- `put_ugolomb`, for `v < 2 ^ 32 - 1`. -/
def putUgolomb (t : Pc2line) (v : ℕ) : Option Pc2line :=
  let n := Nat.size (v + 1)
  (if n > 1 then pc2linePutBits a mem t (n - 1) 0 else some t).bind fun t =>
    pc2linePutBits a mem t n (v + 1)

/-- `(2 * v) ^ -(v >> 31)` for the `uint32_t` of an `int32_t`. -/
def zigzag (v : ℤ) : ℕ :=
  let u := (v % 2 ^ 32).toNat
  2 * u % 2 ^ 32 ^^^ if u / 2 ^ 31 = 1 then 2 ^ 32 - 1 else 0

/-- `put_sgolomb`. -/
def putSgolomb (t : Pc2line) (v : ℤ) : Option Pc2line := putUgolomb a mem t (zigzag v)

/-! ### The stream of bits, read -/

def getBit (buf : List ℕ) (index : ℕ) : ℕ := getU8 buf (index / 8) / 2 ^ (7 - index % 8) % 2

/-- `get_bits_slow`: the bits before `i` have been read. -/
def getBitsSlow (buf : List ℕ) (index n : ℕ) : ℕ → ℕ
  | 0 => 0
  | i + 1 => getBitsSlow buf index n i ||| getBit buf (index + i) * 2 ^ (n - 1 - i)

def getBits (buf : List ℕ) (bufLen index n : ℕ) : ℕ :=
  let pos := index / 8
  if n > 25 ∨ pos + 3 ≥ bufLen then getBitsSlow buf index n n
  else getBe32 buf pos / 2 ^ (32 - index % 8 - n) % 2 ^ n

/-- The zeros from `index` on, `i` having been seen; at 32 of them there is an error. -/
def golombZeros (buf : List ℕ) : ℕ → ℕ → ℕ → Option (ℕ × ℕ)
  | 0, _, _ => none
  | fuel + 1, i, index =>
    if getBit buf index = 1 then some (i, index + 1) else golombZeros buf fuel (i + 1) (index + 1)

/-- `get_ugolomb`: the value and the new index. -/
def getUgolomb (buf : List ℕ) (bufLen index : ℕ) : ℕ × ℕ :=
  match golombZeros buf 32 0 index with
  | none => (2 ^ 32 - 1, index + 32)
  | some (0, index) => (0, index)
  | some (i, index) => ((2 ^ i ||| getBits buf bufLen index i) - 1, index + i)

/-- `(val >> 1) ^ -(val & 1)`, as an `int32_t`. -/
def unzigzag (val : ℕ) : ℤ :=
  let w := val / 2 ^^^ if val % 2 = 1 then 2 ^ 32 - 1 else 0
  if w < 2 ^ 31 then w else w - 2 ^ 32

def getSgolomb (buf : List ℕ) (bufLen index : ℕ) : ℤ × ℕ :=
  let (val, index) := getUgolomb buf bufLen index
  (unzigzag val, index)

/-! ### Lines and columns -/

/-- A byte that starts a character. -/
def startsChar (c : ℕ) : Bool := c < 0x80 || c ≥ 0xc0

/-- `get_line_col`, both from zero, `line` and `col` being those at the start. -/
def getLineColFrom : ℕ → ℕ → List ℕ → ℕ × ℕ
  | line, col, [] => (line, col)
  | line, col, c :: buf =>
    if c = 0x0a then getLineColFrom (line + 1) 0 buf
    else if startsChar c then getLineColFrom line (col + 1) buf
    else getLineColFrom line col buf

def getLineCol (buf : List ℕ) : ℕ × ℕ := getLineColFrom 0 0 buf

/-- The column of `pos`, found by going back to the start of the line. -/
def columnBack (buf : List ℕ) : ℕ → ℕ
  | 0 => 0
  | i + 1 =>
    let c := getU8 buf i
    if c = 0x0a then 0
    else if startsChar c then columnBack buf i + 1
    else columnBack buf i

/-- `get_line_col_delta`. -/
def getLineColDelta (buf : List ℕ) (pos1 pos2 : ℕ) : ℤ × ℤ :=
  if pos2 ≥ pos1 then
    let (line, col) := getLineCol ((buf.drop pos1).take (pos2 - pos1))
    (line, col)
  else
    let (line, col) := getLineCol ((buf.drop pos2).take (pos1 - pos2))
    if -(line : ℤ) ≠ 0 then (-line, columnBack buf pos2) else (-line, -col)

variable (hasColumn : Bool) (sourceBuf : List ℕ)

/-- `emit_pc2line`: the position before is `sourcePos`. -/
def emitPc2line (t : Pc2line) (sourcePos pos : ℕ) : Option Pc2line := do
  let (lineDelta, colDelta) := getLineColDelta sourceBuf sourcePos pos
  let t ← putSgolomb a mem t lineDelta
  if hasColumn then
    if lineDelta = 0 then putSgolomb a mem t colDelta
    else putUgolomb a mem t (colDelta % 2 ^ 32).toNat
  else some t

/-- `get_pc2line`: line, column and index. -/
def getPc2line (buf : List ℕ) (bufLen : ℕ) (lineNum colNum : ℤ) (index : ℕ) : ℤ × ℤ × ℕ :=
  let (lineDelta, index) := getSgolomb buf bufLen index
  if hasColumn then
    if lineDelta = 0 then
      let (colDelta, index) := getSgolomb buf bufLen index
      (lineNum + lineDelta, colNum + colDelta, index)
    else
      let (col, index) := getUgolomb buf bufLen index
      (lineNum + lineDelta, col + 1, index)
  else (lineNum + lineDelta, 0, index)

/-! ### The emitter -/

/-- The part of `JSParseState` and of the function that emission works on. Labels are kept by
number, and `cpool` tells for each constant whether it is a hoisted function and for which
variable. -/
structure EmitState where
  byteCode : List ℕ
  byteCodeLen : ℕ
  lastOpcodePos : Option ℕ
  lastPc2linePos : ℕ
  lastPc2lineSourcePos : ℕ
  pc2line : Pc2line
  pc2lineSourcePos : ℕ
  labels : ℕ → ℕ
  cpool : List (Option ℕ)
  hoistedCodeLen : ℕ

def labelResolvedFlag : ℕ := 2 ^ 29

def labelOffsetMask : ℕ := 2 ^ 29 - 1

/-- `reset_parse_state`, every label being new. -/
def EmitState.init : EmitState :=
  ⟨[], 0, none, 0, 0, ⟨[], 0⟩, 0, fun _ => labelOffsetMask, [], 0⟩

/-- `emit_u8` and its like. -/
def emitBytes (s : EmitState) (bs : List ℕ) : Option EmitState := do
  let arr ← jsResizeByteArray a mem s.byteCode (s.byteCodeLen + bs.length)
  some { s with byteCode := writeAt arr s.byteCodeLen bs, byteCodeLen := s.byteCodeLen + bs.length }

/-- `emit_op_pos`. -/
def emitOpPos (s : EmitState) (op : OPCodeEnum) (sourcePos : ℕ) : Option EmitState := do
  let t ← emitPc2line a mem hasColumn sourceBuf s.pc2line s.pc2lineSourcePos sourcePos
  emitBytes a mem
    { s with
      lastOpcodePos := some s.byteCodeLen
      lastPc2linePos := s.pc2line.bitLen
      lastPc2lineSourcePos := s.pc2lineSourcePos
      pc2line := t
      pc2lineSourcePos := sourcePos } [op.code]

/-- `remove_last_op`, when there is a last opcode. -/
def removeLastOp (s : EmitState) (lastOpcodePos : ℕ) : EmitState :=
  { s with
    byteCodeLen := lastOpcodePos
    pc2line := { s.pc2line with bitLen := s.lastPc2linePos }
    pc2lineSourcePos := s.lastPc2lineSourcePos
    lastOpcodePos := none }

/-- The loop of `emit_label_pos`. -/
def resolveLabel (pos : ℕ) : ℕ → ℕ → List ℕ → List ℕ
  | 0, _, code => code
  | fuel + 1, label, code =>
    if label ≠ labelOffsetMask then
      let next := getU32 code label
      resolveLabel pos fuel next (putU32 code label (((pos : ℤ) - label) % 2 ^ 32).toNat)
    else code

/-- `emit_label`. -/
def emitLabel (s : EmitState) (l : ℕ) : EmitState :=
  { s with
    byteCode := resolveLabel s.byteCodeLen (s.byteCode.length + 1) (s.labels l) s.byteCode
    labels := Function.update s.labels l (s.byteCodeLen + labelResolvedFlag)
    lastOpcodePos := none }

/-- `emit_goto`. -/
def emitGoto (s : EmitState) (op : OPCodeEnum) (l : ℕ) : Option EmitState := do
  let s ← emitOpPos a mem hasColumn sourceBuf s op s.pc2lineSourcePos
  let label := s.labels l
  if label / labelResolvedFlag % 2 = 1 then
    emitBytes a mem s
      (u32Bytes (((label % labelResolvedFlag : ℕ) - (s.byteCodeLen : ℤ)) % 2 ^ 32).toNat)
  else
    let s ← emitBytes a mem s (u32Bytes label)
    some { s with labels := Function.update s.labels l (s.byteCodeLen - 4) }

/-! ### Hoisted functions -/

/-- The bytes of `hoisted_code_len`: seven bits each, the last ones marked but the first. -/
def putHoistedCodeLen : ℕ → Pc2line → ℕ → ℕ → Option Pc2line
  | 0, _, _, _ => none
  | fuel + 1, t, n, h => do
    let t ← pc2linePutBits a mem t 8 (n % 2 ^ 7 + h)
    if n / 2 ^ 7 = 0 then some t else putHoistedCodeLen fuel t (n / 2 ^ 7) (2 ^ 7)

/-- The table with the length of the code in front, as `define_hoisted_functions` leaves it. -/
def finishPc2line (t : Pc2line) (hoistedCodeLen : ℕ) : Option Pc2line :=
  let n := (8 - t.bitLen % 8) % 8
  (if n ≠ 0 then pc2linePutBits a mem t n 0 else some t).bind fun t =>
    putHoistedCodeLen a mem 5 t hoistedCodeLen 0

/-- The code that defines one hoisted function, constant `i`, in variable `idx`. -/
def hoistedInstr (isEval : Bool) (argCount i idx : ℕ) : List ℕ :=
  OPCodeEnum.opFclosure.code :: u16Bytes i ++
    if isEval then OPCodeEnum.opPutVarRefNocheck.code :: u16Bytes idx
    else if idx < argCount then OPCodeEnum.opPutArg.code :: u16Bytes idx
    else OPCodeEnum.opPutLoc.code :: u16Bytes (idx - argCount)

/-- The constants from `i` on. -/
def hoistedCode (isEval : Bool) (argCount : ℕ) : ℕ → List (Option ℕ) → List ℕ
  | _, [] => []
  | i, none :: cpool => hoistedCode isEval argCount (i + 1) cpool
  | i, some idx :: cpool =>
    hoistedInstr isEval argCount i idx ++ hoistedCode isEval argCount (i + 1) cpool

/-- `emit_insert` at the start: what was there stays until it is written over. -/
def emitInsertFront (s : EmitState) (n : ℕ) : Option EmitState := do
  let arr ← jsResizeByteArray a mem s.byteCode (s.byteCodeLen + n)
  some { s with
    byteCode := writeAt arr n (arr.take s.byteCodeLen), byteCodeLen := s.byteCodeLen + n }

/-- `define_hoisted_functions`, for a table that is there. -/
def defineHoistedFunctions (s : EmitState) (isEval : Bool) (argCount : ℕ) : Option EmitState := do
  let t ← finishPc2line a mem s.pc2line s.hoistedCodeLen
  let s := { s with pc2line := t }
  if s.hoistedCodeLen = 0 then some s
  else
    let s ← emitInsertFront a mem s s.hoistedCodeLen
    some { s with byteCode := writeAt s.byteCode 0 (hoistedCode isEval argCount 0 s.cpool) }

/-- The code and the table as the function gets them, by `js_shrink_byte_array`. -/
def EmitState.code (s : EmitState) : List ℕ := s.byteCode.take s.byteCodeLen

def EmitState.table (s : EmitState) : List ℕ := s.pc2line.buf.take ((s.pc2line.bitLen + 7) / 8)

/-! ### Runs -/

inductive EmitEvent
  | op (op : OPCodeEnum) (args : List ℕ) (sourcePos : ℕ)
  | remove
  | goto (op : OPCodeEnum) (l : ℕ)
  | label (l : ℕ)
  | const
  | hoist (varIdx : ℕ)

def emitStep (s : EmitState) : EmitEvent → Option EmitState
  | .op op args pos => do
    let s ← emitOpPos a mem hasColumn sourceBuf s op pos
    emitBytes a mem s args
  | .remove => s.lastOpcodePos.map (removeLastOp s)
  | .goto op l => emitGoto a mem hasColumn sourceBuf s op l
  | .label l => some (emitLabel s l)
  | .const => if s.cpool.length > 65535 then none else some { s with cpool := s.cpool ++ [none] }
  | .hoist idx =>
    if s.cpool.length > 65535 then none
    else some { s with cpool := s.cpool ++ [some idx], hoistedCodeLen := s.hoistedCodeLen + 6 }

def emitRun (s : EmitState) : List EmitEvent → Option EmitState
  | [] => some s
  | e :: es => (emitStep a mem hasColumn sourceBuf s e).bind fun s => emitRun s es

/-! ### Finding a position -/

/-- `get_pc2line_hoisted_code_len`: the bytes before `i` are left. -/
def getPc2lineHoistedCodeLen (buf : List ℕ) : ℕ → ℕ → ℕ
  | 0, v => v
  | i + 1, v =>
    let v := v * 2 ^ 7 + getU8 buf i % 2 ^ 7
    if getU8 buf i / 2 ^ 7 = 0 then v else getPc2lineHoistedCodeLen buf i v

/-- The loop of `find_line_col` from `pos` on. -/
def findLineColLoop (code : List ℕ) (codeLen : ℕ) (buf : List ℕ) (pc : ℕ) :
    ℕ → ℕ → ℤ → ℤ → ℕ → Option (ℤ × ℤ)
  | 0, _, _, _, _ => none
  | fuel + 1, pos, lineNum, colNum, index =>
    if pos < codeLen then
      let (lineNum, colNum, index) := getPc2line hasColumn buf buf.length lineNum colNum index
      if pos = pc then some (lineNum, colNum)
      else
        findLineColLoop code codeLen buf pc fuel (pos + opSize (getU8 code pos)) lineNum colNum
          index
    else none

/-- `find_line_col`: line and column, from one. -/
def findLineCol (code : List ℕ) (codeLen : ℕ) (buf : List ℕ) (pc : ℕ) : Option (ℤ × ℤ) :=
  let pos := getPc2lineHoistedCodeLen buf buf.length 0
  findLineColLoop hasColumn code codeLen buf (max pc pos) (codeLen + 1) pos 1 1 0

end Qjs
