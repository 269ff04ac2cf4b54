import Qjs.Bytecode
import Qjs.Str

/-!
# The size of the operand stack

`compute_stack_size` walks over the bytecode of a function, from each place to those that follow,
and takes the largest number of values that an instruction leaves. It notes for each place the
number of values there, modulo 255, in an array that a collection may move. Beside it stands what
the instructions do to the operand stack of a frame in `JS_Call`.
-/

namespace Qjs

def jsMaxFuncStackSize : ℕ := 65535

/-- The errors of `compute_stack_size`. -/
inductive StackError
  | bytecodeOverflow (pc : ℕ)
  | inconsistent (stackLen stackLen' pc : ℕ)
  | invalidOpcode (pc : ℕ)
  | underflow (pc : ℕ)
  | stackOverflow (pc : ℕ)
  deriving DecidableEq, Repr

/-! ### The walk -/

section Walk

variable (code : List ℕ)

/-- The values that an instruction takes. -/
def instrPop (op : OPCodeEnum) (pos : ℕ) : ℕ :=
  (opcodeInfo op).nPop + if (opcodeInfo op).fmt = .npop then getU16 code (pos + 1) else 0

/-- `pos + get_u32(arr->buf + pos)` as `uint32_t`. -/
def labelTarget (pos : ℕ) : ℕ := (pos + getU32 code pos) % 2 ^ 32

/-- Where the walk goes on after the instruction at `pos` has left `len` values, the target of a
branch first. -/
def walkNext (op : OPCodeEnum) (pos len : ℕ) : List (ℕ × ℕ) :=
  match op with
  | .opReturn | .opReturnUndef | .opThrow | .opRet => []
  | .opGoto => [(labelTarget code (pos + 1), len)]
  | .opIfTrue | .opIfFalse => [(labelTarget code (pos + 1), len), (pos + op.size, len)]
  | .opGosub => [(labelTarget code (pos + 1), len + 1), (pos + op.size, len)]
  | _ => [(pos + op.size, len)]

/-- The instruction at `pos` with `stackLen` values on the stack: the number of values it leaves and
the places after it. -/
def walkInstr (pos stackLen : ℕ) : Except StackError (ℕ × List (ℕ × ℕ)) :=
  match opcodeOf (getU8 code pos) with
  | none | some .opInvalid => .error (.invalidOpcode pos)
  | some op =>
    if pos + op.size > code.length then .error (.bytecodeOverflow pos)
    else if stackLen < instrPop code op pos then .error (.underflow pos)
    else
      let len := stackLen + (opcodeInfo op).nPush - instrPop code op pos
      .ok (len, walkNext code op pos len)

/-- `explore_tab`, the places to go to and `stack_size`. -/
structure Explore where
  tab : List ℕ
  work : List (ℕ × ℕ)
  stackSize : ℕ

/-- What the pointers to the bytecode and to `explore_tab` give once a collection has moved the
arrays. -/
structure Stale where
  size : ℕ
  tab : List ℕ

/-- `compute_stack_size_push`. A write by a stale pointer does not reach the table. The answer says
whether something was pushed, which may start a collection. -/
def computeStackSizePush (v : Option Stale) (s : Explore) (pos stackLen : ℕ) :
    Except StackError (Explore × Bool) :=
  let size := v.elim code.length Stale.size
  let mark := getU8 (v.elim s.tab Stale.tab) pos
  let shortStackLen := 1 + stackLen % 255
  if pos ≥ size then .error (.bytecodeOverflow pos)
  else if mark ≠ 0 then
    if mark ≠ shortStackLen then .error (.inconsistent (mark - 1) (shortStackLen - 1) pos)
    else .ok (s, false)
  else
    .ok ({ s with
      tab := if v.isNone then s.tab.set pos shortStackLen else s.tab
      work := (pos, stackLen) :: s.work }, true)

variable (gc : ℕ → Bool → Option Stale)

/-- The pushes of one turn of the loop. `gc i` tells what a collection during turn `i` makes of the
pointers, with `true` for the push of a branch target and `false` for the last push. -/
def computeStackSizePushes (i : ℕ) (s : Explore) :
    List (ℕ × ℕ) → Except StackError (Explore × Option Stale)
  | [] => .ok (s, none)
  | [(pos, len)] => do
    let (s, pushed) ← computeStackSizePush code none s pos len
    .ok (s, if pushed then gc i false else none)
  | (pos1, len1) :: (pos, len) :: _ => do
    let (s, pushed) ← computeStackSizePush code none s pos1 len1
    let v := if pushed then gc i true else none
    let (s, pushed) ← computeStackSizePush code v s pos len
    .ok (s, if pushed then gc i false else v)

def computeStackSizeTurn (i : ℕ) (s : Explore) (pos stackLen : ℕ) :
    Except StackError (Explore × Option Stale) := do
  let (len, next) ← walkInstr code pos stackLen
  if len > s.stackSize then
    if len > jsMaxFuncStackSize then .error (.stackOverflow pos)
    else computeStackSizePushes code gc i { s with stackSize := len } next
  else computeStackSizePushes code gc i s next

/-- The loop; the pointers are fetched anew in each turn. -/
def computeStackSizeLoop : ℕ → ℕ → Explore → Option (Except StackError ℕ)
  | 0, _, _ => none
  | fuel + 1, i, s =>
    match s.work with
    | [] => some (.ok s.stackSize)
    | (pos, stackLen) :: work =>
      match computeStackSizeTurn code gc i { s with work := work } pos stackLen with
      | .error e => some (.error e)
      | .ok (s, _) => computeStackSizeLoop fuel (i + 1) s

/-- `compute_stack_size`. -/
def computeStackSize (fuel : ℕ) : Option (Except StackError ℕ) :=
  match computeStackSizePush code none ⟨List.replicate code.length 0, [], 0⟩ 0 0 with
  | .error e => some (.error e)
  | .ok (s, _) => computeStackSizeLoop code gc fuel 0 s

end Walk

/-! ### The operand stack of a frame -/

/-- A value on the operand stack. -/
inductive Slot
  | int (n : ℤ)
  | catchOffset (pos : ℕ)
  | other
  deriving DecidableEq, Repr

def Slot.isCatch : Slot → Bool
  | .catchOffset _ => true
  | _ => false

/-- What an instruction that goes on to the next one does: the values it looks at, those of them it
takes, and the new ones it leaves. `arg` is its 16-bit operand. Opcodes without a case in `JS_Call`
have none. -/
def plainEffect (arg : ℕ) : OPCodeEnum → Option (ℕ × ℕ × ℕ)
  | .opPushMinus1 | .opPush0 | .opPush1 | .opPush2 | .opPush3 | .opPush4 | .opPush5 | .opPush6
  | .opPush7 | .opPushI8 | .opPushI16 | .opPushValue | .opPushConst | .opUndefined | .opNull
  | .opPushThis | .opPushFalse | .opPushTrue | .opObject | .opThisFunc | .opArguments | .opNewTarget
  | .opFclosure | .opGetLoc | .opGetArg | .opGetLoc0 | .opGetLoc1 | .opGetLoc2 | .opGetLoc3
  | .opGetLoc8 | .opGetArg0 | .opGetArg1 | .opGetArg2 | .opGetArg3 | .opGetVarRef
  | .opGetVarRefNocheck => some (0, 0, 1)
  | .opPutLoc | .opPutArg | .opPutLoc0 | .opPutLoc1 | .opPutLoc2 | .opPutLoc3 | .opPutLoc8
  | .opPutArg0 | .opPutArg1 | .opPutArg2 | .opPutArg3 | .opPutVarRef | .opPutVarRefNocheck =>
    some (1, 1, 0)
  | .opLnot | .opGetField | .opGetLength | .opPlus | .opNeg | .opInc | .opDec | .opNot | .opTypeof
  | .opForInStart | .opForOfStart => some (1, 1, 1)
  | .opPostInc | .opPostDec => some (1, 1, 2)
  | .opRegexp | .opGetArrayEl | .opAdd | .opSub | .opMul | .opDiv | .opMod | .opPow | .opShl
  | .opShr | .opSar | .opAnd | .opOr | .opXor | .opLt | .opLte | .opGt | .opGte | .opEq | .opNeq
  | .opStrictEq | .opStrictNeq | .opIn | .opInstanceof | .opDelete => some (2, 2, 1)
  -- the object stays where it is
  | .opGetField2 | .opGetLength2 => some (1, 0, 1)
  | .opGetArrayEl2 => some (2, 1, 1)
  | .opDefineField | .opDefineGetter | .opDefineSetter | .opSetProto => some (2, 1, 0)
  | .opForOfNext => some (1, 0, 2)
  | .opPutField => some (2, 2, 0)
  | .opPutArrayEl => some (3, 3, 0)
  | .opArrayFrom => some (arg, arg, 1)
  | .opCall | .opCallConstructor => some (arg + 1, arg + 1, 1)
  | .opCallMethod => some (arg + 2, arg + 2, 1)
  | _ => none

/-- The instructions that move values, the top of the stack first. -/
def shuffle : OPCodeEnum → List Slot → Option (List Slot)
  | .opDrop, _ :: s => some s
  | .opNip, a :: _ :: s => some (a :: s)
  | .opDup, a :: s => some (a :: a :: s)
  | .opDup2, a :: b :: s => some (a :: b :: a :: b :: s)
  | .opInsert2, a :: b :: s => some (a :: b :: a :: s)
  | .opInsert3, a :: b :: c :: s => some (a :: b :: c :: a :: s)
  | .opPerm3, a :: b :: c :: s => some (a :: c :: b :: s)
  | .opRot3l, a :: b :: c :: s => some (c :: a :: b :: s)
  | .opPerm4, a :: b :: c :: d :: s => some (a :: c :: d :: b :: s)
  | .opSwap, a :: b :: s => some (b :: a :: s)
  | _, _ => none

/-- `pc += (int32_t)get_u32(pc)`. -/
def jumpTarget (code : List ℕ) (pos : ℕ) : ℕ :=
  let diff := getU32 code pos
  ((pos : ℤ) + if diff < 2 ^ 31 then (diff : ℤ) else diff - 2 ^ 32).toNat

structure FrameState where
  pc : ℕ
  stack : List Slot
  deriving DecidableEq, Repr

/-- How control is passed on. -/
inductive StepKind
  | flow
  | gosub
  | ret
  | caught
  deriving DecidableEq, Repr

/-- A step of `JS_Call` within one frame; a call is one step, up to its return. -/
inductive FrameStep (code : List ℕ) : StepKind → FrameState → FrameState → Prop
  | plain {pc : ℕ} {stack vals : List Slot} {op : OPCodeEnum} {need pop push : ℕ}
      (hop : opcodeOf (getU8 code pc) = some op)
      (heff : plainEffect (getU16 code (pc + 1)) op = some (need, pop, push))
      (hneed : need ≤ stack.length) (hvals : vals.length = push)
      (hcatch : ∀ v ∈ vals, v.isCatch = false) :
      FrameStep code .flow ⟨pc, stack⟩ ⟨pc + op.size, vals ++ stack.drop pop⟩
  | shuffle {pc : ℕ} {stack stack' : List Slot} {op : OPCodeEnum}
      (hop : opcodeOf (getU8 code pc) = some op) (hsh : shuffle op stack = some stack') :
      FrameStep code .flow ⟨pc, stack⟩ ⟨pc + op.size, stack'⟩
  | goto {pc : ℕ} {stack : List Slot} (hop : opcodeOf (getU8 code pc) = some .opGoto) :
      FrameStep code .flow ⟨pc, stack⟩ ⟨jumpTarget code (pc + 1), stack⟩
  | branch {pc : ℕ} {v : Slot} {stack : List Slot} {op : OPCodeEnum}
      (hop : opcodeOf (getU8 code pc) = some op) (hif : op = .opIfFalse ∨ op = .opIfTrue)
      (taken : Bool) :
      FrameStep code .flow ⟨pc, v :: stack⟩
        ⟨if taken then jumpTarget code (pc + 1) else pc + 5, stack⟩
  | catch_ {pc : ℕ} {stack : List Slot} (hop : opcodeOf (getU8 code pc) = some .opCatch) :
      FrameStep code .flow ⟨pc, stack⟩
        ⟨pc + 5, .catchOffset (jumpTarget code (pc + 1)) :: stack⟩
  | gosub {pc : ℕ} {stack : List Slot} (hop : opcodeOf (getU8 code pc) = some .opGosub) :
      FrameStep code .gosub ⟨pc, stack⟩ ⟨jumpTarget code (pc + 1), .int (pc + 5) :: stack⟩
  | ret {pc pos : ℕ} {stack : List Slot} (hop : opcodeOf (getU8 code pc) = some .opRet)
      (hpos : pos < code.length) :
      FrameStep code .ret ⟨pc, .int pos :: stack⟩ ⟨pos, stack⟩
  /-- An exception of the instruction, when it has taken `k` of its values or more. The handler is
  that of the first catch offset. -/
  | caught {pc pos k : ℕ} {stack above below : List Slot} {op : OPCodeEnum}
      (hop : opcodeOf (getU8 code pc) = some op) (hk : k ≤ instrPop code op pc)
      (hstack : stack.drop k = above ++ .catchOffset pos :: below)
      (hfirst : ∀ v ∈ above, v.isCatch = false) {exc : Slot} (hexc : exc.isCatch = false) :
      FrameStep code .caught ⟨pc, stack⟩ ⟨pos, exc :: below⟩

end Qjs
