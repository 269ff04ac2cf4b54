import Mathlib

/-!
# Calls, returns and exceptions

The part of `JS_Call` that enters functions, returns from them and looks for the handler of an
exception. The stack is one list of words, the last pushed first, in which the frames follow one
another; a pointer into it is the number of words from the bottom up to the word it points to. What
an instruction, a C function or the allocator does is given by an `Engine`. Words of arguments and
variables are kept as they were pushed: what is stored in them later is left to the instructions.
-/

namespace Qjs

namespace Call

/-- `call_flags`. -/
structure CallFlags where
  argc : ℕ
  ctor : Bool
  popRet : Bool
  pcAdd1 : Bool
  deriving DecidableEq, Repr

/-- A word of the stack; `X` are the JavaScript values. -/
inductive Word (X : Type)
  | callFlags (f : CallFlags)
  | sp (h : ℕ)
  | pc (pos : ℕ)
  | catchOffset (pos : ℕ)
  | val (x : X)
  deriving DecidableEq

/-- What calls need of a `JSFunctionBytecode`. -/
structure FuncInfo where
  argCount : ℕ
  nVars : ℕ
  stackSize : ℕ
  deriving DecidableEq, Repr

/-- What `func_obj` is: not a function, a C function with an index into `c_function_table` (a short
function or an object with `params`), or a closure. -/
inductive Callee (X : Type)
  | notAFunction
  | cFunction (idx : ℕ) (params : Option X)
  | closure (b : FuncInfo)

inductive CFuncType
  | generic
  | genericMagic
  | constructor
  | constructorMagic
  | genericParams
  | f_f
  deriving DecidableEq, Repr

/-- `JSCFunctionDef`. -/
structure CFunctionDef where
  defType : CFuncType
  argCount : ℕ
  magic : ℕ
  deriving DecidableEq, Repr

def CFunctionDef.isConstructor (fd : CFunctionDef) : Bool :=
  fd.defType = .constructor || fd.defType = .constructorMagic

/-- What a C function returns. For a tail call it has pushed the arguments, the function and
`this`. -/
inductive CResult (X : Type)
  | val (v : X)
  | exception
  | tailCall (ctor popRet pcAdd1 : Bool) (this func : X) (args : List X)

/-- What an instruction does. `pc` is the position that is kept for the time of the call. -/
inductive Outcome (X : Type)
  | next (pc : ℕ) (operands : List (Word X))
  | call (pc : ℕ) (ctor popRet pcAdd1 : Bool) (this func : X) (args : List X)
      (rest : List (Word X))
  | raise (operands : List (Word X))
  | ret (v : X)

/-- The rest of `JSContext`, with the exception. -/
structure Ctx (W X : Type) where
  world : W
  currentException : X
  uncatchable : Bool

/-- What calls use and do not define. `D` are the doubles. -/
structure Engine (W X D : Type) where
  undefined : X
  null : X
  callee : X → Callee X
  isObject : X → Bool
  table : ℕ → CFunctionDef
  /-- `JS_StackCheck`; true is a failure. -/
  stackCheck : Ctx W X → ℕ → Ctx W X × Bool
  throwTypeError : Ctx W X → String → Ctx W X
  /-- `js_call_constructor_start`. -/
  callConstructorStart : Ctx W X → X → Ctx W X × Option X
  /-- The function with index `idx`, applied to `this`, the flags, the arguments and, where its type
  has them, `magic` and `params`. -/
  cFunction : ℕ → Ctx W X → X → CallFlags → List X → Option ℕ → Option X → Ctx W X × CResult X
  toNumber : Ctx W X → X → Ctx W X × Option D
  fF : ℕ → D → D
  newFloat64 : Ctx W X → D → Ctx W X × Option X
  /-- What an uninitialised `double` holds. -/
  leftover : Ctx W X → D
  /-- The variable references of a frame that ends get their values. -/
  detach : W → X → W
  instr : Ctx W X → X → ℕ → List (Word X) → Ctx W X × Outcome X

inductive Phase (X : Type)
  | functionCall (flags : CallFlags)
  | run
  /-- The answer of `JS_Call`, without a value for `JS_EXCEPTION`. -/
  | done (val : Option X)

/-- `pc` is missing as long as no closure was entered. -/
structure State (W X : Type) where
  ctx : Ctx W X
  stack : List (Word X)
  fp : ℕ
  pc : Option ℕ
  phase : Phase X

variable {W X D : Type}

/-! ### The stack -/

variable (E : Engine W X D)

/-- The word at height `h`. -/
def word (stack : List (Word X)) (h : ℕ) : Word X :=
  stack.getD (stack.length - h) (.val E.undefined)

/-- `sp` is set to height `h`. -/
def dropTo (stack : List (Word X)) (h : ℕ) : List (Word X) := stack.drop (stack.length - h)

def setWord (stack : List (Word X)) (h : ℕ) (v : Word X) : List (Word X) :=
  stack.set (stack.length - h) v

/-- A word read as a value. -/
def valueOf : Word X → X
  | .val x => x
  | _ => E.undefined

def savedFp (stack : List (Word X)) (fp : ℕ) : ℕ :=
  match word E stack fp with
  | .sp h => h
  | _ => 0

def frameFlags (stack : List (Word X)) (fp : ℕ) : CallFlags :=
  match word E stack (fp - 1) with
  | .callFlags f => f
  | _ => ⟨0, false, false, false⟩

def frameThis (stack : List (Word X)) (fp : ℕ) : X := valueOf E (word E stack (fp - 2))

def frameFunc (stack : List (Word X)) (fp : ℕ) : X := valueOf E (word E stack (fp - 3))

def frameCurPc (stack : List (Word X)) (fp : ℕ) : ℕ :=
  match word E stack (fp + 1) with
  | .pc pos => pos
  | _ => 0

def frameFirstVarRef (stack : List (Word X)) (fp : ℕ) : X := valueOf E (word E stack (fp + 2))

/-- `b` of a frame. -/
def frameInfo (stack : List (Word X)) (fp : ℕ) : FuncInfo :=
  match E.callee (frameFunc E stack fp) with
  | .closure b => b
  | _ => ⟨0, 0, 0⟩

/-- The height below the operand stack of a frame. -/
def operandBase (stack : List (Word X)) (fp : ℕ) : ℕ := fp + 2 + (frameInfo E stack fp).nVars

/-! ### Exceptions and returns -/

/-- The first catch offset, with what is below it. -/
def findCatch : List (Word X) → Option (ℕ × List (Word X))
  | [] => none
  | .catchOffset pos :: below => some (pos, below)
  | _ :: below => findCatch below

/-- `exception`, and `generic_return` of the frames that have no handler. -/
def unwind (initialFp : ℕ) : ℕ → Ctx W X → List (Word X) → ℕ → State W X
  | 0, ctx, stack, fp => ⟨ctx, stack, fp, none, .done none⟩
  | fuel + 1, ctx, stack, fp =>
    let base := operandBase E stack fp
    let handler := if ctx.uncatchable then none else findCatch (stack.take (stack.length - base))
    match handler with
    | some (pos, below) =>
      ⟨{ ctx with currentException := E.null },
        .val ctx.currentException :: below ++ dropTo stack base, fp, some pos, .run⟩
    | none =>
      let ctx := { ctx with world := E.detach ctx.world (frameFirstVarRef E stack fp) }
      let argc := max (frameFlags E stack fp).argc (frameInfo E stack fp).argCount
      let stack' := dropTo stack (fp - 4 - argc)
      let fp' := savedFp E stack fp
      if fp' = initialFp then ⟨ctx, stack', fp', some 0, .done none⟩
      else unwind initialFp fuel ctx stack' fp'

/-- `return_call`: the frame at `fp` ends and `sp` is set to height `h`. -/
def returnCall (initialFp : ℕ) (s : State W X) (h : ℕ) (val : Option X) : State W X :=
  let flags := frameFlags E s.stack s.fp
  let fp := savedFp E s.stack s.fp
  let stack := dropTo s.stack h
  if fp = initialFp then ⟨s.ctx, stack, fp, s.pc, .done val⟩
  else
    match val with
    | none => unwind E initialFp (stack.length + 1) s.ctx stack fp
    | some v =>
      let pos := frameCurPc E stack fp
      ⟨s.ctx, if flags.popRet then stack else .val v :: stack, fp,
        some (if flags.pcAdd1 then pos else pos + 2), .run⟩

/-- `OP_return`. -/
def genericReturn (initialFp : ℕ) (s : State W X) (v : X) : State W X :=
  let ctx := { s.ctx with world := E.detach s.ctx.world (frameFirstVarRef E s.stack s.fp) }
  let flags := frameFlags E s.stack s.fp
  let v := if flags.ctor && !E.isObject v then frameThis E s.stack s.fp else v
  let argc := max flags.argc (frameInfo E s.stack s.fp).argCount
  returnCall E initialFp { s with ctx := ctx } (s.fp - 4 - argc) (some v)

/-- `call_exception`. -/
def callException (initialFp : ℕ) (s : State W X) : State W X :=
  match s.pc with
  | none => { s with phase := .done none }
  | some _ => unwind E initialFp (s.stack.length + 1) s.ctx s.stack s.fp

/-! ### Entering a function -/

/-- Missing arguments are `undefined`: the words of the header and the `argc` arguments are moved
down. -/
def padArgs (stack : List (Word X)) (argc argCount : ℕ) : List (Word X) :=
  if argCount > argc then
    stack.take (4 + argc) ++ List.replicate (argCount - argc) (.val E.undefined)
      ++ stack.drop (4 + argc)
  else stack

/-- The call of a C function by its type, with the header and the arguments on the stack. -/
def callBody (fd : CFunctionDef) (idx : ℕ) (params : Option X) (ctx : Ctx W X) (this : X)
    (flags : CallFlags) (args : List X) : Ctx W X × CResult X :=
  match fd.defType with
  | .generic | .constructor => E.cFunction idx ctx this flags args none none
  | .genericMagic | .constructorMagic => E.cFunction idx ctx this flags args (some fd.magic) none
  | .genericParams => E.cFunction idx ctx this flags args none params
  | .f_f =>
    match E.toNumber ctx (args.headD E.undefined) with
    | (ctx, none) =>
      -- the exception is overwritten by the value of what `d` holds
      match E.newFloat64 ctx (E.leftover ctx) with
      | (ctx, some v) => (ctx, .val v)
      | (ctx, none) => (ctx, .exception)
    | (ctx, some d) =>
      match E.newFloat64 ctx (E.fF idx d) with
      | (ctx, some v) => (ctx, .val v)
      | (ctx, none) => (ctx, .exception)

/-- What `JS_Call` does with the answer of a C function, its frame being the last one. -/
def afterBody (initialFp : ℕ) (s : State W X) (pushedArgc : ℕ) : CResult X → State W X
  | .val v => returnCall E initialFp s (s.fp - 4 - pushedArgc) (some v)
  | .exception => returnCall E initialFp s (s.fp - 4 - pushedArgc) none
  | .tailCall ctor popRet pcAdd1 this func args =>
    ⟨s.ctx, .val this :: .val func :: args.map .val ++ dropTo s.stack (s.fp - 4 - pushedArgc),
      savedFp E s.stack s.fp, s.pc, .functionCall ⟨args.length, ctor, popRet, pcAdd1⟩⟩

def callCFunction (initialFp : ℕ) (s : State W X) (flags : CallFlags) (idx : ℕ)
    (params : Option X) : State W X :=
  let fd := E.table idx
  let header := .sp s.fp :: .callFlags flags :: s.stack
  if flags.ctor && !fd.isConstructor then
    callException E initialFp { s with ctx := E.throwTypeError s.ctx "not a constructor" }
  else
    let (ctx, fail) := E.stackCheck s.ctx (fd.argCount - flags.argc)
    if fail then callException E initialFp { s with ctx := ctx }
    else
      let stack := padArgs E header flags.argc fd.argCount
      let pushedArgc := max flags.argc fd.argCount
      let (ctx, r) := callBody E fd idx params ctx (frameThis E stack stack.length)
        { flags with popRet := false, pcAdd1 := false }
        (((stack.drop 4).take pushedArgc).map (valueOf E))
      afterBody E initialFp ⟨ctx, stack, stack.length, s.pc, s.phase⟩ pushedArgc r

def callClosure (initialFp : ℕ) (s : State W X) (flags : CallFlags) (b : FuncInfo) : State W X :=
  let header := .sp s.fp :: .callFlags flags :: s.stack
  let (ctx, this) :=
    if flags.ctor then E.callConstructorStart s.ctx (frameFunc E header header.length)
    else (s.ctx, some (frameThis E header header.length))
  match this with
  | none => callException E initialFp { s with ctx := ctx, stack := header }
  | some this =>
    let header := header.set 2 (.val this)
    let (ctx, fail) := E.stackCheck ctx (b.argCount - flags.argc + 2 + b.nVars + b.stackSize)
    if fail then callException E initialFp { s with ctx := ctx, stack := header }
    else
      let stack := padArgs E header flags.argc b.argCount
      ⟨ctx, List.replicate b.nVars (.val E.undefined) ++ .val E.null :: .pc 0 :: stack,
        stack.length, some 0, .run⟩

/-- `function_call`. -/
def functionCall (initialFp : ℕ) (s : State W X) (flags : CallFlags) : State W X :=
  match E.callee (valueOf E (s.stack.getD 1 (.val E.undefined))) with
  | .notAFunction =>
    callException E initialFp { s with ctx := E.throwTypeError s.ctx "not a function" }
  | .cFunction idx params => callCFunction E initialFp s flags idx params
  | .closure b => callClosure E initialFp s flags b

/-- An instruction of the running closure. -/
def runInstr (initialFp : ℕ) (s : State W X) (pc : ℕ) : State W X :=
  let base := operandBase E s.stack s.fp
  let operands := s.stack.take (s.stack.length - base)
  let rest := dropTo s.stack base
  match E.instr s.ctx (frameFunc E s.stack s.fp) pc operands with
  | (ctx, .next pc operands) => ⟨ctx, operands ++ rest, s.fp, some pc, .run⟩
  | (ctx, .call pc ctor popRet pcAdd1 this func args operands) =>
    ⟨ctx, .val this :: .val func :: args.map .val ++ operands ++ setWord rest (s.fp + 1) (.pc pc),
      s.fp, some pc, .functionCall ⟨args.length, ctor, popRet, pcAdd1⟩⟩
  | (ctx, .raise operands) =>
    unwind E initialFp ((operands ++ rest).length + 1) ctx (operands ++ rest) s.fp
  | (ctx, .ret v) => genericReturn E initialFp { s with ctx := ctx } v

def step (initialFp : ℕ) (s : State W X) : State W X :=
  match s.phase, s.pc with
  | .functionCall flags, _ => functionCall E initialFp s flags
  | .run, some pc => runInstr E initialFp s pc
  | .run, none => s
  | .done _, _ => s

/-- `JS_Call`, with the arguments, the function and `this` on the stack. -/
def State.init (ctx : Ctx W X) (fp : ℕ) (this func : X) (args : List X) (base : List (Word X))
    (ctor : Bool) : State W X :=
  ⟨ctx, .val this :: .val func :: args.map .val ++ base, fp, none,
    .functionCall ⟨args.length, ctor, false, false⟩⟩

end Call

end Qjs
