import Qjs.Alloc

/-!
# Frames on the value stack

The stack of `JS_Call` as the allocator sees it: the active frames, what each may push, and the
calls and returns that move `sp` and `stack_bottom`. A call checks the room for what the callee
declares and sets `stack_bottom` below it; a return leaves `stack_bottom` alone.
-/

namespace Qjs

/-- Bytecode pushes what it declared when it was called. A C function, or a helper of the engine
that works on behalf of the active frame, pushes what its own `JS_StackCheck` allows. -/
inductive FrameKind
  | closure
  | cFunction
  | helper
  deriving DecidableEq, Repr

/-- An active frame: `limit` is the lowest slot it may use, `base` the stack pointer with nothing
pushed, `retSp` the stack pointer its return gives back to the caller. -/
structure Frame where
  kind : FrameKind
  limit : ℤ
  base : ℤ
  retSp : ℤ
  deriving DecidableEq, Repr

structure Machine where
  ctx : JSContext
  frames : List Frame
  deriving DecidableEq, Repr

/-- The words a call pushes over its arguments: the `undefined` of `OP_call`, the call flags and
the saved frame pointer. They may lie below the declared stack of the caller. -/
def callWords : ℤ := 3

/-- What happens on the stack and the heap. -/
inductive Event
  | malloc (rt : Runtime) (size : ℤ)
  | push (n : ℕ)
  | pop (n : ℕ)
  | enterHelper
  /-- `JS_StackCheck` by a C function or a helper. -/
  | stackCheck (rt : Runtime) (len : ℕ)
  /-- The call of a closure, `tail` for the tail call of a C function. -/
  | callClosure (rt : Runtime) (tail : Bool) (argc argCount nVars stackSize : ℕ)
  | callC (rt : Runtime) (tail : Bool) (argc argCount : ℕ)
  /-- The return of the active frame, with its value pushed or not. -/
  | ret (pushVal : Bool)

variable (a : Arch)

/-- The stack pointer above which a call finds `this`, the function and `argc` arguments, and the
frames that stay. A tail call drops the frame of the C function and moves the values up. -/
def callSite (tail : Bool) (argc : ℕ) (m : Machine) : Option (ℤ × List Frame) :=
  match m.frames with
  | [] => none
  | f :: rest =>
    if f.base < m.ctx.sp + (argc + 2) * a.jsw then none
    else if tail then
      if f.kind = .cFunction ∧ rest ≠ [] then some (f.retSp - (argc + 2) * a.jsw, rest) else none
    else if f.limit ≤ m.ctx.sp - 2 * a.jsw then some (m.ctx.sp, m.frames)
    else none

/-- `max_int(arg_count - argc, 0)`: the arguments the caller did not give. -/
def missingArgs (argc argCount : ℕ) : ℤ := (argCount - argc : ℕ)

/-- A call up to the frame of the callee, which pushes `words` values and declares `declared`
more. -/
def enterFrame (rt : Runtime) (tail : Bool) (argc : ℕ) (kind : FrameKind) (words : ℤ)
    (declared : ℕ) (m : Machine) : Option Machine :=
  match callSite a tail argc m with
  | none => none
  | some (sp, frames) =>
    let sp1 := sp - 2 * a.jsw
    match jsStackCheck a rt { m.ctx with sp := sp1 } (words + declared) with
    | (false, c) =>
      -- the exception is raised where the call was made, which drops the two words
      some { m with ctx := { c with sp := m.ctx.sp } }
    | (true, c) =>
      let sp2 := sp1 - words * a.jsw
      let f : Frame :=
        { kind := kind
          -- a C function has to check the stack before it pushes
          limit := if kind = .closure then sp2 - (declared + callWords) * a.jsw else sp2
          base := sp2
          retSp := sp + (argc + 2) * a.jsw }
      some { ctx := { c with sp := sp2 }, frames := f :: frames }

def step (m : Machine) : Event → Option Machine
  | .malloc rt size => some { m with ctx := (jsMalloc a rt m.ctx size).2 }
  | .push n =>
    match m.frames with
    | [] => none
    | f :: _ =>
      if f.limit ≤ m.ctx.sp - n * a.jsw then
        some { m with ctx := { m.ctx with sp := m.ctx.sp - n * a.jsw } }
      else none
  | .pop n =>
    match m.frames with
    | [] => none
    | f :: _ =>
      if m.ctx.sp + n * a.jsw ≤ f.base then
        some { m with ctx := { m.ctx with sp := m.ctx.sp + n * a.jsw } }
      else none
  | .enterHelper =>
    some { m with frames := ⟨.helper, m.ctx.sp, m.ctx.sp, m.ctx.sp⟩ :: m.frames }
  | .stackCheck rt len =>
    match m.frames with
    | [] => none
    | f :: rest =>
      if f.kind = .closure then none
      else
        match jsStackCheck a rt m.ctx len with
        | (false, c) => some { m with ctx := c }
        | (true, c) =>
          some ⟨c, { f with limit := c.sp - (len + callWords) * a.jsw } :: rest⟩
  | .callClosure rt tail argc argCount nVars stackSize =>
    enterFrame a rt tail argc .closure (missingArgs argc argCount + 2 + nVars) stackSize m
  | .callC rt tail argc argCount =>
    enterFrame a rt tail argc .cFunction (missingArgs argc argCount) 0 m
  | .ret pushVal =>
    match m.frames with
    | f :: g :: rest =>
      let sp := if pushVal then f.retSp - a.jsw else f.retSp
      -- `stack_bottom` is not restored
      if g.limit ≤ sp then some ⟨{ m.ctx with sp := sp }, g :: rest⟩ else none
    | _ => none

/-- The machine after `JS_NewContext`, with the host as its only frame. -/
def Machine.init (heapBase stackTop : ℤ) : Machine where
  ctx :=
    { heapFree := heapBase
      stackBottom := stackTop
      sp := stackTop
      minFreeSize := jsMinFreeSize
      inOutOfMemory := false }
  frames := [⟨.helper, stackTop, stackTop, stackTop⟩]

def run (m : Machine) : List Event → Option Machine
  | [] => some m
  | e :: es => (step a m e).bind fun m' => run m' es

end Qjs
