import Qjs.Value

/-!
# The allocator

The heap grows up from `heap_base` and the stack down from `stack_top`; `heap_free` and
`stack_bottom` are their ends. Addresses are integers below `2 ^ bits`, and pointer subtraction,
`uint32_t` sums and the comparison of the two are made with the conversions of C. How far a
collection brings `heap_free` down, and what the error object of a failed request asks for in
turn, are given by a `Runtime`.
-/

namespace Qjs

def jsStackSlack : ℤ := 16

def jsMinFreeSize : ℤ := 512

def jsMinCriticalFreeSize : ℤ := jsMinFreeSize - 256

/-- The part of `JSContext` the allocator works on. -/
structure JSContext where
  heapFree : ℤ
  stackBottom : ℤ
  sp : ℤ
  minFreeSize : ℤ
  inOutOfMemory : Bool
  deriving DecidableEq, Repr

/-- What building the out of memory error does to the heap: `js_malloc` of blocks, and `js_free`
of the last one. -/
inductive ErrorOp
  | malloc (size : ℤ)
  | free (size : ℕ)
  deriving DecidableEq, Repr

/-- The sizes asked for are those of a short message, an error object and the string buffer of a
backtrace. -/
def ErrorOp.small : ErrorOp → Prop
  | .malloc size => 0 ≤ size ∧ size < 2 ^ 31
  | .free _ => True

/-- A collection, as the allocator sees it, and the allocations made by `JS_ThrowInternalError`. -/
structure Runtime where
  /-- `heap_free` after `JS_GC`. -/
  gc : JSContext → ℤ
  gc_nonneg : ∀ c, 0 ≤ c.heapFree → 0 ≤ gc c
  gc_le : ∀ c, gc c ≤ c.heapFree
  errorOps : JSContext → List ErrorOp
  errorOps_small : ∀ c, ∀ op ∈ errorOps c, op.small

variable (a : Arch) (rt : Runtime)

/-- A `uint32_t`. -/
def uint32 (z : ℤ) : ℤ := z % 2 ^ 32

/-- A pointer. -/
def wrapPtr (z : ℤ) : ℤ := z % 2 ^ a.bits

/-- `(p - q) < u` with `u` of type `uint32_t`: the difference is converted to `unsigned` where
`ptrdiff_t` has 32 bits, and `u` to `ptrdiff_t` where it has 64. -/
def ptrDiffLess (p q u : ℤ) : Bool :=
  match a with
  | .jsw4 => (p - q) % 2 ^ 32 < u
  | .jsw8 => (p - q).bmod (2 ^ 64) < u

def jsGC (c : JSContext) : JSContext := { c with heapFree := rt.gc c }

/-- `check_free_mem`; `throw` is `JS_ThrowOutOfMemory`. -/
def checkFreeMem (throw : JSContext → JSContext) (c : JSContext) (stackBottom size : ℤ) :
    Bool × JSContext :=
  if ptrDiffLess a stackBottom c.heapFree (uint32 (size + c.minFreeSize)) then
    let c := jsGC rt c
    if ptrDiffLess a stackBottom c.heapFree (uint32 (size + c.minFreeSize)) then (false, throw c)
    else (true, c)
  else (true, c)

/-- `(size + JSW - 1) & ~(JSW - 1)`. -/
def roundSize (size : ℤ) : ℤ := uint32 (size + a.jsw - 1) / a.jsw * a.jsw

/-- `js_malloc`: the address of the block, `none` for `NULL`. -/
def jsMallocWith (throw : JSContext → JSContext) (c : JSContext) (size : ℤ) :
    Option ℤ × JSContext :=
  if size = 0 then (none, c)
  else
    let size := roundSize a size
    match checkFreeMem a rt throw c c.stackBottom size with
    | (false, c) => (none, c)
    | (true, c) => (some c.heapFree, { c with heapFree := wrapPtr a (c.heapFree + size) })

/-- Inside the out of memory handling a failed request throws `null` and allocates nothing. -/
def runErrorOp (c : JSContext) : ErrorOp → JSContext
  | .malloc size => (jsMallocWith a rt id c size).2
  | .free size => { c with heapFree := c.heapFree - min (size : ℤ) c.heapFree }

def jsThrowOutOfMemory (c : JSContext) : JSContext :=
  if c.inOutOfMemory then c
  else
    let c1 := { c with inOutOfMemory := true, minFreeSize := jsMinCriticalFreeSize }
    let c2 := (rt.errorOps c).foldl (runErrorOp a rt) c1
    { c2 with inOutOfMemory := false, minFreeSize := jsMinFreeSize }

def jsMalloc (c : JSContext) (size : ℤ) : Option ℤ × JSContext :=
  jsMallocWith a rt (jsThrowOutOfMemory a rt) c size

/-- `JS_StackCheck`: whether `len` values can be pushed. -/
def jsStackCheck (c : JSContext) (len : ℤ) : Bool × JSContext :=
  let len := uint32 (len + jsStackSlack)
  let newStackBottom := wrapPtr a (c.sp - len * a.jsw)
  match checkFreeMem a rt (jsThrowOutOfMemory a rt) c newStackBottom (uint32 (len * a.jsw)) with
  | (false, c) => (false, c)
  | (true, c) => (true, { c with stackBottom := newStackBottom })

end Qjs
