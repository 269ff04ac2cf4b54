import Qjs.Arith
import Qjs.Atoms
import Qjs.Json

/-!
# Property keys

`JS_ToPropertyKey` turns a value into the word that objects compare: a short integer as it stands,
anything else through its string, which becomes a short integer when it reads as one and is
interned when it does not. The bytes `js_dtoa` writes for a double are given to the model.
-/

namespace Qjs.PropertyKey

/-- What `js_dtoa` writes: ASCII, and never nothing. -/
structure NumText where
  buf : List ℕ
  ascii : ∀ c ∈ buf, c ≤ 0x7f
  ne_nil : buf ≠ []

/-- The numbers and strings: a word with an integer, the double of a short float or of a float
block, a string. -/
inductive PropVal (a : Arch)
  | int (w : JSValue a)
  | float (d : Double)
  | str (s : StrVal)

/-- The word of a key; a reference is the address of its block. -/
inductive PropWord (a : Arch)
  | int (w : JSValue a)
  | str (s : StrVal)

/-! ### Numbers as strings -/

/-- The loop of `u32toa`, from the last digit; `q` is what has been written. -/
def u32toaLoop : ℕ → ℕ → List ℕ → List ℕ
  | 0, _, q => q
  | fuel + 1, n, q =>
    if n / 10 = 0 then (n % 10 + 0x30) :: q else u32toaLoop fuel (n / 10) ((n % 10 + 0x30) :: q)

/-- `u32toa`, whose buffer holds ten digits. -/
def u32toa (n : ℕ) : List ℕ := u32toaLoop 10 n []

def i32toa (n : ℤ) : List ℕ := if 0 ≤ n then u32toa n.toNat else 0x2d :: u32toa n.natAbs

/-- A block that holds ASCII, from memory that was found. -/
def putString (c : AtomCtx) (buf : List ℕ) : AtomCtx :=
  { c with
    heap :=
      { c.heap with
        strings := Function.update c.heap.strings c.heap.next (some ⟨false, true, false, buf⟩)
        next := c.heap.next + 1 } }

/-- `JS_NewStringLen` on ASCII: nothing is allocated for one character. -/
def jsNewStringLen (c : AtomCtx) (buf : List ℕ) (e : AllocEvent) : Outcome StrVal :=
  if buf = [] then .ok jsAtomEmpty c
  else if utf8CharLen (byteAt buf 0) = buf.length then .ok (.char (utf8Get buf)) c
  else
    let c := runGcs (fun _ => []) e.gcs c
    if e.ok then .ok (.ref c.heap.next) (putString c buf) else .exception c

/-- `js_dtoa2`: the bytes are written to a byte array, and `js_byte_array_to_string` makes it the
string unless they are one character. -/
def jsDtoa2 (c : AtomCtx) (t : NumText) (e : AllocEvent) : Outcome StrVal :=
  let c := runGcs (fun _ => []) e.gcs c
  if ¬ e.ok then .exception c
  else if utf8CharLen (byteAt t.buf 0) = t.buf.length then .ok (.char (utf8Get t.buf)) c
  else .ok (.ref c.heap.next) (putString c t.buf)

/-! ### Keys -/

/-- The allocations of `JS_ToPropertyKey`: those of `JS_ToString` and the two of
`JS_MakeUniqueString`. -/
structure KeyAllocs where
  toStr : AllocEvent
  numeric : AllocEvent
  resize : AllocEvent

variable {a : Arch} (dtoa : Double → NumText) (numeric : List ℕ → Bool)

/-- `JS_ToString`. -/
def jsToString (c : AtomCtx) (v : PropVal a) (e : AllocEvent) : Outcome StrVal :=
  match v with
  | .int w => jsNewStringLen c (i32toa (jsValueGetInt w)) e
  | .float d => jsDtoa2 c (dtoa d) e
  | .str s => .ok s c

/-- The contents of the string that `JS_ToString` gives. -/
def toStringBytes (c : AtomCtx) : PropVal a → List ℕ
  | .int w => i32toa (jsValueGetInt w)
  | .float d => (dtoa d).buf
  | .str s => stringBytes c.heap s

/-- `is_num_string`. -/
def isNumString (p : JSString) : Option ℤ := if p.isAscii then Json.isNumString p.buf else none

/-- The key of a string: a short integer, or the unique string. -/
def keyOfString (c : AtomCtx) (s : StrVal) (e : KeyAllocs) : Outcome (PropWord a) :=
  match isNumString (getStringPtr c.heap s) with
  | some n => .ok (.int (jsNewShortInt n)) c
  | none =>
    match jsMakeUniqueString numeric c s e.numeric e.resize with
    | .fault => .fault
    | .exception c => .exception c
    | .ok r c => .ok (.str r) c

/-- `JS_ToPropertyKey`. -/
def jsToPropertyKey (c : AtomCtx) (v : PropVal a) (e : KeyAllocs) : Outcome (PropWord a) :=
  match v with
  | .int w => .ok (.int w) c
  | v =>
    match jsToString dtoa c v e.toStr with
    | .fault => .fault
    | .exception c => .exception c
    | .ok s c => keyOfString numeric c s e

/-! ### Which values agree -/

/-- The upper half of the word repeats the sign, as `JS_NewShortInt` leaves it. -/
def SignExtended (w : JSValue a) : Prop := w = jsNewShortInt (jsValueGetInt w)

/-- `JS_ToString` gives an immediate code point, not a block. -/
def Immediate : PropVal a → Prop
  | .int w => (i32toa (jsValueGetInt w)).length = 1
  | .float d => (dtoa d).buf.length = 1
  | .str (.char _) => True
  | .str (.ref _) => False

/-- The representations of the two values agree: integers are the same word, an integer beside a
float or a string is sign-extended, and of two others that do not read as a short integer both
strings are immediate or neither is. -/
def SameRepr (text : List ℕ) : PropVal a → PropVal a → Prop
  | .int v, .int w => v = w
  | .int v, _ => SignExtended v
  | _, .int w => SignExtended w
  | v, w => (Json.isNumString text).isSome ∨ (Immediate dtoa v ↔ Immediate dtoa w)

end Qjs.PropertyKey
