import Qjs.Atod
import Qjs.Number
import Qjs.PropKey

/-!
# The methods of strings

A method takes words and gives a word back, and so does it report that it threw: the word of a
value and `JS_EXCEPTION` have the same type. The conversions of its receiver and its arguments run
user code, which stands here for whatever it does (`Engine`); a run that never comes back has no
result, and `fuel` bounds how often a conversion starts over.

Words are those that are not pointers; what a pointer leads to has a constructor of its own.
-/

namespace Qjs

namespace StringMethods

/-! ### Values -/

inductive Val (a : Arch)
  | word (w : JSValue a)
  /-- `JS_MTAG_FLOAT64`. -/
  | float64 (d : Double)
  /-- `JS_MTAG_STRING`. -/
  | str (id : ℕ)
  /-- `JS_MTAG_OBJECT`. -/
  | obj (id : ℕ)
  deriving DecidableEq

variable {a : Arch} {U α : Type}

def jsException : Val a := .word (jsValueMakeSpecial jsTagException 0)

/-- The value of a string. -/
def Val.ofStr : StrVal → Val a
  | .char c => .word (jsValueMakeSpecial jsTagStringChar c)
  | .ref id => .str id

/-- The string a value is, if it is one. -/
def Val.str? : Val a → Option StrVal
  | .word w =>
    if jsValueGetSpecialTag w = jsTagStringChar then some (.char (jsValueGetSpecialValue w).toNat)
    else none
  | .str id => some (.ref id)
  | .float64 _ => none
  | .obj _ => none

def jsIsString (v : Val a) : Bool := v.str?.isSome

def jsIsObject : Val a → Bool
  | .obj _ => true
  | _ => false

/-- The strings that are always there. -/
inductive Atom
  | empty
  | null
  | undefined
  | true
  | false
  | toString
  | valueOf
  deriving DecidableEq

/-- `js_get_atom`. -/
def jsGetAtom : Atom → StrVal
  | .empty => jsAtomEmpty
  | .null => .ref 1
  | .undefined => .ref 2
  | .true => .ref 3
  | .false => .ref 4
  | .toString => .ref 5
  | .valueOf => .ref 6

/-- No string goes away. -/
def Grows (h h' : StrHeap) : Prop := ∀ id, (h.strings id).isSome → (h'.strings id).isSome

def Val.Live (h : StrHeap) : Val a → Prop
  | .str id => (h.strings id).isSome
  | _ => True

/-! ### The engine -/

/-- What the methods do not do themselves. Everything but the strings is in `U`; a function gives
nothing when it does not come back and no value when it throws. -/
structure Engine (a : Arch) (U : Type) where
  mem : U → ℕ → Bool
  dtoa : Double → List ℕ
  /-- Whether the two arrays of `js_dtoa2` can be allocated. -/
  dtoaMem : U → Double → Bool
  isFunction : U → Val a → Bool
  stackCheck : U → Bool
  getProperty : Val a → Atom → StrHeap → U → Option (Option (Val a) × StrHeap × U)
  call : Val a → Val a → StrHeap → U → Option (Option (Val a) × StrHeap × U)
  getProperty_live : ∀ {v k h u r h' u'}, getProperty v k h u = some (r, h', u') →
    Grows h h' ∧ ∀ x ∈ r, Val.Live h' x
  call_live : ∀ {f v h u r h' u'}, call f v h u = some (r, h', u') →
    Grows h h' ∧ ∀ x ∈ r, Val.Live h' x

structure Ctx (U : Type) where
  heap : StrHeap
  user : U
  /-- Whether `current_exception` is set. -/
  hasException : Bool

def Ctx.throw (c : Ctx U) : Ctx U := { c with hasException := true }

abbrev M (U α : Type) := Ctx U → Option (α × Ctx U)

/-- The end of a function that throws. -/
def throwing : M U (Option α) := fun c => some (none, c.throw)

def ok (x : α) : M U (Option α) := fun c => some (some x, c)

/-- A call into the engine. -/
def enter (f : StrHeap → U → Option (Option α × StrHeap × U)) : M U (Option α) := fun c =>
  (f c.heap c.user).map fun r => (r.1, ⟨r.2.1, r.2.2, c.hasException || r.1.isNone⟩)

/-- A function that gives a string, or nothing when memory runs out. -/
def allocating (f : StrHeap → Option (StrVal × StrHeap)) : M U (Option StrVal) := fun c =>
  match f c.heap with
  | none => throwing c
  | some (v, h) => some (some v, { c with heap := h })

/-- `if (m) return w;`, with `k` for what comes after. -/
def orReturn {β : Type} (m : M U (Option α)) (w : β) (k : α → M U β) : M U β := fun c =>
  (m c).bind fun r =>
    match r.1 with
    | none => some (w, r.2)
    | some x => k x r.2

/-! ### Conversions -/

section Conversions

variable (eng : Engine a U)

/-- The loop of `JS_ToPrimitive`. -/
def toPrimitiveLoop (val : Val a) (hint : ℕ) : List ℕ → M U (Option (Val a))
  | [] => throwing
  | i :: is =>
    orReturn (enter (eng.getProperty val (if i ^^^ hint = 0 then .toString else .valueOf))) none
      fun method c =>
        if eng.isFunction c.user method then
          if eng.stackCheck c.user then
            orReturn (enter (eng.call method val)) none
              (fun ret => if jsIsObject ret then toPrimitiveLoop val hint is else ok ret) c
          else throwing c
        else toPrimitiveLoop val hint is c

def jsIsPrimitive : Val a → Bool
  | .word w => jsValueGetSpecialTag w ≠ jsTagShortFunc
  | .obj _ => false
  | _ => true

def jsToPrimitive (val : Val a) (hint : ℕ) : M U (Option (Val a)) :=
  if jsIsPrimitive val then ok val else toPrimitiveLoop eng val hint [0, 1]

def hintString : ℕ := 0

def hintNumber : ℕ := 1

/-- `JS_NewStringLen` of ASCII characters. -/
def jsNewString (buf : List ℕ) : M U (Option StrVal) := fun c =>
  if buf = [] then some (some jsAtomEmpty, c)
  else if utf8CharLen (byteAt buf 0) = buf.length then some (some (.char (utf8Get buf)), c)
  else
    let p := ⟨false, isAsciiString buf, false, buf⟩
    allocating (fun h => jsAllocString a (eng.mem c.user) h p) c

def jsDtoa2 (d : Double) : M U (Option StrVal) := fun c =>
  if eng.dtoaMem c.user d then
    allocating (fun h => some (jsByteArrayToString h (eng.dtoa d) (eng.dtoa d).length true)) c
  else throwing c

def jsToString : ℕ → Val a → M U (Option StrVal)
  | 0, _ => fun _ => none
  | _ + 1, .float64 d => jsDtoa2 eng d
  | _ + 1, .str id => ok (.ref id)
  | fuel + 1, .obj o =>
    orReturn (jsToPrimitive eng (.obj o) hintString) none fun val => jsToString fuel val
  | fuel + 1, .word w =>
    if jsIsInt w then jsNewString eng (PropertyKey.i32toa (jsValueGetInt w))
    else if jsIsShortFloat w then jsDtoa2 eng (jsGetShortFloat w)
    else if jsValueGetSpecialTag w = jsTagNull then ok (jsGetAtom .null)
    else if jsValueGetSpecialTag w = jsTagUndefined then ok (jsGetAtom .undefined)
    else if jsValueGetSpecialTag w = jsTagBool then
      ok (jsGetAtom (if jsValueGetSpecialValue w ≠ 0 then .true else .false))
    else if jsValueGetSpecialTag w = jsTagStringChar then
      ok (.char (jsValueGetSpecialValue w).toNat)
    else if jsValueGetSpecialTag w = jsTagShortFunc then
      orReturn (jsToPrimitive eng (.word w) hintString) none fun val => jsToString fuel val
    else jsNewString eng [0x3f]

def jsToStringCheckObject (fuel : ℕ) (val : Val a) : M U (Option StrVal) :=
  if val = .word jsNull ∨ val = .word jsUndefined then throwing else jsToString eng fuel val

/-- `JS_ATOD_ACCEPT_BIN_OCT | JS_ATOD_TOSTRING`. -/
def toNumberFlags : ℕ := 2 + 256

/-- `js_atod1` of a string; the working space is an array of fixed size. -/
def atod (v : StrVal) : M U (Option Double) := fun c =>
  match jsAtod1 (eng.mem c.user (a.jsw + 8 * 27)) c.heap v 0 toNumberFlags with
  | none => throwing c
  | some d => some (some d, c)

def jsToNumber : ℕ → Val a → M U (Option Double)
  | 0, _ => fun _ => none
  | _ + 1, .float64 d => ok d
  | _ + 1, .str id => atod eng (.ref id)
  | fuel + 1, .obj o =>
    orReturn (jsToPrimitive eng (.obj o) hintNumber) none fun val => jsToNumber fuel val
  | _ + 1, .word w =>
    if jsIsInt w then ok (Double.ofInt (jsValueGetInt w))
    else if jsIsShortFloat w then ok (jsGetShortFloat w)
    else if jsValueGetSpecialTag w = jsTagNull ∨ jsValueGetSpecialTag w = jsTagBool then
      ok (Double.ofInt (jsValueGetSpecialValue w))
    else if jsValueGetSpecialTag w = jsTagStringChar then
      atod eng (.char (jsValueGetSpecialValue w).toNat)
    else ok Double.qnan

/-- The label `handle_number` of `JS_ToInt32Internal`. -/
def handleNumber (fuel : ℕ) (satFlag : Bool) (val : Val a) : M U (Option ℤ) :=
  orReturn (jsToNumber eng fuel val) none fun d => ok (handleFloat64 satFlag d).toInt

def jsToInt32Internal (fuel : ℕ) (satFlag : Bool) : Val a → M U (Option ℤ)
  | .word w =>
    if jsIsInt w then ok (jsValueGetInt w)
    else if jsIsShortFloat w then ok (handleFloat64 satFlag (jsGetShortFloat w)).toInt
    else if jsValueGetSpecialTag w = jsTagBool ∨ jsValueGetSpecialTag w = jsTagNull
        ∨ jsValueGetSpecialTag w = jsTagUndefined then
      ok (jsValueGetSpecialValue w)
    else handleNumber eng fuel satFlag (.word w)
  | val => handleNumber eng fuel satFlag val

def jsToInt32 (fuel : ℕ) (val : Val a) : M U (Option ℤ) := jsToInt32Internal eng fuel false val

def jsToInt32Sat (fuel : ℕ) (val : Val a) : M U (Option ℤ) := jsToInt32Internal eng fuel true val

def jsToInt32Clamp (fuel : ℕ) (val : Val a) (min max minOffset : ℤ) : M U (Option ℤ) :=
  orReturn (jsToInt32Sat eng fuel val) none fun n =>
    if n < min then ok (if n + minOffset < min then min else n + minOffset)
    else ok (if max < n then max else n)

end Conversions

/-! ### Strings of the methods -/

section Strings

variable (eng : Engine a U)

/-- `js_string_len`. -/
def stringLen {β : Type} (v : StrVal) (k : ℕ → M U β) : M U β := fun c =>
  k (jsStringLen c.heap v).1 { c with heap := (jsStringLen c.heap v).2 }

/-- The value of a string that was made, or the exception. -/
def returnStr (m : M U (Option StrVal)) : M U (Val a) :=
  orReturn m jsException fun v c => some (.ofStr v, c)

def returns (v : Val a) : M U (Val a) := fun c => some (v, c)

def throws : M U (Val a) := fun c => some (jsException, c.throw)

/-- `js_sub_string`. -/
def subString (v : StrVal) (start end' : ℤ) : M U (Val a) := fun c =>
  returnStr (allocating fun h => jsSubString a (eng.mem c.user) h v start.toNat end'.toNat) c

/-- `JS_NewFloat64`. -/
def newFloat64 (d : Double) : M U (Val a) := fun c =>
  match jsNewFloat64 (a := a) d with
  | .word w => some (.word w, c)
  | .minusZero => some (.float64 Double.minusZero, c)
  | .float64 d => if eng.mem c.user (a.jsw + 8) then some (.float64 d, c) else throws c

/-- `string_buffer_concat_str`; the answer is whether it failed. -/
def bufferConcatStr (s : StringBuffer) (v : StrVal) : M U (Bool × StringBuffer) := fun c =>
  let s' := stringBufferConcatStr a (eng.mem c.user) c.heap s v
  if s'.val = .exception then some ((true, s'), c.throw) else some ((false, s'), c)

/-- `string_buffer_concat`. -/
def bufferConcat (fuel : ℕ) (s : StringBuffer) (val : Val a) : M U (Bool × StringBuffer) :=
  orReturn (jsToString eng fuel val) (true, s.failed) fun v => bufferConcatStr eng s v

/-- `string_buffer_pop`. -/
def bufferPop (s : StringBuffer) : M U (Val a) := fun c =>
  match stringBufferPop c.heap s with
  | none => some (jsException, c)
  | some (v, h) => some (.ofStr v, { c with heap := h })

/-- `string_buffer_push` of no bytes. -/
def emptyBuffer : StringBuffer := ⟨.str jsAtomEmpty, 0, true⟩

end Strings

/-! ### Methods -/

section Methods

variable (eng : Engine a U) (fuel : ℕ) (this : Val a) (argv : List (Val a))

/-- `argv[i]`; the missing arguments are undefined. -/
def arg (i : ℕ) : Val a := argv.getD i (.word jsUndefined)

def jsStringSlice : M U (Val a) :=
  orReturn (jsToStringCheckObject eng fuel this) jsException fun this =>
    stringLen this fun len =>
      orReturn (jsToInt32Clamp eng fuel (arg argv 0) 0 len len) jsException fun start =>
        if arg argv 1 = .word jsUndefined then subString eng this start (max len start)
        else
          orReturn (jsToInt32Clamp eng fuel (arg argv 1) 0 len len) jsException fun end' =>
            subString eng this start (max end' start)

def jsStringSubstring : M U (Val a) :=
  orReturn (jsToStringCheckObject eng fuel this) jsException fun this =>
    stringLen this fun len =>
      orReturn (jsToInt32Clamp eng fuel (arg argv 0) 0 len 0) jsException fun a =>
        if arg argv 1 = .word jsUndefined then
          if a < len then subString eng this a len else subString eng this len a
        else
          orReturn (jsToInt32Clamp eng fuel (arg argv 1) 0 len 0) jsException fun b =>
            if a < b then subString eng this a b else subString eng this b a

inductive CharMagic
  | charAt
  | charCodeAt
  | codePointAt
  deriving DecidableEq

/-- The label `ret_undef` of `js_string_charAt`. -/
def retUndef (magic : CharMagic) : M U (Val a) :=
  match magic with
  | .charCodeAt => newFloat64 eng Double.qnan
  | .charAt => returns (.ofStr (jsGetAtom .empty))
  | .codePointAt => returns (.word jsUndefined)

def jsStringCharAt (magic : CharMagic) : M U (Val a) :=
  orReturn (jsToStringCheckObject eng fuel this) jsException fun this =>
    orReturn (jsToInt32Sat eng fuel (arg argv 0)) jsException fun idx c =>
      if idx < 0 then retUndef eng magic c
      else
        let (char, h) := stringGetcp c.heap this idx.toNat (magic = .codePointAt)
        match char with
        | none => retUndef eng magic { c with heap := h }
        | some char =>
          match magic with
          | .charAt => returns (.ofStr (.char char)) { c with heap := h }
          | _ => returns (.word (jsNewShortInt char)) { c with heap := h }

/-- The loop of `js_string_fromCharCode`. -/
def fromCharCodeLoop (isFromCodePoint : Bool) (s : StringBuffer) : List (Val a) → M U (Val a)
  | [] => bufferPop s
  | v :: vs =>
    orReturn (jsToInt32 eng fuel v) jsException fun n c =>
      if isFromCodePoint ∧ (n < 0 ∨ 0x10ffff < n) then throws c
      else
        let char := if isFromCodePoint then n else n % 2 ^ 16
        (bufferConcatStr eng s (.char char.toNat) c).bind fun r =>
          if r.1.1 then bufferPop r.1.2 r.2 else fromCharCodeLoop isFromCodePoint r.1.2 vs r.2

def jsStringFromCharCode (isFromCodePoint : Bool) : M U (Val a) :=
  fromCharCodeLoop eng fuel isFromCodePoint emptyBuffer argv

/-- The loop of `js_string_concat`. -/
def concatLoop (s : StringBuffer) : List (Val a) → M U (Val a)
  | [] => bufferPop s
  | v :: vs => fun c =>
    (bufferConcat eng fuel s v c).bind fun r =>
      if r.1.1 then bufferPop r.1.2 r.2 else concatLoop r.1.2 vs r.2

def jsStringConcat : M U (Val a) :=
  orReturn (jsToStringCheckObject eng fuel this) jsException fun r =>
    concatLoop eng fuel emptyBuffer (.ofStr r :: argv)

/-- Whether `needle` is at `i`, from its unit `j` on, of which `n` are left. -/
def matchesAt (str needle : StrVal) (i : ℕ) : ℕ → ℕ → StrHeap → Bool × StrHeap
  | 0, _, h => (true, h)
  | n + 1, j, h =>
    let (c, h) := stringGetcp h str (i + j) false
    let (d, h) := stringGetcp h needle j false
    if c ≠ d then (false, h) else matchesAt str needle i n (j + 1) h

/-- The loop of `js_string_indexOf`, which takes `n` steps at most. -/
def indexLoop (str needle : StrVal) (vLen : ℕ) (stop inc : ℤ) : ℕ → ℤ → StrHeap → ℤ × StrHeap
  | 0, _, h => (-1, h)
  | n + 1, i, h =>
    let (found, h) := matchesAt str needle i.toNat vLen 0 h
    if found then (i, h)
    else if i = stop then (-1, h)
    else indexLoop str needle vLen stop inc n (i + inc) h

/-- The end of `js_string_indexOf`. -/
def indexFrom (str needle : StrVal) (len vLen : ℕ) (start stop inc : ℤ) : M U (Val a) := fun c =>
  if vLen ≤ len ∧ 0 ≤ inc * (stop - start) then
    let (ret, h) :=
      indexLoop str needle vLen stop inc ((inc * (stop - start)).toNat + 1) start c.heap
    some (.word (jsNewShortInt ret), { c with heap := h })
  else some (.word (jsNewShortInt (-1)), c)

def jsStringIndexOf (lastIndexOf : Bool) : M U (Val a) :=
  orReturn (jsToStringCheckObject eng fuel this) jsException fun this =>
    orReturn (jsToString eng fuel (arg argv 0)) jsException fun needle =>
      stringLen this fun len =>
        stringLen needle fun vLen =>
          if lastIndexOf then
            let pos : ℤ := (len : ℤ) - vLen
            if 1 < argv.length then
              orReturn (jsToNumber eng fuel (arg argv 1)) jsException fun d =>
                let pos :=
                  if d.le 0 then 0 else if d.lt (Double.ofInt pos) then d.trunc else pos
                indexFrom this needle len vLen pos 0 (-1)
            else indexFrom this needle len vLen pos 0 (-1)
          else if 1 < argv.length then
            orReturn (jsToInt32Clamp eng fuel (arg argv 1) 0 len 0) jsException fun pos =>
              indexFrom this needle len vLen pos ((len : ℤ) - vLen) 1
          else indexFrom this needle len vLen 0 ((len : ℤ) - vLen) 1

def unicodeIsSpaceAscii (c : ℕ) : Bool := (0x0009 ≤ c && c ≤ 0x000D) || c == 0x0020

def unicodeIsSpaceNonAscii (c : ℕ) : Bool :=
  c == 0x00A0 || c == 0x1680 || (0x2000 ≤ c && c ≤ 0x200A) || (0x2028 ≤ c && c ≤ 0x2029) ||
    c == 0x202F || c == 0x205F || c == 0x3000 || c == 0xFEFF

def unicodeIsSpace (c : ℕ) : Bool :=
  if c < 128 then unicodeIsSpaceAscii c else unicodeIsSpaceNonAscii c

/-- The first loop of `js_string_trim`, with `n` units left. -/
def trimStartLoop (str : StrVal) : ℕ → ℕ → StrHeap → ℕ × StrHeap
  | 0, a, h => (a, h)
  | n + 1, a, h =>
    let (c, h) := stringGetcp h str a false
    if c.any unicodeIsSpace then trimStartLoop str n (a + 1) h else (a, h)

/-- The second one, with `n` units above the start. -/
def trimEndLoop (str : StrVal) (a : ℕ) : ℕ → StrHeap → ℕ × StrHeap
  | 0, h => (a, h)
  | n + 1, h =>
    let (c, h) := stringGetcp h str (a + n) false
    if c.any unicodeIsSpace then trimEndLoop str a n h else (a + n + 1, h)

/-- `js_string_trim`: `magic` has a bit for each end. -/
def jsStringTrim (magic : ℕ) : M U (Val a) :=
  orReturn (jsToStringCheckObject eng fuel this) jsException fun this =>
    stringLen this fun len c =>
      let (a, h) := if magic.testBit 0 then trimStartLoop this len 0 c.heap else (0, c.heap)
      let (b, h) := if magic.testBit 1 then trimEndLoop this a (len - a) h else (len, h)
      subString eng this a b { c with heap := h }

/-- The loop of `js_string_repeat`, which does not look whether a step failed. -/
def repeatLoop (v : StrVal) : ℕ → StringBuffer → M U (Val a)
  | 0, s => bufferPop s
  | n + 1, s => fun c =>
    (bufferConcatStr eng s v c).bind fun r => repeatLoop v n r.1.2 r.2

def jsStringRepeat : M U (Val a) :=
  match this.str? with
  | none => throws
  | some v =>
    orReturn (jsToInt32Sat eng fuel (arg argv 0)) (.word (BitVec.ofInt _ (-1))) fun n c =>
      let len := (getStringPtr c.heap v).buf.length
      if n < 0 ∨ (jsStringLenMax a : ℤ) < n * len then throws c
      else if len = 0 ∨ n = 1 then some (this, c)
      else
        match stringBufferPush a (eng.mem c.user) (n.toNat * len) with
        | none => throws c
        | some s => repeatLoop eng v n.toNat s c

end Methods

inductive Method
  | charAt
  | charCodeAt
  | codePointAt
  | slice
  | substring
  | concat
  | indexOf
  | lastIndexOf
  | trim
  | trimEnd
  | trimStart
  | repeat
  | fromCharCode
  | fromCodePoint
  deriving DecidableEq

variable (eng : Engine a U) (fuel : ℕ) in
def Method.call (m : Method) (this : Val a) (argv : List (Val a)) : M U (Val a) :=
  match m with
  | .charAt => jsStringCharAt eng fuel this argv .charAt
  | .charCodeAt => jsStringCharAt eng fuel this argv .charCodeAt
  | .codePointAt => jsStringCharAt eng fuel this argv .codePointAt
  | .slice => jsStringSlice eng fuel this argv
  | .substring => jsStringSubstring eng fuel this argv
  | .concat => jsStringConcat eng fuel this argv
  | .indexOf => jsStringIndexOf eng fuel this argv false
  | .lastIndexOf => jsStringIndexOf eng fuel this argv true
  | .trim => jsStringTrim eng fuel this 3
  | .trimEnd => jsStringTrim eng fuel this 2
  | .trimStart => jsStringTrim eng fuel this 1
  | .repeat => jsStringRepeat eng fuel this argv
  | .fromCharCode => jsStringFromCharCode eng fuel argv false
  | .fromCodePoint => jsStringFromCharCode eng fuel argv true

end StringMethods

end Qjs
