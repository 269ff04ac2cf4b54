import Qjs.Props

/-!
# Reading `length`

The bytecode reads the property `length` with an instruction of its own, which looks at arrays and
strings itself and leaves everything else to `JS_GetPropertyInternal`. That function walks the
chain of prototypes; a getter that it meets is not run but handed back as a tail call. In the
library the getters of `length` of arrays and of strings are C functions.
-/

namespace Qjs.GetLength

variable {a : Arch}

/-! The classes whose objects or prototypes are singled out. -/

def jsClassArray : ℕ := 1

def jsClassClosure : ℕ := 3

def jsClassNumber : ℕ := 4

def jsClassBoolean : ℕ := 5

def jsClassString : ℕ := 6

/-- `JSObject`, with `u.array.len`. -/
structure JSObject (a : Arch) where
  classId : ℕ
  proto : JSValue a
  props : Props
  arrayLen : ℕ

/-- What a pointer points to. A string is named by its place in the string heap. -/
inductive Cell (a : Arch)
  | object (p : JSObject a)
  | float64
  | string (s : StrVal)
  | valueArray (arr : ℕ → JSValue a)
  | varRef (value : JSValue a)
  | other

/-- The entries of the table of C functions that are getters of `length`. -/
inductive CFunction
  | jsArrayGetLength
  | jsStringGetLength
  | other
  deriving DecidableEq

def noObject : JSObject a := ⟨0, jsNull, .empty, 0⟩

def Cell.toObject : Cell a → JSObject a
  | .object p => p
  | _ => noObject

/-- The memory and what the context holds. Prototype chains end: `js_set_prototype_internal`
refuses to close one, so each object stands above its prototype. -/
structure Heap (a : Arch) where
  cell : JSValue a → Cell a
  strs : StrHeap
  classProto : ℕ → JSValue a
  classObj : ℕ → JSValue a
  cFunctionTable : ℕ → CFunction
  lengthAtom : JSValue a
  classProto_ptr : ∀ c, jsIsPtr (classProto c)
  rank : JSValue a → ℕ
  rank_proto : ∀ v, (cell v).toObject.proto ≠ jsNull → rank (cell v).toObject.proto < rank v

/-- What an instruction or a read ends with. -/
inductive Outcome (a : Arch)
  | value (v : JSValue a)
  | exception (message : String)
  | tailCall (this func : JSValue a)
  deriving DecidableEq

/-! ### The generic read -/

/-- `get_special_prop` -/
def getSpecialProp (h : Heap a) (v : JSValue a) : JSValue a :=
  let idx := jsValueGetInt v
  if idx ≥ 0 then h.classProto idx.toNat else h.classObj (-idx - 1).toNat

/-- What a property of an object says: a value, or who computes it. -/
inductive Property (a : Arch)
  | value (v : JSValue a)
  | getter (func : JSValue a)
  deriving DecidableEq

def Cell.arr : Cell a → ℕ → JSValue a
  | .valueArray arr => arr
  | _ => fun _ => jsUndefined

def Cell.varValue : Cell a → JSValue a
  | .varRef v => v
  | _ => jsUndefined

/-- The property of the name `length` of the object at `p`, read as its kind says. -/
def ownLength (h : Heap a) (p : JSValue a) : Option (Property a) :=
  let t := (h.cell p).toObject.props.table
  (findOwnProperty a t h.lengthAtom.toNat).map fun pos =>
    let v : JSValue a := BitVec.ofNat _ (t.arr (pos + 1))
    match propType (t.arr (pos + 2)) with
    | .normal => .value v
    | .varref => .value (h.cell v).varValue
    | .special => .value (getSpecialProp h v)
    | .getset => .getter ((h.cell v).arr 0)

/-- The loop of `JS_GetPropertyInternal` over the prototypes of `obj`, from `p` on. The name is
neither an integer nor numeric, so that arrays and typed arrays look for it as others do. -/
def readChain (h : Heap a) (obj p : JSValue a) : Outcome a :=
  match ownLength h p with
  | some (.value v) => .value v
  | some (.getter g) => if g = jsUndefined then .value jsUndefined else .tailCall obj g
  | none =>
    if _hp : (h.cell p).toObject.proto = jsNull then .value jsUndefined
    else readChain h obj (h.cell p).toObject.proto
  termination_by h.rank p
  decreasing_by exact h.rank_proto p _hp

def cannotRead (what : String) : String := "cannot read property 'length' of " ++ what

/-- `JS_GetPropertyInternal` of the atom `length`, tail calls being allowed. -/
def jsGetPropertyInternal (h : Heap a) (obj : JSValue a) : Outcome a :=
  if ¬jsIsPtr obj then
    if jsIsInt obj ∨ jsIsShortFloat obj then readChain h obj (h.classProto jsClassNumber)
    else if jsValueGetSpecialTag obj = jsTagBool then
      readChain h obj (h.classProto jsClassBoolean)
    else if jsValueGetSpecialTag obj = jsTagShortFunc then
      readChain h obj (h.classProto jsClassClosure)
    else if jsValueGetSpecialTag obj = jsTagStringChar then
      readChain h obj (h.classProto jsClassString)
    else if jsValueGetSpecialTag obj = jsTagNull then .exception (cannotRead "null")
    else if jsValueGetSpecialTag obj = jsTagUndefined then .exception (cannotRead "undefined")
    else .exception (cannotRead "value")
  else
    match h.cell obj with
    | .object _ => readChain h obj obj
    | .float64 => readChain h obj (h.classProto jsClassNumber)
    | .string _ => readChain h obj (h.classProto jsClassString)
    | _ => .exception (cannotRead "value")

/-! ### The instruction -/

/-- The length that a one-character string has as a word. -/
def charLength (v : JSValue a) : ℤ := if jsValueGetSpecialValue v ≥ 0x10000 then 2 else 1

def Props.isEmptyProps : Props → Bool
  | .empty => true
  | _ => false

/-- The instructions `OP_get_length` and `OP_get_length2` from `get_length_common` on: what they put
on the stack when `obj` is there and the local variable `val` still holds what an earlier
instruction left in it. The position cache that measuring a string fills is not kept. -/
def getLengthCommon (h : Heap a) (obj val : JSValue a) : Outcome a :=
  if jsIsPtr obj then
    match h.cell obj with
    | .object p =>
      if p.classId = jsClassArray then
        if p.proto ≠ h.classProto jsClassArray ∨ ¬Props.isEmptyProps p.props then
          jsGetPropertyInternal h obj
        else .value (jsNewShortInt p.arrayLen)
      else jsGetPropertyInternal h obj
    | .string s => .value (jsNewShortInt (jsStringLen h.strs s).1)
    | _ => jsGetPropertyInternal h obj
  else if jsValueGetSpecialTag val = jsTagStringChar then .value (jsNewShortInt (charLength val))
  else jsGetPropertyInternal h obj

/-! ### The getters of the library -/

/-- `js_array_get_length` -/
def jsArrayGetLength (h : Heap a) (this : JSValue a) : Outcome a :=
  if jsIsPtr this then
    match h.cell this with
    | .object p =>
      if p.classId = jsClassArray then .value (jsNewShortInt p.arrayLen)
      else .exception "not an array"
    | _ => .exception "not an array"
  else .exception "not an array"

/-- `js_string_get_length` -/
def jsStringGetLength (h : Heap a) (this : JSValue a) : Outcome a :=
  if jsIsPtr this then
    match h.cell this with
    | .string s => .value (jsNewShortInt (jsStringLen h.strs s).1)
    | _ => .exception "not a string"
  else if jsValueGetSpecialTag this = jsTagStringChar then
    .value (jsNewShortInt (charLength this))
  else .exception "not a string"

/-- The C function that a function value names, if it names one. -/
def cFunctionOf (h : Heap a) (func : JSValue a) : CFunction :=
  if ¬jsIsPtr func ∧ jsValueGetSpecialTag func = jsTagShortFunc then
    h.cFunctionTable (jsValueGetSpecialValue func).toNat
  else .other

/-- The tail calls of the two getters are carried out, those of other functions are left. -/
def Outcome.runGetter (h : Heap a) : Outcome a → Outcome a
  | .tailCall this func =>
    match cFunctionOf h func with
    | .jsArrayGetLength => jsArrayGetLength h this
    | .jsStringGetLength => jsStringGetLength h this
    | .other => .tailCall this func
  | o => o

/-! ### What a chain holds -/

/-- `prop` is the first property `length` on the chain that begins at `p`. -/
inductive FirstLength (h : Heap a) : JSValue a → Property a → Prop
  | own {p prop} : ownLength h p = some prop → FirstLength h p prop
  | proto {p prop} : ownLength h p = none → (h.cell p).toObject.proto ≠ jsNull →
      FirstLength h (h.cell p).toObject.proto prop → FirstLength h p prop

/-- `obj` is an array of `n` elements. -/
def IsArrayOf (h : Heap a) (obj : JSValue a) (n : ℤ) : Prop :=
  jsIsPtr obj ∧ ∃ p, h.cell obj = .object p ∧ p.classId = jsClassArray ∧ n = p.arrayLen

/-- `obj` is a string of `n` units. -/
def IsStringOf (h : Heap a) (obj : JSValue a) (n : ℤ) : Prop :=
  (jsIsPtr obj ∧ ∃ s, h.cell obj = .string s ∧ n = (jsStringLen h.strs s).1)
    ∨ (¬jsIsPtr obj ∧ jsValueGetSpecialTag obj = jsTagStringChar ∧ n = charLength obj)

/-- The chain that begins at `p` tells `obj` the length `n`: with a plain value, or with the getter
of the library for what `obj` is. -/
def ChainTells (h : Heap a) (obj p : JSValue a) (n : ℤ) : Prop :=
  FirstLength h p (.value (jsNewShortInt n)) ∨ ∃ g m, FirstLength h p (.getter g) ∧
    (jsNewShortInt m : JSValue a) = jsNewShortInt n ∧
    (cFunctionOf h g = .jsArrayGetLength ∧ IsArrayOf h obj m
      ∨ cFunctionOf h g = .jsStringGetLength ∧ IsStringOf h obj m)

/-- An array that the instruction measures itself. -/
def IsPlainArray (h : Heap a) (obj : JSValue a) (n : ℤ) : Prop :=
  jsIsPtr obj ∧ ∃ p, h.cell obj = .object p ∧ p.classId = jsClassArray ∧
    p.proto = h.classProto jsClassArray ∧ Props.isEmptyProps p.props ∧ n = p.arrayLen

/-- Where the properties of a value that is no pointer are looked up. -/
def IsPrimitiveProto (h : Heap a) (obj p : JSValue a) : Prop :=
  ((jsIsInt obj ∨ jsIsShortFloat obj) ∧ p = h.classProto jsClassNumber)
    ∨ (jsValueGetSpecialTag obj = jsTagBool ∧ p = h.classProto jsClassBoolean)
    ∨ (jsValueGetSpecialTag obj = jsTagShortFunc ∧ p = h.classProto jsClassClosure)
    ∨ (jsValueGetSpecialTag obj = jsTagStringChar ∧ p = h.classProto jsClassString)

/-- What is to hold for the instruction to read as the generic function does. A measured array or
string has the length that its prototypes tell. A value that is no pointer does not find a
one-character string in the local variable, or its prototypes tell it the length of that. -/
structure ReadsAlike (h : Heap a) (obj val : JSValue a) : Prop where
  array : ∀ n, IsPlainArray h obj n → ChainTells h obj (h.classProto jsClassArray) n
  string : ∀ n, jsIsPtr obj → IsStringOf h obj n → ChainTells h obj (h.classProto jsClassString) n
  temporary : ¬jsIsPtr obj → jsValueGetSpecialTag val = jsTagStringChar →
    ∃ p, IsPrimitiveProto h obj p ∧ ChainTells h obj p (charLength val)

end Qjs.GetLength
