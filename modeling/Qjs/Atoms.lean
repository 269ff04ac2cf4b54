import Qjs.Lib.Search
import Qjs.Str

/-!
# Unique strings

Property names are compared as words, so a string is replaced by its unique copy before it becomes
a name: one of a sorted ROM table, or one of the sorted array `unique_strings`, which the garbage
collector treats as weak. Collections may run inside every allocation; here each allocation is told
which ones ran and what they reached.

References stand for identities, as in `Qjs.Str`. `numeric` is the test of `js_is_numeric_string`
that reads the bytes with `js_atod` and writes the number again with `js_dtoa`.
-/

namespace Qjs

/-! ### Comparing strings -/

/-- The first index at which two strings differ, or the length of the shorter one. -/
def firstDiff : List ℕ → List ℕ → ℕ
  | b :: bs, c :: cs => if b = c then firstDiff bs cs + 1 else 0
  | _, _ => 0

/-- `string_get_cp`: the code point of the byte at `i`. -/
def stringGetCp (p : List ℕ) (i : ℕ) : ℕ := utf8Get (p.drop (charStart p i))

/-- `js_string_compare` on the bytes, with `.lt` for -1 and `.gt` for 1. -/
def jsStringCompare (p1 p2 : List ℕ) : Ordering :=
  let len := min p1.length p2.length
  let i := firstDiff p1 p2
  if i ≠ len then
    let c1 := stringGetCp p1 i
    let c2 := stringGetCp p2 i
    if (c1 < 0x10000 ∧ c2 < 0x10000) ∨ (c1 ≥ 0x10000 ∧ c2 ≥ 0x10000) then
      if c1 < c2 then .lt else .gt
    else if c1 < 0x10000 then
      if c1 ≤ 0xd800 + ((c2 - 0x10000) >>> 10) then .lt else .gt
    else if 0xd800 + ((c1 - 0x10000) >>> 10) < c2 then .lt else .gt
  else if p1.length = p2.length then .eq
  else if p1.length < p2.length then .lt
  else .gt

def stringBytes (h : StrHeap) (v : StrVal) : List ℕ := (getStringPtr h v).buf

/-! ### The context -/

structure AtomCtx where
  heap : StrHeap
  /-- `JS_IS_ROM_PTR`: the string is not in the heap. -/
  rom : ℕ → Bool
  /-- A table may be missing. -/
  romAtomTables : List (Option (List StrVal))
  /-- `none` is `JS_NULL`; the elements that are `none` are `JS_UNDEFINED`. -/
  uniqueStrings : Option (List (Option StrVal))
  uniqueStringsLen : ℕ

def AtomCtx.arr (c : AtomCtx) : List (Option StrVal) := c.uniqueStrings.getD []

/-! ### Collections -/

/-- `gc_mb_is_marked`. -/
def gcMbIsMarked (marked : ℕ → Bool) : Option StrVal → Bool
  | some (.ref id) => marked id
  | _ => false

/-- The strings in the heap that are reached, from the roots in `pins` or from others. -/
def gcMarked (c : AtomCtx) (reach : ℕ → Bool) (pins : List StrVal) (id : ℕ) : Bool :=
  !c.rom id && (reach id || pins.contains (.ref id))

/-- `JS_GC`, as far as strings go. -/
def jsGc (c : AtomCtx) (reach : ℕ → Bool) (pins : List StrVal) : AtomCtx :=
  let marked := gcMarked c reach pins
  let arr := c.arr.filter (gcMbIsMarked marked)
  { c with
    heap :=
      { c.heap with
        strings := fun id => if c.rom id || marked id then c.heap.strings id else none
        cache := fun k =>
          if gcMbIsMarked marked (c.heap.cache k).str then c.heap.cache k
          else { c.heap.cache k with str := none } }
    uniqueStrings := if c.uniqueStrings.isSome ∧ arr ≠ [] then some arr else none
    uniqueStringsLen := if c.uniqueStrings.isSome then arr.length else c.uniqueStringsLen }

/-- What happens inside an allocation: what each collection reaches from the roots that are not
told of here, and whether memory is found in the end. -/
structure AllocEvent where
  gcs : List (ℕ → Bool)
  ok : Bool

/-- The collections of an allocation, `pins` being on the list of references. -/
def runGcs (pins : AtomCtx → List StrVal) (gcs : List (ℕ → Bool)) (c : AtomCtx) : AtomCtx :=
  gcs.foldl (fun c reach => jsGc c reach (pins c)) c

/-! ### Interning -/

/-- A function that can throw or go outside of an array. -/
inductive Outcome (α : Type)
  | fault
  | exception (c : AtomCtx)
  | ok (a : α) (c : AtomCtx)

/-- `find_atom` in an array of strings: the index and whether it was found. -/
def findAtom (h : StrHeap) (arr : List (Option StrVal)) (len : ℕ) (buf : List ℕ) : ℕ × Bool :=
  Search.bsearch (fun m => jsStringCompare buf (stringBytes h (((arr[m]?).getD none).getD jsAtomEmpty)))
    len 0 len

/-- The search through the ROM tables. -/
def findRomAtom (h : StrHeap) (buf : List ℕ) : List (Option (List StrVal)) → Option StrVal
  | [] => none
  | none :: tables => findRomAtom h buf tables
  | some arr :: tables =>
    match findAtom h (arr.map some) arr.length buf with
    | (m, true) => arr[m]?
    | (_, false) => findRomAtom h buf tables

def isNum (c : ℕ) : Bool := 0x30 ≤ c && c ≤ 0x39

/-- The strings `js_is_numeric_string` converts: ASCII, a digit first or after a minus sign. -/
def startsAsNumber (p : JSString) : Bool :=
  p.buf.length ≠ 0 && p.isAscii &&
    if byteAt p.buf 0 = 0x2d then p.buf.length ≠ 1 && isNum (byteAt p.buf 1)
    else isNum (byteAt p.buf 0)

variable (numeric : List ℕ → Bool)

def jsIsNumericString (c : AtomCtx) (v : StrVal) (e : AllocEvent) : Outcome Bool :=
  let p := getStringPtr c.heap v
  if startsAsNumber p then
    -- the temporary array
    let c := runGcs (fun _ => [v]) e.gcs c
    if e.ok then .ok (numeric p.buf) c else .exception c
  else .ok false c

def jsValueArraySizeMax : ℕ := 2 ^ 28 - 1

/-- The size `js_resize_value_array2` allocates for a larger array. -/
def resizedSize (oldSize newSize propBase : ℕ) : ℕ :=
  let newSize1 := oldSize + oldSize / 2
  let newSize :=
    if newSize1 > newSize then
      let align := (newSize1 - propBase) % 3
      if propBase ≠ 0 ∧ align ≠ 0 then newSize1 + (3 - align) else newSize1
    else newSize
  max newSize (oldSize + oldSize / 2)

/-- `js_resize_value_array` of `unique_strings`, which is a root while memory is allocated. -/
def resizeUniqueStrings (c : AtomCtx) (v : StrVal) (e : AllocEvent) : Outcome Unit :=
  let old := c.arr
  let newSize := c.uniqueStringsLen + 1
  if newSize > old.length then
    let newSize := resizedSize old.length newSize 0
    let c := runGcs (fun c => v :: c.arr.filterMap id) e.gcs c
    if newSize ≤ jsValueArraySizeMax ∧ e.ok then
      -- `old_size` values are copied even if the array is smaller now
      if c.arr.length < old.length then .fault
      else .ok () { c with uniqueStrings := some (c.arr ++ List.replicate (newSize - old.length) none) }
    else .exception c
  else .ok () c

/-- The values from `i` up to `len` move one place up and `v` is stored at `i`. -/
def insertValue (arr : List (Option StrVal)) (len i : ℕ) (v : StrVal) : List (Option StrVal) :=
  arr.take i ++ some v :: (arr.drop i).take (len - i) ++ arr.drop (len + 1)

/-- `JS_MakeUniqueString` of a string; `e1` and `e2` are its two allocations. -/
def jsMakeUniqueString (c : AtomCtx) (v : StrVal) (e1 e2 : AllocEvent) : Outcome StrVal :=
  match v with
  | .char _ => .ok v c
  | .ref id =>
    let p := getStringPtr c.heap v
    if p.isUnique then .ok v c
    else
      match findRomAtom c.heap p.buf c.romAtomTables with
      | some v1 => .ok v1 c
      | none =>
        match findAtom c.heap c.arr c.uniqueStringsLen p.buf with
        | (m, true) => .ok (((c.arr[m]?).getD none).getD jsAtomEmpty) c
        | (a, false) =>
          match jsIsNumericString numeric c v e1 with
          | .fault => .fault
          | .exception c => .exception c
          | .ok isNumeric c =>
            match resizeUniqueStrings c v e2 with
            | .fault => .fault
            | .exception c => .exception c
            | .ok _ c =>
              -- `memmove` of `unique_strings_len - a` values
              if c.uniqueStringsLen < a then .fault
              else
                .ok v
                  { c with
                    heap :=
                      { c.heap with
                        strings := Function.update c.heap.strings id
                          (some { getStringPtr c.heap v with isUnique := true, isNumeric }) }
                    uniqueStrings := some (insertValue c.arr c.uniqueStringsLen a v)
                    uniqueStringsLen := c.uniqueStringsLen + 1 }

/-! ### Runs -/

inductive AtomEvent
  /-- A new string, by any function that makes one. -/
  | newString (isAscii : Bool) (buf : List ℕ)
  | gc (reach : ℕ → Bool)
  | makeUnique (v : StrVal) (e1 e2 : AllocEvent)

/-- `none` when the code goes outside of an array. -/
def atomStep (c : AtomCtx) : AtomEvent → Option AtomCtx
  | .newString isAscii buf =>
    some { c with
      heap :=
        { c.heap with
          strings := Function.update c.heap.strings c.heap.next (some ⟨false, isAscii, false, buf⟩)
          next := c.heap.next + 1 } }
  | .gc reach => some (jsGc c reach [])
  | .makeUnique v e1 e2 =>
    match jsMakeUniqueString numeric c v e1 e2 with
    | .fault => none
    | .exception c => some c
    | .ok _ c => some c

def atomRun (c : AtomCtx) : List AtomEvent → Option AtomCtx
  | [] => some c
  | e :: es => (atomStep numeric c e).bind fun c => atomRun c es

end Qjs
