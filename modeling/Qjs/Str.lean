import Qjs.Lib.Wtf8
import Qjs.Value

/-!
# Strings

A string value is an immediate code point or a reference to a heap string: bytes in generalised
UTF-8 and a flag for those that are all ASCII. Positions given in UTF-16 units are turned into
byte positions by scanning, from the nearest position the two-entry cache remembers. String
buffers build a string from pieces and join the surrogates that meet at a seam.

References stand for identities, so moving a string changes nothing here. `mem` says whether the
allocator can serve a block of the given number of bytes; an exception is `none`.
-/

namespace Qjs

/-! ### Bytes -/

/-- `p[i]`; the byte after a string is zero. -/
def byteAt (p : List ℕ) (i : ℕ) : ℕ := p.getD i 0

def utf8CharLen (c : ℕ) : ℕ :=
  if c < 0x80 then 1
  else if c < 0xc0 then 1
  else if c < 0xe0 then 2
  else if c < 0xf0 then 3
  else if c < 0xf8 then 4
  else 1

/-- `unicode_to_utf8`: the bytes written. -/
def unicodeToUtf8 (c : ℕ) : List ℕ :=
  if c < 0x80 then [c]
  else if c < 0x800 then [(c >>> 6) ||| 0xc0, (c &&& 0x3f) ||| 0x80]
  else if c < 0x10000 then
    [(c >>> 12) ||| 0xe0, ((c >>> 6) &&& 0x3f) ||| 0x80, (c &&& 0x3f) ||| 0x80]
  else if c < 0x200000 then
    [(c >>> 18) ||| 0xf0, ((c >>> 12) &&& 0x3f) ||| 0x80, ((c >>> 6) &&& 0x3f) ||| 0x80,
      (c &&& 0x3f) ||| 0x80]
  else []

/-- `utf8_get`: the code point that starts at `p`; no check is made. -/
def utf8Get (p : List ℕ) : ℕ :=
  let c := byteAt p 0
  if c < 0xc0 then c
  else if c < 0xe0 then ((c &&& 0x1f) <<< 6) ||| (byteAt p 1 &&& 0x3f)
  else if c < 0xf0 then
    ((c &&& 0x0f) <<< 12) ||| ((byteAt p 1 &&& 0x3f) <<< 6) ||| (byteAt p 2 &&& 0x3f)
  else if c < 0xf8 then
    ((c &&& 0x07) <<< 18) ||| ((byteAt p 1 &&& 0x3f) <<< 12) ||| ((byteAt p 2 &&& 0x3f) <<< 6)
      ||| (byteAt p 3 &&& 0x3f)
  else c

def isAsciiString (buf : List ℕ) : Bool := buf.all (· ≤ 0x7f)

def isValidLen4Utf8 (p : List ℕ) : Bool :=
  0x10 ≤ (((byteAt p 0 &&& 0xf) <<< 6) ||| (byteAt p 1 &&& 0x3f))

def isUtf8LeftSurrogate (p : List ℕ) : Bool :=
  byteAt p 0 == 0xed && (0xa0 ≤ byteAt p 1 && byteAt p 1 ≤ 0xaf)

def isUtf8RightSurrogate (p : List ℕ) : Bool :=
  byteAt p 0 == 0xed && (0xb0 ≤ byteAt p 1 && byteAt p 1 ≤ 0xbf)

/-! ### String values -/

/-- `JSString` without its terminating zero. -/
structure JSString where
  isUnique : Bool
  isAscii : Bool
  isNumeric : Bool
  buf : List ℕ
  deriving DecidableEq, Repr

inductive StrVal
  /-- `JS_TAG_STRING_CHAR`. -/
  | char (c : ℕ)
  | ref (id : ℕ)
  deriving DecidableEq, Repr

/-- `JSStringPosCacheEntry`: `str` is `none` for `JS_NULL`. -/
structure PosCacheEntry where
  str : Option StrVal
  posUtf8 : ℕ
  posUtf16 : ℕ
  deriving DecidableEq, Repr

structure StrHeap where
  strings : ℕ → Option JSString
  /-- No string has this reference or a larger one. -/
  next : ℕ
  cache : ℕ → PosCacheEntry
  cacheCounter : ℕ

/-- `JS_ATOM_empty`. -/
def jsAtomEmpty : StrVal := .ref 0

def emptyString : JSString := ⟨true, true, false, []⟩

def getStringPtr (h : StrHeap) : StrVal → JSString
  | .char c => ⟨false, c ≤ 0x7f, false, unicodeToUtf8 c⟩
  | .ref id => (h.strings id).getD emptyString

def jsStringLenMax : Arch → ℕ
  | .jsw4 => 2 ^ 25 - 1
  | .jsw8 => 0x7ffffffe

def jsByteArraySizeMax : ℕ := 2 ^ 28 - 1

def jsStringPosCacheSize : ℕ := 2

def jsStringPosCacheMinLen : ℕ := 16

variable (a : Arch) (mem : ℕ → Bool)

/-- `js_alloc_string` and the stores that fill the string. -/
def jsAllocString (h : StrHeap) (p : JSString) : Option (StrVal × StrHeap) :=
  if p.buf.length > jsStringLenMax a then none
  else if mem (a.jsw + p.buf.length + 1) then
    some (.ref h.next,
      { h with strings := Function.update h.strings h.next (some p), next := h.next + 1 })
  else none

/-! ### Positions -/

inductive PosType
  | utf8
  | utf16
  deriving DecidableEq, Repr

def PosCacheEntry.pos (e : PosCacheEntry) : PosType → ℕ
  | .utf8 => e.posUtf8
  | .utf16 => e.posUtf16

/-- The forward scan: byte position, unit position, and whether it stopped inside a pair. -/
def posForward (buf : List ℕ) (limit len : ℕ) : ℕ → ℕ → ℕ → ℕ × ℕ × ℕ
  | 0, i, j => (i, j, 0)
  | fuel + 1, i, j =>
    if i < len then
      if j = limit then (i, j, 0)
      else
        let clen := utf8CharLen (byteAt buf i)
        if clen = 4 ∧ isValidLen4Utf8 (buf.drop i) then
          if j + 1 = limit then (i, j, 1) else posForward buf limit len fuel (i + clen) (j + 2)
        else posForward buf limit len fuel (i + clen) (j + 1)
    else (i, j, 0)

/-- Back to the first byte of a code point. -/
def charStart (buf : List ℕ) : ℕ → ℕ
  | 0 => 0
  | i + 1 => if byteAt buf (i + 1) &&& 0xc0 = 0x80 then charStart buf i else i + 1

def posBackward (buf : List ℕ) (limit start : ℕ) : ℕ → ℕ → ℕ → ℕ × ℕ × ℕ
  | 0, i, j => (i, j, 0)
  | fuel + 1, i, j =>
    if start < i then
      let i' := charStart buf (i - 1)
      if i - i' = 4 ∧ isValidLen4Utf8 (buf.drop i') then
        if j - 2 + 1 = limit then (i', j - 2, 1)
        else if j - 2 = limit then (i', j - 2, 0)
        else posBackward buf limit start fuel i' (j - 2)
      else if j - 1 = limit then (i', j - 1, 0)
      else posBackward buf limit start fuel i' (j - 1)
    else (i, j, 0)

def int32Max : ℕ := 2 ^ 31 - 1

/-- From the position `(i, j)` to `pos`. -/
def posScan (buf : List ℕ) (t : PosType) (pos i j : ℕ) : ℕ × ℕ × ℕ :=
  match t with
  | .utf8 =>
    if i ≤ pos then posForward buf int32Max pos pos i j
    else posBackward buf int32Max pos i i j
  | .utf16 =>
    if j ≤ pos then posForward buf pos buf.length buf.length i j
    else posBackward buf pos 0 i i j

/-- One turn of the search through the cache: the smallest distance so far and its entry. -/
def nearestStep (h : StrHeap) (v : StrVal) (t : PosType) (pos : ℕ) (acc : ℕ × Option ℕ) (k : ℕ) :
    ℕ × Option ℕ :=
  let p := (h.cache k).pos t
  let d := if p ≥ pos then p - pos else pos - p
  if (h.cache k).str = some v ∧ d < acc.1 then (d, some k) else acc

/-- The cache entry of `v` nearest to `pos`, if it is nearer than the start of the string. -/
def nearestEntry (h : StrHeap) (v : StrVal) (t : PosType) (pos : ℕ) : Option ℕ :=
  ((List.range jsStringPosCacheSize).foldl (nearestStep h v t pos) (pos, none)).2

/-- The entry to work on: the nearest one, or the next in turn, set to the start of `v`. -/
def cacheEntry (h : StrHeap) (v : StrVal) (t : PosType) (pos : ℕ) : ℕ × StrHeap :=
  match nearestEntry h v t pos with
  | some k => (k, h)
  | none =>
    let k := h.cacheCounter
    (k,
      { h with
        cache := Function.update h.cache k ⟨some v, 0, 0⟩
        cacheCounter := if k + 1 = jsStringPosCacheSize then 0 else k + 1 })

/-- The scan, from the start of a short string or else from a cache entry, which it updates. -/
def posScanCached (h : StrHeap) (v : StrVal) (buf : List ℕ) (t : PosType) (pos : ℕ) :
    (ℕ × ℕ × ℕ) × StrHeap :=
  if buf.length < jsStringPosCacheMinLen then (posScan buf t pos 0 0, h)
  else
    let (k, h) := cacheEntry h v t pos
    let r := posScan buf t pos (h.cache k).posUtf8 (h.cache k).posUtf16
    (r, { h with cache := Function.update h.cache k ⟨(h.cache k).str, r.1, r.2.1⟩ })

/-- `js_string_convert_pos`. A UTF-8 position is twice the byte position, plus one for the right
surrogate of a code point that starts there. -/
def jsStringConvertPos (h : StrHeap) (v : StrVal) (pos : ℕ) (t : PosType) : ℕ × StrHeap :=
  let p := getStringPtr h v
  match t with
  | .utf8 =>
    if p.isAscii then (min p.buf.length (pos / 2), h)
    else
      let ((_, j, _), h) := posScanCached h v p.buf .utf8 (pos / 2)
      (j + pos % 2, h)
  | .utf16 =>
    if p.isAscii then (min p.buf.length pos * 2, h)
    else
      let ((i, _, flag), h) := posScanCached h v p.buf .utf16 pos
      (i * 2 + flag, h)

def jsStringUtf16ToUtf8Pos (h : StrHeap) (v : StrVal) (pos : ℕ) : ℕ × StrHeap :=
  jsStringConvertPos h v pos .utf16

def jsStringUtf8ToUtf16Pos (h : StrHeap) (v : StrVal) (pos : ℕ) : ℕ × StrHeap :=
  jsStringConvertPos h v pos .utf8

/-- `js_string_len`: in UTF-16 units. -/
def jsStringLen (h : StrHeap) : StrVal → ℕ × StrHeap
  | .char c => (if c ≥ 0x10000 then 2 else 1, h)
  | .ref id =>
    let p := getStringPtr h (.ref id)
    if p.isAscii then (p.buf.length, h) else jsStringUtf8ToUtf16Pos h (.ref id) (p.buf.length * 2)

/-! ### Substrings -/

def jsSubStringUtf8 (h : StrHeap) (v : StrVal) (start0 end0 : ℕ) : Option (StrVal × StrHeap) :=
  if end0 = start0 then some (jsAtomEmpty, h)
  else
    let startSurrogate := start0 % 2
    let endSurrogate := end0 % 2
    let start := start0 / 2
    let end' := end0 / 2
    let len := end' - start
    let p1 := getStringPtr h v
    if startSurrogate = 0 ∧ endSurrogate = 0 ∧ utf8CharLen (byteAt p1.buf start) = len then
      some (.char (utf8Get (p1.buf.drop start)), h)
    else if startSurrogate = 1 ∨ endSurrogate = 1 then
      -- the halves of the pairs that are cut are written as surrogates of their own
      let right :=
        if startSurrogate = 1 then
          unicodeToUtf8 (0xdc00 + ((utf8Get (p1.buf.drop start) - 0x10000) &&& 0x3ff))
        else []
      let start := if startSurrogate = 1 then start + 4 else start
      let left :=
        if endSurrogate = 1 then
          unicodeToUtf8 (0xd800 + ((utf8Get (p1.buf.drop end') - 0x10000) >>> 10))
        else []
      jsAllocString a mem h
        ⟨false, false, false, right ++ (p1.buf.drop start).take (end' - start) ++ left⟩
    else
      let buf := (p1.buf.drop start).take len
      jsAllocString a mem h ⟨false, p1.isAscii || isAsciiString buf, false, buf⟩

/-- `js_sub_string`: from unit `start` up to `end'`. -/
def jsSubString (h : StrHeap) (v : StrVal) (start end' : ℕ) : Option (StrVal × StrHeap) :=
  if end' ≤ start then some (jsAtomEmpty, h)
  else
    let (startUtf8, h) := jsStringUtf16ToUtf8Pos h v start
    let (endUtf8, h) := jsStringUtf16ToUtf8Pos h v end'
    jsSubStringUtf8 a mem h v startUtf8 endUtf8

/-- `string_getcp`: `none` for -1. -/
def stringGetcp (h : StrHeap) (v : StrVal) (pos : ℕ) (isCodepoint : Bool) : Option ℕ × StrHeap :=
  let (utf8Pos, h) := jsStringUtf16ToUtf8Pos h v pos
  let p := getStringPtr h v
  if p.buf.length ≤ utf8Pos / 2 then (none, h)
  else
    let c := utf8Get (p.buf.drop (utf8Pos / 2))
    if c < 0x10000 ∨ (utf8Pos % 2 = 0 ∧ isCodepoint) then (some c, h)
    else if utf8Pos % 2 = 0 then (some (0xd800 + ((c - 0x10000) >>> 10)), h)
    else (some (0xdc00 + ((c - 0x10000) &&& 0x3ff)), h)

/-! ### String buffers -/

/-- `js_byte_array_to_string` of the first `len` bytes. -/
def jsByteArrayToString (h : StrHeap) (arr : List ℕ) (len : ℕ) (isAscii : Bool) :
    StrVal × StrHeap :=
  if len = 0 then (jsAtomEmpty, h)
  else if utf8CharLen (byteAt arr 0) = len then (.char (utf8Get arr), h)
  else
    -- the array becomes a string in place
    (.ref h.next,
      { h with
        strings := Function.update h.strings h.next (some ⟨false, isAscii, false, arr.take len⟩)
        next := h.next + 1 })

/-- `buffer_ref.val`. -/
inductive BufVal
  | exception
  | str (v : StrVal)
  | bytes (arr : List ℕ)
  deriving DecidableEq, Repr

structure StringBuffer where
  val : BufVal
  len : ℕ
  isAscii : Bool
  deriving DecidableEq, Repr

/-- `js_alloc_byte_array`: the contents are not set. -/
def jsAllocByteArray (size : ℕ) : Option (List ℕ) :=
  if size > jsByteArraySizeMax then none
  else if mem (a.jsw + size) then some (List.replicate size 0)
  else none

/-- `memcpy` into an array. -/
def writeAt (arr : List ℕ) (i : ℕ) (bs : List ℕ) : List ℕ :=
  arr.take i ++ bs ++ arr.drop (i + bs.length)

/-- `js_resize_byte_array`, with `[]` for `JS_NULL`. -/
def jsResizeByteArray (arr : List ℕ) (newSize : ℕ) : Option (List ℕ) :=
  if newSize > arr.length then
    (jsAllocByteArray a mem (max newSize (arr.length + arr.length / 2))).map
      fun newArr => writeAt newArr 0 arr
  else some arr

def stringBufferPush (len : ℕ) : Option StringBuffer :=
  if len > 0 then (jsAllocByteArray a mem len).map fun arr => ⟨.bytes arr, 0, true⟩
  else some ⟨.str jsAtomEmpty, 0, true⟩

def StringBuffer.failed (s : StringBuffer) : StringBuffer := { s with val := .exception }

/-- The end of `string_buffer_concat_str`: `arr` has room for `len1 + p2.len` bytes. -/
def appendBytes (arr : List ℕ) (len1 : ℕ) (isAscii : Bool) (p2 : JSString) : StringBuffer :=
  let len2 := p2.buf.length
  if len2 ≥ 3 ∧ isUtf8RightSurrogate p2.buf ∧ len1 ≥ 3 ∧ isUtf8LeftSurrogate (arr.drop (len1 - 3))
  then
    -- contract the two surrogates to 4 bytes
    let c := (((utf8Get (arr.drop (len1 - 3)) &&& 0x3ff) <<< 10) ||| (utf8Get p2.buf &&& 0x3ff))
      + 0x10000
    let arr := writeAt arr (len1 - 3) (unicodeToUtf8 c)
    let q := len1 - 3 + (unicodeToUtf8 c).length
    ⟨.bytes (writeAt arr q (p2.buf.drop 3)), len1 + len2 - 2, false && p2.isAscii⟩
  else ⟨.bytes (writeAt arr len1 p2.buf), len1 + len2, isAscii && p2.isAscii⟩

/-- `string_buffer_concat_str`. A sum of lengths that overflows `int` is undefined; it is taken
as too long. -/
def stringBufferConcatStr (h : StrHeap) (s : StringBuffer) (v2 : StrVal) : StringBuffer :=
  let p2 := getStringPtr h v2
  let len2 := p2.buf.length
  match s.val with
  | .exception => s
  | .str v1 =>
    if len2 = 0 then s
    else
      let p1 := getStringPtr h v1
      let len1 := p1.buf.length
      if len1 = 0 then { s with val := .str v2 }
      else if len1 + len2 > jsStringLenMax a then s.failed
      else
        match jsResizeByteArray a mem [] (len1 + len2 + 1) with
        | none => s.failed
        | some arr => appendBytes (writeAt arr 0 p1.buf) len1 p1.isAscii p2
  | .bytes arr =>
    if len2 = 0 then s
    else if s.len + len2 > jsStringLenMax a then s.failed
    else if s.len + len2 + 1 > arr.length then
      match jsResizeByteArray a mem arr (s.len + len2 + 1) with
      | none => s.failed
      | some arr => appendBytes arr s.len s.isAscii p2
    else appendBytes arr s.len s.isAscii p2

def stringBufferConcatUtf8 (h : StrHeap) (s : StringBuffer) (v : StrVal) (start end' : ℕ) :
    StringBuffer × StrHeap :=
  if end' ≤ start then (s, h)
  else
    match jsSubStringUtf8 a mem h v start end' with
    | none => (s.failed, h)
    | some (v2, h) => (stringBufferConcatStr a mem h s v2, h)

def stringBufferConcatUtf16 (h : StrHeap) (s : StringBuffer) (v : StrVal) (start end' : ℕ) :
    StringBuffer × StrHeap :=
  if end' ≤ start then (s, h)
  else
    let (startUtf8, h) := jsStringUtf16ToUtf8Pos h v start
    let (endUtf8, h) := jsStringUtf16ToUtf8Pos h v end'
    stringBufferConcatUtf8 a mem h s v startUtf8 endUtf8

def stringBufferPutc (h : StrHeap) (s : StringBuffer) (c : ℕ) : StringBuffer :=
  stringBufferConcatStr a mem h s (.char c)

def stringBufferPop (h : StrHeap) (s : StringBuffer) : Option (StrVal × StrHeap) :=
  match s.val with
  | .exception => none
  | .str v => some (v, h)
  | .bytes arr => some (jsByteArrayToString h arr s.len s.isAscii)

def jsConcatString (h : StrHeap) (v1 v2 : StrVal) : Option (StrVal × StrHeap) :=
  (stringBufferPush a mem 0).bind fun b =>
    let b := stringBufferConcatStr a mem h b v1
    let b := stringBufferConcatStr a mem h b v2
    stringBufferPop h b

/-! ### Programs over a buffer -/

/-- What a caller of the buffer functions may do between `string_buffer_push` and
`string_buffer_pop`. -/
inductive BufOp
  | concatStr (v : StrVal)
  | concatUtf8 (v : StrVal) (start end' : ℕ)
  | concatUtf16 (v : StrVal) (start end' : ℕ)
  | putc (c : ℕ)
  deriving DecidableEq, Repr

def BufOp.run (op : BufOp) (h : StrHeap) (s : StringBuffer) : StringBuffer × StrHeap :=
  match op with
  | .concatStr v => (stringBufferConcatStr a mem h s v, h)
  | .concatUtf8 v start end' => stringBufferConcatUtf8 a mem h s v start end'
  | .concatUtf16 v start end' => stringBufferConcatUtf16 a mem h s v start end'
  | .putc c => (stringBufferPutc a mem h s c, h)

def runOps : List BufOp → StrHeap → StringBuffer → StringBuffer × StrHeap
  | [], h, s => (s, h)
  | op :: ops, h, s =>
    let (s, h) := op.run a mem h s
    runOps ops h s

def buildString (h : StrHeap) (len : ℕ) (ops : List BufOp) : Option (StrVal × StrHeap) :=
  (stringBufferPush a mem len).bind fun s =>
    let (s, h) := runOps a mem ops h s
    stringBufferPop h s

end Qjs
