import Qjs.HeapSort
import Qjs.Json
import Qjs.Regexp

/-!
# Regular expressions: character classes

A class is parsed to a list of intervals, half-open, that are sorted, merged and complemented, and
are written with 8 bits for each bound where this is possible. In the source the list is built at
the end of the byte code.
-/

namespace Qjs.Regexp

open Json

/-- What a pattern is compiled from: the buffer of the parser, where the pattern starts and ends in
it, and the flags. -/
structure Source where
  buf : List ℕ
  bufStart : ℕ
  bufLen : ℕ
  reFlags : ℕ

/-- `js_parse_error`, with `buf_pos`. -/
structure ParseError where
  msg : String
  pos : ℕ
  deriving DecidableEq, Repr

abbrev Parse (α : Type) := Except ParseError α

variable (src : Source)

namespace Source

/-- `source_buf[pos]`. -/
def byte (pos : ℕ) : ℕ := byteAt src.buf pos

def ignoreCase : Bool := src.reFlags.testBit 1

def multiLine : Bool := src.reFlags.testBit 2

def dotall : Bool := src.reFlags.testBit 3

def isUnicode : Bool := src.reFlags.testBit 4

def sticky : Bool := src.reFlags.testBit 5

end Source

/-! ### Atoms -/

inductive CharRange
  | d | D | s | S | w | W
  deriving DecidableEq, Repr

/-- What `get_class_atom` returns: a character or a range of them. -/
inductive ClassAtom
  | char (c : ℕ)
  | range (r : CharRange)
  deriving DecidableEq, Repr

def charRange : ℕ → Option CharRange
  | 0x64 => some .d
  | 0x44 => some .D
  | 0x73 => some .s
  | 0x53 => some .S
  | 0x77 => some .w
  | 0x57 => some .W
  | _ => none

/-- The characters that can always be escaped, but the dash. -/
def isSyntaxChar (c : ℕ) : Bool :=
  c ∈ [0x5e, 0x24, 0x5c, 0x2e, 0x2a, 0x2b, 0x3f, 0x28, 0x29, 0x5b, 0x5d, 0x7b, 0x7d, 0x7c, 0x2f]

def isLetter (c : ℕ) : Bool := (0x61 ≤ c && c ≤ 0x7a) || (0x41 ≤ c && c ≤ 0x5a)

/-- The label `normal_char`: the character at `p`, in an atom that starts at `pos`. -/
def normalChar (pos p : ℕ) : Parse (ClassAtom × ℕ) :=
  match unicodeFromUtf8 (src.buf.drop p) with
  | none => .error ⟨"malformed unicode char", pos⟩
  | some (c, len) => .ok (.char c, p + len)

def invalidEscape (p : ℕ) : Parse (ClassAtom × ℕ) :=
  .error ⟨"invalid escape sequence in regular expression", p⟩

/-- `\c`, in an atom that starts at `pos`. -/
def controlEscape (pos : ℕ) (inclass : Bool) : Parse (ClassAtom × ℕ) :=
  let c := src.byte (pos + 2)
  if isLetter c ∨ ((Json.isNum c ∨ c = 0x5f) ∧ inclass ∧ !src.isUnicode) then
    .ok (.char (c % 32), pos + 3)
  else if src.isUnicode then invalidEscape (pos + 2)
  else .ok (.char 0x5c, pos + 1)

/-- The character or range at `pos`, with the position after it. -/
def getClassAtom (pos : ℕ) (inclass : Bool) : Parse (ClassAtom × ℕ) :=
  if src.byte pos = 0x5c then
    let c := src.byte (pos + 1)
    match charRange c with
    | some r => .ok (.range r, pos + 2)
    | none =>
      if c = 0x63 then controlEscape src pos inclass
      else if c = 0x2d then
        if !inclass ∧ src.isUnicode then invalidEscape (pos + 2) else .ok (.char c, pos + 2)
      else if isSyntaxChar c then .ok (.char c, pos + 2)
      else
        match jsParseEscape (src.buf.drop (pos + 1)) with
        | .value c p => .ok (.char c, src.buf.length - p.length)
        | _ => if src.isUnicode then invalidEscape (pos + 1) else normalChar src pos (pos + 1)
  else if (src.byte pos = 0 ∨ src.byte pos = 0x2f) ∧ src.bufLen ≤ pos then
    .error ⟨"unexpected end", pos⟩
  else normalChar src pos pos

/-! ### Intervals -/

/-- The bounds in the order they are emitted, as intervals. -/
def intervals : List ℕ → List (ℕ × ℕ)
  | lo :: hi :: tab => (lo, hi) :: intervals tab
  | _ => []

def bounds (l : List (ℕ × ℕ)) : List ℕ := l.flatMap fun x => [x.1, x.2]

/-- `char_range_s`. -/
def charRangeS : List ℕ :=
  [0x0009, 0x000d + 1, 0x0020, 0x0020 + 1, 0x00a0, 0x00a0 + 1, 0x1680, 0x1680 + 1, 0x2000,
    0x200a + 1, 0x2028, 0x2029 + 1, 0x202f, 0x202f + 1, 0x205f, 0x205f + 1, 0x3000, 0x3000 + 1,
    0xfeff, 0xfeff + 1]

/-- `char_range_w`. -/
def charRangeW : List ℕ :=
  [0x0030, 0x0039 + 1, 0x0041, 0x005a + 1, 0x005f, 0x005f + 1, 0x0061, 0x007a + 1]

/-- `re_emit_range_base`: the bounds emitted. -/
def reEmitRangeBase : CharRange → List ℕ
  | .d => [0x30, 0x39 + 1]
  | .D => 0 :: [0x30, 0x39 + 1] ++ [0x110000]
  | .s => charRangeS
  | .S => 0 :: charRangeS ++ [0x110000]
  | .w => charRangeW
  | .W => 0 :: charRangeW ++ [0x110000]

/-- `range_sort_cmp`. -/
def rangeSortCmp (i1 i2 : ℕ) (tab : List (ℕ × ℕ)) : ℤ × List (ℕ × ℕ) :=
  (toI32 (toU32 ((tab.getD i1 (0, 0)).1 - (tab.getD i2 (0, 0)).1)), tab)

def rangeSortSwap (i1 i2 : ℕ) (tab : List (ℕ × ℕ)) : List (ℕ × ℕ) :=
  (tab.set i1 (tab.getD i2 (0, 0))).set i2 (tab.getD i1 (0, 0))

/-- The turns of the loop of `range_compress` from an interval on, which may have been joined with
those before it. What is left is written over the start of the table, behind what is read. -/
def compressFrom (lo hi : ℕ) : List (ℕ × ℕ) → List (ℕ × ℕ)
  | [] => if lo = hi then [] else [(lo, hi)]
  | (lo2, hi2) :: tab =>
    if lo = hi then compressFrom lo2 hi2 tab
    else if hi < lo2 then (lo, hi) :: compressFrom lo2 hi2 tab
    else compressFrom lo (max hi hi2) tab

def rangeCompress : List (ℕ × ℕ) → List (ℕ × ℕ)
  | [] => []
  | (lo, hi) :: tab => compressFrom lo hi tab

/-- `re_range_optimize`: the intervals that are left. -/
def reRangeOptimize (tab : List ℕ) (invert : Bool) : List (ℕ × ℕ) :=
  let l := intervals tab
  let l := rangeCompress (HeapSort.rqsortIdx rangeSortCmp rangeSortSwap l.length l)
  if invert then rangeCompress (intervals (0 :: bounds l ++ [0x110000])) else l

/-- The instruction for the intervals: with bounds of 8 bits if possible. -/
def reEmitRange (pos : ℕ) (l : List (ℕ × ℕ)) : Parse Op :=
  let n := l.length
  let tab := bounds l
  if n > 65534 then .error ⟨"range too big", pos⟩
  else if 0 < n ∧ n < 16 ∧ (tab.getD (2 * n - 1) 0 < 254 ∨
      (tab.getD (2 * n - 1) 0 = 0x110000 ∧ tab.getD (2 * n - 2) 0 < 254)) then
    .ok (.range8 (tab.map fun c => (if c = 0x110000 then 0xff else c) % 256))
  else .ok (.range tab)

/-- `add_interval_intersect`: the bounds emitted. -/
def addIntervalIntersect (lo hi lo1 hi1 : ℕ) (offset : ℤ) : List ℕ :=
  let lo := max lo lo1
  let hi := min hi hi1
  if lo < hi then
    if offset ≠ 0 then [lo, hi, toU32 (lo + offset), toU32 (hi + offset)] else [lo, hi]
  else []

/-- The label `add_range`: the bounds emitted for the characters from `c1` to `c2`. -/
def addRange (c1 c2 : ℕ) : List ℕ :=
  if src.ignoreCase then
    addIntervalIntersect c1 (c2 + 1) 0 0x41 0
      ++ addIntervalIntersect c1 (c2 + 1) (0x5a + 1) 0x61 0
      ++ addIntervalIntersect c1 (c2 + 1) (0x7a + 1) (2 ^ 31 - 1) 0
      ++ addIntervalIntersect c1 (c2 + 1) 0x41 (0x5a + 1) 32
      ++ addIntervalIntersect c1 (c2 + 1) 0x61 (0x7a + 1) (-32)
  else [c1, c2 + 1]

/-- What a turn of the loop of `re_parse_char_class` reads. -/
inductive ClassItem
  | chars (c1 c2 : ℕ)
  | range (r : CharRange)
  deriving DecidableEq, Repr

/-- The bounds it emits. -/
def ClassItem.emit : ClassItem → List ℕ
  | chars c1 c2 => addRange src c1 c2
  | range r => reEmitRangeBase r

def invalidClassRange (pos : ℕ) : Parse (ClassItem × ℕ) := .error ⟨"invalid class range", pos⟩

/-- A turn of the loop of `re_parse_char_class`: what it reads, and the position after. -/
def classItem (pos : ℕ) : Parse (ClassItem × ℕ) := do
  let (a1, pos) ← getClassAtom src pos true
  if src.byte pos = 0x2d ∧ src.byte (pos + 1) ≠ 0x5d then
    match a1 with
    | .range _ => invalidClassRange (pos + 1)
    | .char c1 =>
      let (a2, pos) ← getClassAtom src (pos + 1) true
      match a2 with
      | .range _ => invalidClassRange pos
      | .char c2 => if c2 < c1 then invalidClassRange pos else .ok (.chars c1 c2, pos)
  else
    match a1 with
    | .range r => .ok (.range r, pos)
    | .char c => .ok (.chars c c, pos)

/-- The loop of `re_parse_char_class`: what it reads, and the position after the bracket. Each turn
reads a character. -/
def classItems : ℕ → ℕ → Parse (List ClassItem × ℕ)
  | 0, pos => .error ⟨"unexpected end", pos⟩
  | fuel + 1, pos =>
    if src.byte pos = 0x5d then .ok ([], pos + 1)
    else do
      let (item, pos) ← classItem src pos
      let (items, pos) ← classItems fuel pos
      return (item :: items, pos)

/-- The start of a class: whether it is inverted, and the position of its first item. -/
def classStart (pos : ℕ) : Bool × ℕ :=
  if src.byte (pos + 1) = 0x5e then (true, pos + 2) else (false, pos + 1)

/-- `re_parse_char_class`: the instruction, and the position after the class. -/
def reParseCharClass (pos : ℕ) : Parse (Op × ℕ) := do
  let (invert, pos) := classStart src pos
  let (items, pos) ← classItems src (src.buf.length + 1) pos
  let op ← reEmitRange pos (reRangeOptimize (items.flatMap (ClassItem.emit src)) invert)
  return (op, pos)

/-! ### What a class means -/

/-- The characters of a range. -/
def CharRange.Mem (c : ℕ) : CharRange → Prop
  | d => 0x30 ≤ c ∧ c ≤ 0x39
  | D => ¬ (0x30 ≤ c ∧ c ≤ 0x39)
  | s => (if c < 128 then unicodeIsSpaceAscii c else unicodeIsSpaceNonAscii c) = true
  | S => ¬ (if c < 128 then unicodeIsSpaceAscii c else unicodeIsSpaceNonAscii c) = true
  | w => isWordChar c = true
  | W => ¬ isWordChar c = true

def ClassItem.Mem (c : ℕ) : ClassItem → Prop
  | chars c1 c2 => c1 ≤ c ∧ c ≤ c2
  | range r => r.Mem c

/-- The characters that the items denote; without case, those that differ from one of them in
case. -/
def ClassMem (ignoreCase : Bool) (items : List ClassItem) (c : ℕ) : Prop :=
  ∃ c' < 0x110000, (if ignoreCase then lreCanonicalize c' = lreCanonicalize c else c' = c)
    ∧ ∃ item ∈ items, item.Mem c'

end Qjs.Regexp
