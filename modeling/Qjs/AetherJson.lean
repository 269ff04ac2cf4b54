import Qjs.Lib.JsonTree

/-!
# The JSON parser of Aether

`json_parse_raw_n` with its scanners. A cursor is the list of the bytes from there on. The line and
the column, which only go into messages, are left out, and so is the arena: memory does not run out.
What C leaves undefined, and a loop that does not end, are failures of their own.
-/

namespace Qjs

namespace Aether

/-- Why there is no value. -/
inductive Failure
  /-- `err_set`: the format and what is printed with it. -/
  | error (format : String) (args : List ℕ)
  /-- A signed integer overflows. -/
  | overflow
  /-- A byte is put past the end of a buffer. -/
  | outOfBounds
  /-- A loop does not end. -/
  | endless
  deriving DecidableEq, Repr

/-- A value. The count of an array or an object is the length of its list; a member is its key, the
length of the key and the value. -/
inductive JsonValue
  | null
  | bool (b : Bool)
  | number (d : Double)
  | str (data : List ℕ) (length : ℕ)
  | arr (items : List JsonValue)
  | obj (members : List (List ℕ × ℕ × JsonValue))

def intMax : ℕ := 2 ^ 31 - 1

def intMin : ℤ := -2 ^ 31

def int64Max : ℕ := 2 ^ 63 - 1

def uint64Max : ℕ := 2 ^ 64 - 1

/-! ### Characters -/

/-- `p_peek`. -/
def peek (p : List ℕ) : ℕ := p.headD 0

/-- `CC_WHITESPACE`. -/
def isWhitespace (c : ℕ) : Bool := c == 0x20 || c == 0x09 || c == 0x0a || c == 0x0d

/-- `CC_DIGIT`. -/
def isDigit (c : ℕ) : Bool := 0x30 ≤ c && c ≤ 0x39

/-- `CC_NUM_START`. -/
def isNumStart (c : ℕ) : Bool := c == 0x2d || isDigit c

def skipWhitespace (p : List ℕ) : List ℕ := p.dropWhile isWhitespace

/-! ### The scanner of plain bytes -/

def isStrSafeByte (c : ℕ) : Bool := 0x20 ≤ c && c < 0x80 && c != 0x22 && c != 0x5c

/-- The implementations of `scan_str_safe`. -/
inductive Scanner
  | scalar
  | sse2
  | neon
  deriving DecidableEq, Repr

def scanScalar (p : List ℕ) : ℕ := (p.takeWhile isStrSafeByte).length

/-- A lane of `bad`: the byte is a quote or a backslash, or is less than 0x20 as a signed byte. -/
def badLane (c : ℕ) : Bool :=
  c == 0x22 || c == 0x5c || (BitVec.ofNat 8 c).slt 0x20#8

/-- Trailing zero bits, of `width` bits. -/
def ctz : ℕ → ℕ → ℕ
  | 0, _ => 0
  | width + 1, m => if m % 2 = 1 then 0 else ctz width (m / 2) + 1

/-- `_mm_movemask_epi8`. -/
def movemask : List Bool → ℕ
  | [] => 0
  | b :: bs => b.toNat + 2 * movemask bs

/-- `vshrn_n_u16` by 4, over the pairs of bytes; the first byte is the low one. -/
def shrn4 : List ℕ → ℕ
  | a :: b :: bs => (a + 0x100 * b) / 0x10 % 0x100 + 0x100 * shrn4 bs
  | _ => 0

/-- Where the first bad byte of a block stands, if there is one. -/
def firstBadSse2 (block : List ℕ) : Option ℕ :=
  let mask := movemask (block.map badLane)
  if mask = 0 then none else some (ctz 32 mask)

def firstBadNeon (block : List ℕ) : Option ℕ :=
  let bad := block.map fun c => if badLane c then 0xff else 0
  if bad.all (· == 0) then none else some (ctz 64 (shrn4 bad) / 4)

/-- Blocks of 16 bytes, and what is left byte by byte. -/
def scanBlocks (firstBad : List ℕ → Option ℕ) : ℕ → List ℕ → ℕ
  | 0, p => scanScalar p
  | fuel + 1, p =>
    if 16 ≤ p.length then
      match firstBad (p.take 16) with
      | none => 16 + scanBlocks firstBad fuel (p.drop 16)
      | some i => i
    else scanScalar p

def scanStrSafe : Scanner → List ℕ → ℕ
  | .scalar, p => scanScalar p
  | .sse2, p => scanBlocks firstBadSse2 (p.length / 16) p
  | .neon, p => scanBlocks firstBadNeon (p.length / 16) p

/-! ### UTF-8 -/

/-- The classes of bytes, and the states after them. -/
def utf8Dfa : List ℕ := [
  0,0,0,0,0,0,0,0,0,0,0,0,0,0,0,0, 0,0,0,0,0,0,0,0,0,0,0,0,0,0,0,0,
  0,0,0,0,0,0,0,0,0,0,0,0,0,0,0,0, 0,0,0,0,0,0,0,0,0,0,0,0,0,0,0,0,
  0,0,0,0,0,0,0,0,0,0,0,0,0,0,0,0, 0,0,0,0,0,0,0,0,0,0,0,0,0,0,0,0,
  0,0,0,0,0,0,0,0,0,0,0,0,0,0,0,0, 0,0,0,0,0,0,0,0,0,0,0,0,0,0,0,0,
  1,1,1,1,1,1,1,1,1,1,1,1,1,1,1,1, 9,9,9,9,9,9,9,9,9,9,9,9,9,9,9,9,
  7,7,7,7,7,7,7,7,7,7,7,7,7,7,7,7, 7,7,7,7,7,7,7,7,7,7,7,7,7,7,7,7,
  8,8,2,2,2,2,2,2,2,2,2,2,2,2,2,2, 2,2,2,2,2,2,2,2,2,2,2,2,2,2,2,2,
  10,3,3,3,3,3,3,3,3,3,3,3,3,4,3,3, 11,6,6,6,5,8,8,8,8,8,8,8,8,8,8,8,
  0,12,24,36,60,96,84,12,12,12,48,72, 12,12,12,12,12,12,12,12,12,12,12,12,
  12, 0,12,12,12,12,12, 0,12, 0,12,12, 12,24,12,12,12,12,12,24,12,24,12,12,
  12,12,12,12,12,12,12,24,12,12,12,12, 12,24,12,12,12,12,12,12,12,24,12,12,
  12,12,12,12,12,12,12,36,12,36,12,12, 12,36,12,12,12,12,12,36,12,36,12,12,
  12,36,12,12,12,12,12,12,12,12,12,12]

def utf8Accept : ℕ := 0

def utf8Reject : ℕ := 12

/-- `utf8_step`: the state and the code point after a byte. -/
def utf8Step (st cp byte : ℕ) : ℕ × ℕ :=
  let type := utf8Dfa.getD byte 0
  let cp := if st ≠ utf8Accept then (byte &&& 0x3f) ||| (cp <<< 6) % 2 ^ 32
    else (0xff >>> type) &&& byte
  (utf8Dfa.getD (256 + st + type) 0, cp)

/-- The steps over one character: the last state and what is left. -/
def utf8Loop : ℕ → ℕ → List ℕ → ℕ × List ℕ
  | st, _, [] => (st, [])
  | st, cp, byte :: p =>
    let (st, cp) := utf8Step st cp byte
    if st = utf8Accept ∨ st = utf8Reject then (st, p) else utf8Loop st cp p

/-- `encode_utf8`; nothing for what is no code point. -/
def encodeUtf8 (cp : ℕ) : List ℕ :=
  if cp < 0x80 then [cp]
  else if cp < 0x800 then [0xc0 ||| cp >>> 6, 0x80 ||| cp &&& 0x3f]
  else if cp < 0x10000 then
    if 0xd800 ≤ cp ∧ cp ≤ 0xdfff then []
    else [0xe0 ||| cp >>> 12, 0x80 ||| (cp >>> 6) &&& 0x3f, 0x80 ||| cp &&& 0x3f]
  else if cp ≤ 0x10ffff then
    [0xf0 ||| cp >>> 18, 0x80 ||| (cp >>> 12) &&& 0x3f, 0x80 ||| (cp >>> 6) &&& 0x3f,
      0x80 ||| cp &&& 0x3f]
  else []

/-! ### Strings -/

def hexValue (c : ℕ) : Option ℕ :=
  if 0x30 ≤ c ∧ c ≤ 0x39 then some (c - 0x30)
  else if 0x61 ≤ c ∧ c ≤ 0x66 then some (c - 0x61 + 10)
  else if 0x41 ≤ c ∧ c ≤ 0x46 then some (c - 0x41 + 10)
  else none

def hexLoop : ℕ → ℕ → List ℕ → Except Failure (ℕ × List ℕ)
  | 0, v, p => .ok (v, p)
  | _ + 1, _, [] => .error .outOfBounds
  | n + 1, v, c :: p =>
    match hexValue c with
    | none => .error (.error "expected hex digit in \\u escape" [])
    | some d => hexLoop n ((v <<< 4) ||| d) p

def parseHex4 (p : List ℕ) : Except Failure (ℕ × List ℕ) :=
  if p.length < 4 then .error (.error "truncated \\u escape" []) else hexLoop 4 0 p

/-- The code point of an escape whose first four digits are `hi`. -/
def unicodeEscape (hi : ℕ) (p : List ℕ) : Except Failure (ℕ × List ℕ) :=
  if 0xd800 ≤ hi ∧ hi ≤ 0xdbff then
    match p with
    | 0x5c :: 0x75 :: p => do
      let (lo, p) ← parseHex4 p
      if lo < 0xdc00 ∨ 0xdfff < lo then
        .error (.error "expected low surrogate after high" [])
      else .ok (0x10000 + ((hi - 0xd800) <<< 10) + (lo - 0xdc00), p)
    | _ => .error (.error "high surrogate must be followed by \\u low surrogate" [])
  else if 0xdc00 ≤ hi ∧ hi ≤ 0xdfff then .error (.error "unpaired low surrogate" [])
  else .ok (hi, p)

/-- After `\u`: the bytes that are put for the escape. -/
def parseUnicode (p : List ℕ) : Except Failure (List ℕ × List ℕ) := do
  let (hi, p) ← parseHex4 p
  let (cp, p) ← unicodeEscape hi p
  if encodeUtf8 cp = [] then .error (.error "invalid code point in \\u escape" [])
  else .ok (encodeUtf8 cp, p)

def simpleEscape : ℕ → Option ℕ
  | 0x22 => some 0x22 -- double quote
  | 0x5c => some 0x5c -- backslash
  | 0x2f => some 0x2f -- slash
  | 0x62 => some 0x08 -- b
  | 0x66 => some 0x0c -- f
  | 0x6e => some 0x0a -- n
  | 0x72 => some 0x0d -- r
  | 0x74 => some 0x09 -- t
  | _ => none

/-- After a backslash. -/
def parseEscape : List ℕ → Except Failure (List ℕ × List ℕ)
  | [] => .error (.error "unterminated escape" [])
  | esc :: p =>
    match simpleEscape esc with
    | some c => .ok ([c], p)
    | none =>
      if esc = 0x75 then parseUnicode p else .error (.error "invalid escape \\%c" [esc])

/-- The length of the raw span up to the closing quote. -/
def preScan : ℕ → List ℕ → Except Failure ℕ
  | _, [] => .error (.error "unterminated string" [])
  | n, c :: p =>
    if c = 0x22 then .ok n
    else if c = 0x5c then
      match p with
      | [] => .error (.error "unterminated escape" [])
      | _ :: p => preScan (n + 2) p
    else preScan (n + 1) p

/-- `memcpy(dst + di, ..)` into the buffer of a span. -/
def putBytes (span : ℕ) (dst bs : List ℕ) : Except Failure (List ℕ) :=
  if (dst ++ bs).length ≤ span + 1 then .ok (dst ++ bs) else .error .outOfBounds

/-- A character that starts with a byte from 0x80 on. -/
def parseUtf8 (p : List ℕ) : Except Failure (List ℕ × List ℕ) :=
  let (st, r) := utf8Loop utf8Accept 0 p
  if st ≠ utf8Accept then .error (.error "invalid UTF-8 sequence" [])
  else .ok (p.take (p.length - r.length), r)

/-- The turns of the loop of `parse_string_raw`; each one moves forward. -/
def stringLoop (sc : Scanner) (span : ℕ) : ℕ → List ℕ → List ℕ → Except Failure (List ℕ × List ℕ)
  | 0, _, _ => .error .endless
  | fuel + 1, dst, p => do
    let run := scanStrSafe sc p
    let dst ← putBytes span dst (p.take run)
    match p.drop run with
    | [] => .error (.error "unterminated string" [])
    | c :: p =>
      if c = 0x22 then
        let _ ← putBytes span dst [0]
        .ok (dst, p)
      else if c = 0x5c then
        let (bs, p) ← parseEscape p
        let dst ← putBytes span dst bs
        stringLoop sc span fuel dst p
      else if c < 0x20 then
        .error (.error "control character U+%04X must be escaped" [c])
      else
        let (bs, p) ← parseUtf8 (c :: p)
        let dst ← putBytes span dst bs
        stringLoop sc span fuel dst p

/-- The bytes of a string and `*out_len`. -/
def parseStringRaw (sc : Scanner) (p : List ℕ) : Except Failure ((List ℕ × ℕ) × List ℕ) :=
  if peek p ≠ 0x22 then .error (.error "expected string" [])
  else do
    let span ← preScan 0 p.tail
    let (dst, p) ← stringLoop sc span (p.length + 1) [] p.tail
    .ok ((dst, dst.length % 2 ^ 32), p)

def parseString (sc : Scanner) (p : List ℕ) : Except Failure (JsonValue × List ℕ) := do
  let ((data, length), p) ← parseStringRaw sc p
  .ok (.str data length, p)

/-! ### Numbers -/

/-- Digits read so far: their number as long as it fits 64 bits, and how many there are. -/
structure Acc where
  acc : ℕ
  digits : ℕ
  overflow : Bool
  deriving DecidableEq, Repr

def Acc.zero : Acc := ⟨0, 0, false⟩

def Acc.push (a : Acc) (d : ℕ) : Acc :=
  if a.acc > (uint64Max - d) / 10 then ⟨a.acc, a.digits + 1, true⟩
  else ⟨a.acc * 10 + d, a.digits + 1, a.overflow⟩

def scanDigits : Acc → List ℕ → Except Failure (Acc × List ℕ)
  | a, [] => .ok (a, [])
  | a, c :: p =>
    if isDigit c then
      if a.digits = intMax then .error .overflow else scanDigits (a.push (c - 0x30)) p
    else .ok (a, c :: p)

def scanInt (p : List ℕ) : Except Failure (Acc × List ℕ) :=
  if ¬ isDigit (peek p) then .error (.error "expected digit in number" [])
  else if peek p = 0x30 then
    if isDigit (peek p.tail) then .error (.error "leading zeros not allowed in numbers" [])
    else .ok (⟨0, 1, false⟩, p.tail)
  else scanDigits .zero p

/-- Whether there is a point, and the digits after it. -/
def scanFrac (p : List ℕ) : Except Failure (Bool × Acc × List ℕ) :=
  if peek p = 0x2e then
    if ¬ isDigit (peek p.tail) then .error (.error "expected digit after decimal point" [])
    else do
      let (f, p) ← scanDigits .zero p.tail
      .ok (true, f, p)
  else .ok (false, .zero, p)

/-- The exponent; `has` is `has_exponent` and `neg` is `exp_sign == -1`. -/
structure Expo where
  has : Bool
  neg : Bool
  exponent : ℕ
  overflow : Bool
  deriving DecidableEq, Repr

def expLoop : ℕ → Bool → List ℕ → ℕ × Bool × List ℕ
  | e, overflow, [] => (e, overflow, [])
  | e, overflow, c :: p =>
    if isDigit c then
      if e > 10000 then expLoop e true p else expLoop (e * 10 + (c - 0x30)) overflow p
    else (e, overflow, c :: p)

/-- After a sign, if there is one. -/
def skipSign (p : List ℕ) : List ℕ := if peek p = 0x2b ∨ peek p = 0x2d then p.tail else p

def scanExp (p : List ℕ) : Except Failure (Expo × List ℕ) :=
  if peek p = 0x65 ∨ peek p = 0x45 then
    let p := p.tail
    let neg := peek p == 0x2d
    let p := skipSign p
    if ¬ isDigit (peek p) then .error (.error "expected digit in exponent" [])
    else
      let (e, overflow, p) := expLoop 0 false p
      .ok (⟨true, neg, e, overflow⟩, p)
  else .ok (⟨false, false, 0, false⟩, p)

/-- `POW10_POS[k]`. -/
def pow10Pos (k : ℕ) : Double := Double.ofRat false (10 ^ k)

/-- `strtod` of the C library on decimal text: the nearest double, and what is not read. -/
def strtod (s : List ℕ) : Double × List ℕ :=
  let neg := peek s == 0x2d
  let p := skipSign s
  let n := p.takeWhile isDigit
  let p := p.dropWhile isDigit
  let (f, p) := if peek p = 0x2e then (p.tail.takeWhile isDigit, p.tail.dropWhile isDigit)
    else ([], p)
  if n = [] ∧ f = [] then (0#64, s)
  else
    let q := p.tail
    let eneg := peek q == 0x2d
    let q := skipSign q
    if (peek p = 0x65 ∨ peek p = 0x45) ∧ isDigit (peek q) then
      (JsonText.Decimal.double ⟨neg, n, f, eneg, q.takeWhile isDigit⟩, q.dropWhile isDigit)
    else (JsonText.Decimal.double ⟨neg, n, f, false, []⟩, p)

/-- The mantissa scaled by a power of ten, for the fast path. -/
def fastDouble (negative : Bool) (i f : Acc) (e : ℤ) : Double :=
  let mantissa := if 0 < f.digits then
      (i.acc * (Double.trunc (pow10Pos f.digits)).toNat + f.acc) % 2 ^ 64
    else i.acc
  let val := Double.ofScaled false mantissa 0
  let val := if 0 < e then Double.mul val (pow10Pos e.toNat)
    else if e < 0 then Double.div val (pow10Pos (-e).toNat)
    else val
  if negative then Double.neg val else val

/-- The double of a number that is scanned; `text` is its text. -/
def numberValue (negative : Bool) (i : Acc) (hasDecimal : Bool) (f : Acc) (x : Expo)
    (text : List ℕ) : Except Failure Double :=
  let exponent : ℤ := if x.has then if x.neg then -x.exponent else x.exponent else 0
  let effectiveExp := exponent - f.digits
  if effectiveExp < intMin then .error .overflow
  else if !hasDecimal && !x.has && !i.overflow && negative && i.acc ≤ int64Max + 1 then
    .ok (if i.acc = int64Max + 1 then Double.ofInt (-2 ^ 63)
      else Double.neg (Double.ofScaled false i.acc 0))
  else if !hasDecimal && !x.has && !i.overflow && !negative && i.acc ≤ int64Max then
    .ok (Double.ofInt i.acc)
  else if intMax < i.digits + f.digits then .error .overflow
  else if !i.overflow && !f.overflow && !x.overflow && i.digits + f.digits ≤ 15
      && -22 ≤ effectiveExp && effectiveExp ≤ 22 then
    .ok (fastDouble negative i f effectiveExp)
  else
    let (val, endp) := strtod text
    if endp ≠ [] then .error (.error "number conversion failed" []) else .ok val

def parseNumber (start : List ℕ) : Except Failure (JsonValue × List ℕ) := do
  let negative := peek start == 0x2d
  let p := if negative then start.tail else start
  let (i, p) ← scanInt p
  let (hasDecimal, f, p) ← scanFrac p
  let (x, p) ← scanExp p
  let val ← numberValue negative i hasDecimal f x (start.take (start.length - p.length))
  .ok (.number val, p)

/-! ### Arrays and objects -/

/-- The doubling of `new_cap`, an unsigned 32-bit integer, up to `needed`. -/
def growCap : ℕ → ℕ → ℕ → Option ℕ
  | 0, _, _ => none
  | turns + 1, newCap, needed =>
    if newCap < needed then growCap turns (newCap * 2 % 2 ^ 32) needed else some newCap

/-- The capacity for `needed` entries. After 32 turns the doubling stays at 0. -/
def reserve (capacity needed : ℕ) : Except Failure ℕ :=
  if needed ≤ capacity then .ok capacity
  else
    match growCap 33 (if capacity = 0 then 8 else capacity) needed with
    | none => .error .endless
    | some newCap => .ok newCap

def arrReserve : ℕ → ℕ → Except Failure ℕ := reserve

def objReserve : ℕ → ℕ → Except Failure ℕ := reserve

/-- The entries of an array or an object that is being read. -/
structure Entries (α : Type) where
  items : List α
  capacity : ℕ

def Entries.empty {α : Type} : Entries α := ⟨[], 0⟩

/-- An entry after the others. -/
def Entries.push {α : Type} (reserve : ℕ → ℕ → Except Failure ℕ) (a : Entries α) (x : α) :
    Except Failure (Entries α) := do
  let capacity ← reserve a.capacity ((a.items.length + 1) % 2 ^ 32)
  .ok ⟨a.items ++ [x], capacity⟩

section Containers

-- `parse_value_depth` one level further in
variable (parseValue : List ℕ → Except Failure (JsonValue × List ℕ))

/-- The loop of `parse_array`; each turn moves forward. -/
def arrayLoop : ℕ → Entries JsonValue → List ℕ → Except Failure (JsonValue × List ℕ)
  | 0, _, _ => .error .endless
  | fuel + 1, arr, p => do
    let (elem, p) ← parseValue (skipWhitespace p)
    let arr ← arr.push arrReserve elem
    let p := skipWhitespace p
    if peek p = 0x2c then arrayLoop fuel arr p.tail
    else if peek p = 0x5d then .ok (.arr arr.items, p.tail)
    else .error (.error "expected ',' or ']' in array" [])

def parseArray (p : List ℕ) : Except Failure (JsonValue × List ℕ) :=
  let p := skipWhitespace p.tail
  if peek p = 0x5d then .ok (.arr [], p.tail)
  else arrayLoop parseValue (p.length + 1) .empty p

/-- The loop of `parse_object`. -/
def objectLoop (sc : Scanner) :
    ℕ → Entries (List ℕ × ℕ × JsonValue) → List ℕ → Except Failure (JsonValue × List ℕ)
  | 0, _, _ => .error .endless
  | fuel + 1, obj, p => do
    let p := skipWhitespace p
    if peek p ≠ 0x22 then .error (.error "expected string key in object" [])
    else
      let ((key, keyLen), p) ← parseStringRaw sc p
      let p := skipWhitespace p
      if peek p ≠ 0x3a then .error (.error "expected ':' after object key" [])
      else
        let (val, p) ← parseValue (skipWhitespace p.tail)
        let obj ← obj.push objReserve (key, keyLen, val)
        let p := skipWhitespace p
        if peek p = 0x2c then objectLoop sc fuel obj p.tail
        else if peek p = 0x7d then .ok (.obj obj.items, p.tail)
        else .error (.error "expected ',' or '\x7d' in object" [])

def parseObject (sc : Scanner) (p : List ℕ) : Except Failure (JsonValue × List ℕ) :=
  let p := skipWhitespace p.tail
  if peek p = 0x7d then .ok (.obj [], p.tail)
  else objectLoop parseValue sc (p.length + 1) .empty p

end Containers

/-! ### Values -/

def parseNullLit (p : List ℕ) : Except Failure (JsonValue × List ℕ) :=
  if [0x6e, 0x75, 0x6c, 0x6c].isPrefixOf p then .ok (.null, p.drop 4)
  else .error (.error "expected 'null'" [])

def parseBoolLit (p : List ℕ) : Except Failure (JsonValue × List ℕ) :=
  if [0x74, 0x72, 0x75, 0x65].isPrefixOf p then .ok (.bool true, p.drop 4)
  else if [0x66, 0x61, 0x6c, 0x73, 0x65].isPrefixOf p then .ok (.bool false, p.drop 5)
  else .error (.error "expected 'true' or 'false'" [])

def jsonMaxDepth : ℕ := 256

/-- `parse_value_depth`. The depth is given by how many levels are left: at the depth `d` there are
`JSON_MAX_DEPTH + 1 - d`. -/
def parseValueDepth (sc : Scanner) : ℕ → List ℕ → Except Failure (JsonValue × List ℕ)
  | 0, _ => .error (.error "nesting depth exceeds limit of %d" [jsonMaxDepth])
  | levels + 1, p =>
    match skipWhitespace p with
    | [] => .error (.error "unexpected end of input" [])
    | c :: p =>
      if c = 0x6e then parseNullLit (c :: p)
      else if c = 0x74 ∨ c = 0x66 then parseBoolLit (c :: p)
      else if c = 0x22 then parseString sc (c :: p)
      else if c = 0x5b then parseArray (parseValueDepth sc levels) (c :: p)
      else if c = 0x7b then parseObject (parseValueDepth sc levels) sc (c :: p)
      else if isNumStart c then parseNumber (c :: p)
      else .error (.error "unexpected character '%c'" [c])

/-- `json_parse_raw_n` of the bytes of a text, with one of the scanners compiled in. -/
def jsonParseRawN (sc : Scanner) (data : List UInt8) : Except Failure JsonValue := do
  let (root, p) ← parseValueDepth sc (jsonMaxDepth + 1) (data.map UInt8.toNat)
  if skipWhitespace p ≠ [] then .error (.error "unexpected trailing content" []) else .ok root

end Aether

end Qjs
