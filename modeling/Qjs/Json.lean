import Qjs.Str
import Qjs.Value

/-!
# JSON

The JSON mode of the parser: `js_parse_json_value` with the string and number scanners that it
shares with the parser of JavaScript. A pointer into the source is the list of the bytes from there
on; past the end zero is read. The digits of a number are given to `Conv`, the arithmetic of
`js_atod`. Memory does not run out.
-/

namespace Qjs

namespace Json

open Wtf8

/-- A property key: a short integer or a unique string, as its units. -/
inductive PropKey
  | int (n : ℤ)
  | str (us : List ℕ)
  deriving DecidableEq, Repr

/-- A value of JSON; `D` are the numbers, and a string is given by its units. -/
inductive JVal (D : Type)
  | null
  | bool (b : Bool)
  | num (d : D)
  | str (us : List ℕ)
  | arr (vs : List (JVal D))
  | obj (ps : List (PropKey × JVal D))

/-! ### Characters -/

/-- The byte at `p`. -/
def cur (p : List ℕ) : ℕ := p.headD 0

def isNum (c : ℕ) : Bool := 0x30 ≤ c && c ≤ 0x39

def fromHex (c : ℕ) : Option ℕ :=
  if 0x30 ≤ c ∧ c ≤ 0x39 then some (c - 0x30)
  else if 0x41 ≤ c ∧ c ≤ 0x46 then some (c - 0x41 + 10)
  else if 0x61 ≤ c ∧ c ≤ 0x66 then some (c - 0x61 + 10)
  else none

def isSpace (c : ℕ) : Bool := (0x09 ≤ c && c ≤ 0x0d) || c == 0x20

def skipSpaces (p : List ℕ) : List ℕ := p.dropWhile isSpace

/-- `(b & 0xc0) == 0x80`, for a byte. -/
def isTail (b : ℕ) : Bool := 0x80 ≤ b && b < 0xc0

/-- `unicode_from_utf8`: the code point and its length. -/
def unicodeFromUtf8 (p : List ℕ) : Option (ℕ × ℕ) :=
  let c := byteAt p 0
  if c < 0x80 then some (c, 1)
  else if c < 0xc0 then none
  else if c < 0xe0 then
    if isTail (byteAt p 1) && 0x80 ≤ utf8Get p then some (utf8Get p, 2) else none
  else if c < 0xf0 then
    if isTail (byteAt p 1) && isTail (byteAt p 2) && 0x800 ≤ utf8Get p then some (utf8Get p, 3)
    else none
  else if c < 0xf8 then
    if isTail (byteAt p 1) && isTail (byteAt p 2) && isTail (byteAt p 3) && 0x10000 ≤ utf8Get p
      && utf8Get p ≤ 0x10ffff then some (utf8Get p, 4)
    else none
  else none

/-! ### Strings -/

/-- What `js_parse_escape` returns: the character, -1 or -2. -/
inductive Escape
  | value (c : ℕ) (p : List ℕ)
  | invalid
  | ignored
  deriving DecidableEq, Repr

def escapeChar : ℕ → Option ℕ
  | 0x62 => some 0x08 -- b
  | 0x66 => some 0x0c -- f
  | 0x6e => some 0x0a -- n
  | 0x72 => some 0x0d -- r
  | 0x74 => some 0x09 -- t
  | 0x76 => some 0x0b -- v
  | 0x27 => some 0x27 -- single quote
  | 0x22 => some 0x22 -- double quote
  | 0x5c => some 0x5c -- backslash
  | _ => none

/-- `n` hexadecimal digits. -/
def escapeHex : ℕ → ℕ → List ℕ → Escape
  | 0, c, p => .value c p
  | _ + 1, _, [] => .invalid
  | n + 1, c, d :: p =>
    match fromHex d with
    | none => .invalid
    | some h => escapeHex n ((c <<< 4) ||| h) p

/-- Hexadecimal digits up to a brace. -/
def escapeBraces (c : ℕ) : List ℕ → Escape
  | [] => .invalid
  | d :: p =>
    match fromHex d with
    | none => .invalid
    | some h =>
      if (c <<< 4) ||| h > 0x10ffff then .invalid
      else if cur p = 0x7d then .value ((c <<< 4) ||| h) p.tail
      else escapeBraces ((c <<< 4) ||| h) p

def jsParseEscape (buf : List ℕ) : Escape :=
  let c := cur buf
  let p := buf.tail
  match escapeChar c with
  | some c => .value c p
  | none =>
    if c = 0x78 then escapeHex 2 0 p
    else if c = 0x75 then
      if cur p = 0x7b then escapeBraces 0 p.tail else escapeHex 4 0 p
    else if c = 0x30 then
      if isNum (cur p) then .invalid else .value 0 p
    else .ignored

/-- One turn of the loop of `js_parse_string`. -/
inductive StringStep
  | error (msg : String)
  | done (p : List ℕ)
  /-- Nothing is put into the string. -/
  | skip (p : List ℕ)
  | put (c : ℕ) (p : List ℕ)
  deriving DecidableEq, Repr

def stringStep (sep : ℕ) (buf : List ℕ) : StringStep :=
  let c := cur buf
  let p := buf.tail
  if c = 0 ∨ c = 0x0a ∨ c = 0x0d then .error "unexpected end of string"
  else if c = sep then .done p
  else if c = 0x5c then
    if cur p = 0x0a then .skip p.tail
    else
      match jsParseEscape p with
      | .invalid => .error "invalid escape sequence"
      | .ignored => .skip p
      | .value c p => .put c p
  else if 0x80 ≤ c then
    match unicodeFromUtf8 buf with
    | none => .error "invalid UTF-8 sequence"
    | some (c, clen) => .put c (buf.drop clen)
  else .put c p

/-- The characters that are put into the string, and the position after it. -/
def stringLoop (sep : ℕ) : ℕ → List ℕ → List ℕ → Except String (List ℕ × List ℕ)
  | 0, _, _ => .error "unexpected end of string"
  | fuel + 1, cs, buf =>
    match stringStep sep buf with
    | .error msg => .error msg
    | .done p => .ok (cs, p)
    | .skip p => stringLoop sep fuel cs p
    | .put c p => stringLoop sep fuel (cs ++ [c]) p

/-- `js_parse_string`; each turn moves forward. -/
def jsParseString (buf : List ℕ) (sep : ℕ) : Except String (List ℕ × List ℕ) :=
  stringLoop sep (buf.length + 1) [] buf

/-! ### Numbers -/

/-- The arithmetic of `js_atod`: a sign, the digits before and after the point, and the sign and the
digits of the exponent. -/
structure Conv (D : Type) where
  infinity : Bool → D
  decimal : Bool → List ℕ → List ℕ → Bool → List ℕ → D

/-- The digits before and after the point. `start` is `p == p_start` and `dot` is
`dot_pos >= 0`. -/
def atodDigits : Bool → Bool → List ℕ → List ℕ × List ℕ × List ℕ
  | _, _, [] => ([], [], [])
  | start, dot, c :: p =>
    if c = 0x2e ∧ (start = false ∨ isNum (cur p)) ∧ dot = false then atodDigits false true p
    else if isNum c then
      let (n, f, r) := atodDigits false dot p
      if dot then (n, c :: f, r) else (c :: n, f, r)
    else ([], [], c :: p)

/-- After a sign, if there is one. -/
def skipSign (p : List ℕ) : List ℕ := if cur p = 0x2b ∨ cur p = 0x2d then p.tail else p

/-- The exponent, if any; without digits it fails. -/
def atodExponent (p : List ℕ) : Option (Bool × List ℕ × List ℕ) :=
  if cur p = 0x65 ∨ cur p = 0x45 then
    let p := p.tail
    let neg := cur p == 0x2d
    let p := skipSign p
    if isNum (cur p) then some (neg, p.takeWhile isNum, p.dropWhile isNum) else none
  else some (false, [], p)

/-- The bytes of `Infinity`. -/
def infinityText : List ℕ := [0x49, 0x6e, 0x66, 0x69, 0x6e, 0x69, 0x74, 0x79]

/-- `js_atod` with radix 10 and no flags; no answer for NaN. -/
def jsAtod {D : Type} (conv : Conv D) (str : List ℕ) : Option (D × List ℕ) :=
  let neg := cur str == 0x2d
  let p := skipSign str
  if cur p ≠ 0x30 ∧ infinityText.isPrefixOf p then some (conv.infinity neg, p.drop 8)
  else
    let (n, f, r) := atodDigits true false p
    if r.length = p.length then none
    else
      match atodExponent r with
      | none => none
      | some (eneg, e, r) => some (conv.decimal neg n f eneg e, r)

/-! ### Keys and objects -/

/-- The value of decimal digits that is at most `max`. -/
def numDigits (max : ℕ) : ℕ → List ℕ → Option ℕ
  | n, [] => some n
  | n, c :: p =>
    if isNum c then
      if n * 10 + (c - 0x30) > max then none else numDigits max (n * 10 + (c - 0x30)) p
    else none

/-- `is_num_string`. -/
def isNumString (us : List ℕ) : Option ℤ :=
  if us.length = 0 ∨ us.length > 11 ∨ ¬ us.all (· ≤ 0x7f) then none
  else
    let neg := cur us == 0x2d
    let p := if neg then us.tail else us
    if p = [] ∨ ¬ isNum (cur p) then none
    else if cur p = 0x30 then
      if p.tail ≠ [] ∨ neg then none else some 0
    else
      (numDigits (jsShortIntMax.toNat + neg.toNat) (cur p - 0x30) p.tail).map
        fun n : ℕ => if neg then -(n : ℤ) else (n : ℤ)

/-- `JS_ToPropertyKey` of a string. -/
def toPropertyKey (us : List ℕ) : PropKey :=
  match isNumString us with
  | some n => .int n
  | none => .str us

/-- `JS_DefinePropertyValue` on an object. -/
def definePropertyValue {D : Type} (ps : List (PropKey × JVal D)) (k : PropKey) (v : JVal D) :
    List (PropKey × JVal D) :=
  if ps.any (·.1 = k) then ps.map fun p => if p.1 = k then (k, v) else p else ps ++ [(k, v)]

/-! ### Values -/

variable {D : Type} (conv : Conv D)

mutual

/-- `js_parse_json_value`; `fuel` bounds the calls that are open. -/
def jsParseJsonValue : ℕ → List ℕ → Except String (JVal D × List ℕ)
  | 0, _ => .error "unexpected character"
  | fuel + 1, p =>
    let p := skipSpaces p
    if isNum (cur p) ∨ cur p = 0x2d then
      match jsAtod conv p with
      | none => .error "invalid number literal"
      | some (d, p) => .ok (.num d, p)
    else if [0x74, 0x72, 0x75, 0x65].isPrefixOf p then .ok (.bool true, p.drop 4)
    else if [0x66, 0x61, 0x6c, 0x73, 0x65].isPrefixOf p then .ok (.bool false, p.drop 5)
    else if [0x6e, 0x75, 0x6c, 0x6c].isPrefixOf p then .ok (.null, p.drop 4)
    else if cur p = 0x22 then
      match jsParseString p.tail 0x22 with
      | .error msg => .error msg
      | .ok (cs, p) => .ok (.str (unitsAll cs), p)
    else if cur p = 0x5b then
      let p := skipSpaces p.tail
      match if cur p ≠ 0x5d then jsonElements fuel [] p else .ok ([], p) with
      | .error msg => .error msg
      | .ok (vs, p) => if cur p ≠ 0x5d then .error "expecting ']'" else .ok (.arr vs, p.tail)
    else if cur p = 0x7b then
      let p := skipSpaces p.tail
      match if cur p ≠ 0x7d then jsonMembers fuel [] p else .ok ([], p) with
      | .error msg => .error msg
      | .ok (ps, p) => if cur p ≠ 0x7d then .error "expecting '\x7d'" else .ok (.obj ps, p.tail)
    else .error "unexpected character"

/-- The loop over the elements of an array. -/
def jsonElements : ℕ → List (JVal D) → List ℕ → Except String (List (JVal D) × List ℕ)
  | 0, _, _ => .error "unexpected character"
  | fuel + 1, vs, p =>
    match jsParseJsonValue fuel p with
    | .error msg => .error msg
    | .ok (v, p) =>
      let p := skipSpaces p
      if cur p = 0x2c then jsonElements fuel (vs ++ [v]) p.tail else .ok (vs ++ [v], p)

/-- The loop over the properties of an object. -/
def jsonMembers : ℕ → List (PropKey × JVal D) → List ℕ →
    Except String (List (PropKey × JVal D) × List ℕ)
  | 0, _, _ => .error "unexpected character"
  | fuel + 1, ps, p =>
    let p := skipSpaces p
    if cur p ≠ 0x22 then .error "expecting '\"'"
    else
      match jsParseString p.tail 0x22 with
      | .error msg => .error msg
      | .ok (cs, p) =>
        let p := skipSpaces p
        if cur p ≠ 0x3a then .error "expecting ':'"
        else
          match jsParseJsonValue fuel p.tail with
          | .error msg => .error msg
          | .ok (v, p) =>
            let p := skipSpaces p
            let ps := definePropertyValue ps (toPropertyKey (unitsAll cs)) v
            if cur p = 0x2c then jsonMembers fuel ps p.tail else .ok (ps, p)

end

/-- `js_parse_json`, with fuel for a text of this length. -/
def jsParseJson (text : List ℕ) : Except String (JVal D) :=
  match jsParseJsonValue conv (2 * text.length + 1) text with
  | .error msg => .error msg
  | .ok (v, p) => if skipSpaces p ≠ [] then .error "unexpected character" else .ok v

end Json

end Qjs
