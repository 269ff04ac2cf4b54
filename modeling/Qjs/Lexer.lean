import Qjs.Atod

/-!
# Tokens

`next_token` skips blanks and comments, notes line feeds, and reads one token. Whether a slash
begins a regular expression is decided by the kind of the token before it. The parser goes back to
a token by saving its position, with the line feed flag and whether a regular expression may follow,
and by reading the token again.

The source is a list of bytes; beyond its end there is a zero.
-/

namespace Qjs.Lexer

open Json

/-- The operators of more than one character. -/
inductive Op
  | mulAssign | divAssign | modAssign | plusAssign | minusAssign
  | shlAssign | sarAssign | shrAssign | andAssign | xorAssign | orAssign | powAssign
  | dec | inc | shl | sar | shr | lte | gte | eq | strictEq | neq | strictNeq | land | lor | pow
  deriving DecidableEq, Repr

/-- The first atoms of the atom table. A keyword is the index of its atom. -/
def keywords : List String :=
  ["null", "false", "true", "if", "else", "return", "var", "this", "delete", "void", "typeof",
    "new", "in", "instanceof", "do", "while", "for", "break", "continue", "switch", "case",
    "default", "throw", "try", "catch", "finally", "function", "debugger", "with", "class", "const",
    "enum", "export", "extends", "import", "super", "implements", "interface", "let", "package",
    "private", "protected", "public", "static", "yield"]

inductive Tok
  | char (c : ℕ)
  | number
  | string
  | ident
  | regexp
  | op (o : Op)
  | eof
  | keyword (atom : ℕ)
  deriving DecidableEq, Repr

/-- The value of a token, with `re_flags` and `re_end_pos` of a regular expression. Strings are the
characters that were put into them. -/
inductive Value
  | null
  | string (cs : List ℕ)
  | ident (cs : List ℕ)
  | number (d : Double)
  | regexp (body : List ℕ) (reFlags reEndPos : ℕ)
  deriving DecidableEq

structure Token where
  val : Tok
  value : Value
  sourcePos : ℕ
  deriving DecidableEq

/-- The part of `JSParseState` that tokens are read with. -/
structure ParseState where
  bufPos : ℕ
  gotLf : Bool
  token : Token
  deriving DecidableEq

/-- The keywords after which no regular expression is allowed. -/
def noRegexpAfter : List String :=
  ["null", "false", "true", "this", "if", "while", "for", "do", "case", "catch"]

def isRegexpAllowed : Tok → Bool
  | .number | .string | .regexp | .op .dec | .op .inc | .ident => false
  | .keyword atom => keywords.getD atom "" ∉ noRegexpAfter
  | .char c => c ≠ 0x29 ∧ c ≠ 0x5d
  | _ => true

/-! ### Blanks and comments -/

def isBlank (c : ℕ) : Bool := c == 0x20 || c == 0x09 || c == 0x0c || c == 0x0b || c == 0x0d

/-- What follows a comment with an end. -/
def commentEnd : List ℕ → Option (List ℕ)
  | [] => none
  | c :: p =>
    if c = 0 then none
    else if c = 0x2a ∧ cur p = 0x2f then some p.tail
    else commentEnd p

/-- What follows a comment up to the end of the line. -/
def lineEnd (p : List ℕ) : List ℕ := p.dropWhile fun c => c ≠ 0 ∧ c ≠ 0x0a

theorem commentEnd_suffix : ∀ {p q : List ℕ}, commentEnd p = some q → q <:+ p
  | [], _ => by simp [commentEnd]
  | c :: p, q => by
    intro h
    rw [commentEnd] at h
    split_ifs at h
    · rw [← Option.some.inj h]
      exact (List.tail_suffix p).trans (List.suffix_cons c p)
    · exact (commentEnd_suffix h).trans (List.suffix_cons c p)

/-- What is skipped before a token, and the line feed flag. -/
def skipBlanks (p : List ℕ) (gotLf : Bool) : Except String (List ℕ × Bool) :=
  match p with
  | [] => .ok ([], gotLf)
  | c :: p =>
    if c = 0x0a then skipBlanks p true
    else if isBlank c then skipBlanks p gotLf
    else if c = 0x2f ∧ cur p = 0x2a then
      match _h : commentEnd p.tail with
      | none => .error "unexpected end of comment"
      | some q => skipBlanks q gotLf
    else if c = 0x2f ∧ cur p = 0x2f then skipBlanks (lineEnd p.tail) gotLf
    else .ok (c :: p, gotLf)
  termination_by p.length
  decreasing_by
    · simp
    · simp
    · have h1 := (commentEnd_suffix _h).length_le
      simp only [List.length_tail] at h1
      simp only [List.length_cons]
      omega
    · have h1 := (List.dropWhile_suffix (fun c => c ≠ 0 ∧ c ≠ 0x0a) (l := p.tail)).length_le
      simp only [List.length_tail] at h1
      simp only [lineEnd, List.length_cons]
      omega

/-! ### Tokens with a value -/

def isIdentFirst (c : ℕ) : Bool :=
  (0x61 ≤ c && c ≤ 0x7a) || (0x41 ≤ c && c ≤ 0x5a) || c == 0x5f || c == 0x24

def isIdentNext (c : ℕ) : Bool := isIdentFirst c || Json.isNum c

/-- `js_parse_ident`, from the first character on. -/
def jsParseIdent (p : List ℕ) : Tok × Value × List ℕ :=
  let cs := cur p :: p.tail.takeWhile isIdentNext
  let atom := keywords.findIdx fun k => k.toList.map Char.toNat = cs
  (if atom < keywords.length then .keyword atom else .ident, .ident cs,
    p.tail.dropWhile isIdentNext)

/-- The bit of a flag of a regular expression. -/
def regexpFlag : ℕ → Option ℕ
  | 0x67 => some 1 -- g
  | 0x69 => some 2 -- i
  | 0x6d => some 4 -- m
  | 0x73 => some 8 -- s
  | 0x75 => some 16 -- u
  | 0x79 => some 32 -- y
  | _ => none

/-- `js_parse_regexp_flags`: it ends with a flag that is repeated. -/
def jsParseRegexpFlags : List ℕ → ℕ → ℕ × List ℕ
  | [], flags => (flags, [])
  | c :: p, flags =>
    match regexpFlag c with
    | none => (flags, c :: p)
    | some mask =>
      if flags &&& mask ≠ 0 then (flags, c :: p) else jsParseRegexpFlags p (flags ||| mask)

/-- The loop of `js_parse_regexp_token`: what follows the last slash. -/
def regexpEnd : ℕ → Bool → List ℕ → Except String (List ℕ)
  | 0, _, _ => .error "unexpected line terminator in regexp"
  | fuel + 1, inClass, p =>
    match unicodeFromUtf8 p with
    | none => .error "invalid UTF-8 sequence"
    | some (c, clen) =>
      let p := p.drop clen
      if c = 0 ∨ c = 0x0a ∨ c = 0x0d then .error "unexpected line terminator in regexp"
      else if c = 0x2f then if inClass then regexpEnd fuel inClass p else .ok p
      else if c = 0x5b then regexpEnd fuel true p
      else if c = 0x5d then regexpEnd fuel false p
      else if c = 0x5c then
        match unicodeFromUtf8 p with
        | none => .error "invalid UTF-8 sequence"
        | some (c, clen) =>
          if c = 0 ∨ c = 0x0a ∨ c = 0x0d then .error "unexpected line terminator in regexp"
          else regexpEnd fuel inClass (p.drop clen)
      else regexpEnd fuel inClass p

/-- `js_parse_regexp_token`, from after the first slash on, in a source of `n` bytes. Each turn of
the loop moves forward. -/
def jsParseRegexpToken (n : ℕ) (p : List ℕ) : Except String (Tok × Value × List ℕ) := do
  let q ← regexpEnd (p.length + 1) false p
  let (reFlags, r) := jsParseRegexpFlags q 0
  if isIdentNext (cur r) then .error "invalid regular expression flags"
  else
    let body := p.take (p.length - (q.length + 1))
    return (.regexp, .regexp body reFlags (n - (q.length + 1)), r)

/-- `JS_ATOD_ACCEPT_BIN_OCT | JS_ATOD_ACCEPT_UNDERSCORES` -/
def numberFlags : ℕ := 2 ||| 8

def isNan (d : Double) : Bool :=
  match d.decode with
  | .nan => true
  | _ => false

def readNumber (p : List ℕ) : Except String (Tok × Value × List ℕ) :=
  if cur p = 0x30 ∧ Json.isNum (byteAt p 1) then .error "invalid number literal"
  else
    let (d, r) := Atod.jsAtod p 0 numberFlags
    if isNan d then .error "invalid number literal" else .ok (.number, .number d, r)

/-! ### Operators -/

/-- The operator of more than one character at `p`, with its length; the slash is not among them. -/
def operator (p : List ℕ) : Option (Op × ℕ) :=
  let c := byteAt p 0
  let c1 := byteAt p 1
  let c2 := byteAt p 2
  let isEq (c : ℕ) : Bool := c == 0x3d
  if c = 0x2a then -- *
    if isEq c1 then some (.mulAssign, 2)
    else if c1 = 0x2a then if isEq c2 then some (.powAssign, 3) else some (.pow, 2)
    else none
  else if c = 0x25 then if isEq c1 then some (.modAssign, 2) else none -- %
  else if c = 0x2b then -- +
    if isEq c1 then some (.plusAssign, 2) else if c1 = 0x2b then some (.inc, 2) else none
  else if c = 0x2d then -- -
    if isEq c1 then some (.minusAssign, 2) else if c1 = 0x2d then some (.dec, 2) else none
  else if c = 0x3c then -- <
    if isEq c1 then some (.lte, 2)
    else if c1 = 0x3c then if isEq c2 then some (.shlAssign, 3) else some (.shl, 2)
    else none
  else if c = 0x3e then -- >
    if isEq c1 then some (.gte, 2)
    else if c1 = 0x3e then
      if c2 = 0x3e then if isEq (byteAt p 3) then some (.shrAssign, 4) else some (.shr, 3)
      else if isEq c2 then some (.sarAssign, 3)
      else some (.sar, 2)
    else none
  else if isEq c then -- =
    if isEq c1 then if isEq c2 then some (.strictEq, 3) else some (.eq, 2) else none
  else if c = 0x21 then -- !
    if isEq c1 then if isEq c2 then some (.strictNeq, 3) else some (.neq, 2) else none
  else if c = 0x26 then -- &
    if isEq c1 then some (.andAssign, 2) else if c1 = 0x26 then some (.land, 2) else none
  else if c = 0x5e then if isEq c1 then some (.xorAssign, 2) else none -- ^
  else if c = 0x7c then -- |
    if isEq c1 then some (.orAssign, 2) else if c1 = 0x7c then some (.lor, 2) else none
  else none

/-! ### Reading -/

/-- A slash that begins no comment. -/
def readSlash (n : ℕ) (regexpAllowed : Bool) (p : List ℕ) : Except String (Tok × Value × List ℕ) :=
  if regexpAllowed then jsParseRegexpToken n p.tail
  else if byteAt p 1 = 0x3d then .ok (.op .divAssign, .null, p.drop 2)
  else .ok (.char 0x2f, .null, p.tail)

/-- The switch of `next_token`, at a byte that is neither blank nor begins a comment. -/
def readToken (n : ℕ) (regexpAllowed : Bool) (p : List ℕ) : Except String (Tok × Value × List ℕ) :=
  let c := cur p
  if c = 0 then .ok (.eof, .null, p)
  else if c = 0x22 ∨ c = 0x27 then do
    let (cs, r) ← jsParseString p.tail c
    return (.string, .string cs, r)
  else if c = 0x2f then readSlash n regexpAllowed p
  else if isIdentFirst c then .ok (jsParseIdent p)
  else if Json.isNum c ∨ (c = 0x2e ∧ Json.isNum (byteAt p 1)) then readNumber p
  else
    match operator p with
    | some (o, len) => .ok (.op o, .null, p.drop len)
    | none => if 128 ≤ c then .error "unexpected character" else .ok (.char c, .null, p.tail)

/-- `next_token` -/
def nextToken (src : List ℕ) (s : ParseState) : Except String ParseState := do
  let (p, gotLf) ← skipBlanks (src.drop s.bufPos) false
  let (val, value, r) ← readToken src.length (isRegexpAllowed s.token.val) p
  return ⟨src.length - r.length, gotLf, ⟨val, value, src.length - p.length⟩⟩

/-- The state in which parsing begins, all zero. -/
def ParseState.init : ParseState := ⟨0, false, ⟨.char 0, .null, 0⟩⟩

/-! ### Going back -/

structure ParsePos where
  gotLf : Bool
  regexpAllowed : Bool
  sourcePos : ℕ

def jsParseGetPos (s : ParseState) : ParsePos :=
  ⟨s.gotLf, isRegexpAllowed s.token.val, s.token.sourcePos⟩

def jsParseSeekToken (src : List ℕ) (s : ParseState) (sp : ParsePos) : Except String ParseState :=
  nextToken src
    { s with
      bufPos := sp.sourcePos
      gotLf := sp.gotLf
      token := { s.token with val := .char (if sp.regexpAllowed then 0x20 else 0x29) } }

/-- A token that begins with a slash. -/
def Tok.IsSlash (t : Tok) : Prop := t = .char 0x2f ∨ t = .op .divAssign ∨ t = .regexp

end Qjs.Lexer
