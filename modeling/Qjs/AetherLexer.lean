import Mathlib

/-!
# The lexer of Aether

`next_token` and what it reads with: blanks, strings, numbers, words, heredocs and operators. A
position in the source is the text from there on, which has no zero byte; lines and columns are left
out, and memory does not run out.
-/

namespace Qjs

namespace Aether

namespace Lexer

abbrev Str := List UInt8

inductive TokenType
  | actor | main | func | let_ | var | if_ | else_ | for_ | while_ | switch | case | default
  | break_ | continue_ | return_ | defer | builder | match_ | when | receive | send | spawnActor
  | spawn | make | self | state | struct | import_ | as_ | export_ | exports | module
  | messageKeyword | reply | exclaim | question | extern_ | null | const | in_ | after | callback
  | hide | seal | except | try_ | catch_ | panic
  | int | int64 | float | bool | byte | string | actorRef | message | ptr
  | identifier | number | int64Literal | stringLiteral | interpString | true_ | false_
  | plus | minus | multiply | divide | modulo | assign | equals | notEquals | less | lessEqual
  | greater | greaterEqual | and | or | increment | decrement | ampersand | caret | tilde | lshift
  | rshift | plusAssign | minusAssign | multiplyAssign | divideAssign | moduloAssign | andAssign
  | orAssign | xorAssign | lshiftAssign | rshiftAssign | dotdot
  | leftParen | rightParen | leftBrace | rightBrace | leftBracket | rightBracket | semicolon
  | comma | dot | colon | arrow | pipe | at_
  | print | eof | error
  deriving DecidableEq

structure Token where
  type : TokenType
  value : Option Str
  deriving DecidableEq

/-- The value is copied with `strlen`. -/
def createToken (type : TokenType) (value : Str) : Token :=
  ⟨type, some (value.takeWhile (· ≠ 0))⟩

def ascii (text : String) : Str := text.toList.map fun c => UInt8.ofNat c.toNat

/-! ### Characters -/

def newline : UInt8 := 0x0a
def cr : UInt8 := 0x0d
def quote : UInt8 := 0x22
def dollar : UInt8 := 0x24
def star : UInt8 := 0x2a
def dotChar : UInt8 := 0x2e
def slash : UInt8 := 0x2f
def zeroChar : UInt8 := 0x30
def lessChar : UInt8 := 0x3c
def longSuffix : UInt8 := 0x4c
def backslash : UInt8 := 0x5c
def underscore : UInt8 := 0x5f
def xChar : UInt8 := 0x78
def openBrace : UInt8 := 0x7b

def isSpace (c : UInt8) : Bool := c == 0x20 || c == 0x09 || c == cr || c == newline

def isDigit (c : UInt8) : Bool := 0x30 ≤ c && c ≤ 0x39

def isOctal (c : UInt8) : Bool := 0x30 ≤ c && c ≤ 0x37

def isBinary (c : UInt8) : Bool := c == 0x30 || c == 0x31

def isXdigit (c : UInt8) : Bool :=
  isDigit c || (0x41 ≤ c && c ≤ 0x46) || (0x61 ≤ c && c ≤ 0x66)

def isAlpha (c : UInt8) : Bool := (0x41 ≤ c && c ≤ 0x5a) || (0x61 ≤ c && c ≤ 0x7a)

/-- What a word may start with, and what it may go on with. -/
def isWordStart (c : UInt8) : Bool := isAlpha c || c == underscore

def isWord (c : UInt8) : Bool := isAlpha c || isDigit c || c == underscore

def digitValue (c : UInt8) : ℕ :=
  if 0x61 ≤ c then c.toNat - 0x61 + 10
  else if 0x41 ≤ c then c.toNat - 0x41 + 10
  else c.toNat - 0x30

def digitsValue (base : ℕ) (digits : Str) : ℕ :=
  digits.foldl (fun val h => val * base + digitValue h) 0

/-! ### Blanks -/

def skipWhitespace (s : Str) : Str := s.dropWhile isSpace

def afterComment : Str → Str
  | [] => []
  | c :: t => if c = star ∧ t.head? = some slash then t.tail else afterComment t

def skipComment (s : Str) : Option Str :=
  if s.head? = some slash then
    if s.tail.head? = some slash then some (s.dropWhile (· ≠ newline))
    else if s.tail.head? = some star then some (afterComment s.tail.tail)
    else none
  else none

theorem length_afterComment_le (s : Str) : (afterComment s).length ≤ s.length := by
  fun_induction afterComment s <;> simp at * <;> omega

theorem length_skipComment {s t : Str} (h : skipComment s = some t) : t.length < s.length := by
  unfold skipComment at h
  split_ifs at h with hs hline hblock
  · rcases s with _ | ⟨c, s⟩
    · simp at hs
    · obtain rfl : c = slash := by simpa using hs
      obtain rfl : List.dropWhile (· ≠ newline) s = t := by
        simpa [List.dropWhile_cons, slash, newline] using h
      simpa using Nat.lt_succ_of_le (List.dropWhile_sublist _).length_le
  · rcases s with _ | ⟨c, s⟩
    · simp at hs
    · have := length_afterComment_le s.tail
      obtain rfl : afterComment s.tail = t := by simpa using h
      simp at this ⊢
      omega

/-- White space and comments, as often as `next_token` calls itself. -/
def skipBlanks (s : Str) : Str :=
  match _h : skipComment (skipWhitespace s) with
  | some t => skipBlanks t
  | none => skipWhitespace s
termination_by s.length
decreasing_by
  exact lt_of_lt_of_le (length_skipComment _h) (List.dropWhile_sublist _).length_le

/-! ### Strings -/

/-- The digits read by a loop that takes at most `n` of them, and what follows. -/
def digitsUpTo (n : ℕ) (isDig : UInt8 → Bool) (s : Str) : Str × Str :=
  ((s.take n).takeWhile isDig, s.drop ((s.take n).takeWhile isDig).length)

theorem length_digitsUpTo_le (n : ℕ) (isDig : UInt8 → Bool) (s : Str) :
    (digitsUpTo n isDig s).2.length ≤ s.length := by
  simp [digitsUpTo]

/-- The byte that an escape is replaced by, from the character after the backslash on. -/
def escapeByte (c : UInt8) (s : Str) : UInt8 × Str :=
  if c = 0x6e then (newline, s)
  else if c = 0x74 then (0x09, s)
  else if c = 0x72 then (cr, s)
  else if c = backslash then (backslash, s)
  else if c = quote then (quote, s)
  else if c = xChar then
    let (digits, t) := digitsUpTo 2 isXdigit s
    if digits = [] then (xChar, t) else (UInt8.ofNat (digitsValue 16 digits), t)
  else if isOctal c then
    let (digits, t) := digitsUpTo 2 isOctal s
    (UInt8.ofNat (digitsValue 8 (c :: digits) % 256), t)
  else (c, s)

/-- The digits that are kept with an escape of an interpolated string. -/
def rawDigits (esc : UInt8) (s : Str) : Str × Str :=
  if esc = xChar then digitsUpTo 2 isXdigit s
  else if isOctal esc then digitsUpTo 2 isOctal s
  else ([], s)

theorem length_escapeByte_le (c : UInt8) (s : Str) : (escapeByte c s).2.length ≤ s.length := by
  have hx := length_digitsUpTo_le 2 isXdigit s
  have ho := length_digitsUpTo_le 2 isOctal s
  unfold escapeByte
  dsimp only
  split_ifs <;> first | exact le_rfl | exact hx | exact ho

theorem length_rawDigits_le (esc : UInt8) (s : Str) : (rawDigits esc s).2.length ≤ s.length := by
  unfold rawDigits
  split_ifs
  · exact length_digitsUpTo_le 2 isXdigit s
  · exact length_digitsUpTo_le 2 isOctal s
  · exact le_rfl

/-- The loop of `read_string`: whether `${` was met, the buffer, and what is left. -/
def readStringLoop (hasInterp : Bool) (buffer : Str) (s : Str) : Bool × Str × Str :=
  match s with
  | [] => (hasInterp, buffer, [])
  | c :: t =>
    if c = quote then (hasInterp, buffer, c :: t)
    else if c = dollar ∧ t.head? = some openBrace then
      readStringLoop true (buffer ++ [dollar, openBrace]) t.tail
    else if c = backslash then
      match t with
      | [] => (hasInterp, buffer ++ [if hasInterp then backslash else 0], [])
      | esc :: t =>
        if hasInterp then
          readStringLoop hasInterp (buffer ++ backslash :: esc :: (rawDigits esc t).1)
            (rawDigits esc t).2
        else readStringLoop hasInterp (buffer ++ [(escapeByte esc t).1]) (escapeByte esc t).2
    else readStringLoop hasInterp (buffer ++ [c]) t
termination_by s.length
decreasing_by
  · simp
  · simpa using Nat.lt_succ_of_lt (Nat.lt_succ_of_le (length_rawDigits_le esc t))
  · simpa using Nat.lt_succ_of_lt (Nat.lt_succ_of_le (length_escapeByte_le esc t))
  · simp

def unterminated : Str := ascii "unterminated string literal"

/-- `read_string`, after the opening quote. -/
def readString (s : Str) : Token × Str :=
  let (hasInterp, buffer, t) := readStringLoop false [] s
  if t.head? = some quote then
    (createToken (if hasInterp then .interpString else .stringLiteral) buffer, t.tail)
  else (createToken .error unterminated, t)

/-! ### Numbers -/

def longMax : ℕ := 2 ^ 63 - 1

/-- `strtol` on digits without a sign: it skips a `0x` in base 16, and stays at the greatest value.
-/
def strtol (s : Str) (base : ℕ) : ℕ :=
  let digits :=
    if base = 16 ∧ s.head? = some zeroChar ∧ (s.tail.head? = some xChar ∨ s.tail.head? = some 0x58)
        ∧ (s.drop 2).head?.any isXdigit then s.drop 2 else s
  min (digitsValue base (digits.takeWhile fun c => isXdigit c && digitValue c < base)) longMax

/-- `%ld` of a value that is not negative. -/
def decimalText (n : ℕ) : Str :=
  if n = 0 then [zeroChar] else (Nat.digits 10 n).reverse.map fun d => UInt8.ofNat (0x30 + d)

/-- A number with a letter after the zero: its digits without the underscores go through `strtol`,
which starts `skip` characters into them. -/
def readRadix (isDig : UInt8 → Bool) (skip base : ℕ) (s : Str) : Token × Str :=
  let run := (s.drop 2).takeWhile fun c => isDig c || c == underscore
  let buffer := s.take 2 ++ run.filter (· ≠ underscore)
  (createToken .number (decimalText (strtol (buffer.drop skip) base)), s.drop (2 + run.length))

/-- A dot belongs to the number unless another one follows. -/
def decimalRun : Str → Str × Str
  | [] => ([], [])
  | c :: t =>
    if isDigit c || (c == dotChar && t.head? != some dotChar) then
      (c :: (decimalRun t).1, (decimalRun t).2)
    else ([], c :: t)

def readNumber (s : Str) : Token × Str :=
  let next := s.tail.head?
  if s.head? = some zeroChar ∧ (next = some xChar ∨ next = some 0x58) then
    readRadix isXdigit 0 16 s
  else if s.head? = some zeroChar ∧ (next = some 0x6f ∨ next = some 0x4f) then
    readRadix isOctal 2 8 s
  else if s.head? = some zeroChar ∧ (next = some 0x62 ∨ next = some 0x42) then
    readRadix isBinary 2 2 s
  else
    let (buffer, t) := decimalRun s
    if t.head? = some longSuffix then (createToken .int64Literal buffer, t.tail)
    else (createToken .number buffer, t)

/-! ### Words -/

def keywords : List (String × TokenType) :=
  [("actor", .actor), ("main", .main), ("func", .func), ("let", .let_), ("var", .var), ("if", .if_),
   ("else", .else_), ("for", .for_), ("while", .while_), ("switch", .switch), ("case", .case),
   ("default", .default), ("break", .break_), ("continue", .continue_), ("return", .return_),
   ("defer", .defer), ("builder", .builder), ("match", .match_), ("when", .when),
   ("receive", .receive), ("send", .send), ("spawn_actor", .spawnActor), ("spawn", .spawn),
   ("make", .make), ("self", .self), ("state", .state), ("struct", .struct), ("import", .import_),
   ("as", .as_), ("export", .export_), ("exports", .exports), ("module", .module),
   ("message", .messageKeyword), ("reply", .reply), ("extern", .extern_), ("null", .null),
   ("const", .const), ("in", .in_), ("after", .after), ("callback", .callback), ("hide", .hide),
   ("seal", .seal), ("except", .except), ("try", .try_), ("catch", .catch_), ("panic", .panic),
   ("ptr", .ptr), ("int", .int), ("long", .int64), ("float", .float), ("bool", .bool),
   ("byte", .byte), ("string", .string), ("ActorRef", .actorRef), ("actor_ref", .actorRef),
   ("Message", .message), ("true", .true_), ("false", .false_), ("print", .print)]

def readIdentifier (s : Str) : Token × Str :=
  let buffer := s.takeWhile isWord
  let type := ((keywords.find? fun k => ascii k.1 = buffer).map (·.2)).getD .identifier
  (createToken type buffer, s.dropWhile isWord)

/-! ### Heredocs -/

def lineEnds (s : Str) : Bool :=
  s.isEmpty || s.head? == some newline || (s.head? == some cr && s.tail.head? == some newline)

/-- The marker stands here, at the end of a line. -/
def closes (marker s : Str) : Bool := marker.isPrefixOf s && lineEnds (s.drop marker.length)

def skipLineEnd (s : Str) : Str :=
  let s := if s.head? = some cr then s.tail else s
  if s.head? = some newline then s.tail else s

/-- The loop looks for the marker at every character. -/
def heredocLoop (marker buf : Str) : Str → Str × Str
  | [] => (buf, [])
  | c :: t =>
    if closes marker (c :: t) then (buf, skipLineEnd ((c :: t).drop marker.length))
    else
      heredocLoop marker
        (if c ≠ cr ∨ (t ≠ [] ∧ t.head? ≠ some newline) then buf ++ [c] else buf) t

def maxIdentifierLength : ℕ := 256

/-- A heredoc, after the `<<`. -/
def readHeredoc (s : Str) : Token × Str :=
  let marker := (s.takeWhile isWord).take (maxIdentifierLength - 1)
  let line := (s.drop marker.length).dropWhile (· ≠ newline)
  let (buf, t) := heredocLoop marker [] line.tail
  (createToken .stringLiteral (if buf.getLast? = some newline then buf.dropLast else buf), t)

/-! ### Operators -/

/-- What the switch of `next_token` knows, a longer operator before those it starts with. -/
def operators : List (String × TokenType) :=
  [("++", .increment), ("+=", .plusAssign), ("+", .plus), ("->", .arrow), ("--", .decrement),
   ("-=", .minusAssign), ("-", .minus), ("*=", .multiplyAssign), ("*", .multiply),
   ("/=", .divideAssign), ("/", .divide), ("%=", .moduloAssign), ("%", .modulo), ("==", .equals),
   ("=", .assign), ("!=", .notEquals), ("!", .exclaim), ("<=", .lessEqual), ("<<=", .lshiftAssign),
   ("<<", .lshift), ("<", .less), (">=", .greaterEqual), (">>=", .rshiftAssign), (">>", .rshift),
   (">", .greater), ("&&", .and), ("&=", .andAssign), ("&", .ampersand), ("||", .or),
   ("|=", .orAssign), ("|", .pipe), ("^=", .xorAssign), ("^", .caret), ("~", .tilde),
   ("(", .leftParen), (")", .rightParen), ("\x7b", .leftBrace), ("\x7d", .rightBrace),
   ("[", .leftBracket), ("]", .rightBracket), (";", .semicolon), (",", .comma), ("..", .dotdot),
   (".", .dot), (":", .colon), ("?", .question), ("@", .at_)]

def readOperator (s : Str) : Token × Str :=
  match operators.find? fun op => (ascii op.1).isPrefixOf s with
  | some op => (createToken op.2 (ascii op.1), s.drop (ascii op.1).length)
  | none => (createToken .error (s.take 1), s.tail)

def nextToken (source : Str) : Token × Str :=
  let s := skipBlanks source
  match s with
  | [] => (⟨.eof, none⟩, [])
  | c :: t =>
    if c = quote then readString t
    else if isDigit c then readNumber s
    else if isWordStart c then readIdentifier s
    else if c = lessChar ∧ t.head? = some lessChar ∧ t.tail.head?.any isWordStart then
      readHeredoc t.tail
    else readOperator s

/-! ### What a literal means -/

/-- What a string literal is written with: a character, a backslash and a character, or a number in
base 16 or 8. -/
inductive Piece
  | char (c : UInt8)
  | escape (c : UInt8)
  | hex (digits : Str)
  | octal (digits : Str)
  deriving DecidableEq

def Piece.text : Piece → Str
  | char c => [c]
  | escape c => [backslash, c]
  | hex digits => backslash :: xChar :: digits
  | octal digits => backslash :: digits

/-- A character after a backslash stands for itself, but for three letters. -/
def Piece.byte : Piece → UInt8
  | char c => c
  | escape c => if c = 0x6e then newline else if c = 0x74 then 0x09 else if c = 0x72 then cr else c
  | hex digits => UInt8.ofNat (digitsValue 16 digits)
  | octal digits => UInt8.ofNat (digitsValue 8 digits)

/-- The piece can be written and ends where `rest` starts. -/
def Piece.Before (rest : Str) : Piece → Prop
  | char c => c ≠ quote ∧ c ≠ backslash ∧ ¬(c = dollar ∧ rest.head? = some openBrace)
  | escape c => isOctal c = false ∧ (c = xChar → ∀ d, rest.head? = some d → isXdigit d = false)
  | hex digits => digits ≠ [] ∧ digits.length ≤ 2 ∧ (∀ d ∈ digits, isXdigit d = true) ∧
      (digits.length < 2 → ∀ d, rest.head? = some d → isXdigit d = false)
  | octal digits => digits ≠ [] ∧ digits.length ≤ 3 ∧ (∀ d ∈ digits, isOctal d = true) ∧
      (digits.length < 3 → ∀ d, rest.head? = some d → isOctal d = false)

/-- The pieces up to the closing quote. -/
def Spelled (rest : Str) : List Piece → Str → Prop
  | [], s => s = quote :: rest
  | p :: ps, s => ∃ t, s = p.text ++ t ∧ p.Before t ∧ Spelled rest ps t

def StringAt (pieces : List Piece) (rest source : Str) : Prop :=
  ∃ s, source = quote :: s ∧ Spelled rest pieces s

/-- The value of digits with at most one dot among them. -/
def numeralValue (text : Str) : Option ℚ :=
  let whole := text.takeWhile isDigit
  let part := text.dropWhile isDigit
  if part = [] then some (digitsValue 10 whole)
  else if part.head? = some dotChar ∧ part.tail.all isDigit then
    some (digitsValue 10 whole + digitsValue 10 part.tail / 10 ^ part.tail.length)
  else none

def Token.Carries (token : Token) (value : ℚ) : Prop :=
  (token.type = .number ∨ token.type = .int64Literal) ∧ token.value.bind numeralValue = some value

/-- The base that a letter after the zero stands for, and its digits. -/
def radixOf (letter : UInt8) : Option (ℕ × (UInt8 → Bool)) :=
  if letter = xChar ∨ letter = 0x58 then some (16, isXdigit)
  else if letter = 0x6f ∨ letter = 0x4f then some (8, isOctal)
  else if letter = 0x62 ∨ letter = 0x42 then some (2, isBinary)
  else none

structure RadixAt (base : ℕ) (digits rest source : Str) : Prop where
  written : ∃ letter isDig run, radixOf letter = some (base, isDig) ∧
    (∀ c ∈ run, isDig c = true ∨ c = underscore) ∧ digits = run.filter (· ≠ underscore) ∧
    (∀ d, rest.head? = some d → isDig d = false ∧ d ≠ underscore) ∧
    source = zeroChar :: letter :: (run ++ rest)

/-- A dot is part of the number where no dot follows it. -/
structure DecimalAt (text rest source : Str) : Prop where
  first : ∃ d, text.head? = some d ∧ isDigit d = true
  noRadix : text.head? = some zeroChar → ∀ c, source.tail.head? = some c → radixOf c = none
  chars : ∀ u c t, text ++ rest = u ++ c :: t → u.length < text.length →
    isDigit c = true ∨ (c = dotChar ∧ t.head? ≠ some dotChar)
  stops : ∀ c t, rest = c :: t → isDigit c = false ∧ (c = dotChar → t.head? = some dotChar)
  source_eq : source = text ++ rest

/-- What follows a line: a line end, or the end of the source. -/
def EndsLine (line ending rest : Str) : Prop :=
  ending = [cr, newline] ∨
    (line.getLast? ≠ some cr ∧ (ending = [newline] ∨ (ending = [] ∧ rest = [])))

/-- The lines before the first one that is the marker. -/
def LinesTo (marker rest : Str) : List Str → Str → Prop
  | [], s => ∃ ending, EndsLine marker ending rest ∧ s = marker ++ ending ++ rest
  | l :: ls, s => l ≠ marker ∧ newline ∉ l ∧ ∃ ending t, ending ≠ [] ∧ EndsLine l ending t ∧
      s = l ++ ending ++ t ∧ LinesTo marker rest ls t

def HeredocAt (marker : Str) (lines : List Str) (rest source : Str) : Prop :=
  (∃ c, marker.head? = some c ∧ isWordStart c = true) ∧ (∀ c ∈ marker, isWord c = true) ∧
    ∃ remark body, newline ∉ remark ∧ (∀ c, remark.head? = some c → isWord c = false) ∧
      LinesTo marker rest lines body ∧
      source = lessChar :: lessChar :: (marker ++ remark ++ newline :: body)

def joinLines (lines : List Str) : Str := List.intercalate [newline] lines

/-- A text of C has no zero byte in it. -/
abbrev Source := {s : Str // (0 : UInt8) ∉ s}

/-- Every literal at the start of the text gives a token that carries what is written. -/
structure Meant (source : Str) : Prop where
  string : ∀ pieces rest, StringAt pieces rest source →
    nextToken source = (⟨.stringLiteral, some (pieces.map Piece.byte)⟩, rest)
  radix : ∀ base digits rest, RadixAt base digits rest source →
    (nextToken source).1.type = .error ∨
      digits ≠ [] ∧ (nextToken source).1.Carries (digitsValue base digits)
  decimal : ∀ text rest, DecimalAt text rest source →
    (nextToken source).1.type = .error ∨
      ∃ value, numeralValue text = some value ∧ (nextToken source).1.Carries value
  heredoc : ∀ marker lines rest, HeredocAt marker lines rest source →
    nextToken source = (⟨.stringLiteral, some (joinLines lines)⟩, rest)

/-- The literals that the lexer reads as they are written. -/
structure Plain (source : Str) : Prop where
  string : ∀ pieces rest, StringAt pieces rest source → ∀ p ∈ pieces, p.byte ≠ 0
  radix : ∀ base digits rest, RadixAt base digits rest source →
    digits ≠ [] ∧ digitsValue base digits ≤ longMax
  decimal : ∀ text rest, DecimalAt text rest source → text.count dotChar ≤ 1
  heredoc : ∀ marker lines rest, HeredocAt marker lines rest source →
    marker.length < maxIdentifierLength ∧ ∀ l ∈ lines, ¬marker <:+ l

end Lexer

end Aether

end Qjs
