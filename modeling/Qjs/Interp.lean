import Qjs.AetherLexer

/-!
# Interpolated strings

`parse_interp_string_expr` on the token that `read_string` gives. `parse_expression` is a parameter:
of a list of tokens it gives a node and the tokens it has not read, or nothing. Memory does not run
out.
-/

namespace Qjs

namespace Aether

namespace Interp

open Lexer

/-! ### The tokens of an expression -/

def closeBrace : UInt8 := 0x7d

def interpMaxTokens : ℕ := 512

/-- The loop over `sub_tokens`, which has room for `n` more of them. -/
def subTokens : ℕ → Str → List Token
  | 0, _ => []
  | n + 1, s =>
    if (nextToken s).1.type = .eof ∨ (nextToken s).1.type = .error then [(nextToken s).1]
    else (nextToken s).1 :: subTokens n (nextToken s).2

/-- What the parser of an expression is given: the end of the text is left out. -/
def exprTokens (s : Str) : List Token :=
  let tokens := subTokens (interpMaxTokens - 1) s
  if tokens.getLast?.any (·.type = .eof) then tokens.dropLast else tokens

/-- The text up to the brace that closes the expression, and the text from that brace on. -/
def exprSpan (depth : ℕ) : Str → Str × Str
  | [] => ([], [])
  | c :: t =>
    if c = openBrace then (c :: (exprSpan (depth + 1) t).1, (exprSpan (depth + 1) t).2)
    else if c = closeBrace then
      if depth = 1 then ([], c :: t)
      else (c :: (exprSpan (depth - 1) t).1, (exprSpan (depth - 1) t).2)
    else (c :: (exprSpan depth t).1, (exprSpan depth t).2)

theorem length_exprSpan_le (depth : ℕ) (s : Str) : (exprSpan depth s).2.length ≤ s.length := by
  fun_induction exprSpan depth s <;> simp_all <;> omega

/-! ### parse_interp_string_expr -/

inductive Part
  | text (value : Str)
  | expr (tokens : List Token)
  deriving DecidableEq

/-- What an escape of a text part is replaced by, after the character that `code` is. -/
def interpEscape (code : UInt8) (s : Str) : UInt8 × Str :=
  if code = xChar then
    let (digits, t) := digitsUpTo 2 isXdigit s
    (if digits ≠ [] then UInt8.ofNat (digitsValue 16 digits) else xChar, t)
  else if isOctal code then
    let (digits, t) := digitsUpTo 2 isOctal s
    (UInt8.ofNat (digitsValue 8 (code :: digits) % 256), t)
  else
    (if code = 0x6e then newline else if code = 0x74 then 0x09 else if code = 0x72 then cr
      else if code = backslash then backslash else if code = quote then quote else code, s)

theorem length_interpEscape_le (code : UInt8) (s : Str) :
    (interpEscape code s).2.length ≤ s.length := by
  unfold interpEscape
  dsimp only
  split_ifs <;> first | exact le_rfl | exact length_digitsUpTo_le _ _ s

/-- A text is copied to its node with `strdup`. -/
def textPart (lit : Str) : Part := .text (lit.takeWhile (· ≠ 0))

def interpLoop (lit : Str) (s : Str) : List Part :=
  match s with
  | [] => [textPart lit]
  | c :: t =>
    if c = dollar ∧ t.head? = some openBrace then
      textPart lit :: .expr (exprTokens (exprSpan 1 t.tail).1) ::
        interpLoop [] (exprSpan 1 t.tail).2.tail
    else if c = backslash then
      match t with
      | [] => interpLoop (lit ++ [backslash]) []
      | code :: t => interpLoop (lit ++ [(interpEscape code t).1]) (interpEscape code t).2
    else interpLoop (lit ++ [c]) t
termination_by s.length
decreasing_by
  · have := length_exprSpan_le 1 t.tail
    simp at this ⊢
    omega
  · simp
  · simpa using Nat.lt_succ_of_lt (Nat.lt_succ_of_le (length_interpEscape_le code t))
  · simp

variable {Node : Type*} (parse : List Token → Option (Node × List Token))

inductive Child (Node : Type*)
  | literal (value : Str)
  | node (n : Node)

/-- No child is added for an expression that has no node. -/
def parseInterpString (raw : Str) : List (Child Node) :=
  (interpLoop [] raw).filterMap fun
    | .text value => some (.literal value)
    | .expr tokens => (parse tokens).map fun r => .node r.1

/-! ### What is written -/

/-- The text has these tokens, and no error. -/
inductive Lexed : Str → List Token → Prop
  | eof {s : Str} (h : (nextToken s).1.type = .eof) : Lexed s []
  | token {s : Str} {tokens : List Token} (heof : (nextToken s).1.type ≠ .eof)
      (herror : (nextToken s).1.type ≠ .error) (h : Lexed (nextToken s).2 tokens) :
      Lexed s ((nextToken s).1 :: tokens)

/-- Every brace is closed, with `depth` of them open before the text. -/
def Balanced : ℕ → Str → Prop
  | depth, [] => depth = 0
  | depth, c :: t =>
    if c = openBrace then Balanced (depth + 1) t
    else if c = closeBrace then 0 < depth ∧ Balanced (depth - 1) t
    else Balanced depth t

/-- A text that `parse_expression` reads to its end. -/
structure Expression where
  text : Str
  tokens : List Token
  node : Node
  balanced : Balanced 0 text
  lexed : Lexed text tokens
  parsed : parse tokens = some (node, [])

def spell (pieces : List Piece) : Str := pieces.flatMap Piece.text

/-- The pieces can be written one after the other, and `after` behind them. -/
def Fits : List Piece → Str → Prop
  | [], _ => True
  | p :: ps, after => p.Before (spell ps ++ after) ∧ Fits ps after

variable {parse}

def tailText : List (Expression parse × List Piece) → Str
  | [] => []
  | (e, pieces) :: l =>
    dollar :: openBrace :: (e.text ++ closeBrace :: (spell pieces ++ tailText l))

def FitsTail : List (Expression parse × List Piece) → Str → Prop
  | [], _ => True
  | (_, pieces) :: l, after => Fits pieces (tailText l ++ after) ∧ FitsTail l after

variable (parse)

/-- An interpolated string and what follows its closing quote. -/
structure Literal where
  first : List Piece
  parts : List (Expression parse × List Piece)
  rest : Str
  parts_ne : parts ≠ []
  fits : Fits first (tailText parts ++ quote :: rest)
  fits_tail : FitsTail parts (quote :: rest)
  ne_zero : (0 : UInt8) ∉ spell first ++ tailText parts ++ rest

variable {parse}

def Literal.source (l : Literal parse) : Str :=
  quote :: (spell l.first ++ (tailText l.parts ++ quote :: l.rest))

def bytes (pieces : List Piece) : Str := pieces.map Piece.byte

def Literal.expected (l : Literal parse) : List Part :=
  .text (bytes l.first) :: l.parts.flatMap fun p => [.expr p.1.tokens, .text (bytes p.2)]

def Literal.children (l : Literal parse) : List (Child Node) :=
  .literal (bytes l.first) :: l.parts.flatMap fun p => [.node p.1.node, .literal (bytes p.2)]

/-- The literal is read as it is written: each text decoded once, each expression parsed from all of
its text. -/
def Literal.Decoded (l : Literal parse) : Prop :=
  ∃ raw, nextToken l.source = (⟨.interpString, some raw⟩, l.rest) ∧
    interpLoop [] raw = l.expected ∧ parseInterpString parse raw = l.children

/-- Whether a backslash is pending after the text; nothing if a quote without one is in it. -/
def escaped : Bool → Str → Option Bool
  | pending, [] => some pending
  | true, _ :: t => escaped false t
  | false, c :: t => if c = quote then none else escaped (c == backslash) t

structure Literal.Clean (l : Literal parse) : Prop where
  first_ne_zero : 0 ∉ bytes l.first
  first_no_backslash : backslash ∉ bytes l.first
  first_no_interp : ¬[dollar, openBrace] <:+: bytes l.first
  text_ne_zero : ∀ p ∈ l.parts, 0 ∉ bytes p.2
  no_quote : ∀ p ∈ l.parts, escaped false p.1.text ≠ none
  tokens_le : ∀ p ∈ l.parts, p.1.tokens.length ≤ interpMaxTokens - 1

end Interp

end Aether

end Qjs
