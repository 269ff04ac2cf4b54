import Qjs.AetherLexer

/-!
# Expressions of Aether

`parse_expression` and what it is made of. Functions that only other forms of an expression come to
(an `if`, a closure, a literal of an array or of a structure, a message, a block behind a call) are
parameters. A parser is the list of the tokens that are left, lines and columns are left out, and
`fuel` bounds the calls in one another.
-/

namespace Qjs

namespace Aether

namespace Parser

open Lexer

/-! ### Nodes -/

inductive NodeType
  | literal | nullLiteral | identifier | binaryExpression | unaryExpression | memberAccess
  | arrayAccess | ptrAsStructCast | functionCall | namedArg | sendFireForget | sendAsk | actorRef
  | stringInterp | ifExpression | structLiteral | arrayLiteral | printStatement | closure
  | messageConstructor
  deriving DecidableEq

inductive TypeKind
  | unknown | string | bool | ptr | int64
  deriving DecidableEq

inductive Node
  | mk (type : NodeType) (value : Option Str) (nodeType : Option TypeKind) (children : List Node)

def Node.type : Node → NodeType
  | mk type _ _ _ => type

def Node.value : Node → Option Str
  | mk _ value _ _ => value

def Node.children : Node → List Node
  | mk _ _ _ children => children

def literalNode (t : Token) : Node :=
  .mk .literal t.value
    (some (if t.type = .stringLiteral then .string
      else if t.type = .true_ ∨ t.type = .false_ then .bool else .unknown)) []

def nullNode : Node := .mk .nullLiteral (some (ascii "null")) (some .ptr) []

def identifierNode (t : Token) : Node := .mk .identifier t.value (some .unknown) []

def binaryNode (left : Node) (op : Token) (right : Node) : Node :=
  .mk .binaryExpression op.value none [left, right]

def unaryNode (operand : Node) (op : Token) : Node :=
  .mk .unaryExpression op.value none [operand]

def memberNode (expr : Node) (field : Token) : Node := .mk .memberAccess field.value none [expr]

def arrayNode (expr index : Node) : Node := .mk .arrayAccess none none [expr, index]

def castNode (expr : Node) (name : Token) : Node := .mk .ptrAsStructCast name.value none [expr]

def sendNode (expr message : Node) : Node := .mk .sendFireForget none none [expr, message]

def askNode (expr message : Node) : Node := .mk .sendAsk none none [expr, message]

def namedArgNode (name : Token) (value : Node) : Node := .mk .namedArg name.value none [value]

/-- The name of a simple call or of a call in a namespace, which `snprintf` cuts. -/
def callName (expr : Node) : Option Str :=
  if expr.type = .identifier then expr.value
  else if expr.type = .memberAccess then
    match expr.value, expr.children.head? with
    | some value, some child =>
      if child.type = .identifier then
        some ((child.value.getD [] ++ dotChar :: value).take 255)
      else none
    | _, _ => none
  else none

def callNode (expr : Node) (args : List Node) : Node := .mk .functionCall (callName expr) none args

/-! ### Tokens -/

def headIs (type : TokenType) (toks : List Token) : Bool := toks.head?.any (·.type = type)

def isReservedKeyword (t : Token) : Bool :=
  t.type ≠ .identifier && t.value.any fun s => s.head?.any isWordStart && s.tail.all isWord

def getOperatorPrecedence : TokenType → ℤ
  | .assign => 0
  | .or => 1
  | .and => 2
  | .pipe => 3
  | .caret => 4
  | .ampersand => 5
  | .equals | .notEquals => 6
  | .less | .lessEqual | .greater | .greaterEqual => 7
  | .lshift | .rshift => 8
  | .plus | .minus => 9
  | .multiply | .divide | .modulo => 10
  | .increment | .decrement => 11
  | _ => -1

def isPrefixOp (type : TokenType) : Bool :=
  type = .exclaim || type = .minus || type = .tilde || type = .increment || type = .decrement

/-- What looks like the second operand of `?` as other languages have it. -/
def ternaryLike (t : Token) : Bool :=
  (t.type = .identifier && t.value.any fun s => s.head?.any fun c => 0x61 ≤ c && c ≤ 0x7a) ||
    t.type = .number || t.type = .leftParen || t.type = .minus || t.type = .string

/-- The tokens behind an identifier are those of a structure's literal. -/
def looksLikeStruct (toks : List Token) : Bool :=
  headIs .leftBrace toks && (headIs .rightBrace toks.tail ||
    (headIs .identifier toks.tail && headIs .colon toks.tail.tail))

/-! ### parse_expression -/

/-- The functions that are parameters: the other cases of the switch over the first token, the
constructor of a message, what follows a call, and the text of an interpolated string. -/
structure Others where
  primary : List Token → Option (Node × List Token)
  message : List Token → Option (Node × List Token)
  trailing : List Token → Option Node × List Token
  interp : Str → Node

def maxBinaryOps : ℕ := 1000

def maxPostfixOps : ℕ := 100

/-- A closure or a block behind the closing parenthesis of a call. -/
def callTail (o : Others) (toks : List Token) : Option Node × List Token :=
  if headIs .callback toks || headIs .pipe toks || headIs .or toks || headIs .leftBrace toks then
    o.trailing toks
  else (none, toks)

mutual

def parseBinary (o : Others) : ℕ → ℤ → List Token → Option (Node × List Token)
  | 0, _, _ => none
  | fuel + 1, prec, toks =>
    (parseUnary o fuel toks).bind fun r => binaryLoop o fuel maxBinaryOps prec r.1 r.2

/-- The loop of `parse_binary_expression`, with `n` operators left to its limit. -/
def binaryLoop (o : Others) : ℕ → ℕ → ℤ → Node → List Token → Option (Node × List Token)
  | 0, _, _, _, _ => none
  | fuel + 1, n, prec, left, toks =>
    match n, toks with
    | 0, _ => some (left, toks)
    | _ + 1, [] => some (left, toks)
    | n + 1, op :: rest =>
      if getOperatorPrecedence op.type < 0 then some (left, toks)
      else if getOperatorPrecedence op.type < prec then some (left, toks)
      else
        (parseBinary o fuel (getOperatorPrecedence op.type + 1) rest).bind fun r =>
          binaryLoop o fuel n prec (binaryNode left op r.1) r.2

def parseUnary (o : Others) : ℕ → List Token → Option (Node × List Token)
  | 0, _ => none
  | _ + 1, [] => none
  | fuel + 1, op :: rest =>
    if isPrefixOp op.type then (parseUnary o fuel rest).map fun r => (unaryNode r.1 op, r.2)
    else parsePostfix o fuel (op :: rest)

def parsePostfix (o : Others) : ℕ → List Token → Option (Node × List Token)
  | 0, _ => none
  | fuel + 1, toks =>
    (parsePrimary o fuel toks).bind fun r => postfixLoop o fuel maxPostfixOps r.1 r.2

/-- The loop of `parse_postfix_expression`, with `n` forms left to its limit. -/
def postfixLoop (o : Others) : ℕ → ℕ → Node → List Token → Option (Node × List Token)
  | 0, _, _, _ => none
  | fuel + 1, n, expr, toks =>
    match n, toks with
    | 0, _ => some (expr, toks)
    | _ + 1, [] => some (expr, toks)
    | n + 1, op :: rest =>
      if op.type = .increment ∨ op.type = .decrement then
        postfixLoop o fuel n (unaryNode expr op) rest
      else if op.type = .dot then
        match rest with
        | [] => none
        | field :: rest =>
          if field.type = .identifier || isReservedKeyword field then
            postfixLoop o fuel n (memberNode expr field) rest
          else none
      else if op.type = .leftBracket then
        (parseBinary o fuel 0 rest).bind fun r =>
          if headIs .rightBracket r.2 then postfixLoop o fuel n (arrayNode expr r.1) r.2.tail
          else none
      else if op.type = .as_ then
        match rest with
        | times :: name :: rest =>
          if times.type = .multiply ∧ name.type = .identifier then
            postfixLoop o fuel n (castNode expr name) rest
          else none
        | _ => none
      else if op.type = .leftParen then
        (callArgs o fuel rest).bind fun r =>
          postfixLoop o fuel n (callNode expr (r.1 ++ (callTail o r.2).1.toList)) (callTail o r.2).2
      else if op.type = .exclaim then
        (o.message rest).bind fun r => postfixLoop o fuel n (sendNode expr r.1) r.2
      else if op.type = .question then
        if rest.head?.any ternaryLike then some (expr, toks)
        else (o.message rest).bind fun r => postfixLoop o fuel n (askNode expr r.1) r.2
      else some (expr, toks)

/-- The arguments of a call and the closing parenthesis. -/
def callArgs (o : Others) : ℕ → List Token → Option (List Node × List Token)
  | 0, _ => none
  | fuel + 1, toks =>
    if headIs .rightParen toks then some ([], toks.tail) else argsLoop o fuel toks

def argsLoop (o : Others) : ℕ → List Token → Option (List Node × List Token)
  | 0, _ => none
  | fuel + 1, toks =>
    (parseArg o fuel toks).bind fun r =>
      if headIs .comma r.2 then (argsLoop o fuel r.2.tail).map fun s => (r.1 :: s.1, s.2)
      else if headIs .rightParen r.2 then some ([r.1], r.2.tail)
      else none

def parseArg (o : Others) : ℕ → List Token → Option (Node × List Token)
  | 0, _ => none
  | fuel + 1, toks =>
    match toks with
    | name :: colon :: rest =>
      if name.type = .identifier ∧ colon.type = .colon then
        (parseBinary o fuel 0 rest).map fun r => (namedArgNode name r.1, r.2)
      else parseBinary o fuel 0 toks
    | _ => parseBinary o fuel 0 toks

def parsePrimary (o : Others) : ℕ → List Token → Option (Node × List Token)
  | 0, _ => none
  | _ + 1, [] => none
  | fuel + 1, token :: rest =>
    match token.type with
    | .number | .stringLiteral | .true_ | .false_ => some (literalNode token, rest)
    | .null => some (nullNode, rest)
    | .interpString => some (o.interp (token.value.getD []), rest)
    | .string | .int | .float | .bool =>
      if headIs .dot rest then some (identifierNode token, rest) else none
    | .identifier =>
      if looksLikeStruct rest then o.primary (token :: rest) else some (identifierNode token, rest)
    | .leftParen =>
      (parseBinary o fuel 0 rest).bind fun r =>
        if headIs .rightParen r.2 then some (r.1, r.2.tail) else none
    | .self => some (.mk .actorRef (some (ascii "self")) none [], rest)
    | .state => some (identifierNode token, rest)
    | .if_ | .leftBracket | .make | .spawn | .print | .pipe | .or => o.primary (token :: rest)
    | _ => none

end

def parseExpression (o : Others) (fuel : ℕ) (toks : List Token) : Option (Node × List Token) :=
  parseBinary o fuel 0 toks

/-! ### What is written -/

inductive Kind
  | post | operand | expr | args

/-- An expression as a tree. Only a parenthesis that is written has a node of the tree. -/
inductive Syn : Kind → Type
  | atom (t : Token) : Syn .post
  | paren (e : Syn .expr) : Syn .post
  | step (p : Syn .post) (op : Token) : Syn .post
  | member (p : Syn .post) (field : Token) : Syn .post
  | index (p : Syn .post) (i : Syn .expr) : Syn .post
  | call (p : Syn .post) (args : Syn .args) : Syn .post
  | cast (p : Syn .post) (name : Token) : Syn .post
  | send (p : Syn .post) (message : List Token) (node : Node) : Syn .post
  | ask (p : Syn .post) (message : List Token) (node : Node) : Syn .post
  | post (p : Syn .post) : Syn .operand
  | unary (op : Token) (e : Syn .operand) : Syn .operand
  | operand (e : Syn .operand) : Syn .expr
  | binary (l : Syn .expr) (op : Token) (r : Syn .expr) : Syn .expr
  | noArgs : Syn .args
  | arg (name : Option Token) (e : Syn .expr) (args : Syn .args) : Syn .args

def punct (type : TokenType) (text : String) : Token := ⟨type, some (ascii text)⟩

def leftParen : Token := punct .leftParen "("
def rightParen : Token := punct .rightParen ")"
def leftBracket : Token := punct .leftBracket "["
def rightBracket : Token := punct .rightBracket "]"
def comma : Token := punct .comma ","
def colon : Token := punct .colon ":"
def dot : Token := punct .dot "."
def asWord : Token := punct .as_ "as"
def times : Token := punct .multiply "*"
def exclaim : Token := punct .exclaim "!"
def question : Token := punct .question "?"

def nameTokens : Option Token → List Token
  | none => []
  | some name => [name, colon]

def Syn.isNoArgs : Syn .args → Bool
  | noArgs => true
  | arg _ _ _ => false

/-- The tokens of the arguments are those between the parentheses. -/
def Syn.tokens : {k : Kind} → Syn k → List Token
  | _, atom t => [t]
  | _, paren e => leftParen :: (e.tokens ++ [rightParen])
  | _, step p op => p.tokens ++ [op]
  | _, member p field => p.tokens ++ [dot, field]
  | _, index p i => p.tokens ++ leftBracket :: (i.tokens ++ [rightBracket])
  | _, call p args => p.tokens ++ leftParen :: (args.tokens ++ [rightParen])
  | _, cast p name => p.tokens ++ [asWord, times, name]
  | _, send p message _ => p.tokens ++ exclaim :: message
  | _, ask p message _ => p.tokens ++ question :: message
  | _, post p => p.tokens
  | _, unary op e => op :: e.tokens
  | _, operand e => e.tokens
  | _, binary l op r => l.tokens ++ op :: r.tokens
  | _, noArgs => []
  | _, arg name e args =>
    nameTokens name ++ (e.tokens ++ if args.isNoArgs then [] else comma :: args.tokens)

def atomNode (o : Others) (t : Token) : Node :=
  if t.type = .null then nullNode
  else if t.type = .interpString then o.interp (t.value.getD [])
  else if t.type = .identifier then identifierNode t
  else literalNode t

abbrev Kind.Out : Kind → Type
  | args => List Node
  | _ => Node

def argNode : Option Token → Node → Node
  | none, n => n
  | some name, n => namedArgNode name n

/-- The node of the tree, with the representation that the parser gives to each form. -/
def Syn.node (o : Others) : {k : Kind} → Syn k → k.Out
  | _, atom t => atomNode o t
  | _, paren e => e.node o
  | _, step p op => unaryNode (p.node o) op
  | _, member p field => memberNode (p.node o) field
  | _, index p i => arrayNode (p.node o) (i.node o)
  | _, call p args => callNode (p.node o) (args.node o)
  | _, cast p name => castNode (p.node o) name
  | _, send p _ message => sendNode (p.node o) message
  | _, ask p _ message => askNode (p.node o) message
  | _, post p => p.node o
  | _, unary op e => unaryNode (e.node o) op
  | _, operand e => e.node o
  | _, binary l op r => binaryNode (l.node o) op (r.node o)
  | _, noArgs => []
  | _, arg name e args => argNode name (e.node o) :: args.node o

/-- The literals and identifiers of the lexer. -/
def isAtom (type : TokenType) : Bool :=
  type = .number || type = .int64Literal || type = .stringLiteral || type = .interpString ||
    type = .true_ || type = .false_ || type = .null || type = .identifier

/-- `++` and `--` stand in the table too, and take one operand. -/
def isBinaryOp (type : TokenType) : Bool :=
  0 ≤ getOperatorPrecedence type && type ≠ .increment && type ≠ .decrement

/-- The tokens are a message for `parse_message_constructor`, whatever follows but a brace. -/
def IsMessage (o : Others) (message : List Token) (node : Node) : Prop :=
  message ≠ [] ∧ ∀ after, headIs .leftBrace after = false →
    o.message (message ++ after) = some (node, after)

/-- Every part of the tree is of the form that its place asks for. -/
def Syn.Legal (o : Others) : {k : Kind} → Syn k → Prop
  | _, atom t => isAtom t.type = true
  | _, paren e => e.Legal o
  | _, step p op => p.Legal o ∧ (op.type = .increment ∨ op.type = .decrement)
  | _, member p field => p.Legal o ∧ (field.type = .identifier || isReservedKeyword field) = true
  | _, index p i => p.Legal o ∧ i.Legal o
  | _, call p args => p.Legal o ∧ args.Legal o
  | _, cast p name => p.Legal o ∧ name.type = .identifier
  | _, send p message node => p.Legal o ∧ IsMessage o message node
  | _, ask p message node =>
    p.Legal o ∧ IsMessage o message node ∧ message.head?.any ternaryLike = false
  | _, post p => p.Legal o
  | _, unary op e => e.Legal o ∧ isPrefixOp op.type = true
  | _, operand e => e.Legal o
  | _, binary l op r => l.Legal o ∧ r.Legal o ∧ isBinaryOp op.type = true
  | _, noArgs => True
  | _, arg name e args => (∀ t, name = some t → t.type = .identifier) ∧ e.Legal o ∧ args.Legal o

/-- The operator at the root binds at least as tightly as `prec` says. -/
def Syn.Above (prec : ℤ) : Syn .expr → Prop
  | operand _ => True
  | binary _ op _ => prec ≤ getOperatorPrecedence op.type

def isRightAssoc (type : TokenType) : Bool := type = .assign

/-- The tree is that of the table: of two operators the one that binds tighter is below the other,
and of two that bind alike the left one, or the right one for an assignment. -/
def Syn.Table : {k : Kind} → Syn k → Prop
  | _, atom _ => True
  | _, paren e => e.Table
  | _, step p _ => p.Table
  | _, member p _ => p.Table
  | _, index p i => p.Table ∧ i.Table
  | _, call p args => p.Table ∧ args.Table
  | _, cast p _ => p.Table
  | _, send p _ _ => p.Table
  | _, ask p _ _ => p.Table
  | _, post p => p.Table
  | _, unary _ e => e.Table
  | _, operand e => e.Table
  | _, binary l op r => l.Table ∧ r.Table ∧
    l.Above (getOperatorPrecedence op.type + if isRightAssoc op.type then 1 else 0) ∧
    r.Above (getOperatorPrecedence op.type + if isRightAssoc op.type then 0 else 1)
  | _, noArgs => True
  | _, arg _ e args => e.Table ∧ args.Table

/-! ### What the parser has room for -/

/-- The postfix forms behind an operand. -/
def Syn.forms : {k : Kind} → Syn k → ℕ
  | _, step p _ => p.forms + 1
  | _, member p _ => p.forms + 1
  | _, index p _ => p.forms + 1
  | _, call p _ => p.forms + 1
  | _, cast p _ => p.forms + 1
  | _, send p _ _ => p.forms + 1
  | _, ask p _ _ => p.forms + 1
  | _, _ => 0

/-- The operators on the way down to the left. -/
def Syn.spine : {k : Kind} → Syn k → ℕ
  | _, binary l _ _ => l.spine + 1
  | _, _ => 0

/-- The last operand ends with a call. -/
def Syn.endsInCall : {k : Kind} → Syn k → Bool
  | _, call _ _ => true
  | _, post p => p.endsInCall
  | _, unary _ e => e.endsInCall
  | _, operand e => e.endsInCall
  | _, binary _ _ r => r.endsInCall
  | _, _ => false

/-- What the parser reads as the table has it: no literal of 64 bits, no `|` or `||` right behind a
call, no assignment to the right of an assignment, and no more forms and operators than the loops
count. -/
def Syn.Within : {k : Kind} → Syn k → Prop
  | _, atom t => t.type ≠ .int64Literal
  | _, paren e => e.Within ∧ e.spine ≤ maxBinaryOps
  | _, step p _ => p.Within
  | _, member p _ => p.Within
  | _, index p i => p.Within ∧ i.Within ∧ i.spine ≤ maxBinaryOps
  | _, call p args => p.Within ∧ args.Within
  | _, cast p _ => p.Within
  | _, send p _ _ => p.Within
  | _, ask p _ _ => p.Within
  | _, post p => p.Within ∧ p.forms ≤ maxPostfixOps
  | _, unary _ e => e.Within
  | _, operand e => e.Within
  | _, binary l op r => l.Within ∧ r.Within ∧ r.spine ≤ maxBinaryOps ∧
    (l.endsInCall = true → op.type ≠ .pipe ∧ op.type ≠ .or) ∧
    (op.type = .assign → r.Above 1)
  | _, noArgs => True
  | _, arg _ e args => e.Within ∧ e.spine ≤ maxBinaryOps ∧ args.Within

/-- A sequence of operands and operators with its tree by the table. -/
structure Sequence (o : Others) where
  tree : Syn .expr
  legal : tree.Legal o
  table : tree.Table

/-- What does not go on with the expression before it. -/
def Ends (rest : List Token) : Prop :=
  ∀ t, rest.head? = some t → getOperatorPrecedence t.type < 0 ∧
    t.type ≠ .dot ∧ t.type ≠ .leftBracket ∧ t.type ≠ .as_ ∧ t.type ≠ .leftParen ∧
    t.type ≠ .exclaim ∧ t.type ≠ .question ∧ t.type ≠ .callback ∧ t.type ≠ .leftBrace

/-- With enough fuel the parser reads all of the tokens and gives this node. -/
def Parses (o : Others) (toks : List Token) (node : Node) : Prop :=
  ∀ rest, Ends rest → ∃ least, ∀ fuel, least ≤ fuel →
    parseExpression o fuel (toks ++ rest) = some (node, rest)

/-- The tree with parentheses around every operand of an operator. -/
def Syn.parens : {k : Kind} → Syn k → Syn k
  | _, atom t => atom t
  | _, paren e => paren e.parens
  | _, step p op => step p.parens op
  | _, member p field => member p.parens field
  | _, index p i => index p.parens i.parens
  | _, call p args => call p.parens args.parens
  | _, cast p name => cast p.parens name
  | _, send p message node => send p.parens message node
  | _, ask p message node => ask p.parens message node
  | _, post p => post p.parens
  | _, unary op e => unary op e.parens
  | _, operand e => operand e.parens
  | _, binary l op r =>
    binary (operand (post (paren l.parens))) op (operand (post (paren r.parens)))
  | _, noArgs => noArgs
  | _, arg name e args => arg name e.parens args.parens

/-- The sequence is read as the table has it, with or without all of its parentheses. -/
def Sequence.Follows {o : Others} (s : Sequence o) : Prop :=
  Parses o s.tree.tokens (s.tree.node o) ∧ Parses o s.tree.parens.tokens (s.tree.node o)

end Parser

end Aether

end Qjs
