import Qjs.AetherJson
import Qjs.Lib.Flow

/-!
# Dead code elimination

The syntax trees of the Aether compiler (`ast.h`) and `optimize_dead_code`. `ASTNode` is the pointer
`ASTNode*`, with `NULL` as a value; the positions, which only go into messages, are left out. What a
child is to its node is its index.

The claim about the pass is `Preserved`: every node that remains keeps its children in their roles
(`Keeps`), and the tree means what it meant, under every `Semantics`.
-/

namespace Qjs

namespace Aether

inductive ASTNodeType
  | program | moduleDeclaration | importStatement | exportStatement | exportsList
  | actorDefinition | functionDefinition | functionClause | mainFunction | structDefinition
  | structField | externFunction | builderFunction | constDeclaration
  | block | variableDeclaration | tupleDestructure | assignment | compoundAssignment
  | ifStatement | forLoop | whileLoop | switchStatement | caseStatement | returnStatement
  | breakStatement | continueStatement | deferStatement | expressionStatement
  | matchStatement | matchArm | patternLiteral | patternVariable | patternStruct | patternList
  | patternCons | guardClause | receiveStatement | sendStatement | spawnActorStatement
  | stateDeclaration | hideDirective | sealDirective | tryStatement | catchClause | panicStatement
  | messageDefinition | messageField | receiveArm | messagePattern | patternField
  | wildcardPattern | timeoutArm | replyStatement | messageConstructor | fieldInit
  | sendFireForget | sendAsk
  | binaryExpression | unaryExpression | functionCall | actorRef | identifier | literal
  | arrayLiteral | arrayAccess | memberAccess | structLiteral | stringInterp | nullLiteral
  | ptrAsStructCast | ifExpression | longLiteral | cast
  | closure | closureParam | namedArg
  | typeAnnotation | actorRefType | arrayType
  | printStatement
  deriving DecidableEq

inductive TypeKind
  | int | int64 | uint64 | float | bool | byte | string | actorRef | message | array | struct
  | void | ptr | wildcard | tuple | function | unknown
  deriving DecidableEq

/-- `ASTNode*`: its type, its value, the kind of its `node_type`, its children. -/
inductive ASTNode
  | null
  | node (type : ASTNodeType) (value : Option (List ℕ)) (nodeType : Option TypeKind)
      (children : List ASTNode)

namespace ASTNode

/-- `children[i]`, where a child that is past the end is absent as `NULL` is. -/
def child (cs : List ASTNode) (i : ℕ) : ASTNode := cs.getD i null

end ASTNode

open ASTNode

/-- `atof` on the texts of literals and on what `printf` writes for a double. -/
def atof (s : List ℕ) : Double :=
  let neg := peek s == 0x2d
  let p := skipSign s
  if p.take 3 = [0x69, 0x6e, 0x66] then if neg then 0xfff0000000000000 else 0x7ff0000000000000
  else if p.take 3 = [0x6e, 0x61, 0x6e] then Double.qnan
  else (strtod s).1

def trueText : List ℕ := [0x74, 0x72, 0x75, 0x65]

def falseText : List ℕ := [0x66, 0x61, 0x6c, 0x73, 0x65]

/-! ### The pass -/

/-- `is_constant_condition`, with what it stores in `is_truthy`. -/
def isConstantCondition : ASTNode → Option Bool
  | node .literal (some v) ty _ =>
    if v = trueText then some true
    else if v = falseText then some false
    else if ty = some .string then none
    else some (!Double.eq (atof v) 0#64)
  | _ => none

mutual

/-- `optimize_dead_code`. -/
def optimizeDeadCode : ASTNode → ASTNode
  | null => null
  | node .ifStatement v ty (c :: a :: cs) =>
    match isConstantCondition c with
    | some true => optimizeDeadCode a
    | some false => optimizeElse cs
    | none => node .ifStatement v ty (optimizeChildren (c :: a :: cs))
  | node .whileLoop v ty (c :: cs) =>
    if isConstantCondition c = some false then null
    else node .whileLoop v ty (optimizeChildren (c :: cs))
  | node k v ty cs => node k v ty (optimizeChildren cs)

/-- The else branch of an `if` on a false constant, or `NULL` when it has none. -/
def optimizeElse : List ASTNode → ASTNode
  | [] => null
  | b :: _ => optimizeDeadCode b

/-- The loop over the children: what is left is moved to the front. -/
def optimizeChildren : List ASTNode → List ASTNode
  | [] => []
  | c :: cs =>
    match optimizeDeadCode c with
    | null => optimizeChildren cs
    | r => r :: optimizeChildren cs

end

/-! ### Trees of the parser -/

def ASTNode.isNull : ASTNode → Bool
  | null => true
  | node .. => false

/-- A child in the place of an expression: no `if` or `while` statement. -/
def ASTNode.IsExpr : ASTNode → Prop
  | null => False
  | node k _ _ _ => k ≠ .ifStatement ∧ k ≠ .whileLoop

/-- The children that the parser gives to a node: the parts of a `for` other than the body may be
absent, and a statement is the child of an `if`, of a loop, of a `defer`, or one of a list. -/
def Shape : ASTNodeType → List ASTNode → Prop
  | .ifStatement, [c, a] => c.IsExpr ∧ a ≠ null
  | .ifStatement, [c, a, b] => c.IsExpr ∧ a ≠ null ∧ b ≠ null
  | .whileLoop, [c, b] => c.IsExpr ∧ b ≠ null
  | .forLoop, [i, c, n, b] =>
    (i = null ∨ i.IsExpr) ∧ (c = null ∨ c.IsExpr) ∧ (n = null ∨ n.IsExpr) ∧ b ≠ null
  | .deferStatement, [s] => s ≠ null
  | .block, cs | .actorDefinition, cs | .caseStatement, cs => ∀ c ∈ cs, c ≠ null
  | .ifStatement, _ | .whileLoop, _ | .forLoop, _ | .deferStatement, _ => False
  | _, cs => ∀ c ∈ cs, c.IsExpr

mutual

/-- Every node of the tree has a shape that the parser builds. -/
def Parsed : ASTNode → Prop
  | null => True
  | node k _ _ cs => Shape k cs ∧ ParsedAll cs

def ParsedAll : List ASTNode → Prop
  | [] => True
  | c :: cs => Parsed c ∧ ParsedAll cs

end

/-! ### What a tree means -/

/-- The constant of a literal in the C text is not zero. -/
def numberTruth (v : List ℕ) : Bool :=
  if v.all isDigit then v.any (· != 0x30) else !Double.eq (atof v) 0#64

/-- A boolean or a number as a condition; a string is none. -/
def literalTruth : ASTNode → Option Bool
  | node .literal (some v) ty _ =>
    if ty = some .string then none
    else if v = trueText then some true
    else if v = falseText then some false
    else some (numberTruth v)
  | _ => none

/-- Values and the nodes the pass knows nothing about: what such a node means is a function of what
its children mean, by their roles. -/
structure Semantics (σ V : Type) where
  truth : V → Bool
  literal : List ℕ → Option TypeKind → V
  truth_literal : ∀ v ty cs b, literalTruth (node .literal (some v) ty cs) = some b →
    truth (literal v ty) = b
  other : ASTNodeType → Option (List ℕ) → Option TypeKind → (ℕ → Option (Flow.Meaning σ V)) →
    Flow.Meaning σ V

section Meaning

variable {σ V : Type} (S : Semantics σ V)

/-- The children of a `case` before its statements: the value, unless it is the default. -/
def leading (v : Option (List ℕ)) : ℕ :=
  if v = some [0x64, 0x65, 0x66, 0x61, 0x75, 0x6c, 0x74] then 0 else 1

/-- The children at the front of a list that have a role each. -/
def lead (k : ASTNodeType) (v : Option (List ℕ)) : ℕ :=
  if k = .caseStatement then leading v else 0

/-- A node over what its children mean, each child in the role the code generator reads it in. -/
def nodeMeaning (k : ASTNodeType) (v : Option (List ℕ)) (ty : Option TypeKind)
    (ms : List (Option (Flow.Meaning σ V))) : Flow.Meaning σ V :=
  let role i := ms.getD i none
  let stmt i := (role i).getD Flow.skip
  let body := Flow.seq ((ms.drop (lead k v)).map fun m => m.getD Flow.skip)
  match k with
  | .ifStatement => Flow.ite S.truth (role 0) (stmt 1) (stmt 2)
  | .whileLoop => Flow.Loop S.truth (role 0) Flow.skip (stmt 1)
  | .forLoop => Flow.andThen (stmt 0) (Flow.Loop S.truth (role 1) (stmt 2) (stmt 3))
  | .deferStatement => Flow.defer (stmt 0)
  | .block => Flow.block (ms.map fun m => m.getD Flow.skip)
  | .actorDefinition | .caseStatement =>
    S.other k v ty fun i => if i < lead k v then role i else if i = lead k v then some body else none
  | _ => S.other k v ty role

mutual

def meaning : ASTNode → Flow.Meaning σ V
  | null => Flow.skip
  | node .literal (some v) ty _ => Flow.pure (S.literal v ty)
  | node k v ty cs => nodeMeaning S k v ty (meanings cs)

def meanings : List ASTNode → List (Option (Flow.Meaning σ V))
  | [] => []
  | c :: cs => (if c.isNull then none else some (meaning c)) :: meanings cs

end

end Meaning

/-! ### The property -/

/-- The nodes whose children are a list of statements. -/
def Listed : ASTNodeType → Prop
  | .block | .actorDefinition | .caseStatement => True
  | _ => False

/-- `r` is `t` after statements on constant conditions are replaced by what they run; every node
that remains has its children in the roles they had. -/
inductive Keeps : ASTNode → ASTNode → Prop
  | null : Keeps null null
  | ifTrue {v ty c a cs r} : literalTruth c = some true → Keeps a r →
      Keeps (node .ifStatement v ty (c :: a :: cs)) r
  | ifElse {v ty c a b cs r} : literalTruth c = some false → Keeps b r →
      Keeps (node .ifStatement v ty (c :: a :: b :: cs)) r
  | ifGone {v ty c a} : literalTruth c = some false → Keeps (node .ifStatement v ty [c, a]) null
  | whileGone {v ty c cs} : literalTruth c = some false → Keeps (node .whileLoop v ty (c :: cs)) null
  | roles {k v ty cs ds} : ¬ Listed k → (∀ i, Keeps (child cs i) (child ds i)) →
      Keeps (node k v ty cs) (node k v ty ds)
  | listed {k v ty cs ds} : Listed k → cs.length = ds.length → (∀ i, Keeps (child cs i) (child ds i)) →
      (∀ d ∈ ds.take (lead k v), d ≠ null) →
      Keeps (node k v ty cs) (node k v ty (ds.filter fun d => !d.isNull))

/-- The pass on `t` keeps the roles of the children and what the tree means. -/
def Preserved (t : ASTNode) : Prop :=
  Keeps t (optimizeDeadCode t) ∧
    ∀ (σ V : Type) (S : Semantics σ V), meaning S (optimizeDeadCode t) = meaning S t

/-! ### The condition -/

mutual

/-- A child that is absent, or a statement on a constant condition with nothing to run. -/
def removable : ASTNode → Bool
  | null => true
  | node .ifStatement _ _ (c :: a :: cs) =>
    match isConstantCondition c with
    | some true => removable a
    | some false => removableElse cs
    | none => false
  | node .whileLoop _ _ (c :: _) => isConstantCondition c == some false
  | _ => false

def removableElse : List ASTNode → Bool
  | [] => true
  | b :: _ => removable b

end

/-- Nothing that goes stands before a child that stays. -/
def inOrder (cs : List ASTNode) : Bool := (cs.dropWhile fun c => !removable c).all removable

def aligned1 (k : ASTNodeType) (v : Option (List ℕ)) (cs : List ASTNode) : Bool :=
  match k with
  | .block | .actorDefinition => true
  | .caseStatement => (cs.take (leading v)).all fun c => !removable c
  | _ => inOrder cs

def isString : ASTNode → Bool
  | node .literal _ ty _ => ty == some .string
  | _ => false

mutual

/-- In the part of the tree that can run, nothing that goes stands before a child that stays, except
in a list, and no string literal is taken for a constant. -/
def aligned : ASTNode → Bool
  | null => true
  | node .ifStatement v _ (c :: a :: cs) =>
    match isConstantCondition c with
    | some true => !isString c && aligned a
    | some false => !isString c && alignedElse cs
    | none => aligned1 .ifStatement v (c :: a :: cs) && alignedAll (c :: a :: cs)
  | node .whileLoop v _ (c :: cs) =>
    if isConstantCondition c = some false then !isString c
    else aligned1 .whileLoop v (c :: cs) && alignedAll (c :: cs)
  | node k v _ cs => aligned1 k v cs && alignedAll cs

def alignedElse : List ASTNode → Bool
  | [] => true
  | b :: _ => aligned b

def alignedAll : List ASTNode → Bool
  | [] => true
  | c :: cs => aligned c && alignedAll cs

end

end Aether

end Qjs
