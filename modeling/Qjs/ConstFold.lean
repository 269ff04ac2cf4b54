import Qjs.DeadCode
import Qjs.AetherStringify

/-!
# Constant folding

`optimize_constant_folding` of `optimizer.c`, on the trees that the type inference has gone over
(`Typed`), and what the C code of a tree of literals and arithmetic computes (`cEval`): a literal is
put into the C text as it is. C's `int` has 32 bits and `long` 64. `(long long)` of a double that it
does not hold is what an x86-64 gives.

The claim about the pass is `FoldsWell`, and `CondAt` says where an operation is folded to its
value.
-/

namespace Qjs

namespace Aether

open ASTNode

/-! ### Text -/

def plus : List ℕ := [0x2b]

def minus : List ℕ := [0x2d]

def times : List ℕ := [0x2a]

def slash : List ℕ := [0x2f]

def percent : List ℕ := [0x25]

/-- The digits of `n`. -/
def natText (n : ℕ) : List ℕ := decDigits (Nat.log 10 n + 1) n

/-- `snprintf` with `%lld`. -/
def formatLld (n : ℤ) : List ℕ := signText (n < 0) ++ natText n.natAbs

/-- The magnitude of a finite number in `%.10g`. -/
def textG10 (q : ℚ) : List ℕ :=
  if q = 0 then [0x30]
  else
    let (m, x) := Double.sigDigits 10 q
    if -4 ≤ x ∧ x < 10 then textF (decDigits 10 m) x else textE (decDigits 10 m) x

/-- `snprintf` with `%.10g`. -/
def formatG10 (d : Double) : List ℕ :=
  match d.decode with
  | .nan => signText d.msb ++ [0x6e, 0x61, 0x6e]
  | .inf neg => signText neg ++ [0x69, 0x6e, 0x66]
  | .fin neg m e => signText neg ++ textG10 (m * 2 ^ e)

/-! ### The pass -/

def isConstant : ASTNode → Bool
  | node .literal (some v) ty _ =>
    ty ≠ some .string && ty ≠ some .bool && v ≠ trueText && v ≠ falseText
  | _ => false

def getConstantValue : ASTNode → Double
  | node _ (some v) _ _ =>
    if v = trueText then 0x3ff0000000000000 else if v = falseText then 0 else atof v
  | _ => 0

def ASTNode.nodeType : ASTNode → Option TypeKind
  | null => none
  | node _ _ ty _ => ty

/-- `(long long)d`. -/
def longLong (d : Double) : ℤ :=
  match d.value? with
  | some _ => if -2 ^ 63 ≤ d.trunc ∧ d.trunc < 2 ^ 63 then d.trunc else -2 ^ 63
  | none => -2 ^ 63

def createNumericLiteral (value : Double) (isInt : Bool) : ASTNode :=
  node .literal
    (some (if isInt && value.eq (.ofInt (longLong value)) then formatLld (longLong value)
      else formatG10 value))
    (some (if isInt then .int else .float)) []

/-- The exact remainder, with the sign of the dividend. -/
def fmod (x y : Double) : Double :=
  match x.decode, y.decode with
  | .nan, _ | _, .nan | .inf _, _ => Double.qnan
  | .fin .., .inf _ => x
  | .fin n m e, .fin _ m' e' =>
    if m' = 0 then Double.qnan
    else
      let a : ℚ := m * 2 ^ e
      let b : ℚ := m' * 2 ^ e'
      Double.ofRat n (a - b * ⌊a / b⌋)

/-- The result of the operation, where it can be folded. -/
def foldOp (op : List ℕ) (l r : Double) : Option Double :=
  if op = plus then some (l.add r)
  else if op = minus then some (l.sub r)
  else if op = times then some (l.mul r)
  else if op = slash then if r.eq 0 then none else some (l.div r)
  else if op = percent then if r.eq 0 then none else some (fmod l r)
  else none

/-- `fold_binary_expression` after the children are folded. -/
def foldBinaryExpression (op : Option (List ℕ)) (ty : Option TypeKind) (left right : ASTNode)
    (cs : List ASTNode) : ASTNode :=
  if isConstant left && isConstant right then
    match foldOp (op.getD []) (getConstantValue left) (getConstantValue right) with
    | some result =>
      let bothInt := left.nodeType = some .int && right.nodeType = some .int
      createNumericLiteral (if bothInt then .ofInt (longLong result) else result) bothInt
    | none => node .binaryExpression op ty (left :: right :: cs)
  else node .binaryExpression op ty (left :: right :: cs)

mutual

def optimizeConstantFolding : ASTNode → ASTNode
  | null => null
  | node k v ty cs =>
    if k = .binaryExpression then
      match cs with
      | l :: r :: cs =>
        foldBinaryExpression v ty (optimizeConstantFolding l) (optimizeConstantFolding r) cs
      | cs => node k v ty cs
    else node k v ty (foldChildren cs)

def foldChildren : List ASTNode → List ASTNode
  | [] => []
  | c :: cs => optimizeConstantFolding c :: foldChildren cs

end

/-! ### Static types -/

/-- `infer_from_literal`. -/
def inferFromLiteral (v : List ℕ) : TypeKind :=
  if (v.all fun c => c == 0x2e || isDigit c || c == 0x2d || c == 0x2b) && v.any isDigit then
    if 0x2e ∈ v then .float else .int
  else if v.head? = some 0x22 ∨ v.head? = some 0x27 then .string
  else if v = trueText ∨ v = falseText then .bool
  else .unknown

def isArithmetic (op : List ℕ) : Bool :=
  op = plus || op = minus || op = times || op = slash || op = percent

/-- `infer_from_binary_op` for the arithmetic operators. -/
def inferFromBinaryOp (left right : TypeKind) (op : List ℕ) : TypeKind :=
  if left = .int64 ∨ right = .int64 then .int64
  else if (left = .ptr ∧ right = .int) ∨ (left = .int ∧ right = .ptr) then .int
  else if left = .int ∧ right = .int then .int
  else if left = .float ∨ right = .float then .float
  else if op = plus ∧ (left = .string ∨ right = .string) then .string
  else .unknown

mutual

/-- The types that the inference gives to literals and arithmetic. A number is digits and points, as
the lexer reads it. -/
def Typed : ASTNode → Prop
  | null => True
  | node k v ty cs =>
    (∀ s, k = .literal → v = some s → ty = some .string ∨
      (ty = some .bool ∧ (s = trueText ∨ s = falseText)) ∨
      ((s.all fun c => c == 0x2e || isDigit c) ∧ ty = some (inferFromLiteral s))) ∧
    (k = .longLiteral → ty = some .int64) ∧
    (∀ op l r ds, k = .binaryExpression → v = some op → cs = l :: r :: ds → isArithmetic op →
      ∀ lk rk, l.nodeType = some lk → r.nodeType = some rk →
        inferFromBinaryOp lk rk op ≠ .unknown → ty = some (inferFromBinaryOp lk rk op)) ∧
    TypedAll cs

def TypedAll : List ASTNode → Prop
  | [] => True
  | c :: cs => Typed c ∧ TypedAll cs

end

/-! ### What the C code computes -/

inductive CVal
  | int (n : ℤ)
  | long (n : ℤ)
  | dbl (d : Double)
  deriving DecidableEq

/-- The number, whatever the width of the integer type. -/
def CVal.num : CVal → ℤ ⊕ Double
  | int n | long n => .inl n
  | dbl d => .inr d

def CVal.toDouble : CVal → Double
  | int n | long n => .ofInt n
  | dbl d => d

def octalValue (ds : List ℕ) : ℕ := ds.foldl (fun n d => 8 * n + (d - 0x30)) 0

/-- A constant of C without a sign: digits, octal after a leading zero, or a floating constant. One
that no signed type holds has no value, and neither has an octal one past the ints, which is
unsigned. -/
def cConstant (s : List ℕ) : Option CVal :=
  if s ≠ [] ∧ s.all isDigit then
    if s.head? = some 0x30 ∧ 1 < s.length then
      if (s.all fun c => c < 0x38) ∧ octalValue s < 2 ^ 31 then some (.int (octalValue s)) else none
    else if JsonText.digitsValue s < 2 ^ 31 then some (.int (JsonText.digitsValue s))
    else if JsonText.digitsValue s < 2 ^ 63 then some (.long (JsonText.digitsValue s))
    else none
  else if (isDigit (peek s) ∨ peek s = 0x2e) ∧ (strtod s).2 = [] then some (.dbl (strtod s).1)
  else none

def CVal.neg : CVal → CVal
  | int n => .int (-n)
  | long n => .long (-n)
  | dbl d => .dbl d.neg

/-- The text of a number, with the sign that a folded one may have. -/
def cRead (s : List ℕ) : Option CVal :=
  if peek s = 0x2d then (cConstant s.tail).map CVal.neg else cConstant s

/-- The result of an operation on integers, for a type with `bits` bits. -/
def cInteger (bits : ℕ) (op : List ℕ) (a b : ℤ) : Option ℤ :=
  let fits (n : ℤ) : Option ℤ := if -2 ^ (bits - 1) ≤ n ∧ n < 2 ^ (bits - 1) then some n else none
  if op = plus then fits (a + b)
  else if op = minus then fits (a - b)
  else if op = times then fits (a * b)
  else if op = slash then if b = 0 then none else fits (a.tdiv b)
  else if op = percent then if b = 0 then none else (fits (a.tdiv b)).map fun _ => a.tmod b
  else none

def cDouble (op : List ℕ) (x y : Double) : Option Double :=
  if op = plus then some (x.add y)
  else if op = minus then some (x.sub y)
  else if op = times then some (x.mul y)
  else if op = slash then some (x.div y)
  else none

/-- The usual arithmetic conversions; an overflow has no value. -/
def cOp (op : List ℕ) : CVal → CVal → Option CVal
  | .int a, .int b => (cInteger 32 op a b).map .int
  | .dbl x, y => (cDouble op x y.toDouble).map .dbl
  | x, .dbl y => (cDouble op x.toDouble y).map .dbl
  | .int a, .long b | .long a, .int b | .long a, .long b => (cInteger 64 op a b).map .long

/-- `(int64_t)`. -/
def CVal.toLong : CVal → Option CVal
  | int n | long n => some (.long n)
  | dbl d =>
    if -2 ^ 63 ≤ d.trunc ∧ d.trunc < 2 ^ 63 ∧ d.value?.isSome then some (.long d.trunc) else none

/-- The value of a tree of literals and arithmetic. -/
def cEval : ASTNode → Option CVal
  | null => none
  | node k v ty cs =>
    match k, v with
    | .literal, some s => if ty = some .string then none else cRead s
    | .longLiteral, some s => (cRead s).bind CVal.toLong
    | .binaryExpression, some op =>
      match cs with
      | l :: r :: _ => (cEval l).bind fun x => (cEval r).bind fun y => cOp op x y
      | _ => none
    | _, _ => none

/-! ### The property -/

inductive Sub : ASTNode → ASTNode → Prop
  | refl (t : ASTNode) : Sub t t
  | child {t c : ASTNode} {k : ASTNodeType} {v : Option (List ℕ)} {ty : Option TypeKind}
    {cs : List ASTNode} (hc : c ∈ cs) (h : Sub t c) : Sub t (node k v ty cs)

/-- Every part of the tree that has a value is folded to a tree of its type and value. -/
def FoldsWell (e : ASTNode) : Prop :=
  ∀ t, Sub t e → ∀ x, cEval t = some x →
    (optimizeConstantFolding t).nodeType = t.nodeType ∧
      ∃ y, cEval (optimizeConstantFolding t) = some y ∧ y.num = x.num

/-! ### The condition -/

/-- The double that stands for an operand with the value `x`. -/
def operandDouble (t : ASTNode) (x : CVal) : Double :=
  match t with
  | node .literal (some v) _ _ => atof v
  | _ => x.toDouble

/-- The tree becomes a constant. -/
inductive Folds : ASTNode → Prop
  | literal {t : ASTNode} (h : isConstant t = true) : Folds t
  | binary {op : List ℕ} {ty : Option TypeKind} {l r : ASTNode} {cs : List ASTNode} (hl : Folds l)
    (hr : Folds r) (hop : isArithmetic op = true)
    (hdiv : op = slash ∨ op = percent → ∀ y, cEval r = some y → (operandDouble r y).eq 0 = false) :
    Folds (node .binaryExpression (some op) ty (l :: r :: cs))

/-- The double nearest to ten significant digits of `d`. -/
def tenDouble (d : Double) : Double :=
  match d.decode with
  | .fin neg m e => .ofRat neg (Double.sigValue 10 (m * 2 ^ e))
  | _ => d

/-- Ten significant digits of `d` are no integer below `10 ^ 10`, so they are written with a point
or an exponent. -/
def Pointed (d : Double) : Prop :=
  ∃ neg m e, d.decode = .fin neg m e ∧ ∀ k : ℕ, k < 10 ^ 10 → Double.sigValue 10 (m * 2 ^ e) ≠ k

/-- The operation on `p` and `q`, which stand for the operands `x` and `y`, is folded to `v`. -/
inductive FoldExact (op : List ℕ) (p q : Double) : CVal → CVal → CVal → Prop
  /-- Two ints, each read as it is. -/
  | ints {a b : ℤ} {v : CVal} (hp : p = .ofInt a) (hq : q = .ofInt b) :
    FoldExact op p q (.int a) (.int b) v
  /-- Integers, and the computation in doubles loses nothing. -/
  | exact {x y v : CVal} {n : ℤ} {res : Double} (hv : v.num = .inl n)
    (hres : foldOp op p q = some res) (hn : longLong res = n) (hmin : -2 ^ 63 < n) :
    FoldExact op p q x y v
  /-- A double that is the nearest one of its ten digits. -/
  | shown {x y : CVal} {d res : Double} (hres : foldOp op p q = some res) (hd : tenDouble res = d)
    (hpoint : Pointed res) : FoldExact op p q x y (.dbl d)

/-- Where the operation at the root is folded, it is folded to its value. -/
def CondAt (t : ASTNode) : Prop :=
  ∀ op ty l r cs x y v, t = node .binaryExpression (some op) ty (l :: r :: cs) → Folds t →
    cEval l = some x → cEval r = some y → cOp op x y = some v →
    FoldExact op (operandDouble l x) (operandDouble r y) x y v

end Aether

end Qjs
