import Qjs.ExprParser

/-!
# Expressions are read by the operator table

What each parser does on the tokens of a form is stated for every number of calls that is large
enough, so that the lemmas of the forms compose. The left operand of an operator is what the loop
has when it meets the operator, and the right one binds tighter than the operator and the next one.
-/

namespace Qjs

namespace Aether

namespace Parser

open Lexer

-- A parser unfolds where its fuel is a successor, and what is said of a tree at its root.
attribute [simp] parseBinary binaryLoop parseUnary parsePostfix postfixLoop callArgs argsLoop
  parseArg parsePrimary Syn.Legal Syn.node Syn.tokens Syn.Table Syn.Within Syn.parens Syn.forms
  Syn.spine Syn.Above

/-! ### Enough fuel -/

section Fuel

variable {α β : Type*}

/-- With enough fuel the result is this one. -/
def Gives (f : ℕ → Option α) (r : α) : Prop := ∃ least, ∀ fuel, least ≤ fuel → f fuel = some r

theorem gives_of_succ {f : ℕ → Option α} {r : α} (h : Gives (fun fuel => f (fuel + 1)) r) :
    Gives f r := by
  obtain ⟨least, h⟩ := h
  refine ⟨least + 1, fun fuel hf => ?_⟩
  obtain ⟨fuel, rfl⟩ : ∃ n, fuel = n + 1 := ⟨fuel - 1, by omega⟩
  exact h fuel (by omega)

theorem gives_some (r : α) : Gives (fun _ => some r) r := ⟨0, fun _ _ => rfl⟩

theorem Gives.bind {f : ℕ → Option α} {g : ℕ → α → Option β} {a : α} {r : β} (hf : Gives f a)
    (hg : Gives (fun fuel => g fuel a) r) : Gives (fun fuel => (f fuel).bind (g fuel)) r := by
  obtain ⟨m, hf⟩ := hf
  obtain ⟨n, hg⟩ := hg
  refine ⟨max m n, fun fuel h => ?_⟩
  show (f fuel).bind (g fuel) = some r
  rw [hf fuel (le_trans (le_max_left m n) h)]
  exact hg fuel (le_trans (le_max_right m n) h)

theorem Gives.map {f : ℕ → Option α} {a : α} (g : α → β) (hf : Gives f a) :
    Gives (fun fuel => (f fuel).map g) (g a) := by
  obtain ⟨m, hf⟩ := hf
  exact ⟨m, fun fuel h => by simp [hf fuel h]⟩

end Fuel

variable {o : Others}

/-! ### One step of each parser -/

theorem parseBinary_gives {prec : ℤ} {toks t : List Token} {n : Node} {r : Node × List Token}
    (hu : Gives (fun fuel => parseUnary o fuel toks) (n, t))
    (hl : Gives (fun fuel => binaryLoop o fuel maxBinaryOps prec n t) r) :
    Gives (fun fuel => parseBinary o fuel prec toks) r :=
  gives_of_succ (by simpa only [parseBinary] using hu.bind hl)

theorem binaryLoop_stop (n : ℕ) {prec : ℤ} (left : Node) {toks : List Token}
    (h : ∀ t, toks.head? = some t → getOperatorPrecedence t.type < prec) :
    Gives (fun fuel => binaryLoop o fuel n prec left toks) (left, toks) := by
  refine gives_of_succ ?_
  rcases n with _ | n
  · simpa only [binaryLoop] using gives_some (left, toks)
  · rcases toks with _ | ⟨op, rest⟩
    · simpa only [binaryLoop] using gives_some (left, [])
    · have hop := h op rfl
      simp only [binaryLoop, hop, if_true, ite_self]
      exact gives_some _

theorem binaryLoop_step {n : ℕ} {prec : ℤ} {left right : Node} {op : Token} {rest t : List Token}
    {r : Node × List Token} (hop : 0 ≤ getOperatorPrecedence op.type)
    (hp : prec ≤ getOperatorPrecedence op.type)
    (hr : Gives (fun fuel => parseBinary o fuel (getOperatorPrecedence op.type + 1) rest)
      (right, t))
    (hl : Gives (fun fuel => binaryLoop o fuel n prec (binaryNode left op right) t) r) :
    Gives (fun fuel => binaryLoop o fuel (n + 1) prec left (op :: rest)) r := by
  refine gives_of_succ ?_
  simp only [binaryLoop, not_lt.2 hop, not_lt.2 hp, if_false]
  exact hr.bind hl

theorem parseUnary_prefixed {op : Token} {toks t : List Token} {n : Node}
    (hop : isPrefixOp op.type = true) (hu : Gives (fun fuel => parseUnary o fuel toks) (n, t)) :
    Gives (fun fuel => parseUnary o fuel (op :: toks)) (unaryNode n op, t) := by
  refine gives_of_succ ?_
  simp only [parseUnary, hop, if_true]
  exact hu.map fun r => (unaryNode r.1 op, r.2)

theorem parseUnary_post {op : Token} {toks : List Token} {r : Node × List Token}
    (hop : isPrefixOp op.type = false)
    (hp : Gives (fun fuel => parsePostfix o fuel (op :: toks)) r) :
    Gives (fun fuel => parseUnary o fuel (op :: toks)) r := by
  refine gives_of_succ ?_
  simpa only [parseUnary, hop, Bool.false_eq_true, if_false] using hp

theorem parsePostfix_gives {toks t : List Token} {n : Node} {r : Node × List Token}
    (hp : Gives (fun fuel => parsePrimary o fuel toks) (n, t))
    (hl : Gives (fun fuel => postfixLoop o fuel maxPostfixOps n t) r) :
    Gives (fun fuel => parsePostfix o fuel toks) r :=
  gives_of_succ (by simpa only [parsePostfix] using hp.bind hl)

section Forms

variable {n : ℕ} {expr : Node} {rest : List Token} {r : Node × List Token}

theorem postfixLoop_stop (n : ℕ) (expr : Node) {toks : List Token}
    (h : ∀ t, toks.head? = some t → t.type ≠ .increment ∧ t.type ≠ .decrement ∧ t.type ≠ .dot ∧
      t.type ≠ .leftBracket ∧ t.type ≠ .as_ ∧ t.type ≠ .leftParen ∧ t.type ≠ .exclaim ∧
      t.type ≠ .question) :
    Gives (fun fuel => postfixLoop o fuel n expr toks) (expr, toks) := by
  refine gives_of_succ ?_
  rcases n with _ | n
  · simpa only [postfixLoop] using gives_some (expr, toks)
  · rcases toks with _ | ⟨op, rest⟩
    · simpa only [postfixLoop] using gives_some (expr, [])
    · obtain ⟨h1, h2, h3, h4, h5, h6, h7, h8⟩ := h op rfl
      simp only [postfixLoop, h1, h2, h3, h4, h5, h6, h7, h8, or_self, if_false]
      exact gives_some _

theorem postfixLoop_increment {op : Token} (hop : op.type = .increment ∨ op.type = .decrement)
    (h : Gives (fun fuel => postfixLoop o fuel n (unaryNode expr op) rest) r) :
    Gives (fun fuel => postfixLoop o fuel (n + 1) expr (op :: rest)) r := by
  refine gives_of_succ ?_
  simpa only [postfixLoop, hop, if_true] using h

theorem postfixLoop_member {field : Token}
    (hf : (field.type = .identifier || isReservedKeyword field) = true)
    (h : Gives (fun fuel => postfixLoop o fuel n (memberNode expr field) rest) r) :
    Gives (fun fuel => postfixLoop o fuel (n + 1) expr (dot :: field :: rest)) r := by
  refine gives_of_succ ?_
  simpa [dot, punct, hf] using h

theorem postfixLoop_index {i : Node} {toks : List Token}
    (hi : Gives (fun fuel => parseBinary o fuel 0 toks) (i, rightBracket :: rest))
    (h : Gives (fun fuel => postfixLoop o fuel n (arrayNode expr i) rest) r) :
    Gives (fun fuel => postfixLoop o fuel (n + 1) expr (leftBracket :: toks)) r := by
  refine gives_of_succ ?_
  have := hi.bind (g := fun fuel s => if headIs .rightBracket s.2 then
    postfixLoop o fuel n (arrayNode expr s.1) s.2.tail else none) (r := r)
    (by simpa [headIs, rightBracket, punct] using h)
  simpa [leftBracket, punct] using this

theorem postfixLoop_cast {name : Token} (hn : name.type = .identifier)
    (h : Gives (fun fuel => postfixLoop o fuel n (castNode expr name) rest) r) :
    Gives (fun fuel => postfixLoop o fuel (n + 1) expr (asWord :: times :: name :: rest)) r := by
  refine gives_of_succ ?_
  simpa [asWord, times, punct, hn] using h

theorem callTail_none {toks : List Token} (hb : headIs .leftBrace toks = false)
    (hc : headIs .callback toks = false) (hp : headIs .pipe toks = false)
    (ho : headIs .or toks = false) : callTail o toks = (none, toks) := by
  simp [callTail, hb, hc, hp, ho]

theorem postfixLoop_call {args : List Node} {toks : List Token}
    (ha : Gives (fun fuel => callArgs o fuel toks) (args, rest))
    (ht : callTail o rest = (none, rest))
    (h : Gives (fun fuel => postfixLoop o fuel n (callNode expr args) rest) r) :
    Gives (fun fuel => postfixLoop o fuel (n + 1) expr (leftParen :: toks)) r := by
  refine gives_of_succ ?_
  have := ha.bind (g := fun fuel s => postfixLoop o fuel n
    (callNode expr (s.1 ++ (callTail o s.2).1.toList)) (callTail o s.2).2) (r := r)
    (by simpa [ht] using h)
  simpa [leftParen, punct] using this

theorem postfixLoop_send {toks : List Token} {m : Node} (hm : o.message toks = some (m, rest))
    (h : Gives (fun fuel => postfixLoop o fuel n (sendNode expr m) rest) r) :
    Gives (fun fuel => postfixLoop o fuel (n + 1) expr (exclaim :: toks)) r := by
  refine gives_of_succ ?_
  simpa [exclaim, punct, hm] using h

theorem postfixLoop_ask {toks : List Token} {m : Node} (hm : o.message toks = some (m, rest))
    (ht : toks.head?.any ternaryLike = false)
    (h : Gives (fun fuel => postfixLoop o fuel n (askNode expr m) rest) r) :
    Gives (fun fuel => postfixLoop o fuel (n + 1) expr (question :: toks)) r := by
  refine gives_of_succ ?_
  simpa [question, punct, hm, ht] using h

end Forms

/-! ### Arguments and primary expressions -/

theorem callArgs_nil (rest : List Token) :
    Gives (fun fuel => callArgs o fuel (rightParen :: rest)) ([], rest) := by
  refine gives_of_succ ?_
  simpa [headIs, rightParen, punct] using gives_some ([], rest)

theorem callArgs_cons {toks : List Token} {r : List Node × List Token}
    (hne : headIs .rightParen toks = false) (h : Gives (fun fuel => argsLoop o fuel toks) r) :
    Gives (fun fuel => callArgs o fuel toks) r := by
  refine gives_of_succ ?_
  simpa [hne] using h

theorem argsLoop_last {toks rest : List Token} {n : Node}
    (h : Gives (fun fuel => parseArg o fuel toks) (n, rightParen :: rest)) :
    Gives (fun fuel => argsLoop o fuel toks) ([n], rest) := by
  refine gives_of_succ ?_
  have := h.bind (g := fun fuel s =>
    if headIs .comma s.2 then (argsLoop o fuel s.2.tail).map fun u => (s.1 :: u.1, u.2)
    else if headIs .rightParen s.2 then some ([s.1], s.2.tail) else none) (r := ([n], rest))
    (by simpa [headIs, rightParen, punct] using gives_some ([n], rest))
  simpa only [argsLoop] using this

theorem argsLoop_comma {toks rest t : List Token} {n : Node} {args : List Node}
    (h : Gives (fun fuel => parseArg o fuel toks) (n, comma :: rest))
    (hs : Gives (fun fuel => argsLoop o fuel rest) (args, t)) :
    Gives (fun fuel => argsLoop o fuel toks) (n :: args, t) := by
  refine gives_of_succ ?_
  have := h.bind (g := fun fuel s =>
    if headIs .comma s.2 then (argsLoop o fuel s.2.tail).map fun u => (s.1 :: u.1, u.2)
    else if headIs .rightParen s.2 then some ([s.1], s.2.tail) else none) (r := (n :: args, t))
    (by simpa [headIs, comma, punct] using hs.map fun u => (n :: u.1, u.2))
  simpa only [argsLoop] using this

theorem parseArg_named {name : Token} {toks t : List Token} {n : Node}
    (hn : name.type = .identifier) (h : Gives (fun fuel => parseBinary o fuel 0 toks) (n, t)) :
    Gives (fun fuel => parseArg o fuel (name :: colon :: toks)) (namedArgNode name n, t) := by
  refine gives_of_succ ?_
  have := h.map fun r => (namedArgNode name r.1, r.2)
  simpa [hn, colon, punct] using this

theorem parseArg_positional {toks : List Token} {r : Node × List Token}
    (hc : headIs .colon toks.tail = false)
    (h : Gives (fun fuel => parseBinary o fuel 0 toks) r) :
    Gives (fun fuel => parseArg o fuel toks) r := by
  refine gives_of_succ ?_
  rcases toks with _ | ⟨t, _ | ⟨u, toks⟩⟩
  · simpa only [parseArg] using h
  · simpa only [parseArg] using h
  · have hu : u.type ≠ .colon := by simpa [headIs] using hc
    simpa [hu] using h

theorem parsePrimary_atom {t : Token} {after : List Token} (ht : isAtom t.type = true)
    (hlong : t.type ≠ .int64Literal) (hb : headIs .leftBrace after = false) :
    Gives (fun fuel => parsePrimary o fuel (t :: after)) (atomNode o t, after) := by
  refine gives_of_succ ?_
  have hstruct : looksLikeStruct after = false := by simp [looksLikeStruct, hb]
  have hcases : t.type = .number ∨ t.type = .stringLiteral ∨ t.type = .interpString ∨
      t.type = .true_ ∨ t.type = .false_ ∨ t.type = .null ∨ t.type = .identifier := by
    simpa [isAtom, hlong, or_assoc] using ht
  rcases hcases with h | h | h | h | h | h | h <;>
    simpa [atomNode, h, hstruct] using gives_some _

theorem parsePrimary_paren {toks after : List Token} {n : Node}
    (h : Gives (fun fuel => parseBinary o fuel 0 toks) (n, rightParen :: after)) :
    Gives (fun fuel => parsePrimary o fuel (leftParen :: toks)) (n, after) := by
  refine gives_of_succ ?_
  have := h.bind (g := fun _ s => if headIs .rightParen s.2 then some (s.1, s.2.tail) else none)
    (r := (n, after)) (by simpa [headIs, rightParen, punct] using gives_some (n, after))
  simpa [leftParen, punct] using this

/-! ### The first two tokens -/

def startsPost (type : TokenType) : Bool := isAtom type || type = .leftParen

def starts (type : TokenType) : Bool := startsPost type || isPrefixOp type

theorem isPrefixOp_of_startsPost {type : TokenType} (h : startsPost type = true) :
    isPrefixOp type = false := by
  cases type <;> simp_all [startsPost, isAtom, isPrefixOp]

theorem starts_ne {type : TokenType} (h : starts type = true) :
    type ≠ .colon ∧ type ≠ .rightParen := by
  constructor <;> rintro rfl <;> simp [starts, startsPost, isAtom, isPrefixOp] at h

def First : {k : Kind} → Syn k → Prop
  | .post, p => ∃ t ts, p.tokens = t :: ts ∧ startsPost t.type = true
  | .operand, e => ∃ t ts, e.tokens = t :: ts ∧ starts t.type = true
  | .expr, e => ∃ t ts, e.tokens = t :: ts ∧ starts t.type = true
  | .args, a => a.isNoArgs = false → ∃ t ts, a.tokens = t :: ts ∧ starts t.type = true

theorem first_append {toks more : List Token} {p : TokenType → Bool}
    (h : ∃ t ts, toks = t :: ts ∧ p t.type = true) :
    ∃ t ts, toks ++ more = t :: ts ∧ p t.type = true := by
  obtain ⟨t, ts, rfl, ht⟩ := h
  exact ⟨t, ts ++ more, rfl, ht⟩

theorem first {k : Kind} (e : Syn k) (h : e.Legal o) : First e := by
  induction e with
  | atom t =>
    have ht : isAtom t.type = true := h
    exact ⟨t, [], rfl, by simp [startsPost, ht]⟩
  | paren e => exact ⟨_, _, rfl, rfl⟩
  | step p op ih => exact first_append (ih h.1)
  | member p field ih => exact first_append (ih h.1)
  | index p i ih => exact first_append (ih h.1)
  | call p args ih => exact first_append (ih h.1)
  | cast p name ih => exact first_append (ih h.1)
  | send p m n ih => exact first_append (ih h.1)
  | ask p m n ih => exact first_append (ih h.1)
  | post p ih =>
    obtain ⟨t, ts, hts, ht⟩ := ih h
    exact ⟨t, ts, hts, by simp [starts, ht]⟩
  | unary op e => exact ⟨op, _, rfl, by simp [starts, h.2]⟩
  | operand e ih => exact ih h
  | binary l op r ih => exact first_append (ih h.1)
  | noArgs => exact fun hne => absurd hne (by simp [Syn.isNoArgs])
  | arg name e args ih =>
    rintro -
    rcases name with _ | name
    · obtain ⟨t, ts, hts, ht⟩ := ih h.2.1
      exact ⟨t, _, by rw [Syn.tokens, nameTokens, List.nil_append, hts]; rfl, ht⟩
    · exact ⟨name, _, rfl, by simp [starts, startsPost, isAtom, h.1 name rfl]⟩

/-- No colon stands behind the first token of an expression. -/
def Second : {k : Kind} → Syn k → Prop
  | .args, _ => True
  | .post, p =>
    ∀ after, headIs .colon after = false → headIs .colon (p.tokens ++ after).tail = false
  | .operand, e =>
    ∀ after, headIs .colon after = false → headIs .colon (e.tokens ++ after).tail = false
  | .expr, e =>
    ∀ after, headIs .colon after = false → headIs .colon (e.tokens ++ after).tail = false

theorem headIs_cons (type : TokenType) (t : Token) (rest : List Token) :
    headIs type (t :: rest) = decide (t.type = type) := rfl

theorem second_append {toks more : List Token} {t : Token}
    (h : ∀ after, headIs .colon after = false → headIs .colon (toks ++ after).tail = false)
    (ht : t.type ≠ .colon) (after : List Token) :
    headIs .colon (toks ++ t :: more ++ after).tail = false := by
  have := h (t :: (more ++ after)) (by simpa [headIs_cons] using ht)
  simpa using this

theorem colon_not_starts {toks more : List Token}
    (h : ∃ t ts, toks = t :: ts ∧ starts t.type = true) : headIs .colon (toks ++ more) = false := by
  obtain ⟨t, ts, rfl, ht⟩ := h
  simpa [headIs_cons] using (starts_ne ht).1

theorem second {k : Kind} (e : Syn k) (h : e.Legal o) : Second e := by
  induction e with
  | atom t => exact fun after ha => ha
  | paren e =>
    intro after _
    have := @colon_not_starts _ (rightParen :: after) (first e h)
    simpa using this
  | step p op ih =>
    exact fun after _ => second_append (ih h.1) (by rcases h.2 with hop | hop <;> simp [hop]) after
  | member p field ih => exact fun after _ => second_append (ih h.1) (by decide) after
  | index p i ih => exact fun after _ => second_append (ih h.1) (by decide) after
  | call p args ih => exact fun after _ => second_append (ih h.1) (by decide) after
  | cast p name ih => exact fun after _ => second_append (ih h.1) (by decide) after
  | send p m n ih => exact fun after _ => second_append (ih h.1) (by decide) after
  | ask p m n ih => exact fun after _ => second_append (ih h.1) (by decide) after
  | post p ih => exact ih h
  | unary op e => exact fun after _ => colon_not_starts (first e h.1)
  | operand e ih => exact ih h
  | binary l op r ih =>
    refine fun after _ => second_append (ih h.1) ?_ after
    intro hop
    have := h.2.2
    simp [hop, isBinaryOp, getOperatorPrecedence] at this
  | noArgs => trivial
  | arg name e args => trivial

/-! ### What follows -/

/-- No block or closure follows that a call would take. -/
def Behind (call : Bool) (after : List Token) : Prop :=
  headIs .leftBrace after = false ∧ headIs .callback after = false ∧
    (call = true → headIs .pipe after = false ∧ headIs .or after = false)

theorem behind_cons {call : Bool} {t : Token} {rest : List Token} (hb : t.type ≠ .leftBrace)
    (hc : t.type ≠ .callback) (hp : call = true → t.type ≠ .pipe ∧ t.type ≠ .or) :
    Behind call (t :: rest) := by
  refine ⟨by simpa [headIs_cons] using hb, by simpa [headIs_cons] using hc, fun h => ?_⟩
  simpa [headIs_cons] using hp h

/-- No postfix form follows. -/
def NoForm (after : List Token) : Prop :=
  ∀ t, after.head? = some t → t.type ≠ .increment ∧ t.type ≠ .decrement ∧ t.type ≠ .dot ∧
    t.type ≠ .leftBracket ∧ t.type ≠ .as_ ∧ t.type ≠ .leftParen ∧ t.type ≠ .exclaim ∧
    t.type ≠ .question

theorem isBinaryOp_facts {type : TokenType} (h : isBinaryOp type = true) :
    0 ≤ getOperatorPrecedence type ∧ type ≠ .leftBrace ∧ type ≠ .callback ∧
      type ≠ .increment ∧ type ≠ .decrement ∧ type ≠ .dot ∧ type ≠ .leftBracket ∧ type ≠ .as_ ∧
      type ≠ .leftParen ∧ type ≠ .exclaim ∧ type ≠ .question := by
  cases type <;> simp_all [isBinaryOp, getOperatorPrecedence]

/-- What each parser gives on the tokens of a form, with what follows. -/
def Read (o : Others) : {k : Kind} → Syn k → Prop
  | .post, p => ∀ after r, Behind p.endsInCall after → p.forms ≤ maxPostfixOps →
      Gives (fun fuel => postfixLoop o fuel (maxPostfixOps - p.forms) (p.node o) after) r →
      Gives (fun fuel => parsePostfix o fuel (p.tokens ++ after)) r
  | .operand, e => ∀ after, NoForm after → Behind e.endsInCall after →
      Gives (fun fuel => parseUnary o fuel (e.tokens ++ after)) (e.node o, after)
  | .expr, e => ∀ prec after r, e.Above prec → e.spine ≤ maxBinaryOps → NoForm after →
      Behind e.endsInCall after →
      (∀ t, after.head? = some t → e.Above (getOperatorPrecedence t.type)) →
      Gives (fun fuel => binaryLoop o fuel (maxBinaryOps - e.spine) prec (e.node o) after) r →
      Gives (fun fuel => parseBinary o fuel prec (e.tokens ++ after)) r
  | .args, a => a.isNoArgs = false → ∀ rest,
      Gives (fun fuel => argsLoop o fuel (a.tokens ++ rightParen :: rest)) (a.node o, rest)

theorem above_of_legal {e : Syn .expr} {prec : ℤ} (h : e.Legal o) (hp : prec ≤ 0) :
    e.Above prec := by
  cases e with
  | operand e => trivial
  | binary l op r => exact hp.trans (isBinaryOp_facts h.2.2).1

theorem above_mono {e : Syn .expr} {p q : ℤ} (h : e.Above q) (hp : p ≤ q) : e.Above p := by
  cases e with
  | operand e => trivial
  | binary l op r => exact hp.trans h

theorem ends_of_type {t : Token} {rest : List Token}
    (h : t.type = .rightParen ∨ t.type = .rightBracket ∨ t.type = .comma) : Ends (t :: rest) := by
  intro u hu
  obtain rfl : t = u := by simpa using hu
  rcases h with h | h | h <;> rw [h] <;> decide

theorem Ends.noForm {rest : List Token} (h : Ends rest) : NoForm rest := by
  intro t ht
  obtain ⟨hp, h3, h4, h5, h6, h7, h8, -⟩ := h t ht
  refine ⟨?_, ?_, h3, h4, h5, h6, h7, h8⟩
  · intro hi
    rw [hi] at hp
    exact absurd hp (by decide)
  · intro hi
    rw [hi] at hp
    exact absurd hp (by decide)

theorem Ends.behind {rest : List Token} (h : Ends rest) (call : Bool) : Behind call rest := by
  rcases rest with _ | ⟨t, rest⟩
  · exact ⟨rfl, rfl, fun _ => ⟨rfl, rfl⟩⟩
  · obtain ⟨hp, -, -, -, -, -, -, hc, hb⟩ := h t rfl
    refine behind_cons hb hc fun _ => ⟨?_, ?_⟩ <;> intro ht <;> rw [ht] at hp <;>
      exact absurd hp (by decide)

/-- An expression is read to its end where nothing goes on with it. -/
theorem Read.closed {e : Syn .expr} (he : Read o e) (hl : e.Legal o)
    (hs : e.spine ≤ maxBinaryOps) {rest : List Token} (h : Ends rest) :
    Gives (fun fuel => parseBinary o fuel 0 (e.tokens ++ rest)) (e.node o, rest) := by
  have hneg : ∀ t, rest.head? = some t → getOperatorPrecedence t.type < 0 := fun t ht => (h t ht).1
  exact he 0 rest _ (above_of_legal hl le_rfl) hs h.noForm (h.behind _)
    (fun t ht => above_of_legal hl (hneg t ht).le) (binaryLoop_stop _ _ hneg)

/-! ### Every form -/

/-- A form is read in the next round of the loop. -/
theorem read_form {p : Syn .post} (hp : Read o p) {op : Token} {toks : List Token}
    {r : Node × List Token} (hforms : p.forms + 1 ≤ maxPostfixOps)
    (hop : op.type ≠ .leftBrace ∧ op.type ≠ .callback ∧ op.type ≠ .pipe ∧ op.type ≠ .or)
    (h : Gives (fun fuel => postfixLoop o fuel (maxPostfixOps - (p.forms + 1) + 1) (p.node o)
      (op :: toks)) r) :
    Gives (fun fuel => parsePostfix o fuel (p.tokens ++ op :: toks)) r := by
  have hn : maxPostfixOps - (p.forms + 1) + 1 = maxPostfixOps - p.forms := by omega
  rw [hn] at h
  exact hp _ r (behind_cons hop.1 hop.2.1 fun _ => hop.2.2) (by omega) h

theorem read_paren {e : Syn .expr} (he : Read o e) (hl : e.Legal o)
    (hs : e.spine ≤ maxBinaryOps) : Read o (.paren e) := by
  intro after r _ _ h
  have hends : Ends (rightParen :: after) := ends_of_type (.inl rfl)
  have hclosed := he.closed hl hs hends
  have := parsePostfix_gives (parsePrimary_paren hclosed) h
  simpa using this

theorem read_call {p : Syn .post} {args : Syn .args} (hp : Read o p) (ha : Read o args)
    (hl : args.Legal o) : Read o (.call p args) := by
  intro after r hb hforms h
  have hargs : Gives (fun fuel => callArgs o fuel (args.tokens ++ rightParen :: after))
      (args.node o, after) := by
    rcases hnone : args.isNoArgs with _ | _
    · refine callArgs_cons ?_ (ha hnone after)
      obtain ⟨t, ts, hts, ht⟩ := first args hl hnone
      rw [hts]
      simpa [headIs_cons] using (starts_ne ht).2
    · cases args with
      | noArgs => exact callArgs_nil after
      | arg name e args => simp [Syn.isNoArgs] at hnone
  have htail : callTail o after = (none, after) :=
    callTail_none hb.1 hb.2.1 (hb.2.2 rfl).1 (hb.2.2 rfl).2
  have := read_form hp hforms (by decide) (postfixLoop_call hargs htail h)
  simpa using this

theorem read_binary {l r : Syn .expr} {op : Token} (hl : Read o l) (hr : Read o r)
    (hlegal : (Syn.binary l op r).Legal o) (htable : (Syn.binary l op r).Table)
    (hwithin : (Syn.binary l op r).Within) : Read o (.binary l op r) := by
  intro prec after res habove hs hform hbehind hnext h
  obtain ⟨-, -, hop⟩ := hlegal
  obtain ⟨-, -, hleft, hright⟩ := htable
  obtain ⟨-, -, hspine, hcall, hassign⟩ := hwithin
  obtain ⟨hprec, hb, hc, hrest⟩ := isBinaryOp_facts hop
  have hspine_l : l.spine + 1 ≤ maxBinaryOps := hs
  have hn : maxBinaryOps - l.spine = maxBinaryOps - (l.spine + 1) + 1 := by omega
  have habove_l : l.Above (getOperatorPrecedence op.type) := by
    refine above_mono hleft ?_
    split_ifs <;> omega
  have habove_r : r.Above (getOperatorPrecedence op.type + 1) := by
    by_cases hassoc : op.type = .assign
    · rw [hassoc]
      exact hassign hassoc
    · have hnot : isRightAssoc op.type = false := by simp [isRightAssoc, hassoc]
      rw [hnot] at hright
      exact hright
  have hright_gives : Gives (fun fuel => parseBinary o fuel (getOperatorPrecedence op.type + 1)
      (r.tokens ++ after)) (r.node o, after) := by
    refine hr _ after _ habove_r hspine hform hbehind (fun t ht => ?_) ?_
    · exact above_mono habove_r ((hnext t ht).trans (by omega))
    · refine binaryLoop_stop _ _ fun t ht => ?_
      have : getOperatorPrecedence t.type ≤ getOperatorPrecedence op.type := hnext t ht
      omega
  have hloop := binaryLoop_step (n := maxBinaryOps - (l.spine + 1)) hprec habove hright_gives h
  rw [← hn] at hloop
  have := hl prec (op :: (r.tokens ++ after)) res (above_mono habove_l habove) (by omega)
    (fun t ht => by
      obtain rfl : op = t := by simpa using ht
      exact hrest)
    (behind_cons hb hc hcall)
    (fun t ht => by
      obtain rfl : op = t := by simpa using ht
      exact habove_l)
    hloop
  simpa using this

theorem read_arg {name : Option Token} {e : Syn .expr} {args : Syn .args} (he : Read o e)
    (ha : Read o args) (hlegal : (Syn.arg name e args).Legal o)
    (hs : e.spine ≤ maxBinaryOps) : Read o (.arg name e args) := by
  rintro - rest
  obtain ⟨hname, hl, hla⟩ := hlegal
  have harg : ∀ after, Ends after → headIs .colon after = false → Gives
      (fun fuel => parseArg o fuel (nameTokens name ++ (e.tokens ++ after)))
        (argNode name (e.node o), after) := by
    intro after hafter hcolon
    have hclosed := he.closed hl hs hafter
    rcases name with _ | name
    · exact parseArg_positional (second e hl after hcolon) hclosed
    · exact parseArg_named (hname name rfl) hclosed
  rcases hnone : args.isNoArgs with _ | _
  · have hends : Ends (comma :: (args.tokens ++ rightParen :: rest)) :=
      ends_of_type (.inr (.inr rfl))
    have := argsLoop_comma (harg _ hends rfl) (ha hnone rest)
    change Gives _ (argNode name (e.node o) :: args.node o, rest)
    simpa [hnone] using this
  · have hends : Ends (rightParen :: rest) := ends_of_type (.inl rfl)
    have := argsLoop_last (harg _ hends rfl)
    cases args with
    | noArgs =>
      change Gives _ ([argNode name (e.node o)], rest)
      simpa [Syn.isNoArgs] using this
    | arg name e args => simp [Syn.isNoArgs] at hnone

theorem read {k : Kind} (e : Syn k) (hl : e.Legal o) (ht : e.Table) (hw : e.Within) :
    Read o e := by
  induction e with
  | atom t =>
    intro after r hb _ h
    exact parsePostfix_gives (parsePrimary_atom hl hw hb.1) h
  | paren e ih => exact read_paren (ih hl ht hw.1) hl hw.2
  | step p op ih =>
    intro after r _ hforms h
    have hop : op.type ≠ .leftBrace ∧ op.type ≠ .callback ∧ op.type ≠ .pipe ∧ op.type ≠ .or := by
      rcases hl.2 with hop | hop <;> simp [hop]
    have := read_form (ih hl.1 ht hw) hforms hop (postfixLoop_increment hl.2 h)
    simpa using this
  | member p field ih =>
    intro after r _ hforms h
    have := read_form (ih hl.1 ht hw) hforms (by decide) (postfixLoop_member hl.2 h)
    simpa using this
  | index p i ihp ihi =>
    intro after r _ hforms h
    have hends : Ends (rightBracket :: after) := ends_of_type (.inr (.inl rfl))
    have hclosed := (ihi hl.2 ht.2 hw.2.1).closed hl.2 hw.2.2 hends
    have := read_form (ihp hl.1 ht.1 hw.1) hforms (by decide) (postfixLoop_index hclosed h)
    simpa using this
  | call p args ihp iha => exact read_call (ihp hl.1 ht.1 hw.1) (iha hl.2 ht.2 hw.2) hl.2
  | cast p name ih =>
    intro after r _ hforms h
    have := read_form (ih hl.1 ht hw) hforms (by decide) (postfixLoop_cast hl.2 h)
    simpa using this
  | send p m n ih =>
    intro after r hb hforms h
    have := read_form (ih hl.1 ht hw) hforms (by decide)
      (postfixLoop_send (hl.2.2 after hb.1) h)
    simpa using this
  | ask p m n ih =>
    intro after r hb hforms h
    obtain ⟨hp, ⟨hne, hm⟩, htern⟩ := hl
    have hhead : (m ++ after).head?.any ternaryLike = false := by
      obtain ⟨t, m, rfl⟩ := List.exists_cons_of_ne_nil hne
      exact htern
    have := read_form (ih hp ht hw) hforms (by decide) (postfixLoop_ask (hm after hb.1) hhead h)
    simpa using this
  | post p ih =>
    intro after hform hb
    obtain ⟨t, ts, hts, hstart⟩ := first p hl
    have := ih hl ht hw.1 after (p.node o, after) hb hw.2 (postfixLoop_stop _ _ hform)
    change Gives (fun fuel => parseUnary o fuel (p.tokens ++ after)) (p.node o, after)
    rw [hts] at this ⊢
    exact parseUnary_post (isPrefixOp_of_startsPost hstart) this
  | unary op e ih =>
    intro after hform hb
    exact parseUnary_prefixed hl.2 (ih hl.1 ht hw after hform hb)
  | operand e ih =>
    intro prec after r _ _ hform hb _ h
    exact parseBinary_gives (ih hl ht hw after hform hb) h
  | binary l op r ihl ihr =>
    exact read_binary (ihl hl.1 ht.1 hw.1) (ihr hl.2.1 ht.2.1 hw.2.1) hl ht hw
  | noArgs => exact fun h => absurd h (by simp [Syn.isNoArgs])
  | arg name e args ihe iha =>
    exact read_arg (ihe hl.2.1 ht.1 hw.1) (iha hl.2.2 ht.2 hw.2.2) hl hw.2.1

theorem parses_of_within {e : Syn .expr} (hl : e.Legal o) (ht : e.Table) (hw : e.Within)
    (hs : e.spine ≤ maxBinaryOps) : Parses o e.tokens (e.node o) :=
  fun _ hrest => (read e hl ht hw).closed hl hs hrest

/-! ### All the parentheses -/

theorem node_parens {k : Kind} (e : Syn k) : e.parens.node o = e.node o := by
  induction e with
  | atom | noArgs => rfl
  | paren e ih | post e ih | operand e ih => exact ih
  | step p t ih | member p t ih | cast p t ih | unary t p ih => simp only [Syn.parens, Syn.node, ih]
  | send p m n ih | ask p m n ih => simp only [Syn.parens, Syn.node, ih]
  | index p i ihp ihi | call p i ihp ihi | binary p op i ihp ihi | arg name p i ihp ihi =>
    simp only [Syn.parens, Syn.node, ihp, ihi]

theorem legal_parens {k : Kind} {e : Syn k} (h : e.Legal o) : e.parens.Legal o := by
  induction e with
  | atom | noArgs => exact h
  | paren e ih | post e ih | operand e ih => exact ih h
  | step p t ih | member p t ih | cast p t ih | unary t p ih => exact ⟨ih h.1, h.2⟩
  | send p m n ih | ask p m n ih => exact ⟨ih h.1, h.2⟩
  | index p i ihp ihi | call p i ihp ihi => exact ⟨ihp h.1, ihi h.2⟩
  | binary l op r ihl ihr => exact ⟨ihl h.1, ihr h.2.1, h.2.2⟩
  | arg name e args ihe iha => exact ⟨h.1, ihe h.2.1, iha h.2.2⟩

theorem table_parens {k : Kind} {e : Syn k} (h : e.Table) : e.parens.Table := by
  induction e with
  | atom | noArgs => exact h
  | paren e ih | post e ih | operand e ih => exact ih h
  | step p t ih | member p t ih | cast p t ih | unary t p ih => exact ih h
  | send p m n ih | ask p m n ih => exact ih h
  | index p i ihp ihi | call p i ihp ihi => exact ⟨ihp h.1, ihi h.2⟩
  | binary l op r ihl ihr => exact ⟨ihl h.1, ihr h.2.1, trivial, trivial⟩
  | arg name e args ihe iha => exact ⟨ihe h.1, iha h.2⟩

theorem spine_parens (e : Syn .expr) : e.parens.spine ≤ maxBinaryOps := by
  cases e <;> simp [maxBinaryOps]

theorem forms_parens {k : Kind} (e : Syn k) : e.parens.forms = e.forms := by
  induction e <;> simp_all

theorem within_parens {k : Kind} {e : Syn k} (h : e.Within) : e.parens.Within := by
  induction e with
  | atom | noArgs => exact h
  | paren e ih => exact ⟨ih h.1, spine_parens e⟩
  | post p ih => exact ⟨ih h.1, by rw [forms_parens]; exact h.2⟩
  | operand e ih => exact ih h
  | step p t ih | member p t ih | cast p t ih | unary t p ih => exact ih h
  | send p m n ih | ask p m n ih => exact ih h
  | index p i ihp ihi => exact ⟨ihp h.1, ihi h.2.1, spine_parens i⟩
  | call p args ihp iha => exact ⟨ihp h.1, iha h.2⟩
  | binary l op r ihl ihr =>
    have hwrap : ∀ {e : Syn .expr}, e.Within → e.spine ≤ maxBinaryOps →
        (Syn.operand (.post (.paren e))).Within :=
      fun he hs => ⟨⟨he, hs⟩, Nat.zero_le _⟩
    refine ⟨hwrap (ihl h.1) (spine_parens l), hwrap (ihr h.2.1) (spine_parens r), Nat.zero_le _,
      fun hcall => ?_, fun _ => trivial⟩
    simp [Syn.endsInCall] at hcall
  | arg name e args ihe iha => exact ⟨ihe h.1, spine_parens e, iha h.2.2⟩

/-- A sequence within the bounds is read as the table has it, with or without its parentheses. -/
theorem expression_follows (s : Sequence o) (hw : s.tree.Within)
    (hs : s.tree.spine ≤ maxBinaryOps) : s.Follows := by
  refine ⟨parses_of_within s.legal s.table hw hs, ?_⟩
  have := parses_of_within (legal_parens s.legal) (table_parens s.table) (within_parens hw)
    (spine_parens s.tree)
  rwa [node_parens] at this

/-! ### Every sequence has a tree of the table -/

theorem isRightAssoc_of_eq {p q : TokenType} (hp : isBinaryOp p = true)
    (h : getOperatorPrecedence p = getOperatorPrecedence q) (hq : isRightAssoc q = true) :
    isRightAssoc p = true := by
  obtain rfl : q = .assign := by simpa [isRightAssoc] using hq
  cases p <;> simp_all [isBinaryOp, isRightAssoc, getOperatorPrecedence]

/-- An operator and an operand can be put behind the tree. -/
def Extends (o : Others) : {k : Kind} → Syn k → Prop
  | .expr, e => ∀ (op : Token) (x : Syn .operand), isBinaryOp op.type = true → x.Legal o → x.Table →
      e.Legal o → e.Table → ∃ e' : Syn .expr, e'.Legal o ∧ e'.Table ∧
        e'.tokens = e.tokens ++ op :: x.tokens ∧
        ∀ q, e.Above q → q ≤ getOperatorPrecedence op.type → e'.Above q
  | _, _ => True

theorem extend {k : Kind} (e : Syn k) : Extends o e := by
  induction e with
  | operand a =>
    intro op x hop hx hxt hl ht
    exact ⟨.binary (.operand a) op (.operand x), ⟨hl, hx, hop⟩, ⟨ht, hxt, trivial, trivial⟩, rfl,
      fun q _ hq => hq⟩
  | binary l op' r _ ihr =>
    intro op x hop hx hxt hl ht
    by_cases hbelow : getOperatorPrecedence op'.type < getOperatorPrecedence op.type ∨
        (getOperatorPrecedence op'.type = getOperatorPrecedence op.type ∧
          isRightAssoc op'.type = true)
    · obtain ⟨r', hr'l, hr't, htokens, habove⟩ := ihr op x hop hx hxt hl.2.1 ht.2.1
      refine ⟨.binary l op' r', ⟨hl.1, hr'l, hl.2.2⟩, ⟨ht.1, hr't, ht.2.2.1, ?_⟩, ?_, fun q hq _ =>
        hq⟩
      · refine habove _ ht.2.2.2 ?_
        rcases hbelow with hlt | ⟨heq, hassoc⟩
        · split_ifs <;> omega
        · rw [hassoc]
          simpa using heq.le
      · simp [htokens]
    · refine ⟨.binary (.binary l op' r) op (.operand x), ⟨hl, hx, hop⟩, ⟨ht, hxt, ?_, trivial⟩, rfl,
        fun q _ hq => hq⟩
      show _ ≤ getOperatorPrecedence op'.type
      push Not at hbelow
      split_ifs with hassoc
      · rcases lt_or_eq_of_le hbelow.1 with hlt | heq
        · omega
        · exact absurd (isRightAssoc_of_eq hl.2.2 heq.symm hassoc) (hbelow.2 heq.symm)
      · simpa using hbelow.1
  | _ => trivial

theorem exists_sequence {x : Syn .operand} (hl : x.Legal o) (ht : x.Table)
    (more : List (Token × Syn .operand))
    (hmore : ∀ p ∈ more, isBinaryOp p.1.type = true ∧ p.2.Legal o ∧ p.2.Table) :
    ∃ s : Sequence o, s.tree.tokens = x.tokens ++ more.flatMap fun p => p.1 :: p.2.tokens := by
  induction more using List.reverseRecOn with
  | nil => exact ⟨⟨.operand x, hl, ht⟩, by simp⟩
  | append_singleton more p ih =>
    obtain ⟨s, hs⟩ := ih fun q hq => hmore q (by simp [hq])
    obtain ⟨hop, hpl, hpt⟩ := hmore p (by simp)
    obtain ⟨e, hel, het, htokens, -⟩ := extend s.tree p.1 p.2 hop hpl hpt s.legal s.table
    exact ⟨⟨e, hel, het⟩, by simp [htokens, hs]⟩

/-! ### What is read another way -/

theorem Gives.unique {α : Type*} {f : ℕ → Option α} {a b : α} (ha : Gives f a) (hb : Gives f b) :
    a = b := by
  obtain ⟨m, ha⟩ := ha
  obtain ⟨n, hb⟩ := hb
  have := (ha (max m n) (le_max_left m n)).symm.trans (hb (max m n) (le_max_right m n))
  simpa using this

/-- A literal of 64 bits starts no expression. -/
theorem parsePostfix_long (fuel : ℕ) {t : Token} (rest : List Token) (ht : t.type = .int64Literal) :
    parsePostfix o fuel (t :: rest) = none := by
  rcases fuel with _ | _ | fuel <;> simp [ht]

/-- Two assignments are taken from the left. -/
theorem chained_assignment {x y z : Syn .operand} {op op' : Token} (hx : Read o x) (hy : Read o y)
    (hz : Read o z) (hop : op.type = .assign) (hop' : op'.type = .assign) :
    Gives (fun fuel => parseExpression o fuel
      (x.tokens ++ op :: (y.tokens ++ op' :: (z.tokens ++ []))))
      (binaryNode (binaryNode (x.node o) op (y.node o)) op' (z.node o), []) := by
  have hnext : ∀ {t : Token} (rest : List Token), t.type = .assign →
      NoForm (t :: rest) ∧ ∀ call, Behind call (t :: rest) := by
    refine fun rest ht => ⟨fun u hu => ?_, fun call => ?_⟩
    · obtain rfl := Option.some_inj.1 hu
      simp [ht]
    · exact behind_cons (by simp [ht]) (by simp [ht]) fun _ => by simp [ht]
  have hlast : Gives (fun fuel => parseBinary o fuel 1 (z.tokens ++ [])) (z.node o, []) :=
    parseBinary_gives (hz [] (by simp [NoForm]) ⟨rfl, rfl, fun _ => ⟨rfl, rfl⟩⟩)
      (binaryLoop_stop _ _ (by simp))
  have hmiddle : Gives (fun fuel => parseBinary o fuel 1 (y.tokens ++ op' :: (z.tokens ++ [])))
      (y.node o, op' :: (z.tokens ++ [])) := by
    refine parseBinary_gives (hy _ (hnext _ hop').1 ((hnext _ hop').2 _)) (binaryLoop_stop _ _ ?_)
    intro t ht
    obtain rfl := Option.some_inj.1 ht
    simp [hop', getOperatorPrecedence]
  have hprec : getOperatorPrecedence op.type = 0 := by rw [hop]; rfl
  have hprec' : getOperatorPrecedence op'.type = 0 := by rw [hop']; rfl
  refine parseBinary_gives (hx _ (hnext _ hop).1 ((hnext _ hop).2 _)) ?_
  refine binaryLoop_step (n := 999) hprec.ge hprec.ge (by simpa [hprec] using hmiddle) ?_
  refine binaryLoop_step (n := 998) hprec'.ge hprec'.ge (by simpa [hprec'] using hlast) ?_
  exact gives_of_succ (by simpa only [binaryLoop] using gives_some _)

/-- No form that a parameter reads. -/
def noOthers : Others :=
  ⟨fun _ => none, fun _ => none, fun toks => (none, toks), fun _ => nullNode⟩

def word (c : UInt8) : Syn .operand := .post (.atom ⟨.identifier, some [c]⟩)

theorem within_word (c : UInt8) : (word c).Within := ⟨by simp, Nat.zero_le _⟩

theorem read_word (c : UInt8) : Read noOthers (word c) := read (word c) rfl trivial (within_word c)

def assignSign : Token := punct .assign "="

/-- The expression `a = b = c`. -/
def twoAssignments : Sequence noOthers where
  tree := .binary (.operand (word 0x61)) assignSign
    (.binary (.operand (word 0x62)) assignSign (.operand (word 0x63)))
  legal := ⟨rfl, ⟨rfl, rfl, rfl⟩, rfl⟩
  table := ⟨trivial, ⟨trivial, trivial, trivial, trivial⟩, trivial,
    by simp [isRightAssoc, assignSign, punct, getOperatorPrecedence]⟩

theorem assignments_from_left : ¬twoAssignments.Follows := by
  rintro ⟨h, -⟩
  have hright := h [] (by simp [Ends])
  have hleft := @chained_assignment noOthers (word 0x61) (word 0x62) (word 0x63) assignSign
    assignSign (read_word 0x61) (read_word 0x62) (read_word 0x63) rfl rfl
  have htypes := congrArg (fun r => r.1.children.map Node.type) (Gives.unique hleft hright)
  exact absurd htypes (by decide)

def plusSign : Token := punct .plus "+"

/-- The expression `a + b * c`. -/
def sumOfProduct : Sequence noOthers where
  tree := .binary (.operand (word 0x61)) plusSign
    (.binary (.operand (word 0x62)) times (.operand (word 0x63)))
  legal := ⟨rfl, ⟨rfl, rfl, rfl⟩, rfl⟩
  table := ⟨trivial, ⟨trivial, trivial, trivial, trivial⟩, trivial,
    by simp [isRightAssoc, plusSign, times, punct, getOperatorPrecedence]⟩

theorem sumOfProduct_follows : sumOfProduct.Follows :=
  expression_follows sumOfProduct
    ⟨within_word 0x61,
      ⟨within_word 0x62, within_word 0x63, Nat.zero_le _, fun h => absurd h (by decide),
        fun h => absurd h (by decide)⟩,
      by simp [maxBinaryOps], fun h => absurd h (by decide),
      fun h => absurd h (by decide)⟩
    (by simp [sumOfProduct, maxBinaryOps])

end Parser

end Aether

end Qjs
