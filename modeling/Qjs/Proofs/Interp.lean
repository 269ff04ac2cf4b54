import Qjs.Interp
import Qjs.Proofs.AetherLexer

/-!
# Interpolated strings are read as written

The text before the first `${` is decoded by the lexer and again by the parser, which changes it
exactly when a backslash or `${` is left in it. Behind the first `${` the lexer copies the source up
to a quote without a backslash, also inside an expression.
-/

namespace Qjs

namespace Aether

namespace Interp

open Lexer

variable {Node : Type*} {parse : List Token → Option (Node × List Token)}

theorem interpEscape_eq (c : UInt8) (s : Str) : interpEscape c s = escapeByte c s := by
  unfold interpEscape escapeByte
  dsimp only
  split_ifs <;> simp_all [isOctal, xChar, backslash, quote]

/-! ### The lexer behind the first `${` -/

/-- The text up to a quote without a backslash, and what follows. -/
def quoteSpan : Bool → Str → Str × Str
  | _, [] => ([], [])
  | true, c :: t => (c :: (quoteSpan false t).1, (quoteSpan false t).2)
  | false, c :: t =>
    if c = quote then ([], c :: t)
    else (c :: (quoteSpan (c == backslash) t).1, (quoteSpan (c == backslash) t).2)

theorem quoteSpan_append {pending after : Bool} {u : Str} (s : Str)
    (h : escaped pending u = some after) :
    quoteSpan pending (u ++ s) = (u ++ (quoteSpan after s).1, (quoteSpan after s).2) := by
  fun_induction escaped pending u with
  | case1 pending =>
    obtain rfl : pending = after := by simpa using h
    rfl
  | case2 c t ih => simp [quoteSpan, ih h]
  | case3 => simp at h
  | case4 c t hq ih => simp [quoteSpan, hq, ih h]

theorem quoteSpan_escaped_none {pending : Bool} {u : Str} (s : Str) (h : escaped pending u = none) :
    s.length < (quoteSpan pending (u ++ s)).2.length := by
  fun_induction escaped pending u with
  | case1 => simp at h
  | case2 c t ih => simpa [quoteSpan] using ih h
  | case3 t => simp [quoteSpan]
  | case4 c t hq ih => simpa [quoteSpan, hq] using ih h

theorem escaped_append (pending : Bool) (u v : Str) :
    escaped pending (u ++ v) = (escaped pending u).bind fun after => escaped after v := by
  fun_induction escaped pending u with
  | case1 => simp
  | case2 c t ih => simpa [escaped] using ih
  | case3 t => simp [escaped]
  | case4 c t hq ih => simpa [escaped, hq] using ih

theorem escaped_plain {u : Str} (h : ∀ c ∈ u, c ≠ quote ∧ c ≠ backslash) :
    escaped false u = some false := by
  induction u with
  | nil => rfl
  | cons c u ih =>
    have hb : (c == backslash) = false := by simpa using (h c (by simp)).2
    simp [escaped, (h c (by simp)).1, hb, ih fun d hd => h d (by simp [hd])]

theorem isXdigit_plain {c : UInt8} (h : isXdigit c = true) : c ≠ quote ∧ c ≠ backslash := by
  constructor <;> rintro rfl <;> exact absurd h (by decide)

theorem rawDigits_append (esc : UInt8) (s : Str) :
    (rawDigits esc s).1 ++ (rawDigits esc s).2 = s := by
  unfold rawDigits
  split_ifs
  · exact digitsUpTo_append _ _ _
  · exact digitsUpTo_append _ _ _
  · rfl

theorem rawDigits_plain {esc c : UInt8} {s : Str} (h : c ∈ (rawDigits esc s).1) :
    c ≠ quote ∧ c ≠ backslash := by
  unfold rawDigits at h
  split_ifs at h
  · exact isXdigit_plain (mem_digitsUpTo h)
  · exact isXdigit_plain (isXdigit_of_isOctal (mem_digitsUpTo h))
  · simp at h

theorem readStringLoop_true (buffer s : Str) : readStringLoop true buffer s =
    (true, buffer ++ (quoteSpan false s).1, (quoteSpan false s).2) := by
  generalize hb : true = hasInterp
  fun_induction readStringLoop hasInterp buffer s with
  | case1 => simp [quoteSpan]
  | case2 => simp [quoteSpan]
  | case3 hasInterp buffer c t hq hd ih =>
    obtain ⟨rfl, ht⟩ := hd
    obtain ⟨t, rfl⟩ : ∃ u, t = openBrace :: u := by
      rcases t with _ | ⟨d, t⟩
      · simp at ht
      · exact ⟨t, by simpa using ht⟩
    rw [ih rfl, ← hb]
    simp [quoteSpan, dollar, openBrace, quote, backslash]
  | case4 => simp [← hb, quoteSpan, backslash, quote]
  | case5 buffer esc t _ _ ih =>
    rw [ih rfl]
    have hplain := @escaped_plain (rawDigits esc t).1 fun c hc => rawDigits_plain hc
    have hdig := quoteSpan_append (rawDigits esc t).2 hplain
    rw [rawDigits_append] at hdig
    simp [quoteSpan, backslash, quote, hdig]
  | case6 => simp_all
  | case7 hasInterp buffer c t hq hd hc ih =>
    have hc' : (c == backslash) = false := by simpa using hc
    rw [ih hb]
    simp [quoteSpan, hq, hc']

/-! ### Pieces -/

/-- The parser takes a quote for a character like another. -/
def Reads (after : Str) (p : Piece) : Prop := p.Before after ∨ p = .char quote

def ReadsAll : List Piece → Str → Prop
  | [], _ => True
  | p :: ps, after => Reads (spell ps ++ after) p ∧ ReadsAll ps after

theorem before_mono {p : Piece} {s s' : Str} (h : p.Before s)
    (hs : ∀ d, s'.head? = some d → s.head? = some d) : p.Before s' := by
  rcases p with c | c | digits | digits
  · exact ⟨h.1, h.2.1, fun hc => h.2.2 ⟨hc.1, hs _ hc.2⟩⟩
  · exact ⟨h.1, fun hc d hd => h.2 hc d (hs d hd)⟩
  · exact ⟨h.1, h.2.1, h.2.2.1, fun hlt d hd => h.2.2.2 hlt d (hs d hd)⟩
  · exact ⟨h.1, h.2.1, h.2.2.1, fun hlt d hd => h.2.2.2 hlt d (hs d hd)⟩

theorem Fits.mono {pieces : List Piece} {s s' : Str} (h : Fits pieces s)
    (hs : ∀ d, s'.head? = some d → s.head? = some d) : Fits pieces s' := by
  induction pieces with
  | nil => trivial
  | cons p ps ih =>
    refine ⟨before_mono h.1 fun d hd => ?_, ih h.2⟩
    rcases hps : spell ps with _ | ⟨c, u⟩
    · rw [hps] at hd
      simpa using hs d hd
    · rw [hps] at hd
      simpa using hd

theorem Fits.readsAll {pieces : List Piece} {s : Str} (h : Fits pieces s) : ReadsAll pieces s := by
  induction pieces with
  | nil => trivial
  | cons p ps ih => exact ⟨.inl h.1, ih h.2⟩

theorem escaped_piece {p : Piece} {s : Str} (h : p.Before s) :
    escaped false p.text = some false := by
  rcases p with c | c | digits | digits
  · exact escaped_plain fun d hd => by
      obtain rfl : d = c := by simpa [Piece.text] using hd
      exact ⟨h.1, h.2.1⟩
  · simp [Piece.text, escaped, backslash, quote]
  · have hx := escaped_plain fun d hd => isXdigit_plain (h.2.2.1 d hd)
    simp [Piece.text, escaped, backslash, quote, hx]
  · rcases digits with _ | ⟨d, digits⟩
    · exact absurd rfl h.1
    · have hx := @escaped_plain digits
        fun d hd => isXdigit_plain (isXdigit_of_isOctal (h.2.2.1 d (by simp [hd])))
      simp [Piece.text, escaped, backslash, quote, hx]

theorem escaped_spell {pieces : List Piece} {s : Str} (h : Fits pieces s) :
    escaped false (spell pieces) = some false := by
  induction pieces with
  | nil => rfl
  | cons p ps ih =>
    rw [spell, List.flatMap_cons, escaped_append, escaped_piece h.1]
    exact ih h.2

theorem readStringLoop_spell {pieces : List Piece} {s : Str} (buffer : Str) (h : Fits pieces s) :
    readStringLoop false buffer (spell pieces ++ s) =
      readStringLoop false (buffer ++ bytes pieces) s := by
  induction pieces generalizing buffer with
  | nil => simp [spell, bytes]
  | cons p ps ih =>
    have hp := readStringLoop_piece buffer h.1
    rw [← List.append_assoc] at hp
    rw [spell, List.flatMap_cons]
    exact hp.trans ((ih _ h.2).trans (by simp [bytes]))

/-! ### The token of the literal -/

/-- Each quote of an expression has a backslash before it. -/
def Unquoted (parts : List (Expression parse × List Piece)) : Prop :=
  ∀ p ∈ parts, escaped false p.1.text ≠ none

theorem escaped_closeBrace (pending : Bool) (s : Str) :
    escaped pending (closeBrace :: s) = escaped false s := by
  rcases pending
  · simp [escaped, closeBrace, quote, backslash]
  · rfl

theorem escaped_open (s : Str) : escaped false (dollar :: openBrace :: s) = escaped false s := by
  simp [escaped, dollar, openBrace, quote, backslash]

theorem escaped_tailText {parts : List (Expression parse × List Piece)} {after : Str}
    (h : FitsTail parts after) (hq : Unquoted parts) :
    escaped false (tailText parts) = some false := by
  induction parts with
  | nil => rfl
  | cons p parts ih =>
    obtain ⟨pending, hp⟩ := Option.ne_none_iff_exists'.1 (hq p (by simp))
    rw [tailText, escaped_open, escaped_append, hp, Option.bind_some, escaped_closeBrace,
      escaped_append, escaped_spell h.1, Option.bind_some]
    exact ih h.2 fun p' hp' => hq p' (by simp [hp'])

theorem unquoted_of_length {parts : List (Expression parse × List Piece)} {after : Str}
    (h : FitsTail parts after)
    (hlen : (quoteSpan false (tailText parts ++ after)).2.length ≤ after.length) :
    Unquoted parts := by
  induction parts with
  | nil => simp [Unquoted]
  | cons p parts ih =>
    have hopen : ∀ s, (quoteSpan false (dollar :: openBrace :: s)).2 = (quoteSpan false s).2 := by
      simp [quoteSpan, dollar, openBrace, quote, backslash]
    have hclose : ∀ pending s,
        (quoteSpan pending (closeBrace :: s)).2 = (quoteSpan false s).2 := by
      rintro (_ | _) s <;> simp [quoteSpan, closeBrace, quote, backslash]
    rw [tailText, List.cons_append, List.cons_append, hopen, List.append_assoc] at hlen
    rcases he : escaped false p.1.text with _ | pending
    · have := quoteSpan_escaped_none (closeBrace :: (spell p.2 ++ tailText parts) ++ after) he
      simp only [List.cons_append, List.length_cons, List.length_append] at this hlen
      omega
    · rw [quoteSpan_append _ he, List.cons_append, hclose, List.append_assoc,
        quoteSpan_append _ (escaped_spell h.1)] at hlen
      intro p' hp'
      rcases List.mem_cons.1 hp' with rfl | hp'
      · simp [he]
      · exact ih h.2 hlen p' hp'

theorem readStringLoop_source (l : Literal parse) :
    readStringLoop false [] (spell l.first ++ (tailText l.parts ++ quote :: l.rest)) =
      (true, bytes l.first ++ (quoteSpan false (tailText l.parts ++ quote :: l.rest)).1,
        (quoteSpan false (tailText l.parts ++ quote :: l.rest)).2) := by
  rw [readStringLoop_spell [] l.fits]
  obtain ⟨s, hs⟩ : ∃ s, tailText l.parts ++ quote :: l.rest = dollar :: openBrace :: s := by
    obtain ⟨p, parts, hparts⟩ := List.exists_cons_of_ne_nil l.parts_ne
    exact ⟨_, by rw [hparts]; rfl⟩
  rw [hs, readStringLoop.eq_def]
  simp [readStringLoop_true, quoteSpan, dollar, openBrace, quote, backslash]

theorem nextToken_source {l : Literal parse} (hq : Unquoted l.parts) : nextToken l.source =
    (createToken .interpString (bytes l.first ++ tailText l.parts), l.rest) := by
  have hspan := quoteSpan_append (quote :: l.rest) (escaped_tailText l.fits_tail hq)
  have hend : quoteSpan false (quote :: l.rest) = ([], quote :: l.rest) := by simp [quoteSpan]
  rw [Literal.source, nextToken_quote, readString, readStringLoop_source, hspan, hend]
  simp

/-- Behind a quote inside an expression there is more than the rest. -/
theorem unquoted_of_rest {l : Literal parse} (h : (nextToken l.source).2 = l.rest) :
    Unquoted l.parts := by
  refine unquoted_of_length l.fits_tail ?_
  rw [Literal.source, nextToken_quote, readString, readStringLoop_source] at h
  dsimp only at h
  have hle : (quoteSpan false (tailText l.parts ++ quote :: l.rest)).2.length ≤ l.rest.length + 1 :=
    by
    split_ifs at h
    all_goals
      have := congrArg List.length h
      simp only [List.length_tail] at this
      omega
  simpa using hle

/-! ### The tokens of an expression -/

theorem Lexed.ne_eof {s : Str} {tokens : List Token} (h : Lexed s tokens) :
    ∀ t ∈ tokens, t.type ≠ .eof := by
  induction h with
  | eof => simp
  | token heof _ _ ih => simpa using ⟨heof, ih⟩

theorem subTokens_of_lexed {s : Str} {tokens : List Token} (h : Lexed s tokens) (n : ℕ) :
    (∃ t : Token, t.type = .eof ∧ subTokens n s = tokens ++ [t]) ∧ tokens.length < n ∨
      subTokens n s = tokens.take n ∧ n ≤ tokens.length := by
  induction h generalizing n with
  | @eof s h =>
    rcases n with _ | n
    · exact .inr ⟨rfl, le_rfl⟩
    · exact .inl ⟨⟨(nextToken s).1, h, by simp [subTokens, h]⟩, by simp⟩
  | @token s tokens heof herror _ ih =>
    rcases n with _ | n
    · exact .inr ⟨rfl, Nat.zero_le _⟩
    · have hstep : subTokens (n + 1) s = (nextToken s).1 :: subTokens n (nextToken s).2 := by
        simp [subTokens, heof, herror]
      rcases ih n with ⟨⟨t, ht, heq⟩, hlt⟩ | ⟨heq, hle⟩
      · exact .inl ⟨⟨t, ht, by rw [hstep, heq]; rfl⟩, by simpa using hlt⟩
      · exact .inr ⟨by rw [hstep, heq]; rfl, by simpa using hle⟩

theorem exprTokens_eq (e : Expression parse) :
    exprTokens e.text = e.tokens.take (interpMaxTokens - 1) := by
  have hne := e.lexed.ne_eof
  unfold exprTokens
  rcases subTokens_of_lexed e.lexed (interpMaxTokens - 1) with ⟨⟨t, ht, heq⟩, hlt⟩ | ⟨heq, hle⟩
  · rw [heq, List.take_of_length_le hlt.le]
    simp [ht]
  · rw [heq]
    refine if_neg ?_
    rcases hlast : (e.tokens.take (interpMaxTokens - 1)).getLast? with _ | t
    · simp
    · simpa using hne t (List.mem_of_mem_take (List.mem_of_getLast? hlast))

theorem exprTokens_eq_iff (e : Expression parse) :
    exprTokens e.text = e.tokens ↔ e.tokens.length ≤ interpMaxTokens - 1 := by
  rw [exprTokens_eq, List.take_eq_self_iff]

theorem exprSpan_balanced {depth : ℕ} {s : Str} (after : Str) (h : Balanced depth s) :
    exprSpan (depth + 1) (s ++ closeBrace :: after) = (s, closeBrace :: after) := by
  fun_induction Balanced depth s with
  | case1 depth =>
    obtain rfl : depth = 0 := h
    simp [exprSpan, closeBrace, openBrace]
  | case2 depth t ih => simp [exprSpan, ih h]
  | case3 depth t hc ih =>
    rcases depth with _ | depth
    · exact absurd h.1 (lt_irrefl 0)
    · have := ih h.2
      simp only [Nat.add_one_sub_one] at this
      simp [exprSpan, hc, this]
  | case4 depth c t ho hc ih => simp [exprSpan, ho, hc, ih h]

/-! ### The parser -/

theorem interpLoop_char {c : UInt8} {t : Str} (lit : Str) (hb : c ≠ backslash)
    (hd : ¬(c = dollar ∧ t.head? = some openBrace)) :
    interpLoop lit (c :: t) = interpLoop (lit ++ [c]) t := by
  rw [interpLoop.eq_def]
  simp [hb, hd]

theorem interpLoop_escape (lit : Str) (c : UInt8) (t : Str) :
    interpLoop lit (backslash :: c :: t) =
      interpLoop (lit ++ [(escapeByte c t).1]) (escapeByte c t).2 := by
  rw [interpLoop.eq_def]
  simp [interpEscape_eq, backslash, dollar]

theorem interpLoop_open (lit t : Str) :
    interpLoop lit (dollar :: openBrace :: t) =
      textPart lit :: .expr (exprTokens (exprSpan 1 t).1) ::
        interpLoop [] (exprSpan 1 t).2.tail := by
  rw [interpLoop.eq_def]
  simp

theorem interpLoop_piece {p : Piece} {t : Str} (lit : Str) (h : Reads t p) :
    interpLoop lit (p.text ++ t) = interpLoop (lit ++ [p.byte]) t := by
  rcases h with h | rfl
  · rcases p with c | c | digits | digits
    · exact interpLoop_char lit h.2.1 h.2.2
    · rw [Piece.text, List.cons_append, List.singleton_append, interpLoop_escape,
        escapeByte_escape h]
    · rw [Piece.text, List.cons_append, List.cons_append, interpLoop_escape, escapeByte_hex h]
    · rcases digits with _ | ⟨c, digits⟩
      · exact absurd rfl h.1
      · rw [Piece.text, List.cons_append, List.cons_append, interpLoop_escape,
          escapeByte_octal h]
  · exact interpLoop_char lit (by decide) (by simp [quote, dollar])

theorem interpLoop_spell {pieces : List Piece} {s : Str} (lit : Str) (h : ReadsAll pieces s) :
    interpLoop lit (spell pieces ++ s) = interpLoop (lit ++ bytes pieces) s := by
  induction pieces generalizing lit with
  | nil => simp [spell, bytes]
  | cons p ps ih =>
    have hp := interpLoop_piece lit h.1
    rw [← List.append_assoc] at hp
    rw [spell, List.flatMap_cons]
    exact hp.trans ((ih _ h.2).trans (by simp [bytes]))

/-- The parts behind a text, as they are read. -/
def readParts (parts : List (Expression parse × List Piece)) : List Part :=
  parts.flatMap fun p => [.expr (exprTokens p.1.text), textPart (bytes p.2)]

theorem interpLoop_tailText {parts : List (Expression parse × List Piece)} {after : Str} (lit : Str)
    (h : FitsTail parts after) :
    interpLoop lit (tailText parts) = textPart lit :: readParts parts := by
  induction parts generalizing lit with
  | nil =>
    rw [tailText, interpLoop.eq_def]
    rfl
  | cons p parts ih =>
    have hfits : Fits p.2 (tailText parts) := h.1.mono fun d hd => by simp [hd]
    rw [tailText, interpLoop_open, exprSpan_balanced _ p.1.balanced, List.tail_cons,
      interpLoop_spell [] hfits.readsAll, List.nil_append, ih _ h.2]
    rfl

/-- A text without a backslash and `${` is copied. -/
theorem interpLoop_plain {d s : Str} (lit : Str) (hb : backslash ∉ d)
    (hd : ¬[dollar, openBrace] <:+: d) (hs : s.head? ≠ some openBrace) :
    interpLoop lit (d ++ s) = interpLoop (lit ++ d) s := by
  induction d generalizing lit with
  | nil => simp
  | cons c d ih =>
    have hopen : ¬(c = dollar ∧ (d ++ s).head? = some openBrace) := by
      rintro ⟨rfl, hhead⟩
      rcases d with _ | ⟨b, d⟩
      · exact hs (by simpa using hhead)
      · obtain rfl : b = openBrace := by simpa using hhead
        exact hd (List.prefix_append [dollar, openBrace] d).isInfix
    rw [List.cons_append, interpLoop_char lit (fun h => hb (by simp [h])) hopen,
      ih _ (fun h => hb (by simp [h])) fun h => hd (h.trans (List.suffix_cons _ _).isInfix)]
    simp

/-! ### The first text -/

theorem ReadsAll.left {ps qs : List Piece} {after : Str} (h : ReadsAll (ps ++ qs) after) :
    ReadsAll ps (spell qs ++ after) := by
  induction ps with
  | nil => trivial
  | cons p ps ih =>
    refine ⟨?_, ih h.2⟩
    have hp : Reads (spell (ps ++ qs) ++ after) p := h.1
    rwa [spell, List.flatMap_append, List.append_assoc] at hp

theorem ReadsAll.mem {ps : List Piece} {after : Str} (h : ReadsAll ps after) {p : Piece}
    (hp : p ∈ ps) : ∃ s, Reads s p := by
  induction ps with
  | nil => simp at hp
  | cons q ps ih =>
    rcases List.mem_cons.1 hp with rfl | hp
    · exact ⟨_, h.1⟩
    · exact ih h.2 hp

theorem Reads.length_text {p : Piece} {s : Str} (h : Reads s p) :
    1 ≤ p.text.length ∧ (p.text.length = 1 → ∃ c, p = .char c) := by
  rcases p with c | c | digits | digits
  · exact ⟨by simp [Piece.text], fun _ => ⟨c, rfl⟩⟩
  · simp [Piece.text]
  · simp [Piece.text]
  · rcases h with h | h
    · have := List.length_pos_of_ne_nil h.1
      simp only [Piece.text, List.length_cons]
      exact ⟨by omega, by omega⟩
    · simp at h

theorem ReadsAll.length_le {ps : List Piece} {after : Str} (h : ReadsAll ps after) :
    ps.length ≤ (spell ps).length ∧
      ((spell ps).length ≤ ps.length → ∀ p ∈ ps, ∃ c, p = .char c) := by
  induction ps with
  | nil => simp [spell]
  | cons p ps ih =>
    obtain ⟨hle, hall⟩ := ih h.2
    obtain ⟨hp, hchar⟩ := h.1.length_text
    have hlen : (spell (p :: ps)).length = p.text.length + (spell ps).length := by simp [spell]
    rw [hlen, List.length_cons]
    refine ⟨by omega, fun hshort q hq => ?_⟩
    rcases List.mem_cons.1 hq with rfl | hq
    · exact hchar (by omega)
    · exact hall (by omega) q hq

theorem spell_eq_bytes {ps : List Piece} (h : ∀ p ∈ ps, ∃ c, p = .char c) :
    spell ps = bytes ps := by
  induction ps with
  | nil => rfl
  | cons p ps ih =>
    obtain ⟨c, rfl⟩ := h p (by simp)
    have := ih fun q hq => h q (by simp [hq])
    simpa [spell, bytes, Piece.text, Piece.byte] using this

theorem head?_spell {ps : List Piece} {c : UInt8} (h : (spell ps).head? = some c)
    (hc : c ≠ backslash) : ∃ qs, ps = .char c :: qs := by
  rcases ps with _ | ⟨p, ps⟩
  · simp [spell] at h
  · rcases p with d | d | digits | digits
    · obtain rfl : d = c := by simpa [spell, Piece.text] using h
      exact ⟨ps, rfl⟩
    all_goals
      exact absurd (by simpa [spell, Piece.text] using h.symm) hc

theorem dollar_text {p : Piece} {s : Str} (h : Reads s p) (hd : dollar ∈ p.text) :
    p = .char dollar ∨ p = .escape dollar := by
  rcases p with c | c | digits | digits
  · exact .inl (by simpa [Piece.text, eq_comm] using hd)
  · refine .inr ?_
    simpa [Piece.text, dollar, backslash, eq_comm] using hd
  · exfalso
    rcases h with h | h
    · have : dollar ∈ digits := by simpa [Piece.text, dollar, backslash, xChar] using hd
      exact absurd (h.2.2.1 _ this) (by decide)
    · simp at h
  · exfalso
    rcases h with h | h
    · have : dollar ∈ digits := by simpa [Piece.text, dollar, backslash] using hd
      exact absurd (h.2.2.1 _ this) (by decide)
    · simp at h

/-- Where `${` stands in a text that is read to its end, the dollar has a backslash. -/
theorem interp_in_spell {ps : List Piece} {after A : Str} (h : ReadsAll ps after)
    (hA : A ++ [dollar, openBrace] <+: spell ps) : ∃ q1 q2,
      ps = q1 ++ .escape dollar :: .char openBrace :: q2 ∧ A = spell q1 ++ [backslash] := by
  induction ps generalizing A with
  | nil => simp [spell] at hA
  | cons p ps ih =>
    obtain ⟨r, hr⟩ := hA
    rw [spell, List.flatMap_cons, List.append_assoc] at hr
    have hbrace : ∀ s : Str, openBrace :: s = spell ps → ∃ qs, ps = .char openBrace :: qs :=
      fun s hs => head?_spell (by rw [← hs]; rfl) (by decide)
    have hshift : ∀ B, A = p.text ++ B → ∃ q1 q2,
        p :: ps = q1 ++ .escape dollar :: .char openBrace :: q2 ∧ A = spell q1 ++ [backslash] := by
      rintro B rfl
      rw [List.append_assoc, List.append_cancel_left_eq] at hr
      obtain ⟨q1, q2, rfl, rfl⟩ := ih h.2 (A := B) ⟨r, by simpa [spell] using hr⟩
      exact ⟨p :: q1, q2, rfl, by simp [spell]⟩
    rcases List.append_eq_append_iff.1 hr with ⟨B, hB, hB'⟩ | ⟨B, rfl, -⟩
    · rcases B with _ | ⟨b, B⟩
      · exact hshift [] (by simpa using hB.symm)
      · obtain ⟨rfl, htail⟩ : b = dollar ∧ openBrace :: r = B ++ spell ps := by
          simpa [eq_comm, spell] using hB'
        rcases dollar_text h.1 (by simp [hB]) with rfl | rfl
        · obtain ⟨rfl, rfl⟩ : A = [] ∧ B = [] := by
            have hlen := congrArg List.length hB
            simp only [Piece.text, List.length_append, List.length_cons, List.length_nil] at hlen
            exact ⟨List.length_eq_zero_iff.1 (by omega), List.length_eq_zero_iff.1 (by omega)⟩
          exfalso
          rcases h.1 with hp | hp
          · refine hp.2.2 ⟨rfl, ?_⟩
            rw [List.nil_append] at htail
            simp [← htail]
          · simp [dollar, quote] at hp
        · rcases A with _ | ⟨a, A⟩
          · simp [Piece.text, dollar, backslash] at hB
          · obtain ⟨rfl, rfl, rfl⟩ : a = backslash ∧ A = [] ∧ B = [] := by
              rcases A with _ | ⟨a', A⟩
              · simpa [Piece.text, eq_comm] using hB
              · have := congrArg List.length hB
                simp [Piece.text] at this
            obtain ⟨qs, rfl⟩ := hbrace r htail
            exact ⟨[], qs, rfl, rfl⟩
    · exact hshift B rfl

/-- A text that loses a backslash is not the start of what it is read as. -/
theorem not_prefix_of_open {ps : List Piece} {after m : Str} (h : ReadsAll ps after) :
    ¬spell ps ++ [backslash] <+: bytes ps ++ dollar :: openBrace :: m := by
  induction hn : ps.length using Nat.strong_induction_on generalizing ps after m with
  | _ n ih =>
    intro hpre
    obtain ⟨hle, hchars⟩ := h.length_le
    have hbytes : (bytes ps).length = ps.length := by simp [bytes]
    rcases Nat.lt_or_ge ps.length (spell ps).length with hlt | hge
    · have hopen : bytes ps ++ [dollar, openBrace] <+: spell ps ++ [backslash] := by
        refine List.prefix_of_prefix_length_le ⟨m, by simp⟩ hpre ?_
        simp only [List.length_append, List.length_cons, List.length_nil]
        omega
      have hspell : bytes ps ++ [dollar, openBrace] <+: spell ps := by
        rcases List.prefix_concat_iff.1 hopen with heq | hpre
        · have := congrArg List.getLast? heq
          simp [openBrace, backslash] at this
        · exact hpre
      obtain ⟨q1, q2, rfl, hq1⟩ := interp_in_spell h hspell
      have hq := @ih q1.length (by simp at hn; omega) q1 _ (bytes q2) h.left rfl
      refine hq ?_
      rw [← hq1]
      exact ⟨[], by simp [bytes, Piece.byte, dollar, openBrace]⟩
    · rw [spell_eq_bytes (hchars hge), List.prefix_append_right_inj] at hpre
      simp [backslash, dollar] at hpre

theorem before_append {p : Piece} {s X : Str} (h : p.Before s) (hp : p.text.head? = some backslash)
    (hX : X.head? = some dollar) : p.Before (s ++ X) := by
  rcases s with _ | ⟨c, s⟩
  · have hd : ∀ d, X.head? = some d → isXdigit d = false ∧ isOctal d = false := by
      rintro d hd
      obtain rfl : dollar = d := by simpa [hX] using hd
      exact ⟨by decide, by decide⟩
    rcases p with c | c | digits | digits
    · exact absurd (by simpa [Piece.text] using hp) h.2.1
    · exact ⟨h.1, fun _ d hd' => (hd d hd').1⟩
    · exact ⟨h.1, h.2.1, h.2.2.1, fun _ d hd' => (hd d hd').1⟩
    · exact ⟨h.1, h.2.1, h.2.2.1, fun _ d hd' => (hd d hd').2⟩
  · exact before_mono h (by simp)

/-- A text before `${` is read to its end, to a last backslash, or to `${` in it. -/
theorem exists_reads (d : Str) {X : Str} (hX : X.head? = some dollar) : ∃ ps z,
    d = spell ps ++ z ∧ ReadsAll ps (z ++ X) ∧
      (z = [] ∨ z = [backslash] ∨ ∃ w, z = dollar :: openBrace :: w) := by
  induction hn : d.length using Nat.strong_induction_on generalizing d with
  | _ n ih =>
    rcases d with _ | ⟨c, t⟩
    · exact ⟨[], [], rfl, trivial, .inl rfl⟩
    · by_cases hopen : c = dollar ∧ t.head? = some openBrace
      · obtain ⟨rfl, ht⟩ := hopen
        rcases t with _ | ⟨b, t⟩
        · simp at ht
        · obtain rfl : b = openBrace := by simpa using ht
          exact ⟨[], _, rfl, trivial, .inr (.inr ⟨t, rfl⟩)⟩
      · by_cases hb : c = backslash
        · subst hb
          rcases t with _ | ⟨code, t⟩
          · exact ⟨[], _, rfl, trivial, .inr (.inl rfl)⟩
          · obtain ⟨p, htext, hbefore⟩ := exists_piece code t
            have hlen := length_escapeByte_le code t
            obtain ⟨ps, z, hd, hall, hz⟩ :=
              ih _ (by simp at hn; omega) (escapeByte code t).2 rfl
            have hp : p.text.head? = some backslash := by
              rcases hp : p.text with _ | ⟨c, u⟩
              · rcases p with c | c | digits | digits <;> simp [Piece.text] at hp
              · rw [hp] at htext
                simpa using congrArg List.head? htext.symm
            refine ⟨p :: ps, z, ?_, ⟨.inl ?_, hall⟩, hz⟩
            · rw [htext, hd]
              simp [spell]
            · rw [← List.append_assoc, ← hd]
              exact before_append hbefore hp hX
        · obtain ⟨ps, z, hd, hall, hz⟩ := ih _ (by simp at hn; omega) t rfl
          refine ⟨.char c :: ps, z, ?_, ⟨?_, hall⟩, hz⟩
          · rw [hd]
            simp [spell, Piece.text]
          · rw [← List.append_assoc, ← hd]
            by_cases hq : c = quote
            · exact .inr (by rw [hq])
            · refine .inl ⟨hq, hb, ?_⟩
              rintro ⟨rfl, hhead⟩
              rcases t with _ | ⟨b, t⟩
              · rw [List.nil_append, hX] at hhead
                simp [dollar, openBrace] at hhead
              · exact hopen ⟨rfl, by simpa using hhead⟩

theorem interpLoop_head (lit s : Str) :
    ∃ more l, interpLoop lit s = textPart (lit ++ more) :: l := by
  fun_induction interpLoop lit s with
  | case1 => exact ⟨[], [], by simp⟩
  | case2 => exact ⟨[], _, by simp; rfl⟩
  | case3 lit _ ih =>
    obtain ⟨more, l, h⟩ := ih
    exact ⟨_, l, by rw [h, List.append_assoc]⟩
  | case4 lit _ _ _ ih =>
    obtain ⟨more, l, h⟩ := ih
    exact ⟨_, l, by rw [h, List.append_assoc]⟩
  | case5 lit _ _ _ _ ih =>
    obtain ⟨more, l, h⟩ := ih
    exact ⟨_, l, by rw [h, List.append_assoc]⟩

/-- If the parser gives the first text back, there was nothing in it to decode. -/
theorem plain_of_head {d s : Str} {l : List Part}
    (h : interpLoop [] (d ++ dollar :: openBrace :: s) = .text d :: l) :
    backslash ∉ d ∧ ¬[dollar, openBrace] <:+: d := by
  obtain ⟨ps, z, rfl, hall, hz⟩ := @exists_reads d (dollar :: openBrace :: s) rfl
  have hbytes : (bytes ps).length = ps.length := by simp [bytes]
  obtain ⟨hle, hchars⟩ := hall.length_le
  have hpre : ∀ lit : Str, (textPart lit = .text (spell ps ++ z)) → spell ps ++ z <+: lit := by
    intro lit hlit
    rw [textPart, Part.text.injEq] at hlit
    rw [← hlit]
    exact List.takeWhile_prefix _
  rw [List.append_assoc, interpLoop_spell [] hall, List.nil_append] at h
  rcases hz with rfl | rfl | ⟨w, rfl⟩
  · rw [List.nil_append, interpLoop_open] at h
    have hlen := (hpre _ (List.cons.inj h).1).length_le
    rw [List.append_nil, hbytes] at hlen
    have hps := hchars hlen
    rw [List.append_nil]
    constructor
    · intro hmem
      rw [spell_eq_bytes hps, bytes, List.mem_map] at hmem
      obtain ⟨p, hp, hbyte⟩ := hmem
      obtain ⟨c, rfl⟩ := hps p hp
      obtain ⟨t, hq⟩ := hall.mem hp
      rcases hq with hq | hq
      · exact hq.2.1 hbyte
      · rw [Piece.char.injEq] at hq
        rw [hq] at hbyte
        exact absurd hbyte (by decide)
    · rintro ⟨A, r, hA⟩
      obtain ⟨q1, q2, rfl, -⟩ := interp_in_spell hall (A := A) ⟨r, hA⟩
      obtain ⟨c, hc⟩ := hps (.escape dollar) (by simp)
      simp at hc
  · have hescape : escapeByte dollar (openBrace :: s) = (dollar, openBrace :: s) := by
      simp [escapeByte, isOctal, dollar, backslash, quote, xChar]
    rw [List.singleton_append, interpLoop_escape, hescape,
      interpLoop_char _ (by decide) (by simp [openBrace, dollar])] at h
    obtain ⟨more, l', hmore⟩ := interpLoop_head (bytes ps ++ [dollar] ++ [openBrace]) s
    have hlit := (List.cons.inj (hmore.symm.trans h)).1
    refine absurd (hpre _ hlit) ?_
    simpa using not_prefix_of_open (m := more) hall
  · rw [List.cons_append, List.cons_append, interpLoop_open] at h
    have hlen := (hpre _ (List.cons.inj h).1).length_le
    simp only [List.length_append, List.length_cons] at hlen
    omega

/-! ### Every interpolated string -/

theorem textPart_eq_iff {lit : Str} : textPart lit = .text lit ↔ 0 ∉ lit := by
  rw [textPart, Part.text.injEq, List.takeWhile_eq_self_iff]
  constructor
  · exact fun h h0 => by simpa using h 0 h0
  · intro h c hc
    simp only [ne_eq, decide_eq_true_eq]
    rintro rfl
    exact h hc

theorem readParts_eq_iff {parts : List (Expression parse × List Piece)} :
    readParts parts = (parts.flatMap fun p => [.expr p.1.tokens, .text (bytes p.2)]) ↔
      ∀ p ∈ parts, p.1.tokens.length ≤ interpMaxTokens - 1 ∧ 0 ∉ bytes p.2 := by
  induction parts with
  | nil => simp [readParts]
  | cons p parts ih =>
    rw [readParts] at ih
    simp [readParts, ih, exprTokens_eq_iff, textPart_eq_iff, and_assoc]

theorem parseInterpString_of_expected {l : Literal parse} {raw : Str}
    (h : interpLoop [] raw = l.expected) : parseInterpString parse raw = l.children := by
  rw [parseInterpString, h, Literal.expected, Literal.children]
  generalize l.parts = parts
  simp only [List.filterMap_cons]
  congr 1
  induction parts with
  | nil => rfl
  | cons p parts ih =>
    simp only [List.flatMap_cons, List.cons_append, List.nil_append, List.filterMap_cons, ih,
      p.1.parsed, Option.map_some]

theorem Literal.tail_ne_zero (l : Literal parse) : 0 ∉ tailText l.parts := fun h =>
  l.ne_zero (by simp [h])

theorem Literal.tailText_eq (l : Literal parse) :
    ∃ s, tailText l.parts = dollar :: openBrace :: s := by
  obtain ⟨p, parts, hparts⟩ := List.exists_cons_of_ne_nil l.parts_ne
  exact ⟨_, by rw [hparts]; rfl⟩

theorem nextToken_of_ne_zero {l : Literal parse} (hq : Unquoted l.parts) (h : 0 ∉ bytes l.first) :
    nextToken l.source =
      (⟨.interpString, some (bytes l.first ++ tailText l.parts)⟩, l.rest) := by
  rw [nextToken_source hq, createToken_of_ne_zero]
  rintro c hc rfl
  rcases List.mem_append.1 hc with hc | hc
  · exact h hc
  · exact l.tail_ne_zero hc

/-- Every text that the parser makes ends before a zero byte. -/
theorem text_ne_zero {lit s value : Str} (h : .text value ∈ interpLoop lit s) : 0 ∉ value := by
  have hpart : ∀ lit, .text value = textPart lit → (0 : UInt8) ∉ value := by
    rintro lit heq h0
    rw [textPart, Part.text.injEq] at heq
    rw [heq] at h0
    simpa using List.mem_takeWhile_imp h0
  fun_induction interpLoop lit s with
  | case1 lit => exact hpart lit (by simpa using h)
  | case2 lit c t _ ih =>
    rcases List.mem_cons.1 h with h | h
    · exact hpart lit h
    · exact ih (by simpa using h)
  | case3 lit _ ih => exact ih h
  | case4 lit _ _ _ ih => exact ih h
  | case5 lit _ _ _ _ ih => exact ih h

/-- A literal that is read as it is written has nothing to decode twice, and no open quote. -/
theorem Literal.Decoded.first {l : Literal parse} (h : l.Decoded) :
    Unquoted l.parts ∧ 0 ∉ bytes l.first ∧ backslash ∉ bytes l.first ∧
      ¬[dollar, openBrace] <:+: bytes l.first := by
  obtain ⟨raw, htoken, hparts, -⟩ := h
  obtain ⟨s, htail⟩ := l.tailText_eq
  have hq : Unquoted l.parts := unquoted_of_rest (by rw [htoken])
  have hzero : 0 ∉ bytes l.first :=
    @text_ne_zero [] raw _ (by rw [hparts]; exact List.mem_cons_self ..)
  rw [nextToken_of_ne_zero hq hzero, Prod.mk.injEq, Token.mk.injEq, Option.some_inj] at htoken
  obtain ⟨⟨-, rfl⟩, -⟩ := htoken
  rw [htail] at hparts
  exact ⟨hq, hzero, plain_of_head hparts⟩

theorem interpLoop_source {l : Literal parse} (hb : backslash ∉ bytes l.first)
    (hd : ¬[dollar, openBrace] <:+: bytes l.first) :
    interpLoop [] (bytes l.first ++ tailText l.parts) =
      textPart (bytes l.first) :: readParts l.parts := by
  obtain ⟨s, htail⟩ := l.tailText_eq
  rw [interpLoop_plain [] hb hd (by simp [htail, dollar, openBrace]), List.nil_append,
    interpLoop_tailText _ l.fits_tail]

/-- A parser of expressions that are one token. -/
def oneToken : List Token → Option (Token × List Token)
  | [t] => some (t, [])
  | _ => none

theorem nextToken_a : nextToken [0x61] = (⟨.identifier, some [0x61]⟩, []) := by
  have h : skipBlanks [0x61] = [0x61] := skipBlanks_cons (by decide) (by decide)
  simp only [nextToken, h]
  decide

theorem nextToken_nil : nextToken [] = (⟨.eof, none⟩, []) := by
  have h : skipBlanks [] = [] := by
    rw [skipBlanks]
    rfl
  simp only [nextToken, h]

def wordA : Expression oneToken where
  text := [0x61]
  tokens := [⟨.identifier, some [0x61]⟩]
  node := ⟨.identifier, some [0x61]⟩
  balanced := by simp [Balanced, openBrace, closeBrace]
  lexed := by
    have h := @Lexed.token [0x61] [] (by simp [nextToken_a]) (by simp [nextToken_a])
      (by rw [nextToken_a]; exact .eof (by rw [nextToken_nil]))
    rwa [nextToken_a] at h
  parsed := rfl

/-- The source text `"\\n${a}"`. -/
def escapedBackslash : Literal oneToken where
  first := [.escape backslash, .char 0x6e]
  parts := [(wordA, [])]
  rest := []
  parts_ne := by simp
  fits := ⟨⟨by decide, by decide⟩, ⟨by decide, by decide, by decide⟩, trivial⟩
  fits_tail := ⟨trivial, trivial⟩
  ne_zero := by decide

end Interp

end Aether

end Qjs
