import Qjs.Lexer

/-!
# Going back to a token

A token begins at a byte that is neither blank nor the start of a comment, so reading from its
position skips nothing. What is read then depends on the flag for regular expressions only if the
byte is a slash; and the flag that is saved with a token that begins with a slash is the opposite
of the one that the token was read with.
-/

namespace Qjs.Lexer

open Json

variable {src p q r : List ℕ} {n : ℕ} {lf lf' allowed : Bool} {t : Tok} {v : Value}
  {s s' s'' : ParseState}

/-! ### Blanks -/

/-- What is left after blanks and comments is a suffix at which nothing is skipped. -/
theorem skipBlanks_spec (p : List ℕ) (lf : Bool) : ∀ {q : List ℕ} {lf' : Bool},
    skipBlanks p lf = .ok (q, lf') → q <:+ p ∧ ∀ b, skipBlanks q b = .ok (q, b) := by
  induction p, lf using skipBlanks.induct with
  | case1 lf =>
    intro q lf' h
    rw [skipBlanks] at h
    obtain ⟨rfl, -⟩ := Prod.mk.inj (Except.ok.inj h)
    exact ⟨List.suffix_rfl, fun b => by rw [skipBlanks]⟩
  | case2 lf p ih =>
    intro q lf' h
    rw [skipBlanks, if_pos rfl] at h
    exact ⟨(ih h).1.trans (List.suffix_cons _ p), (ih h).2⟩
  | case3 lf c p hc hb ih =>
    intro q lf' h
    rw [skipBlanks, if_neg hc, if_pos hb] at h
    exact ⟨(ih h).1.trans (List.suffix_cons c p), (ih h).2⟩
  | case4 lf c p hc hb hs hnone =>
    intro q lf' h
    rw [skipBlanks, if_neg hc, if_neg hb, if_pos hs] at h
    split at h
    · simp at h
    · simp_all
  | case5 lf c p hc hb hs q' hq ih =>
    intro q lf' h
    rw [skipBlanks, if_neg hc, if_neg hb, if_pos hs] at h
    split at h
    · simp at h
    rename_i q'' hq''
    obtain rfl : q' = q'' := Option.some.inj (hq.symm.trans hq'')
    have hsuf := (commentEnd_suffix hq).trans (List.tail_suffix p)
    exact ⟨((ih h).1.trans hsuf).trans (List.suffix_cons c p), (ih h).2⟩
  | case6 lf c p hc hb hs hl ih =>
    intro q lf' h
    rw [skipBlanks, if_neg hc, if_neg hb, if_neg hs, if_pos hl] at h
    have hsuf : lineEnd p.tail <:+ p := (List.dropWhile_suffix _).trans (List.tail_suffix p)
    exact ⟨((ih h).1.trans hsuf).trans (List.suffix_cons c p), (ih h).2⟩
  | case7 lf c p hc hb hs hl =>
    intro q lf' h
    rw [skipBlanks, if_neg hc, if_neg hb, if_neg hs, if_neg hl] at h
    obtain ⟨rfl, -⟩ := Prod.mk.inj (Except.ok.inj h)
    refine ⟨List.suffix_rfl, fun b => ?_⟩
    rw [skipBlanks, if_neg hc, if_neg hb, if_neg hs, if_neg hl]

/-! ### Slashes -/

theorem operator_ne_divAssign (p : List ℕ) : ∀ k, operator p ≠ some (.divAssign, k) := by
  have hite {c : Prop} [Decidable c] {x y : Option (Op × ℕ)}
      (hx : ∀ k, x ≠ some (.divAssign, k)) (hy : ∀ k, y ≠ some (.divAssign, k)) :
      ∀ k, (if c then x else y) ≠ some (.divAssign, k) := by
    by_cases hc : c
    · rwa [if_pos hc]
    · rwa [if_neg hc]
  unfold operator
  dsimp only
  -- one goal for each end of the switch
  repeat' refine hite ?_ ?_
  all_goals simp

theorem readNumber_val (h : readNumber p = .ok (t, v, r)) : t = .number := by
  unfold readNumber at h
  simp only at h
  split_ifs at h
  exact (congrArg Prod.fst (Except.ok.inj h)).symm

theorem jsParseRegexpToken_val (h : jsParseRegexpToken n p = .ok (t, v, r)) : t = .regexp := by
  unfold jsParseRegexpToken at h
  rcases hq : regexpEnd (p.length + 1) false p with e | q
  · simp [hq, bind, Except.bind] at h
  · simp only [hq, bind, Except.bind] at h
    split_ifs at h
    exact (congrArg Prod.fst (Except.ok.inj h)).symm

/-- A slash is read as a regular expression exactly if one is allowed. -/
theorem readSlash_val (h : readSlash n allowed p = .ok (t, v, r)) :
    t.IsSlash ∧ (t = .regexp ↔ allowed = true) := by
  unfold readSlash at h
  split_ifs at h with ha h1
  · obtain rfl := jsParseRegexpToken_val h
    simp [Tok.IsSlash, ha]
  · obtain rfl := congrArg Prod.fst (Except.ok.inj h)
    simp [Tok.IsSlash, ha]
  · obtain rfl := congrArg Prod.fst (Except.ok.inj h)
    simp [Tok.IsSlash, ha]

/-- Without a slash the token does not depend on the flag, and is none that begins with a slash. -/
theorem readToken_of_ne (hp : cur p ≠ 0x2f) (b : Bool) :
    readToken n allowed p = readToken n b p := by
  unfold readToken
  simp only [hp, if_false]

theorem readToken_slash (hp : cur p = 0x2f) : readToken n allowed p = readSlash n allowed p := by
  unfold readToken
  simp [hp]

theorem readToken_not_slash (hp : cur p ≠ 0x2f) (h : readToken n allowed p = .ok (t, v, r)) :
    ¬t.IsSlash := by
  unfold readToken at h
  dsimp only at h
  by_cases h0 : cur p = 0
  · rw [if_pos h0] at h
    obtain rfl := congrArg Prod.fst (Except.ok.inj h)
    simp [Tok.IsSlash]
  rw [if_neg h0] at h
  by_cases hq : cur p = 0x22 ∨ cur p = 0x27
  · rw [if_pos hq] at h
    rcases hs : jsParseString p.tail (cur p) with e | ⟨cs, r'⟩
    · simp [hs, bind, Except.bind] at h
    · simp only [hs, bind, Except.bind] at h
      obtain rfl := congrArg Prod.fst (Except.ok.inj h)
      simp [Tok.IsSlash]
  rw [if_neg hq, if_neg hp] at h
  by_cases hi : isIdentFirst (cur p)
  · rw [if_pos hi, jsParseIdent] at h
    obtain rfl := congrArg Prod.fst (Except.ok.inj h)
    dsimp only
    split_ifs <;> simp [Tok.IsSlash]
  rw [if_neg hi] at h
  by_cases hn : Json.isNum (cur p) ∨ (cur p = 0x2e ∧ Json.isNum (byteAt p 1))
  · rw [if_pos hn] at h
    rw [readNumber_val h]
    simp [Tok.IsSlash]
  rw [if_neg hn] at h
  rcases ho : operator p with _ | ⟨o, len⟩
  · rw [ho] at h
    dsimp only at h
    split_ifs at h
    obtain rfl := congrArg Prod.fst (Except.ok.inj h)
    simpa [Tok.IsSlash] using hp
  · rw [ho] at h
    obtain rfl := congrArg Prod.fst (Except.ok.inj h)
    have hne : o ≠ .divAssign := fun he => operator_ne_divAssign p len (he ▸ ho)
    simp [Tok.IsSlash, hne]

/-! ### Going back -/

/-- A token and what was before it. -/
theorem nextToken_ok (h : nextToken src s = .ok s') : ∃ p r,
    p <:+ src ∧ (∀ b, skipBlanks p b = .ok (p, b)) ∧
    readToken src.length (isRegexpAllowed s.token.val) p = .ok (s'.token.val, s'.token.value, r) ∧
    s'.bufPos = src.length - r.length ∧ s'.token.sourcePos = src.length - p.length := by
  unfold nextToken at h
  rcases hb : skipBlanks (src.drop s.bufPos) false with e | ⟨p, lf⟩
  · simp [hb, bind, Except.bind] at h
  simp only [hb, bind, Except.bind] at h
  rcases hr : readToken src.length (isRegexpAllowed s.token.val) p with e | ⟨t, v, r⟩
  · simp [hr] at h
  simp only [hr] at h
  obtain rfl := Except.ok.inj h
  obtain ⟨hsuf, hskip⟩ := skipBlanks_spec _ _ hb
  exact ⟨p, r, hsuf.trans (List.drop_suffix _ _), hskip, hr, rfl, rfl⟩

/-- Reading from the position of a token skips nothing. -/
theorem nextToken_at (hp : p <:+ src) (hskip : ∀ b, skipBlanks p b = .ok (p, b))
    (hs : s.bufPos = src.length - p.length) :
    nextToken src s = (readToken src.length (isRegexpAllowed s.token.val) p).map fun x =>
      ⟨src.length - x.2.2.length, false, ⟨x.1, x.2.1, src.length - p.length⟩⟩ := by
  unfold nextToken
  rw [hs, ← List.suffix_iff_eq_drop.1 hp, hskip]
  rcases hr : readToken src.length (isRegexpAllowed s.token.val) p with e | ⟨t, v, r⟩ <;>
    simp [hr, bind, Except.bind, Except.map, pure, Except.pure]

theorem isRegexpAllowed_saved (b : Bool) :
    isRegexpAllowed (.char (if b then 0x20 else 0x29)) = b := by
  cases b <;> rfl

/-- The flag that is saved with a token that begins with a slash is wrong. -/
theorem isRegexpAllowed_of_slash (ht : t.IsSlash) :
    isRegexpAllowed t = !decide (t = .regexp) := by
  rcases ht with rfl | rfl | rfl <;> rfl

/-- Going back to a token that was saved, from wherever the parser is by then, gives the token again
exactly if no line feed is before it and it does not begin with a slash. -/
theorem seekToken_iff (src : List ℕ) (s s' s'' : ParseState) (hs' : nextToken src s = .ok s') :
    jsParseSeekToken src s'' (jsParseGetPos s') = .ok s' ↔
      s'.gotLf = false ∧ ¬s'.token.val.IsSlash := by
  obtain ⟨p, r, hp, hskip, hread, hbuf, hpos⟩ := nextToken_ok hs'
  have hseek : jsParseSeekToken src s'' (jsParseGetPos s')
      = (readToken src.length (isRegexpAllowed s'.token.val) p).map fun x =>
        ⟨src.length - x.2.2.length, false, ⟨x.1, x.2.1, src.length - p.length⟩⟩ := by
    rw [jsParseSeekToken, nextToken_at hp hskip hpos]
    dsimp only
    rw [isRegexpAllowed_saved]
    rfl
  rw [hseek]
  by_cases hc : cur p = 0x2f
  · rw [readToken_slash hc] at hread ⊢
    obtain ⟨hslash, -⟩ := readSlash_val hread
    refine iff_of_false ?_ fun hn => hn.2 hslash
    intro heq
    rcases hr : readSlash src.length (isRegexpAllowed s'.token.val) p with e | ⟨t, v, r'⟩
    · simp [hr, Except.map] at heq
    rw [hr] at heq
    have ht : t = s'.token.val := congrArg (fun s => s.token.val) (Except.ok.inj heq)
    have hagain := (readSlash_val hr).2
    rw [isRegexpAllowed_of_slash hslash, ht] at hagain
    by_cases hre : s'.token.val = .regexp <;> simp [hre] at hagain
  · rw [readToken_of_ne hc (isRegexpAllowed s.token.val), hread, Except.map]
    have hslash := readToken_not_slash hc hread
    simp only [hslash, not_false_eq_true, and_true]
    constructor
    · intro heq
      exact (congrArg ParseState.gotLf (Except.ok.inj heq)).symm
    · intro hlf
      rw [← hlf, ← hbuf, ← hpos]

/-- The letter b as a source, and the states after its two tokens. -/
def letterSource : List ℕ := [0x62]

def letterState : ParseState := ⟨1, false, ⟨.ident, .ident [0x62], 0⟩⟩

def endState : ParseState := ⟨1, false, ⟨.eof, .null, 1⟩⟩

theorem nextToken_letter : nextToken letterSource .init = .ok letterState := by
  have hb : skipBlanks letterSource false = .ok (letterSource, false) := by
    rw [letterSource, skipBlanks]
    rfl
  rw [nextToken, show letterSource.drop ParseState.init.bufPos = letterSource from rfl, hb]
  rfl

theorem seekToken_letter :
    nextToken letterSource .init = .ok letterState ∧
      (jsParseSeekToken letterSource endState (jsParseGetPos letterState) = .ok letterState ↔
        letterState.gotLf = false ∧ ¬letterState.token.val.IsSlash) :=
  ⟨nextToken_letter, seekToken_iff letterSource .init letterState endState nextToken_letter⟩

/-- A regular expression as a source. -/
def regexpSource : List ℕ := [0x2f, 0x61, 0x2f]

def regexpState : ParseState := ⟨3, false, ⟨.regexp, .regexp [0x61] 0 2, 0⟩⟩

/-- A regular expression is read as a slash the second time. -/
theorem regexp_read_as_slash : nextToken regexpSource .init = .ok regexpState ∧
    jsParseSeekToken regexpSource regexpState (jsParseGetPos regexpState) ≠ .ok regexpState := by
  have hb : skipBlanks regexpSource false = .ok (regexpSource, false) := by
    rw [regexpSource, skipBlanks]
    rfl
  have hfirst : nextToken regexpSource .init = .ok regexpState := by
    rw [nextToken, show regexpSource.drop ParseState.init.bufPos = regexpSource from rfl, hb]
    rfl
  have hagain : jsParseSeekToken regexpSource regexpState (jsParseGetPos regexpState)
      = .ok ⟨1, false, ⟨.char 0x2f, .null, 0⟩⟩ := by
    rw [jsParseSeekToken, nextToken]
    rw [show regexpSource.drop (jsParseGetPos regexpState).sourcePos = regexpSource from rfl, hb]
    rfl
  refine ⟨hfirst, ?_⟩
  rw [hagain]
  simp [regexpState]

end Qjs.Lexer
