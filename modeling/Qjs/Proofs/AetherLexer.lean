import Qjs.AetherLexer

/-!
# Literals of the lexer

A string literal, a number and a heredoc give tokens that carry what is written exactly when no
escape of the string is the zero byte, the number has a digit, at most one dot and a value that
`strtol` can return, and the marker is short enough and does not end a line before its own.
-/

namespace Qjs

namespace Aether

namespace Lexer

/-! ### Spans -/

theorem takeWhile_run {p : UInt8 → Bool} {run rest : Str} (hrun : ∀ c ∈ run, p c = true)
    (hrest : ∀ c, rest.head? = some c → p c = false) : (run ++ rest).takeWhile p = run := by
  rw [List.takeWhile_append_of_pos hrun]
  rcases rest with _ | ⟨c, rest⟩
  · simp
  · simp [hrest c rfl]

theorem dropWhile_run {p : UInt8 → Bool} {run rest : Str} (hrun : ∀ c ∈ run, p c = true)
    (hrest : ∀ c, rest.head? = some c → p c = false) : (run ++ rest).dropWhile p = rest := by
  rw [List.dropWhile_append_of_pos hrun]
  rcases rest with _ | ⟨c, rest⟩
  · simp
  · simp [hrest c rfl]

theorem digitsUpTo_run {n : ℕ} {isDig : UInt8 → Bool} {digits rest : Str}
    (hdig : ∀ d ∈ digits, isDig d = true) (hn : digits.length ≤ n)
    (hstop : digits.length < n → ∀ d, rest.head? = some d → isDig d = false) :
    digitsUpTo n isDig (digits ++ rest) = (digits, rest) := by
  have hrun : ((digits ++ rest).take n).takeWhile isDig = digits := by
    rw [List.take_append, List.take_of_length_le hn]
    refine takeWhile_run hdig fun c hc => ?_
    rcases Nat.eq_zero_or_pos (n - digits.length) with hz | hpos
    · simp [hz] at hc
    · refine hstop (by omega) c ?_
      rwa [List.head?_take, if_neg (by omega)] at hc
  simp [digitsUpTo, hrun]

/-! ### Strings -/

theorem isXdigit_of_isOctal {c : UInt8} (h : isOctal c = true) : isXdigit c = true := by
  simp only [isOctal, isXdigit, isDigit, Bool.and_eq_true, Bool.or_eq_true, decide_eq_true_eq,
    UInt8.le_iff_toNat_le] at h ⊢
  simp at h ⊢
  omega

theorem escapeByte_escape {c : UInt8} {t : Str} (h : (Piece.escape c).Before t) :
    escapeByte c t = ((Piece.escape c).byte, t) := by
  rcases h with ⟨hoct, hx⟩
  by_cases hc : c = xChar
  · subst hc
    have hnil : digitsUpTo 2 isXdigit t = ([], t) := by
      simpa using @digitsUpTo_run 2 isXdigit [] t (by simp) (by simp) fun _ => hx rfl
    simp [escapeByte, Piece.byte, hnil, xChar, backslash, quote]
  · unfold escapeByte Piece.byte
    split_ifs <;> simp_all

theorem escapeByte_hex {digits t : Str} (h : (Piece.hex digits).Before t) :
    escapeByte xChar (digits ++ t) = ((Piece.hex digits).byte, t) := by
  rcases h with ⟨hne, hlen, hdig, hstop⟩
  simp [escapeByte, Piece.byte, digitsUpTo_run hdig hlen hstop, hne, xChar, backslash, quote]

theorem escapeByte_octal {c : UInt8} {digits t : Str} (h : (Piece.octal (c :: digits)).Before t) :
    escapeByte c (digits ++ t) = ((Piece.octal (c :: digits)).byte, t) := by
  rcases h with ⟨-, hlen, hdig, hstop⟩
  have hc := hdig c (by simp)
  have hspan := @digitsUpTo_run 2 isOctal digits t
    (fun d hd => hdig d (by simp [hd])) (by simpa using Nat.le_of_succ_le_succ hlen)
    (fun hlt => hstop (by simpa using Nat.succ_lt_succ hlt))
  have hbyte : UInt8.ofNat (digitsValue 8 (c :: digits) % 256) =
      UInt8.ofNat (digitsValue 8 (c :: digits)) := by
    apply UInt8.toNat_inj.mp
    simp
  unfold escapeByte Piece.byte
  split_ifs <;> simp_all [isOctal, xChar, backslash, quote]

theorem readStringLoop_quote (hasInterp : Bool) (buffer t : Str) :
    readStringLoop hasInterp buffer (quote :: t) = (hasInterp, buffer, quote :: t) := by
  rw [readStringLoop.eq_def]
  simp

theorem readStringLoop_char {c : UInt8} {t : Str} (hasInterp : Bool) (buffer : Str)
    (hq : c ≠ quote) (hb : c ≠ backslash) (hd : ¬(c = dollar ∧ t.head? = some openBrace)) :
    readStringLoop hasInterp buffer (c :: t) = readStringLoop hasInterp (buffer ++ [c]) t := by
  rw [readStringLoop.eq_def]
  simp [hq, hb, hd]

theorem readStringLoop_escape (buffer : Str) (c : UInt8) (t : Str) :
    readStringLoop false buffer (backslash :: c :: t) =
      readStringLoop false (buffer ++ [(escapeByte c t).1]) (escapeByte c t).2 := by
  rw [readStringLoop.eq_def]
  simp [backslash, quote, dollar]

theorem readStringLoop_piece {p : Piece} {t : Str} (buffer : Str) (h : p.Before t) :
    readStringLoop false buffer (p.text ++ t) = readStringLoop false (buffer ++ [p.byte]) t := by
  rcases p with c | c | digits | digits
  · rcases h with ⟨hq, hb, hd⟩
    exact readStringLoop_char false buffer hq hb hd
  · rw [Piece.text, List.cons_append, List.singleton_append, readStringLoop_escape,
      escapeByte_escape h]
  · rw [Piece.text, List.cons_append, List.cons_append, readStringLoop_escape, escapeByte_hex h]
  · rcases digits with _ | ⟨c, digits⟩
    · exact absurd rfl h.1
    · rw [Piece.text, List.cons_append, List.cons_append, readStringLoop_escape,
        escapeByte_octal h]

theorem readStringLoop_spelled {pieces : List Piece} {rest s : Str} (buffer : Str)
    (h : Spelled rest pieces s) :
    readStringLoop false buffer s = (false, buffer ++ pieces.map Piece.byte, quote :: rest) := by
  induction pieces generalizing s buffer with
  | nil =>
    obtain rfl : s = quote :: rest := h
    simp [readStringLoop_quote]
  | cons p ps ih =>
    rcases h with ⟨t, rfl, hp, ht⟩
    rw [readStringLoop_piece buffer hp, ih _ ht]
    simp

theorem skipBlanks_cons {c : UInt8} {t : Str} (hspace : isSpace c = false) (hslash : c ≠ slash) :
    skipBlanks (c :: t) = c :: t := by
  have hws : skipWhitespace (c :: t) = c :: t := by simp [skipWhitespace, hspace]
  have hcomment : skipComment (skipWhitespace (c :: t)) = none := by
    rw [hws]
    simp [skipComment, hslash]
  rw [skipBlanks]
  split
  · simp_all
  · exact hws

theorem nextToken_quote (s : Str) : nextToken (quote :: s) = readString s := by
  have h : skipBlanks (quote :: s) = quote :: s := skipBlanks_cons (by decide) (by decide)
  simp [nextToken, h]

theorem nextToken_string {pieces : List Piece} {rest source : Str}
    (h : StringAt pieces rest source) :
    nextToken source = (createToken .stringLiteral (pieces.map Piece.byte), rest) := by
  rcases h with ⟨s, rfl, hs⟩
  rw [nextToken_quote, readString, readStringLoop_spelled [] hs]
  simp

theorem string_meant_iff {pieces : List Piece} {rest source : Str}
    (h : StringAt pieces rest source) :
    nextToken source = (⟨.stringLiteral, some (pieces.map Piece.byte)⟩, rest) ↔
      ∀ p ∈ pieces, p.byte ≠ 0 := by
  rw [nextToken_string h]
  simp [createToken, List.takeWhile_eq_self_iff]

/-! ### Every string token is spelled -/

theorem fst_readStringLoop (buffer s : Str) : (readStringLoop true buffer s).1 = true := by
  generalize hb : true = hasInterp
  fun_induction readStringLoop hasInterp buffer s <;> simp_all

theorem mem_digitsUpTo {n : ℕ} {isDig : UInt8 → Bool} {s : Str} {d : UInt8}
    (h : d ∈ (digitsUpTo n isDig s).1) : isDig d = true :=
  List.mem_takeWhile_imp h

theorem length_digitsUpTo_fst_le (n : ℕ) (isDig : UInt8 → Bool) (s : Str) :
    (digitsUpTo n isDig s).1.length ≤ n :=
  (List.takeWhile_sublist _).length_le.trans (List.length_take_le n s)

theorem digitsUpTo_append (n : ℕ) (isDig : UInt8 → Bool) (s : Str) :
    (digitsUpTo n isDig s).1 ++ (digitsUpTo n isDig s).2 = s := by
  have hpre : (s.take n).takeWhile isDig <+: s :=
    (List.takeWhile_prefix _).trans (List.take_prefix _ _)
  rw [digitsUpTo]
  exact List.prefix_append_drop hpre |>.symm

theorem digitsUpTo_stop {n : ℕ} {isDig : UInt8 → Bool} {s : Str}
    (h : (digitsUpTo n isDig s).1.length < n) (d : UInt8)
    (hd : (digitsUpTo n isDig s).2.head? = some d) : isDig d = false := by
  induction n generalizing s with
  | zero => simp at h
  | succ n ih =>
    rcases s with _ | ⟨c, s⟩
    · simp [digitsUpTo] at hd
    · by_cases hc : isDig c = true
      · refine ih (s := s) ?_ ?_
        · simpa [digitsUpTo, hc] using h
        · simpa [digitsUpTo, hc] using hd
      · obtain rfl : c = d := by simpa [digitsUpTo, hc] using hd
        simpa using hc

/-- What follows a backslash is the rest of a piece. -/
theorem exists_piece (c : UInt8) (s : Str) : ∃ p : Piece,
    backslash :: c :: s = p.text ++ (escapeByte c s).2 ∧ p.Before (escapeByte c s).2 := by
  have hhex := digitsUpTo_append 2 isXdigit s
  have hoct := digitsUpTo_append 2 isOctal s
  by_cases hx : c = xChar
  · subst hx
    have hsnd : (escapeByte xChar s).2 = (digitsUpTo 2 isXdigit s).2 := by
      simp [escapeByte, xChar, backslash, quote]
      split_ifs <;> rfl
    rw [hsnd]
    by_cases hnil : (digitsUpTo 2 isXdigit s).1 = []
    · refine ⟨.escape xChar, ?_, by decide, fun _ => digitsUpTo_stop (by simp [hnil])⟩
      rw [hnil, List.nil_append] at hhex
      simp [Piece.text, hhex]
    · refine ⟨.hex (digitsUpTo 2 isXdigit s).1, ?_, hnil, length_digitsUpTo_fst_le 2 isXdigit s,
        fun d hd => mem_digitsUpTo hd, digitsUpTo_stop⟩
      simp [Piece.text, hhex]
  · by_cases ho : isOctal c = true
    · have hsnd : (escapeByte c s).2 = (digitsUpTo 2 isOctal s).2 := by
        unfold escapeByte
        split_ifs <;> simp_all [isOctal, backslash, quote]
      rw [hsnd]
      refine ⟨.octal (c :: (digitsUpTo 2 isOctal s).1), ?_, by simp, ?_, ?_, fun hlt => ?_⟩
      · simp [Piece.text, hoct]
      · exact Nat.succ_le_succ (length_digitsUpTo_fst_le 2 isOctal s)
      · intro d hd
        rcases List.mem_cons.1 hd with rfl | hd
        · exact ho
        · exact mem_digitsUpTo hd
      · exact digitsUpTo_stop (Nat.lt_of_succ_lt_succ hlt)
    · have hsnd : (escapeByte c s).2 = s := by
        unfold escapeByte
        split_ifs <;> simp_all
      rw [hsnd]
      exact ⟨.escape c, rfl, by simpa using ho, fun h => absurd h hx⟩

theorem exists_spelled {buffer s out rest : Str}
    (h : readStringLoop false buffer s = (false, out, quote :: rest)) :
    ∃ pieces, Spelled rest pieces s := by
  generalize hb : false = hasInterp at h
  fun_induction readStringLoop hasInterp buffer s with
  | case1 => simp at h
  | case2 hasInterp buffer t =>
    obtain ⟨-, rfl⟩ : buffer = out ∧ t = rest := by simpa [← hb] using h
    exact ⟨[], rfl⟩
  | case3 hasInterp buffer c t hq hd =>
    have := fst_readStringLoop (buffer ++ [dollar, openBrace]) t.tail
    simp_all
  | case4 => simp at h
  | case5 => simp_all
  | case6 buffer _ esc t _ _ _ ih =>
    obtain ⟨pieces, hp⟩ := ih hb h
    obtain ⟨p, htext, hbefore⟩ := exists_piece esc t
    exact ⟨p :: pieces, _, htext, hbefore, hp⟩
  | case7 hasInterp buffer c t hq hd hb' ih =>
    obtain ⟨pieces, hp⟩ := ih hb h
    exact ⟨.char c :: pieces, t, rfl, ⟨hq, hb', hd⟩, hp⟩

/-- A text whose token is a plain string literal spells one. -/
theorem stringAt_of_readString {s : Str}
    (h : (nextToken (quote :: s)).1.type = .stringLiteral) :
    ∃ pieces rest, StringAt pieces rest (quote :: s) := by
  rw [nextToken_quote, readString] at h
  rcases hloop : readStringLoop false [] s with ⟨hasInterp, buffer, t⟩
  rw [hloop] at h
  dsimp only at h
  split_ifs at h with hq hi
  · simp [createToken] at h
  · obtain ⟨t, rfl⟩ : ∃ rest, t = quote :: rest := by
      rcases t with _ | ⟨c, t⟩
      · simp at hq
      · exact ⟨t, by simpa using hq⟩
    obtain ⟨pieces, hp⟩ := exists_spelled (by simpa [hi] using hloop)
    exact ⟨pieces, t, s, rfl, hp⟩
  · simp [createToken] at h

/-! ### Numbers -/

theorem digitValue_lt {c : UInt8} (h : isXdigit c = true) : digitValue c < 16 := by
  simp only [isXdigit, isDigit, Bool.and_eq_true, Bool.or_eq_true, decide_eq_true_eq,
    UInt8.le_iff_toNat_le] at h
  simp only [digitValue, UInt8.le_iff_toNat_le]
  simp at h ⊢
  split_ifs <;> omega

theorem digitValue_octal {c : UInt8} (h : isOctal c = true) : digitValue c < 8 := by
  simp only [isOctal, Bool.and_eq_true, decide_eq_true_eq, UInt8.le_iff_toNat_le] at h
  simp only [digitValue, UInt8.le_iff_toNat_le]
  simp at h ⊢
  split_ifs <;> omega

theorem isBinary_iff {c : UInt8} : isBinary c = true ↔ c = 0x30 ∨ c = 0x31 := by
  simp [isBinary]

/-- The digits of a base are digits for `strtol`. -/
theorem radixOf_digit {letter : UInt8} {base : ℕ} {isDig : UInt8 → Bool}
    (h : radixOf letter = some (base, isDig)) {c : UInt8} (hc : isDig c = true) :
    isXdigit c = true ∧ digitValue c < base := by
  unfold radixOf at h
  split_ifs at h <;> obtain ⟨rfl, rfl⟩ := Prod.mk.inj (Option.some.inj h)
  · exact ⟨hc, digitValue_lt hc⟩
  · exact ⟨isXdigit_of_isOctal hc, digitValue_octal hc⟩
  · rcases isBinary_iff.1 hc with rfl | rfl <;> exact ⟨by decide, by decide⟩

theorem takeWhile_digits {base : ℕ} {digits : Str}
    (hdig : ∀ c ∈ digits, isXdigit c = true ∧ digitValue c < base) :
    (digits.takeWhile fun c => isXdigit c && digitValue c < base) = digits := by
  rw [List.takeWhile_eq_self_iff]
  intro c hc
  simpa using hdig c hc

theorem strtol_digits {base : ℕ} {digits : Str} (hbase : base ≠ 16)
    (hdig : ∀ c ∈ digits, isXdigit c = true ∧ digitValue c < base) :
    strtol digits base = min (digitsValue base digits) longMax := by
  simp [strtol, hbase, takeWhile_digits hdig]

theorem strtol_hex {letter : UInt8} {digits : Str} (hl : letter = xChar ∨ letter = 0x58)
    (hdig : ∀ c ∈ digits, isXdigit c = true ∧ digitValue c < 16) :
    strtol (zeroChar :: letter :: digits) 16 = min (digitsValue 16 digits) longMax := by
  rcases digits with _ | ⟨d, digits⟩
  · rcases hl with rfl | rfl <;> decide
  · have hd := (hdig d (by simp)).1
    simp [strtol, hl, hd, takeWhile_digits hdig]

theorem readNumber_radix {letter : UInt8} {base : ℕ} {isDig : UInt8 → Bool} (t : Str)
    (h : radixOf letter = some (base, isDig)) :
    readNumber (zeroChar :: letter :: t) =
      readRadix isDig (if base = 16 then 0 else 2) base (zeroChar :: letter :: t) := by
  unfold radixOf at h
  split_ifs at h with hx ho hb <;> obtain ⟨rfl, rfl⟩ := Prod.mk.inj (Option.some.inj h)
  · simp [readNumber, hx]
  · simp [readNumber, hx, ho]
  · simp [readNumber, hx, ho, hb]

/-- What a number with a letter is read as: the value stays at the greatest one of a `long`. -/
theorem readNumber_radixAt {base : ℕ} {digits rest source : Str}
    (h : RadixAt base digits rest source) :
    readNumber source =
      (createToken .number (decimalText (min (digitsValue base digits) longMax)), rest) := by
  obtain ⟨letter, isDig, run, hradix, hrun, rfl, hrest, rfl⟩ := h.written
  have hspan : ((run ++ rest).takeWhile fun c => isDig c || c == underscore) = run :=
    takeWhile_run (fun c hc => by simpa using hrun c hc) fun c hc => by simpa using hrest c hc
  have hdig : ∀ c ∈ run.filter (· ≠ underscore), isXdigit c = true ∧ digitValue c < base := by
    intro c hc
    rw [List.mem_filter] at hc
    exact radixOf_digit hradix ((hrun c hc.1).resolve_right (by simpa using hc.2))
  have hval : strtol ((zeroChar :: letter :: run.filter (· ≠ underscore)).drop
      (if base = 16 then 0 else 2)) base =
        min (digitsValue base (run.filter (· ≠ underscore))) longMax := by
    split_ifs with hb
    · subst hb
      refine strtol_hex ?_ hdig
      unfold radixOf at hradix
      split_ifs at hradix with hx
      · exact hx
      · simp at hradix
      · simp at hradix
    · exact strtol_digits hb hdig
  rw [readNumber_radix _ hradix]
  unfold readRadix
  simp only [List.drop_succ_cons, List.drop_zero, hspan, List.take_succ_cons, List.take_zero,
    List.cons_append, List.nil_append]
  rw [hval, Nat.add_comm 2]
  simp

theorem isDigit_ofNat {d : ℕ} (h : d < 10) :
    isDigit (UInt8.ofNat (0x30 + d)) = true ∧ digitValue (UInt8.ofNat (0x30 + d)) = d := by
  interval_cases d <;> exact ⟨by decide, by decide⟩

theorem isDigit_decimalText {n : ℕ} {c : UInt8} (h : c ∈ decimalText n) : isDigit c = true := by
  unfold decimalText at h
  split_ifs at h
  · obtain rfl : c = zeroChar := by simpa using h
    decide
  · obtain ⟨d, hd, rfl⟩ := List.mem_map.1 h
    exact (isDigit_ofNat (Nat.digits_lt_base (by norm_num) (List.mem_reverse.1 hd))).1

theorem digitsValue_decimalText (n : ℕ) : digitsValue 10 (decimalText n) = n := by
  unfold decimalText digitsValue
  split_ifs with hn
  · subst hn
    decide
  · rw [List.foldl_map, List.foldl_reverse]
    calc (Nat.digits 10 n).foldr (fun d val => val * 10 + digitValue (UInt8.ofNat (0x30 + d))) 0
        = (Nat.digits 10 n).foldr (fun d val => d + 10 * val) 0 := by
          refine List.foldr_ext _ _ 0 fun d hd val => ?_
          rw [(isDigit_ofNat (Nat.digits_lt_base (by norm_num) hd)).2]
          ring
      _ = Nat.ofDigits 10 (Nat.digits 10 n) := by rw [Nat.ofDigits_eq_foldr]; simp
      _ = n := Nat.ofDigits_digits 10 n

theorem numeralValue_digits {text : Str} (h : ∀ c ∈ text, isDigit c = true) :
    numeralValue text = some (digitsValue 10 text : ℚ) := by
  have htake : text.takeWhile isDigit = text := by simpa [List.takeWhile_eq_self_iff] using h
  have hdrop : text.dropWhile isDigit = [] := by simpa [List.dropWhile_eq_nil_iff] using h
  simp [numeralValue, htake, hdrop]

theorem createToken_of_ne_zero {type : TokenType} {value : Str} (h : ∀ c ∈ value, c ≠ 0) :
    createToken type value = ⟨type, some value⟩ := by
  simpa [createToken, List.takeWhile_eq_self_iff] using h

theorem isDigit_ne_zero {c : UInt8} (h : isDigit c = true) : c ≠ 0 := by
  rintro rfl
  simp [isDigit] at h

theorem nextToken_digit {c : UInt8} (t : Str) (h : isDigit c = true) :
    nextToken (c :: t) = readNumber (c :: t) := by
  have hspace : isSpace c = false := by
    by_contra hs
    simp only [isSpace, Bool.not_eq_false, Bool.or_eq_true, beq_iff_eq] at hs
    rcases hs with ((rfl | rfl) | rfl) | rfl <;> simp [isDigit, cr, newline] at h
  have hslash : c ≠ slash := by
    rintro rfl
    simp [isDigit, slash] at h
  have hq : c ≠ quote := by
    rintro rfl
    simp [isDigit, quote] at h
  simp [nextToken, skipBlanks_cons hspace hslash, hq, h]

theorem carries_decimalText_iff {n : ℕ} {value : ℚ} :
    (createToken .number (decimalText n)).Carries value ↔ (n : ℚ) = value := by
  rw [createToken_of_ne_zero fun c hc => isDigit_ne_zero (isDigit_decimalText hc), Token.Carries]
  simp [numeralValue_digits fun c hc => isDigit_decimalText hc, digitsValue_decimalText]

theorem radix_meant_iff {base : ℕ} {digits rest source : Str}
    (h : RadixAt base digits rest source) :
    ((nextToken source).1.type = .error ∨
        digits ≠ [] ∧ (nextToken source).1.Carries (digitsValue base digits)) ↔
      digits ≠ [] ∧ digitsValue base digits ≤ longMax := by
  have htoken : nextToken source = readNumber source := by
    obtain ⟨letter, isDig, run, -, -, -, -, rfl⟩ := h.written
    exact nextToken_digit _ (by decide)
  rw [htoken, readNumber_radixAt h, carries_decimalText_iff]
  simp [createToken]

/-! ### Decimal numbers -/

theorem decimalRun_run {text rest : Str}
    (hchars : ∀ u c t, text ++ rest = u ++ c :: t → u.length < text.length →
      isDigit c = true ∨ (c = dotChar ∧ t.head? ≠ some dotChar))
    (hstops : ∀ c t, rest = c :: t → isDigit c = false ∧ (c = dotChar → t.head? = some dotChar)) :
    decimalRun (text ++ rest) = (text, rest) := by
  induction text with
  | nil =>
    rcases rest with _ | ⟨c, t⟩
    · rfl
    · rcases hstops c t rfl with ⟨hd, hdot⟩
      simp only [List.nil_append, decimalRun, hd, Bool.false_or]
      by_cases hc : c = dotChar
      · simp [hdot hc]
      · simp [hc]
  | cons c text ih =>
    have htail := ih fun u c' t heq hlt =>
      hchars (c :: u) c' t (by simp [← heq]) (by simpa using hlt)
    have hhead : (isDigit c || (c == dotChar && (text ++ rest).head? != some dotChar)) = true := by
      rcases hchars [] c (text ++ rest) rfl (by simp) with hd | ⟨rfl, hdot⟩
      · simp [hd]
      · simp only [BEq.rfl, Bool.true_and, Bool.or_eq_true]
        exact .inr (by simpa using hdot)
    simp only [List.cons_append, decimalRun, hhead, if_true, htail]

theorem DecimalAt.char {text rest source : Str} (h : DecimalAt text rest source) {c : UInt8}
    (hc : c ∈ text) : isDigit c = true ∨ c = dotChar := by
  obtain ⟨u, t, rfl⟩ := List.append_of_mem hc
  exact (h.chars u c (t ++ rest) (by simp) (by simp)).imp id And.left

theorem readNumber_decimal {text rest source : Str} (h : DecimalAt text rest source) :
    readNumber source =
      if rest.head? = some longSuffix then (createToken .int64Literal text, rest.tail)
      else (createToken .number text, rest) := by
  have hrun := decimalRun_run h.chars h.stops
  have hradix : source.head? = some zeroChar → ∀ c, source.tail.head? = some c →
      radixOf c = none := by
    intro hz
    refine h.noRadix ?_
    obtain ⟨d, hd, -⟩ := h.first
    rw [h.source_eq] at hz
    simpa [List.head?_append, hd] using hz
  have hnot : ∀ l1 l2, (radixOf l1 ≠ none ∧ radixOf l2 ≠ none) →
      ¬(source.head? = some zeroChar ∧ (source.tail.head? = some l1 ∨ source.tail.head? = some l2))
      := by
    rintro l1 l2 ⟨h1, h2⟩ ⟨hz, hl | hl⟩
    · exact h1 (hradix hz l1 hl)
    · exact h2 (hradix hz l2 hl)
  unfold readNumber
  rw [if_neg (hnot _ _ (by decide)), if_neg (hnot _ _ (by decide)),
    if_neg (hnot _ _ (by decide)), h.source_eq, hrun]

theorem numeralValue_isSome_iff {text : Str} (h : ∀ c ∈ text, isDigit c = true ∨ c = dotChar) :
    (∃ value, numeralValue text = some value) ↔ text.count dotChar ≤ 1 := by
  have hsplit : text.count dotChar = (text.dropWhile isDigit).count dotChar := by
    have hwhole : (text.takeWhile isDigit).count dotChar = 0 := by
      rw [List.count_eq_zero]
      intro hdot
      have := List.mem_takeWhile_imp hdot
      simp [isDigit, dotChar] at this
    conv_lhs => rw [← List.takeWhile_append_dropWhile (p := isDigit) (l := text)]
    rw [List.count_append, hwhole, Nat.zero_add]
  have hpart : ∀ c ∈ text.dropWhile isDigit, isDigit c = true ∨ c = dotChar :=
    fun c hc => h c ((List.dropWhile_sublist _).subset hc)
  have hhead : ∀ c, (text.dropWhile isDigit).head? = some c → isDigit c = false := fun c hc => by
    simpa [hc] using List.head?_dropWhile_not isDigit text
  rw [hsplit, numeralValue]
  revert hpart hhead
  generalize text.dropWhile isDigit = part
  intro hpart hhead
  rcases part with _ | ⟨c, part⟩
  · simp
  · have hc : c ≠ dotChar → isDigit c = true := fun hne => (hpart c (by simp)).resolve_right hne
    obtain rfl : c = dotChar := by
      by_contra hne
      simpa [hc hne] using hhead c rfl
    have htail : part.all isDigit = true ↔ part.count dotChar = 0 := by
      rw [List.count_eq_zero, List.all_eq_true]
      constructor
      · exact fun hall hdot => absurd (hall _ hdot) (by decide)
      · intro hdot d hd
        exact (hpart d (by simp [hd])).resolve_right fun heq => hdot (heq ▸ hd)
    simp only [List.head?_cons, List.tail_cons, true_and, htail, List.count_cons_self]
    split_ifs with h0 h0 <;> simp_all

theorem decimal_meant_iff {text rest source : Str} (h : DecimalAt text rest source) :
    ((nextToken source).1.type = .error ∨
        ∃ value, numeralValue text = some value ∧ (nextToken source).1.Carries value) ↔
      text.count dotChar ≤ 1 := by
  have htoken : nextToken source = readNumber source := by
    obtain ⟨d, hd, hdig⟩ := h.first
    rcases text with _ | ⟨c, text⟩
    · simp at hd
    · obtain rfl : c = d := by simpa using hd
      rw [h.source_eq]
      exact nextToken_digit _ hdig
  have hne : ∀ c ∈ text, c ≠ 0 := by
    intro c hc
    rcases h.char hc with hd | rfl
    · exact isDigit_ne_zero hd
    · decide
  rw [← numeralValue_isSome_iff fun c hc => h.char hc, htoken, readNumber_decimal h]
  split_ifs <;> simp [createToken_of_ne_zero hne, Token.Carries]

/-! ### The loop of a heredoc -/

theorem EndsLine.tail {c : UInt8} {line ending rest : Str} (h : EndsLine (c :: line) ending rest) :
    EndsLine line ending rest := by
  refine h.imp id fun h => ⟨?_, h.2⟩
  rcases line with _ | ⟨d, line⟩
  · simp
  · simpa using h.1

section Marker

variable {marker : Str} (hne : marker ≠ []) (hword : ∀ c ∈ marker, isWord c = true)

include hword in
theorem newline_not_mem_marker : newline ∉ marker := fun h => absurd (hword _ h) (by decide)

include hword in
theorem cr_not_mem_marker : cr ∉ marker := fun h => absurd (hword _ h) (by decide)

include hword in
/-- At the start of a line the loop finds the marker if the line is the marker. -/
theorem closes_line {line ending rest : Str} (hl : newline ∉ line)
    (he : EndsLine line ending rest) :
    closes marker (line ++ (ending ++ rest)) = true ↔ line = marker := by
  have hhead : ∀ c, (ending ++ rest).head? = some c → c = newline ∨ c = cr := by
    rcases he with rfl | ⟨-, rfl | ⟨rfl, rfl⟩⟩ <;> simp
  rw [closes, Bool.and_eq_true, List.isPrefixOf_iff_prefix]
  constructor
  · rintro ⟨⟨r, hr⟩, hend⟩
    rw [← hr, List.drop_left] at hend
    rcases List.append_eq_append_iff.1 hr with ⟨a, rfl, har⟩ | ⟨a, rfl, har⟩
    · rcases a with _ | ⟨c, a⟩
      · simp
      · exfalso
        have hc : c ≠ newline := fun h => hl (by simp [h])
        rw [har] at hend
        simp only [lineEnds, List.cons_append, List.isEmpty_cons, List.head?_cons, List.tail_cons,
          Bool.false_or, Bool.or_eq_true, Bool.and_eq_true, beq_iff_eq, Option.some_inj, hc,
          false_or] at hend
        rcases a with _ | ⟨d, a⟩
        · rcases he with rfl | ⟨hlast, -⟩
          · simp [cr, newline] at hend
          · exact hlast (by simp [hend.1])
        · exact hl (by simp [show d = newline by simpa using hend.2])
    · rcases a with _ | ⟨c, a⟩
      · simp
      · exfalso
        rcases hhead c (by simp [har]) with rfl | rfl
        · exact newline_not_mem_marker hword (by simp)
        · exact cr_not_mem_marker hword (by simp)
  · rintro rfl
    rw [List.drop_left]
    refine ⟨List.prefix_append _ _, ?_⟩
    rcases he with rfl | ⟨-, rfl | ⟨rfl, rfl⟩⟩ <;> simp [lineEnds]

theorem heredocLoop_copy {c : UInt8} {t : Str} (buf : Str) (hnot : closes marker (c :: t) = false)
    (hcr : c = cr → t ≠ [] ∧ t.head? ≠ some newline) :
    heredocLoop marker buf (c :: t) = heredocLoop marker (buf ++ [c]) t := by
  have hkeep : c ≠ cr ∨ (t ≠ [] ∧ t.head? ≠ some newline) := by
    by_cases hc : c = cr
    · exact .inr (hcr hc)
    · exact .inl hc
  rw [heredocLoop, if_neg (by simp [hnot]), if_pos hkeep]

/-- After a carriage return of a line there is something else than a newline. -/
theorem EndsLine.after_cr {line ending rest : Str} (h : EndsLine (cr :: line) ending rest)
    (hl : newline ∉ line) (hend : ending ≠ [] ∨ line ≠ []) :
    line ++ (ending ++ rest) ≠ [] ∧ (line ++ (ending ++ rest)).head? ≠ some newline := by
  rcases line with _ | ⟨d, line⟩
  · rcases h with rfl | ⟨hlast, -⟩
    · simp [cr, newline]
    · simp at hlast
  · refine ⟨by simp, ?_⟩
    simp only [List.cons_append, List.head?_cons, ne_eq, Option.some_inj]
    rintro rfl
    simp at hl

include hne hword in
/-- A line that does not end with the marker is copied. -/
theorem heredocLoop_line {line ending rest : Str} (buf : Str) (hl : newline ∉ line)
    (hend : ending ≠ []) (he : EndsLine line ending rest) (hs : ¬marker <:+ line) :
    heredocLoop marker buf (line ++ (ending ++ rest)) =
      heredocLoop marker (buf ++ line ++ [newline]) rest := by
  induction line generalizing buf with
  | nil =>
    have hnl : ∀ buf, heredocLoop marker buf (newline :: rest) =
        heredocLoop marker (buf ++ [newline]) rest := by
      intro buf
      refine heredocLoop_copy buf ?_ fun h => absurd h (by decide)
      simpa [hne.symm] using @closes_line marker hword [] [newline] rest (by simp)
        (show EndsLine [] [newline] rest from .inr ⟨by simp, .inl rfl⟩)
    have hnot : closes marker (ending ++ rest) = false := by
      simpa [hne.symm] using @closes_line marker hword [] ending rest (by simp) he
    rcases he with rfl | ⟨-, rfl | ⟨rfl, -⟩⟩
    · simp only [List.nil_append, List.cons_append] at hnot ⊢
      rw [heredocLoop, if_neg (by simp [hnot]), if_neg (by simp), hnl]
      simp
    · simpa using hnl buf
    · exact absurd rfl hend
  | cons c line ih =>
    have hnot : closes marker (c :: line ++ (ending ++ rest)) = false := by
      rw [Bool.eq_false_iff, ne_eq, closes_line hword hl he]
      rintro rfl
      exact hs List.suffix_rfl
    have hl' : newline ∉ line := fun h => hl (by simp [h])
    rw [List.cons_append] at hnot ⊢
    rw [heredocLoop_copy buf hnot, ih _ hl' he.tail fun h => hs (h.trans (List.suffix_cons _ _))]
    · simp
    · rintro rfl
      exact he.after_cr hl' (.inl hend)

include hne hword in
/-- The loop ends where the marker ends a line, whatever stands before it on the line. -/
theorem heredocLoop_marker {u ending rest : Str} (buf : Str) (hl : newline ∉ u)
    (he : EndsLine (u ++ marker) ending rest) :
    heredocLoop marker buf (u ++ marker ++ (ending ++ rest)) = (buf ++ u, rest) := by
  have hnl : newline ∉ marker := newline_not_mem_marker hword
  induction u generalizing buf with
  | nil =>
    obtain ⟨c, m, hm⟩ := List.exists_cons_of_ne_nil hne
    have hyes := (closes_line hword hnl he).2 rfl
    have hskip : skipLineEnd (ending ++ rest) = rest := by
      rcases he with rfl | ⟨-, rfl | ⟨rfl, rfl⟩⟩ <;> simp [skipLineEnd, cr, newline]
    have hdrop : (marker ++ (ending ++ rest)).drop marker.length = ending ++ rest := List.drop_left
    rw [List.nil_append]
    generalize hs : marker ++ (ending ++ rest) = s at hyes hdrop ⊢
    rcases s with _ | ⟨d, s⟩
    · simp [hne] at hs
    · rw [heredocLoop, if_pos hyes, hdrop, hskip]
      simp
  | cons c u ih =>
    have hl' : newline ∉ u := fun h => hl (by simp [h])
    have hnot : closes marker (c :: u ++ marker ++ (ending ++ rest)) = false := by
      rw [Bool.eq_false_iff, ne_eq, closes_line hword (by simpa [hnl] using hl) he]
      intro h
      have hlen := congrArg List.length h
      simp only [List.cons_append, List.length_cons, List.length_append] at hlen
      omega
    rw [List.cons_append, List.cons_append] at hnot ⊢
    rw [heredocLoop_copy buf hnot, ih _ hl' he.tail]
    · simp
    · rintro rfl
      exact EndsLine.after_cr he (by simp [hl', hnl]) (.inr (by simp [hne]))

include hword in
/-- Without an end of a line the loop copies up to the end of the source. -/
theorem heredocLoop_end {line : Str} (buf : Str) (hl : newline ∉ line) (hcr : cr ∉ line)
    (hs : ¬marker <:+ line) : heredocLoop marker buf line = (buf ++ line, []) := by
  induction line generalizing buf with
  | nil => simp [heredocLoop]
  | cons c line ih =>
    have he : EndsLine (c :: line) [] [] :=
      .inr ⟨fun h => hcr (List.mem_of_getLast? h), .inr ⟨rfl, rfl⟩⟩
    have hnot : closes marker (c :: line) = false := by
      rw [Bool.eq_false_iff, ne_eq]
      intro h
      have := (closes_line hword hl he).1 (by simpa using h)
      exact hs (this ▸ List.suffix_rfl)
    rw [heredocLoop_copy buf hnot, ih _ (fun h => hl (by simp [h])) (fun h => hcr (by simp [h]))
      fun h => hs (h.trans (List.suffix_cons _ _))]
    · simp
    · rintro rfl
      simp at hcr

/-- The lines as the loop copies them. -/
def flatLines (lines : List Str) : Str := lines.flatMap (· ++ [newline])

include hne hword in
theorem heredocLoop_lines {name rest s : Str} {lines : List Str} (buf : Str)
    (h : LinesTo name rest lines s) (hs : ∀ l ∈ lines, ¬marker <:+ l) :
    ∃ ending, EndsLine name ending rest ∧ heredocLoop marker buf s =
      heredocLoop marker (buf ++ flatLines lines) (name ++ (ending ++ rest)) := by
  induction lines generalizing s buf with
  | nil =>
    obtain ⟨ending, he, rfl⟩ := h
    exact ⟨ending, he, by simp [flatLines]⟩
  | cons l ls ih =>
    obtain ⟨-, hl, ending, t, hend, he, rfl, ht⟩ := h
    obtain ⟨ending', he', heq⟩ :=
      ih (buf ++ l ++ [newline]) ht fun l' hl' => hs l' (by simp [hl'])
    refine ⟨ending', he', ?_⟩
    rw [List.append_assoc l, heredocLoop_line hne hword buf hl hend he (hs l (by simp)), heq]
    simp [flatLines]

include hne hword in
/-- A line that ends with the marker ends the heredoc. -/
theorem heredocLoop_early {name rest s u : Str} {pre post : List Str} (buf : Str)
    (h : LinesTo name rest (pre ++ (u ++ marker) :: post) s) (hs : ∀ l ∈ pre, ¬marker <:+ l) :
    ∃ t, heredocLoop marker buf s = (buf ++ flatLines pre ++ u, t) := by
  induction pre generalizing s buf with
  | nil =>
    obtain ⟨-, hl, ending, t, -, he, rfl, -⟩ := h
    refine ⟨t, ?_⟩
    rw [List.append_assoc (u ++ marker),
      heredocLoop_marker hne hword buf (fun hu => hl (by simp [hu])) he]
    simp [flatLines]
  | cons l ls ih =>
    obtain ⟨-, hl, ending, t, hend, he, rfl, ht⟩ := h
    obtain ⟨t', heq⟩ := ih (buf ++ l ++ [newline]) ht fun l' hl' => hs l' (by simp [hl'])
    refine ⟨t', ?_⟩
    rw [List.append_assoc l, heredocLoop_line hne hword buf hl hend he (hs l (by simp)), heq]
    simp [flatLines]

end Marker

theorem prefix_heredocLoop (marker buf s : Str) : buf <+: (heredocLoop marker buf s).1 := by
  fun_induction heredocLoop marker buf s with
  | case1 => exact List.prefix_rfl
  | case2 => exact List.prefix_rfl
  | case3 buf c t _ ih =>
    refine List.IsPrefix.trans ?_ ih
    split_ifs
    · exact List.prefix_append _ _
    · exact List.prefix_rfl

theorem mem_heredocLoop {marker buf s : Str} {b : UInt8} (h : b ∈ (heredocLoop marker buf s).1) :
    b ∈ buf ∨ b ∈ s := by
  fun_induction heredocLoop marker buf s with
  | case1 => exact .inl h
  | case2 => exact .inl h
  | case3 buf c t _ ih =>
    rcases ih h with hb | hb
    · split_ifs at hb
      · rcases List.mem_append.1 hb with hb | hb
        · exact .inl hb
        · exact .inr (by simp [List.mem_singleton.1 hb])
      · exact .inl hb
    · exact .inr (by simp [hb])

/-! ### The text of a heredoc -/

def stripNewline (buf : Str) : Str :=
  if buf.getLast? = some newline then buf.dropLast else buf

theorem length_stripNewline_le (buf : Str) : (stripNewline buf).length ≤ buf.length := by
  unfold stripNewline
  split_ifs <;> simp

theorem le_length_stripNewline (buf : Str) : buf.length - 1 ≤ (stripNewline buf).length := by
  unfold stripNewline
  split_ifs <;> simp

theorem flatLines_append (pre post : List Str) :
    flatLines (pre ++ post) = flatLines pre ++ flatLines post := by
  simp [flatLines]

theorem flatLines_eq {lines : List Str} (h : lines ≠ []) :
    flatLines lines = joinLines lines ++ [newline] := by
  induction lines with
  | nil => exact absurd rfl h
  | cons l ls ih =>
    rcases ls with _ | ⟨l', ls⟩
    · simp [flatLines, joinLines]
    · have := ih (by simp)
      simp only [flatLines, joinLines, List.flatMap_cons, List.intercalate_cons_cons] at this ⊢
      rw [this]
      simp

theorem stripNewline_flatLines (lines : List Str) : stripNewline (flatLines lines) = joinLines lines
    := by
  by_cases h : lines = []
  · subst h
    simp [flatLines, joinLines, stripNewline]
  · simp [flatLines_eq h, stripNewline]

theorem length_joinLines_le (lines : List Str) :
    (joinLines lines).length ≤ (flatLines lines).length := by
  rw [← stripNewline_flatLines]
  exact length_stripNewline_le _

theorem length_flatLines_le (lines : List Str) :
    (flatLines lines).length ≤ (joinLines lines).length + 1 := by
  have := le_length_stripNewline (flatLines lines)
  rw [stripNewline_flatLines] at this
  omega

theorem length_joinLines_append (pre post : List Str) (l : Str) :
    (flatLines pre).length + l.length ≤ (joinLines (pre ++ l :: post)).length := by
  have h := length_flatLines_le (pre ++ l :: post)
  rw [flatLines_append, show flatLines (l :: post) = l ++ [newline] ++ flatLines post by
    simp [flatLines]] at h
  simp only [List.length_append, List.length_singleton] at h
  omega

/-- The first line that ends with the marker, if one does. -/
theorem exists_first_suffix {marker : Str} {lines : List Str} (h : ∃ l ∈ lines, marker <:+ l) :
    ∃ pre u post, lines = pre ++ (u ++ marker) :: post ∧ ∀ l ∈ pre, ¬marker <:+ l := by
  classical
  obtain ⟨l, hl, hs⟩ := h
  obtain ⟨first, hfirst⟩ : ∃ x, lines.find? (fun l => decide (marker <:+ l)) = some x :=
    Option.isSome_iff_exists.1 (List.find?_isSome.2 ⟨l, hl, by simpa using hs⟩)
  obtain ⟨hp, pre, post, rfl, hpre⟩ := List.find?_eq_some_iff_append.1 hfirst
  obtain ⟨u, rfl⟩ : marker <:+ first := by simpa using hp
  exact ⟨pre, u, post, rfl, fun l hl => by simpa using hpre l hl⟩

section Marker

variable {marker : Str} (hne : marker ≠ []) (hword : ∀ c ∈ marker, isWord c = true)

include hne hword in
/-- The text of a heredoc is its lines only if no line ends with the marker. -/
theorem no_suffix_of_meant {name rest s : Str} {lines : List Str} (h : LinesTo name rest lines s)
    (hval : stripNewline (heredocLoop marker [] s).1 = joinLines lines) :
    ∀ l ∈ lines, ¬marker <:+ l := by
  by_contra hnot
  obtain ⟨pre, u, post, rfl, hpre⟩ := exists_first_suffix (by simpa using hnot)
  obtain ⟨t, heq⟩ := heredocLoop_early hne hword [] h hpre
  have hshort := length_stripNewline_le (heredocLoop marker [] s).1
  have hlong := length_joinLines_append pre post (u ++ marker)
  have hpos := List.length_pos_of_ne_nil hne
  rw [hval, heq] at hshort
  simp only [List.nil_append, List.length_append] at hshort hlong
  omega

include hne hword in
/-- A name that is longer than the marker does not end the heredoc. -/
theorem name_eq_of_meant {name rest s : Str} {lines : List Str} (h : LinesTo name rest lines s)
    (hname : ∀ c ∈ name, isWord c = true) (hpre : marker <+: name)
    (hval : stripNewline (heredocLoop marker [] s).1 = joinLines lines) : name = marker := by
  obtain ⟨ending, he, heq⟩ :=
    heredocLoop_lines hne hword [] h (no_suffix_of_meant hne hword h hval)
  have hnl : newline ∉ name := newline_not_mem_marker hname
  have hjoin := length_joinLines_le lines
  by_contra hneq
  have hlt : marker.length < name.length :=
    lt_of_le_of_ne hpre.length_le fun h => hneq (hpre.eq_of_length h).symm
  have hpos := List.length_pos_of_ne_nil hne
  rw [List.nil_append] at heq
  rw [heq] at hval
  by_cases hs : marker <:+ name
  · obtain ⟨u, rfl⟩ := hs
    rw [heredocLoop_marker hne hword _ (fun hu => hnl (by simp [hu])) he] at hval
    have hu : u ≠ [] := by
      rintro rfl
      simp at hneq
    have hlast : (flatLines lines ++ u).getLast? ≠ some newline := by
      rw [List.getLast?_append_of_ne_nil _ hu]
      exact fun hl => hnl (by simp [List.mem_of_getLast? hl])
    have hlen := congrArg List.length hval
    have := List.length_pos_of_ne_nil hu
    simp only [stripNewline, hlast, if_false, List.length_append] at hlen
    omega
  · have hlong : (flatLines lines ++ name).length ≤
        (heredocLoop marker (flatLines lines) (name ++ (ending ++ rest))).1.length := by
      by_cases hend : ending = []
      · obtain rfl : rest = [] := by
          rcases he with rfl | ⟨-, rfl | ⟨-, rfl⟩⟩
          · simp at hend
          · simp at hend
          · rfl
        subst hend
        simp only [List.append_nil]
        rw [heredocLoop_end hword _ hnl (cr_not_mem_marker hname) hs]
      · rw [heredocLoop_line hne hword _ hnl hend he hs]
        refine le_trans ?_ (prefix_heredocLoop _ _ _).length_le
        simp
    have hstrip := le_length_stripNewline
      (heredocLoop marker (flatLines lines) (name ++ (ending ++ rest))).1
    rw [hval] at hstrip
    rw [List.length_append] at hlong
    omega

end Marker

theorem nextToken_heredoc {c : UInt8} {t : Str} (hc : isWordStart c = true) :
    nextToken (lessChar :: lessChar :: c :: t) = readHeredoc (c :: t) := by
  have h : skipBlanks (lessChar :: lessChar :: c :: t) = lessChar :: lessChar :: c :: t :=
    skipBlanks_cons (by decide) (by decide)
  have hd : isDigit lessChar = false := by decide
  have hw : isWordStart lessChar = false := by decide
  simp [nextToken, h, hd, hw, hc, show lessChar ≠ quote by decide]

theorem readHeredoc_eq {marker remark body : Str} (hword : ∀ c ∈ marker, isWord c = true)
    (hremark : newline ∉ remark) (hstop : ∀ c, remark.head? = some c → isWord c = false) :
    readHeredoc (marker ++ remark ++ newline :: body) =
      (createToken .stringLiteral (stripNewline (heredocLoop (marker.take 255) [] body).1),
        (heredocLoop (marker.take 255) [] body).2) := by
  have hrest : ∀ c, (remark ++ newline :: body).head? = some c → isWord c = false := by
    rcases remark with _ | ⟨d, remark⟩
    · simpa using show isWord newline = false by decide
    · simpa using hstop
  have hspan : (marker ++ (remark ++ newline :: body)).takeWhile isWord = marker :=
    takeWhile_run hword hrest
  have hline : ((marker ++ (remark ++ newline :: body)).drop (marker.take 255).length).dropWhile
      (· ≠ newline) = newline :: body := by
    have hle : (marker.take 255).length ≤ marker.length := by simp
    rw [List.drop_append_of_le_length hle, ← List.append_assoc]
    refine dropWhile_run (fun c hc => ?_) (by simp)
    rcases List.mem_append.1 hc with hc | hc
    · have := newline_not_mem_marker hword
      simp only [ne_eq, decide_eq_true_eq]
      rintro rfl
      exact this (List.mem_of_mem_drop hc)
    · simp only [ne_eq, decide_eq_true_eq]
      rintro rfl
      exact hremark hc
  rw [List.append_assoc]
  simp only [readHeredoc, hspan, maxIdentifierLength, Nat.add_one_sub_one, hline, List.tail_cons,
    stripNewline]

theorem heredoc_meant_iff {marker rest source : Str} {lines : List Str} (hs : (0 : UInt8) ∉ source)
    (h : HeredocAt marker lines rest source) :
    nextToken source = (⟨.stringLiteral, some (joinLines lines)⟩, rest) ↔
      marker.length < maxIdentifierLength ∧ ∀ l ∈ lines, ¬marker <:+ l := by
  obtain ⟨⟨c, hc, hstart⟩, hword, remark, body, hremark, hstop, hlines, rfl⟩ := h
  rcases marker with _ | ⟨c', marker⟩
  · simp at hc
  obtain rfl : c' = c := by simpa using hc
  set name := c' :: marker with hname
  have hbody : ∀ b ∈ stripNewline (heredocLoop (name.take 255) [] body).1, b ≠ 0 := by
    rintro b hb rfl
    have hmem : (0 : UInt8) ∈ (heredocLoop (name.take 255) [] body).1 := by
      unfold stripNewline at hb
      split_ifs at hb
      · exact List.dropLast_subset _ hb
      · exact hb
    rcases mem_heredocLoop hmem with h0 | h0
    · simp at h0
    · exact hs (by simp [h0])
  have hmne : name.take 255 ≠ [] := by simp [hname]
  have hmword : ∀ c ∈ name.take 255, isWord c = true :=
    fun c hc => hword c (List.mem_of_mem_take hc)
  have htoken : nextToken (lessChar :: lessChar :: (name ++ remark ++ newline :: body)) =
      (⟨.stringLiteral, some (stripNewline (heredocLoop (name.take 255) [] body).1)⟩,
        (heredocLoop (name.take 255) [] body).2) := by
    rw [← createToken_of_ne_zero hbody, ← readHeredoc_eq hword hremark hstop]
    exact nextToken_heredoc hstart
  rw [htoken]
  simp only [Prod.mk.injEq, Token.mk.injEq, true_and, Option.some_inj]
  constructor
  · rintro ⟨hval, -⟩
    have heq : name = name.take 255 :=
      name_eq_of_meant hmne hmword hlines hword (List.take_prefix _ _) hval
    refine ⟨?_, ?_⟩
    · have := congrArg List.length heq
      rw [List.length_take] at this
      unfold maxIdentifierLength
      omega
    · have := no_suffix_of_meant hmne hmword hlines hval
      rwa [← heq] at this
  · rintro ⟨hlen, hsuffix⟩
    have heq : name.take 255 = name := List.take_of_length_le (Nat.le_of_lt_succ hlen)
    rw [heq] at hmne ⊢
    obtain ⟨ending, he, hloop⟩ := heredocLoop_lines hmne hword [] hlines hsuffix
    have hmark := heredocLoop_marker hmne hword (u := []) (flatLines lines) (by simp) he
    rw [List.nil_append] at hloop hmark
    rw [hloop, hmark]
    simp [stripNewline_flatLines]

/-! ### Every source text -/

end Lexer

end Aether

end Qjs
