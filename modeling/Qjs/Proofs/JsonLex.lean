import Qjs.Json
import Qjs.Lib.JsonText
import Qjs.Proofs.Utf8

/-!
# The scanners of the JSON mode

What `js_parse_string`, `js_atod` and `skip_spaces` accept (`tokenizer`): every token of RFC 8259
(`rfc8259_le_tokenizer`), and more. The scanners take exactly these (`jsParseString_ok`,
`jsAtod_complete`, `jsAtod_sound`).
-/

namespace Qjs

namespace Json

open Wtf8 JsonText

/-! ### The language of the scanners -/

def hexDigit (c : ℕ) : ℕ := if c ≤ 0x39 then c - 0x30 else if c ≤ 0x46 then c - 0x37 else c - 0x57

def hexValue (ds : List ℕ) : ℕ := ds.foldl (fun n d => 16 * n + hexDigit d) 0

/-- The characters that stand for another one after a backslash. -/
def shortEscapes : List ℕ := [0x62, 0x66, 0x6e, 0x72, 0x74, 0x76, 0x27, 0x22, 0x5c]

/-- A character of a string literal. A backslash that starts no escape is left out. -/
inductive LiteralChar : List ℕ → List ℕ → Prop
  | ascii {c : ℕ} {r : List ℕ} (h : c < 0x80) (hc : c ∉ [0, 0x0a, 0x0d, 0x22, 0x5c]) :
      LiteralChar (c :: r) r
  | wide {c : ℕ} {r : List ℕ} (h : 0x80 ≤ c) (h' : c < 0x110000) : LiteralChar (encode c ++ r) r
  | short {c : ℕ} {r : List ℕ} (h : c ∈ shortEscapes) : LiteralChar (0x5c :: c :: r) r
  | hex {a b : ℕ} {r : List ℕ} (ha : IsHex a) (hb : IsHex b) :
      LiteralChar (0x5c :: 0x78 :: a :: b :: r) r
  | unicode {a b c d : ℕ} {r : List ℕ} (ha : IsHex a) (hb : IsHex b) (hc : IsHex c) (hd : IsHex d) :
      LiteralChar (0x5c :: 0x75 :: a :: b :: c :: d :: r) r
  | braces {ds r : List ℕ} (hne : ds ≠ []) (hx : ∀ d ∈ ds, IsHex d) (hv : hexValue ds ≤ 0x10ffff) :
      LiteralChar (0x5c :: 0x75 :: 0x7b :: (ds ++ 0x7d :: r)) r
  | zero {r : List ℕ} (h : ¬ IsDigit (cur r)) : LiteralChar (0x5c :: 0x30 :: r) r
  | newline {r : List ℕ} : LiteralChar (0x5c :: 0x0a :: r) r
  | ignored {r : List ℕ} (h : cur r ∉ 0x78 :: 0x75 :: 0x30 :: 0x0a :: shortEscapes) :
      LiteralChar (0x5c :: r) r

/-- Decimal digits with an optional point, of which not both sides are empty; before the point there
are digits or a sign. -/
def literalNumber (i r : List ℕ) : Prop :=
  i = 0x2d :: (infinityText ++ r)
    ∨ ∃ s n f x, i = s ++ (n ++ (f ++ (x ++ r))) ∧ Sign s ∧ (∀ c ∈ n, IsDigit c)
      ∧ (f = [] ∨ ∃ d, (∀ c ∈ d, IsDigit c) ∧ f = 0x2e :: d)
      ∧ (n ≠ [] ∨ s ≠ [] ∧ ∃ d, Digits d ∧ f = 0x2e :: d) ∧ Exponent x

def tokenizer : Lexical where
  space c := (0x09 ≤ c ∧ c ≤ 0x0d) ∨ c = 0x20
  number := literalNumber
  char := LiteralChar

/-! ### RFC 8259 within it -/

theorem rfcNumber_literal {i r : List ℕ} (h : rfcNumber i r) : literalNumber i r := by
  obtain ⟨s, n, f, x, rfl, hs, hn, hf, hx⟩ := h
  refine .inr ⟨s, n, f, x, rfl, hs, ?_, ?_, .inl ?_, hx⟩
  · rcases hn with rfl | ⟨hn, -⟩
    · simp [IsDigit]
    · exact hn.2
  · rcases hf with rfl | ⟨d, hd, rfl⟩
    · exact .inl rfl
    · exact .inr ⟨d, hd.2, rfl⟩
  · rcases hn with rfl | ⟨hn, -⟩
    · simp
    · exact hn.1

theorem rfcChar_literal {i r : List ℕ} (h : RfcChar i r) : Chars tokenizer i r := by
  cases h with
  | @unescaped c _ h h' hq hb =>
    by_cases hc : c < 0x80
    · rw [encode, if_pos hc]
      refine .cons (.ascii hc ?_) (.nil _)
      simp only [List.mem_cons, List.not_mem_nil, or_false]
      omega
    · exact .cons (.wide (by omega) h') (.nil _)
  | @short c _ h =>
    by_cases hc : c = 0x2f
    · subst hc
      -- the backslash is left out
      exact .cons (.ignored (by simp [cur, shortEscapes])) (.cons (.ascii (by simp) (by simp)) (.nil _))
    · refine .cons (.short ?_) (.nil _)
      simp only [shortEscapes, List.mem_cons, List.not_mem_nil, or_false] at h ⊢
      omega
  | unicode ha hb hc hd => exact .cons (.unicode ha hb hc hd) (.nil _)

theorem rfc8259_le_tokenizer : Le rfc8259 tokenizer where
  space := by
    intro c hc
    simp only [rfc8259, tokenizer] at hc ⊢
    omega
  number := rfcNumber_literal
  char := rfcChar_literal

/-! ### Escapes -/

theorem fromHex_of_isHex {c : ℕ} (h : IsHex c) : fromHex c = some (hexDigit c) := by
  unfold IsHex IsDigit at h
  unfold fromHex hexDigit
  split_ifs <;> first | omega | (congr 1; omega) | rfl

theorem fromHex_of_not_isHex {c : ℕ} (h : ¬ IsHex c) : fromHex c = none := by
  unfold IsHex IsDigit at h
  unfold fromHex
  rw [if_neg (by omega), if_neg (by omega), if_neg (by omega)]

theorem hexDigit_lt {c : ℕ} (h : IsHex c) : hexDigit c < 16 := by
  unfold IsHex IsDigit at h
  unfold hexDigit
  split_ifs <;> omega

theorem shift_or_hexDigit {c d : ℕ} (h : IsHex d) : (c <<< 4) ||| hexDigit d = 16 * c + hexDigit d := by
  rw [or_shift (hexDigit_lt h)]
  omega

theorem escapeHex_append : ∀ (ds : List ℕ) (c : ℕ) (r : List ℕ), (∀ d ∈ ds, IsHex d) →
    ∃ v, escapeHex ds.length c (ds ++ r) = .value v r
  | [], c, r, _ => ⟨c, rfl⟩
  | d :: ds, c, r, h => by
    rw [List.length_cons, List.cons_append, escapeHex, fromHex_of_isHex (h d List.mem_cons_self)]
    exact escapeHex_append ds _ r (fun e he => h e (List.mem_cons_of_mem _ he))

theorem escapeHex_value : ∀ {n c v : ℕ} {p r : List ℕ}, escapeHex n c p = .value v r →
    ∃ ds, ds.length = n ∧ (∀ d ∈ ds, IsHex d) ∧ p = ds ++ r
  | 0, c, v, p, r, h => by
    cases h
    exact ⟨[], rfl, by simp, rfl⟩
  | n + 1, c, v, [], r, h => by cases h
  | n + 1, c, v, d :: p, r, h => by
    rw [escapeHex] at h
    by_cases hd : IsHex d
    · rw [fromHex_of_isHex hd] at h
      obtain ⟨ds, hlen, hds, rfl⟩ := escapeHex_value h
      exact ⟨d :: ds, by rw [List.length_cons, hlen], List.forall_mem_cons.2 ⟨hd, hds⟩, rfl⟩
    · rw [fromHex_of_not_isHex hd] at h
      cases h

/-- `hexValue` from a number on. -/
def hexFrom (c : ℕ) (ds : List ℕ) : ℕ := ds.foldl (fun n d => 16 * n + hexDigit d) c

theorem le_hexFrom : ∀ (ds : List ℕ) (c : ℕ), c ≤ hexFrom c ds
  | [], c => le_rfl
  | d :: ds, c => by
    have h := le_hexFrom ds (16 * c + hexDigit d)
    rw [hexFrom, List.foldl_cons, ← hexFrom]
    omega

theorem not_isHex_brace : ¬ IsHex 0x7d := by decide

theorem escapeBraces_append : ∀ (ds : List ℕ) (c : ℕ) (r : List ℕ), ds ≠ [] → (∀ d ∈ ds, IsHex d) →
    hexFrom c ds ≤ 0x10ffff → escapeBraces c (ds ++ 0x7d :: r) = .value (hexFrom c ds) r
  | [], _, _, hne, _, _ => absurd rfl hne
  | d :: ds, c, r, _, h, hv => by
    have hd := h d List.mem_cons_self
    have hv' : hexFrom (16 * c + hexDigit d) ds ≤ 0x10ffff := hv
    have hle := le_hexFrom ds (16 * c + hexDigit d)
    rw [List.cons_append, escapeBraces, fromHex_of_isHex hd]
    simp only [shift_or_hexDigit hd]
    rw [if_neg (by omega)]
    cases ds with
    | nil => rfl
    | cons e ds =>
      have he : IsHex e := h e (by simp)
      have hcur : ¬ cur (e :: ds ++ 0x7d :: r) = 0x7d := fun hc : e = 0x7d =>
        not_isHex_brace (hc ▸ he)
      rw [if_neg hcur]
      exact escapeBraces_append (e :: ds) _ r (by simp) (fun x hx => h x (List.mem_cons_of_mem _ hx))
        hv'

theorem cur_eq_cons {p : List ℕ} {c : ℕ} (h : cur p = c) (hc : c ≠ 0) : p = c :: p.tail := by
  cases p with
  | nil => exact absurd h.symm hc
  | cons d p =>
    cases h
    rfl

theorem escapeBraces_value : ∀ {c v : ℕ} {p r : List ℕ}, escapeBraces c p = .value v r →
    ∃ ds, ds ≠ [] ∧ (∀ d ∈ ds, IsHex d) ∧ hexFrom c ds ≤ 0x10ffff ∧ p = ds ++ 0x7d :: r
  | c, v, [], r, h => by cases h
  | c, v, d :: p, r, h => by
    rw [escapeBraces] at h
    by_cases hd : IsHex d
    · rw [fromHex_of_isHex hd] at h
      simp only [shift_or_hexDigit hd] at h
      split_ifs at h with h1 h2
      · cases h
        exact ⟨[d], by simp, by simpa using hd, by simpa [hexFrom] using h1,
          by rw [List.singleton_append, ← cur_eq_cons h2 (by simp)]⟩
      · obtain ⟨ds, -, hds, hv, rfl⟩ := escapeBraces_value h
        exact ⟨d :: ds, by simp, List.forall_mem_cons.2 ⟨hd, hds⟩, hv, rfl⟩
    · rw [fromHex_of_not_isHex hd] at h
      cases h

theorem escapeChar_isSome {c : ℕ} : (∃ v, escapeChar c = some v) ↔ c ∈ shortEscapes := by
  unfold escapeChar shortEscapes
  constructor
  · rintro ⟨v, h⟩
    split at h <;> first | (cases h; done) | simp
  · intro h
    simp only [List.mem_cons, List.not_mem_nil, or_false] at h
    rcases h with rfl | rfl | rfl | rfl | rfl | rfl | rfl | rfl | rfl <;> exact ⟨_, rfl⟩

theorem escapeChar_eq_none {c : ℕ} (h : c ∉ shortEscapes) : escapeChar c = none := by
  rw [← escapeChar_isSome] at h
  push Not at h
  exact Option.eq_none_iff_forall_ne_some.2 h

theorem isNum_iff {c : ℕ} : isNum c = true ↔ IsDigit c := by
  simp [isNum, IsDigit]

/-! ### UTF-8 -/

theorem isTail_iff {b : ℕ} : isTail b = true ↔ 0x80 ≤ b ∧ b < 0xc0 := by simp [isTail]

theorem unicodeFromUtf8_encode {c : ℕ} (h : 0x80 ≤ c) (h' : c < 0x110000) (r : List ℕ) :
    unicodeFromUtf8 (encode c ++ r) = some (c, (encode c).length) := by
  have hget := utf8Get_encode h' r
  unfold unicodeFromUtf8
  simp only [hget]
  by_cases h2 : c < 0x800
  · have he : encode c = [0xc0 + c / 0x40, 0x80 + c % 0x40] := by
      rw [encode, if_neg (by omega), if_pos h2]
    simp only [he, byteAt, List.cons_append, List.nil_append, List.getD_cons_zero,
      List.getD_cons_succ, List.length_cons, List.length_nil]
    rw [if_neg (by omega), if_neg (by omega), if_pos (by omega), if_pos]
    simp only [Bool.and_eq_true, isTail_iff, decide_eq_true_eq]
    omega
  by_cases h3 : c < 0x10000
  · have he : encode c = [0xe0 + c / 0x1000, 0x80 + c / 0x40 % 0x40, 0x80 + c % 0x40] := by
      rw [encode, if_neg (by omega), if_neg h2, if_pos h3]
    simp only [he, byteAt, List.cons_append, List.nil_append, List.getD_cons_zero,
      List.getD_cons_succ, List.length_cons, List.length_nil]
    rw [if_neg (by omega), if_neg (by omega), if_neg (by omega), if_pos (by omega), if_pos]
    simp only [Bool.and_eq_true, isTail_iff, decide_eq_true_eq]
    omega
  · have he : encode c = [0xf0 + c / 0x40000, 0x80 + c / 0x1000 % 0x40, 0x80 + c / 0x40 % 0x40,
        0x80 + c % 0x40] := by
      rw [encode, if_neg (by omega), if_neg h2, if_neg h3]
    simp only [he, byteAt, List.cons_append, List.nil_append, List.getD_cons_zero,
      List.getD_cons_succ, List.length_cons, List.length_nil]
    rw [if_neg (by omega), if_neg (by omega), if_neg (by omega), if_neg (by omega),
      if_pos (by omega), if_pos]
    simp only [Bool.and_eq_true, isTail_iff, decide_eq_true_eq]
    omega

/-- A byte other than zero is there. -/
theorem byteAt_cons {p : List ℕ} {i : ℕ} (h : 0 < byteAt p i) :
    p.drop i = byteAt p i :: p.drop (i + 1) := by
  have hi : i < p.length := by
    by_contra hlt
    rw [byteAt, List.getD_eq_default _ _ (by omega)] at h
    omega
  rw [List.drop_eq_getElem_cons hi, byteAt, List.getD_eq_getElem _ _ hi]

theorem utf8Get_two {b₀ b₁ : ℕ} (h : 0xc0 ≤ b₀) (h' : b₀ < 0xe0) (r : List ℕ) :
    utf8Get (b₀ :: b₁ :: r) = b₀ % 0x20 * 0x40 + b₁ % 0x40 := by
  have m5 : ∀ x : ℕ, x &&& 0x1f = x % 0x20 := fun x => Nat.and_two_pow_sub_one_eq_mod x 5
  simp only [utf8Get, byteAt, List.getD_cons_zero, List.getD_cons_succ, and_mask, m5]
  rw [if_neg (by omega), if_pos (by omega), or_shift (by omega)]
  omega

theorem utf8Get_three {b₀ b₁ b₂ : ℕ} (h : 0xe0 ≤ b₀) (h' : b₀ < 0xf0) (r : List ℕ) :
    utf8Get (b₀ :: b₁ :: b₂ :: r) = b₀ % 0x10 * 0x1000 + b₁ % 0x40 * 0x40 + b₂ % 0x40 := by
  have m4 : ∀ x : ℕ, x &&& 0x0f = x % 0x10 := fun x => Nat.and_two_pow_sub_one_eq_mod x 4
  simp only [utf8Get, byteAt, List.getD_cons_zero, List.getD_cons_succ, and_mask, m4]
  rw [if_neg (by omega), if_neg (by omega), if_pos (by omega), Nat.or_assoc,
    @or_shift _ 6 _ (by omega), or_shift (by omega)]
  omega

theorem utf8Get_four {b₀ b₁ b₂ b₃ : ℕ} (h : 0xf0 ≤ b₀) (h' : b₀ < 0xf8) (r : List ℕ) :
    utf8Get (b₀ :: b₁ :: b₂ :: b₃ :: r)
      = b₀ % 0x08 * 0x40000 + b₁ % 0x40 * 0x1000 + b₂ % 0x40 * 0x40 + b₃ % 0x40 := by
  have m3 : ∀ x : ℕ, x &&& 0x07 = x % 0x08 := fun x => Nat.and_two_pow_sub_one_eq_mod x 3
  simp only [utf8Get, byteAt, List.getD_cons_zero, List.getD_cons_succ, and_mask, m3]
  rw [if_neg (by omega), if_neg (by omega), if_neg (by omega), if_pos (by omega), Nat.or_assoc,
    Nat.or_assoc, @or_shift _ 6 _ (by omega), @or_shift _ 12 _ (by omega), or_shift (by omega)]
  omega

/-- What is accepted is the encoding of a code point. -/
theorem unicodeFromUtf8_some {p : List ℕ} {c n : ℕ} (h0 : 0x80 ≤ byteAt p 0)
    (h : unicodeFromUtf8 p = some (c, n)) :
    0x80 ≤ c ∧ c < 0x110000 ∧ p = encode c ++ p.drop n := by
  have hp : p = byteAt p 0 :: p.drop 1 := by
    have := byteAt_cons (show 0 < byteAt p 0 by omega)
    rwa [List.drop_zero] at this
  unfold unicodeFromUtf8 at h
  simp only at h
  rw [if_neg (by omega)] at h
  split_ifs at h with h1 h2 h3 h4 h5 h6 h7
  · -- two bytes
    simp only [Bool.and_eq_true, isTail_iff, decide_eq_true_eq] at h3
    have hp1 := byteAt_cons (show 0 < byteAt p 1 by omega)
    rw [hp1] at hp
    have hget := @utf8Get_two (byteAt p 0) (byteAt p 1) (by omega) h2 (p.drop 2)
    rw [← hp] at hget
    cases h
    refine ⟨h3.2, by omega, ?_⟩
    rw [encode, if_neg (by omega), if_pos (by omega)]
    nth_rewrite 1 [hp]
    rw [show 0xc0 + utf8Get p / 0x40 = byteAt p 0 by omega,
      show 0x80 + utf8Get p % 0x40 = byteAt p 1 by omega]
    rfl
  · -- three bytes
    simp only [Bool.and_eq_true, isTail_iff, decide_eq_true_eq] at h5
    have hp1 := byteAt_cons (show 0 < byteAt p 1 by omega)
    have hp2 := byteAt_cons (show 0 < byteAt p 2 by omega)
    rw [hp1, hp2] at hp
    have hget := @utf8Get_three (byteAt p 0) (byteAt p 1) (byteAt p 2) (by omega) h4 (p.drop 3)
    rw [← hp] at hget
    cases h
    refine ⟨by omega, by omega, ?_⟩
    rw [encode, if_neg (by omega), if_neg (by omega), if_pos (by omega)]
    nth_rewrite 1 [hp]
    rw [show 0xe0 + utf8Get p / 0x1000 = byteAt p 0 by omega,
      show 0x80 + utf8Get p / 0x40 % 0x40 = byteAt p 1 by omega,
      show 0x80 + utf8Get p % 0x40 = byteAt p 2 by omega]
    rfl
  · -- four bytes
    simp only [Bool.and_eq_true, isTail_iff, decide_eq_true_eq] at h7
    have hp1 := byteAt_cons (show 0 < byteAt p 1 by omega)
    have hp2 := byteAt_cons (show 0 < byteAt p 2 by omega)
    have hp3 := byteAt_cons (show 0 < byteAt p 3 by omega)
    rw [hp1, hp2, hp3] at hp
    have hget := @utf8Get_four (byteAt p 0) (byteAt p 1) (byteAt p 2) (byteAt p 3) (by omega) h6
      (p.drop 4)
    rw [← hp] at hget
    cases h
    refine ⟨by omega, by omega, ?_⟩
    rw [encode, if_neg (by omega), if_neg (by omega), if_neg (by omega)]
    nth_rewrite 1 [hp]
    rw [show 0xf0 + utf8Get p / 0x40000 = byteAt p 0 by omega,
      show 0x80 + utf8Get p / 0x1000 % 0x40 = byteAt p 1 by omega,
      show 0x80 + utf8Get p / 0x40 % 0x40 = byteAt p 2 by omega,
      show 0x80 + utf8Get p % 0x40 = byteAt p 3 by omega]
    rfl

/-! ### Strings -/

theorem stringStep_cons (sep c : ℕ) (p : List ℕ) :
    stringStep sep (c :: p) =
      if c = 0 ∨ c = 0x0a ∨ c = 0x0d then .error "unexpected end of string"
      else if c = sep then .done p
      else if c = 0x5c then
        if cur p = 0x0a then .skip p.tail
        else match jsParseEscape p with
          | .invalid => .error "invalid escape sequence"
          | .ignored => .skip p
          | .value c p => .put c p
      else if 0x80 ≤ c then
        match unicodeFromUtf8 (c :: p) with
        | none => .error "invalid UTF-8 sequence"
        | some (v, clen) => .put v ((c :: p).drop clen)
      else .put c p := rfl

theorem stringStep_backslash {p : List ℕ} (h : cur p ≠ 0x0a) :
    stringStep 0x22 (0x5c :: p) = match jsParseEscape p with
      | .invalid => .error "invalid escape sequence"
      | .ignored => .skip p
      | .value c p => .put c p := by
  rw [stringStep_cons, if_neg (by omega), if_neg (by omega), if_pos rfl, if_neg h]

theorem escapeHex_ne_ignored : ∀ (n c : ℕ) (p : List ℕ), escapeHex n c p ≠ .ignored
  | 0, _, _ => by simp [escapeHex]
  | _ + 1, _, [] => by simp [escapeHex]
  | n + 1, c, d :: p => by
    rw [escapeHex]
    cases fromHex d with
    | none => simp
    | some h => exact escapeHex_ne_ignored n _ p

theorem escapeBraces_ne_ignored : ∀ (c : ℕ) (p : List ℕ), escapeBraces c p ≠ .ignored
  | _, [] => by simp [escapeBraces]
  | c, d :: p => by
    rw [escapeBraces]
    cases fromHex d with
    | none => simp
    | some h =>
      simp only
      split_ifs
      · simp
      · simp
      · exact escapeBraces_ne_ignored _ p

theorem jsParseEscape_eq (p : List ℕ) (h : cur p ∉ shortEscapes) :
    jsParseEscape p = if cur p = 0x78 then escapeHex 2 0 p.tail
      else if cur p = 0x75 then
        if cur p.tail = 0x7b then escapeBraces 0 p.tail.tail else escapeHex 4 0 p.tail
      else if cur p = 0x30 then if isNum (cur p.tail) then .invalid else .value 0 p.tail
      else .ignored := by
  unfold jsParseEscape
  simp only [escapeChar_eq_none h]

theorem jsParseEscape_cons {c : ℕ} (p : List ℕ) (h : c ∉ shortEscapes) :
    jsParseEscape (c :: p) = if c = 0x78 then escapeHex 2 0 p
      else if c = 0x75 then if cur p = 0x7b then escapeBraces 0 p.tail else escapeHex 4 0 p
      else if c = 0x30 then if isNum (cur p) then .invalid else .value 0 p
      else .ignored :=
  jsParseEscape_eq (c :: p) h

theorem jsParseEscape_short {c v : ℕ} (p : List ℕ) (h : escapeChar c = some v) :
    jsParseEscape (c :: p) = .value v p := by
  unfold jsParseEscape
  simp only [cur, List.headD_cons, List.tail_cons, h]

theorem cur_encode {c : ℕ} (h : 0x80 ≤ c) (r : List ℕ) : 0xc0 ≤ cur (encode c ++ r) := by
  unfold encode
  split_ifs <;> simp only [cur, List.cons_append, List.headD_cons] <;> omega

/-- A turn of the loop takes a character of a literal. -/
theorem LiteralChar.step {i j : List ℕ} (h : LiteralChar i j) :
    (∃ c, stringStep 0x22 i = .put c j) ∨ stringStep 0x22 i = .skip j := by
  cases h with
  | @ascii c _ h hc =>
    simp only [List.mem_cons, List.not_mem_nil, or_false] at hc
    refine .inl ⟨c, ?_⟩
    rw [stringStep_cons, if_neg (by omega), if_neg (by omega), if_neg (by omega),
      if_neg (by omega)]
  | @wide c _ h h' =>
    have hcur := cur_encode h j
    refine .inl ⟨c, ?_⟩
    unfold stringStep
    simp only
    rw [if_neg (by omega), if_neg (by omega), if_neg (by omega), if_pos (by omega),
      unicodeFromUtf8_encode h h']
    simp only [List.drop_left]
  | @short c _ h =>
    obtain ⟨v, hv⟩ := escapeChar_isSome.2 h
    have hc : c ≠ 0x0a := by
      rintro rfl
      simp [shortEscapes] at h
    refine .inl ⟨v, ?_⟩
    rw [stringStep_backslash (show cur (c :: j) ≠ 0x0a from hc), jsParseEscape_short _ hv]
  | @hex a b _ ha hb =>
    obtain ⟨v, hv⟩ := escapeHex_append [a, b] 0 j (by simp [ha, hb])
    refine .inl ⟨v, ?_⟩
    rw [stringStep_backslash (by simp [cur]), jsParseEscape_cons _ (by decide), if_pos rfl]
    simp only [List.length_cons, List.length_nil, List.cons_append, List.nil_append] at hv
    rw [hv]
  | @unicode a b c d _ ha hb hc hd =>
    obtain ⟨v, hv⟩ := escapeHex_append [a, b, c, d] 0 j (by simp [ha, hb, hc, hd])
    have hcur : ¬ cur (a :: b :: c :: d :: j) = 0x7b := by
      intro h
      have : IsHex 0x7b := h ▸ ha
      revert this
      decide
    refine .inl ⟨v, ?_⟩
    rw [stringStep_backslash (by simp [cur]), jsParseEscape_cons _ (by decide), if_neg (by decide),
      if_pos rfl, if_neg hcur]
    simp only [List.length_cons, List.length_nil, List.cons_append, List.nil_append] at hv
    rw [hv]
  | @braces ds _ hne hx hv =>
    refine .inl ⟨hexFrom 0 ds, ?_⟩
    rw [stringStep_backslash (by simp [cur]), jsParseEscape_cons _ (by decide), if_neg (by decide),
      if_pos rfl, if_pos (by rfl), List.tail_cons, escapeBraces_append ds 0 j hne hx hv]
  | zero h =>
    refine .inl ⟨0, ?_⟩
    rw [stringStep_backslash (by simp [cur]), jsParseEscape_cons _ (by decide), if_neg (by decide),
      if_neg (by decide), if_pos rfl, if_neg (by rwa [isNum_iff])]
  | newline => exact .inr rfl
  | ignored h =>
    simp only [List.mem_cons, not_or] at h
    obtain ⟨hx, hu, h0, hn, hs⟩ := h
    refine .inr ?_
    rw [stringStep_backslash hn, jsParseEscape_eq _ hs, if_neg hx, if_neg hu, if_neg h0]

/-- Nothing else is taken. -/
theorem literalChar_of_backslash {p j : List ℕ} (hn : cur p ≠ 0x0a)
    (h : (∃ c, jsParseEscape p = .value c j) ∨ jsParseEscape p = .ignored ∧ j = p) :
    LiteralChar (0x5c :: p) j := by
  by_cases hs : cur p ∈ shortEscapes
  · obtain ⟨v, hv⟩ := escapeChar_isSome.2 hs
    have hp : p = cur p :: p.tail := cur_eq_cons rfl (by
      intro h0
      rw [h0] at hs
      simp [shortEscapes] at hs)
    rw [hp, jsParseEscape_short _ hv] at h
    rcases h with ⟨c, h⟩ | ⟨h, -⟩
    · cases h
      rw [hp]
      exact .short hs
    · cases h
  · rw [jsParseEscape_eq _ hs] at h
    split_ifs at h with hx hu hb h0 hd
    · rcases h with ⟨c, h⟩ | ⟨h, -⟩
      · obtain ⟨ds, hlen, hds, htail⟩ := escapeHex_value h
        obtain ⟨a, b, rfl⟩ := List.length_eq_two.1 hlen
        rw [cur_eq_cons hx (by decide), htail]
        exact .hex (hds a (by simp)) (hds b (by simp))
      · exact absurd h (escapeHex_ne_ignored _ _ _)
    · rcases h with ⟨c, h⟩ | ⟨h, -⟩
      · obtain ⟨ds, hne, hds, hv, htail⟩ := escapeBraces_value h
        rw [cur_eq_cons hu (by decide), cur_eq_cons hb (by decide), htail]
        exact .braces hne hds hv
      · exact absurd h (escapeBraces_ne_ignored _ _)
    · rcases h with ⟨c, h⟩ | ⟨h, -⟩
      · obtain ⟨ds, hlen, hds, htail⟩ := escapeHex_value h
        match ds, hlen with
        | [a, b, c, d], _ =>
          rw [cur_eq_cons hu (by decide), htail]
          exact .unicode (hds a (by simp)) (hds b (by simp)) (hds c (by simp)) (hds d (by simp))
      · exact absurd h (escapeHex_ne_ignored _ _ _)
    · rcases h with ⟨c, h⟩ | ⟨h, -⟩ <;> cases h
    · rcases h with ⟨c, h⟩ | ⟨h, -⟩
      · cases h
        rw [cur_eq_cons h0 (by decide)]
        exact .zero (by rwa [isNum_iff] at hd)
      · cases h
    · rcases h with ⟨c, h⟩ | ⟨-, rfl⟩
      · cases h
      · refine .ignored ?_
        simp only [List.mem_cons, not_or]
        exact ⟨hx, hu, h0, hn, hs⟩

/-- Nothing else is taken. -/
theorem literalChar_of_step {i j : List ℕ}
    (h : (∃ c, stringStep 0x22 i = .put c j) ∨ stringStep 0x22 i = .skip j) : LiteralChar i j := by
  cases i with
  | nil =>
    rcases h with ⟨c, h⟩ | h <;> cases h
  | cons c p =>
    by_cases hb : c = 0x5c
    · subst hb
      by_cases hn : cur p = 0x0a
      · have hstep : stringStep 0x22 (0x5c :: p) = .skip p.tail := by
          rw [stringStep_cons, if_neg (by omega), if_neg (by omega), if_pos rfl, if_pos hn]
        rw [hstep] at h
        rcases h with ⟨c, h⟩ | h
        · cases h
        · cases h
          rw [cur_eq_cons hn (by decide)]
          exact .newline
      · rw [stringStep_backslash hn] at h
        refine literalChar_of_backslash hn ?_
        cases he : jsParseEscape p with
        | invalid =>
          rw [he] at h
          rcases h with ⟨c, h⟩ | h <;> cases h
        | ignored =>
          rw [he] at h
          rcases h with ⟨c, h⟩ | h
          · cases h
          · cases h
            exact .inr ⟨rfl, rfl⟩
        | value v q =>
          rw [he] at h
          rcases h with ⟨c, h⟩ | h
          · cases h
            exact .inl ⟨v, rfl⟩
          · cases h
    · rw [stringStep_cons] at h
      split_ifs at h with h1 h2 h3
      · rcases h with ⟨c, h⟩ | h <;> cases h
      · rcases h with ⟨c, h⟩ | h <;> cases h
      · cases hu : unicodeFromUtf8 (c :: p) with
        | none =>
          rw [hu] at h
          rcases h with ⟨c, h⟩ | h <;> cases h
        | some r =>
          obtain ⟨v, n⟩ := r
          rw [hu] at h
          rcases h with ⟨c, h⟩ | h
          · cases h
            obtain ⟨hv, hv', hp⟩ := unicodeFromUtf8_some (by exact h3) hu
            nth_rewrite 1 [hp]
            exact .wide hv hv'
          · cases h
      · rcases h with ⟨d, h⟩ | h
        · cases h
          refine .ascii (by omega) ?_
          simp only [List.mem_cons, List.not_mem_nil, or_false]
          omega
        · cases h

theorem LiteralChar.length_lt {i j : List ℕ} (h : LiteralChar i j) : j.length < i.length := by
  cases h with
  | @wide c _ _ _ =>
    have := encode_length c
    rw [List.length_append]
    omega
  | braces => simp only [List.length_cons, List.length_append]; omega
  | _ => simp only [List.length_cons]; omega

theorem chars_length_le {i r : List ℕ} (h : Chars tokenizer i r) : r.length ≤ i.length := by
  induction h with
  | nil => exact le_rfl
  | cons hc _ ih => exact ih.trans (LiteralChar.length_lt hc).le

theorem stringStep_done {i p : List ℕ} (h : stringStep 0x22 i = .done p) : i = 0x22 :: p := by
  cases i with
  | nil => cases h
  | cons c q =>
    rw [stringStep_cons] at h
    split_ifs at h with h1 h2 h3 h4 h5
    · cases h
      rw [h2]
    · cases he : jsParseEscape q <;> rw [he] at h <;> cases h
    · cases hu : unicodeFromUtf8 (c :: q) <;> rw [hu] at h <;> cases h

theorem stringLoop_sound : ∀ {fuel : ℕ} {cs cs' i r : List ℕ},
    stringLoop 0x22 fuel cs i = .ok (cs', r) → Chars tokenizer i (0x22 :: r)
  | 0, _, _, _, _, h => by cases h
  | fuel + 1, cs, cs', i, r, h => by
    rw [stringLoop] at h
    cases hs : stringStep 0x22 i with
    | error msg =>
      rw [hs] at h
      cases h
    | done p =>
      rw [hs] at h
      cases h
      rw [stringStep_done hs]
      exact .nil _
    | skip p =>
      rw [hs] at h
      exact .cons (literalChar_of_step (.inr hs)) (stringLoop_sound h)
    | put c p =>
      rw [hs] at h
      exact .cons (literalChar_of_step (.inl ⟨c, hs⟩)) (stringLoop_sound h)

theorem stringLoop_complete {i q : List ℕ} (h : Chars tokenizer i q) :
    ∀ {r : List ℕ}, q = 0x22 :: r → ∀ (cs : List ℕ) (fuel : ℕ), i.length < fuel →
    ∃ cs', stringLoop 0x22 fuel cs i = .ok (cs', r) := by
  induction h with
  | nil =>
    rintro r rfl cs fuel hf
    obtain ⟨fuel, rfl⟩ : ∃ k, fuel = k + 1 := ⟨fuel - 1, by omega⟩
    exact ⟨cs, rfl⟩
  | cons hc _ ih =>
    intro r hq cs fuel hf
    have hlt := LiteralChar.length_lt hc
    obtain ⟨fuel, rfl⟩ : ∃ k, fuel = k + 1 := ⟨fuel - 1, by omega⟩
    rw [stringLoop]
    rcases LiteralChar.step hc with ⟨c, hs⟩ | hs
    · rw [hs]
      exact ih hq (cs ++ [c]) fuel (by omega)
    · rw [hs]
      exact ih hq cs fuel (by omega)

theorem jsParseString_ok {i r : List ℕ} :
    (∃ cs, jsParseString i 0x22 = .ok (cs, r)) ↔ Chars tokenizer i (0x22 :: r) := by
  constructor
  · rintro ⟨cs, h⟩
    exact stringLoop_sound h
  · intro h
    exact stringLoop_complete h rfl [] _ (Nat.lt_succ_self _)

/-! ### Numbers -/

/-- No number goes on here. -/
def Stop (r : List ℕ) : Prop :=
  ¬ IsDigit (cur r) ∧ cur r ≠ 0x2e ∧ cur r ≠ 0x65 ∧ cur r ≠ 0x45

theorem atodDigits_cons (start dot : Bool) (c : ℕ) (p : List ℕ) :
    atodDigits start dot (c :: p) =
      if c = 0x2e ∧ (start = false ∨ isNum (cur p)) ∧ dot = false then atodDigits false true p
      else if isNum c then
        if dot then ((atodDigits false dot p).1, c :: (atodDigits false dot p).2.1,
          (atodDigits false dot p).2.2)
        else (c :: (atodDigits false dot p).1, (atodDigits false dot p).2.1,
          (atodDigits false dot p).2.2)
      else ([], [], c :: p) := rfl

theorem not_digit_dot {c : ℕ} (h : IsDigit c) : c ≠ 0x2e := by
  unfold IsDigit at h
  omega

/-- After the point. -/
theorem atodDigits_frac (start : Bool) {r : List ℕ} (hr : ¬ IsDigit (cur r)) : ∀ d : List ℕ,
    (∀ c ∈ d, IsDigit c) → atodDigits start true (d ++ r) = ([], d, r)
  | [], _ => by
    cases r with
    | nil => rfl
    | cons c p =>
      rw [List.nil_append, atodDigits_cons, if_neg (by simp), if_neg (by rwa [isNum_iff])]
  | c :: d, h => by
    have hc := h c List.mem_cons_self
    have ih := atodDigits_frac false hr d (fun e he => h e (List.mem_cons_of_mem _ he))
    rw [List.cons_append, atodDigits_cons, if_neg (by simp), if_pos (isNum_iff.2 hc), ih, if_pos rfl]

/-- Digits without a point after them. -/
theorem atodDigits_int {r : List ℕ} (hr : ¬ IsDigit (cur r)) (hdot : cur r ≠ 0x2e) :
    ∀ (start : Bool) (n : List ℕ), (∀ c ∈ n, IsDigit c) →
    atodDigits start false (n ++ r) = (n, [], r)
  | start, [], _ => by
    cases r with
    | nil => rfl
    | cons c p =>
      rw [List.nil_append, atodDigits_cons, if_neg (fun h => hdot h.1),
        if_neg (by rwa [isNum_iff])]
  | start, c :: n, h => by
    have hc := h c List.mem_cons_self
    have ih := atodDigits_int hr hdot false n (fun e he => h e (List.mem_cons_of_mem _ he))
    rw [List.cons_append, atodDigits_cons, if_neg (fun h => not_digit_dot hc h.1),
      if_pos (isNum_iff.2 hc), ih, if_neg (by simp)]

/-- Digits with a point after them. -/
theorem atodDigits_point {d r : List ℕ} (hd : ∀ c ∈ d, IsDigit c) (hr : ¬ IsDigit (cur r)) :
    ∀ (start : Bool) (n : List ℕ), (∀ c ∈ n, IsDigit c) → (n ≠ [] ∨ start = false ∨ d ≠ []) →
    atodDigits start false (n ++ 0x2e :: (d ++ r)) = (n, d, r)
  | start, [], _, hs => by
    have hcond : start = false ∨ isNum (cur (d ++ r)) = true := by
      rcases hs with h | h | h
      · exact absurd rfl h
      · exact .inl h
      · cases d with
        | nil => exact absurd rfl h
        | cons c d => exact .inr (isNum_iff.2 (hd c List.mem_cons_self))
    rw [List.nil_append, atodDigits_cons, if_pos ⟨rfl, hcond, rfl⟩, atodDigits_frac false hr d hd]
  | start, c :: n, h, _ => by
    have hc := h c List.mem_cons_self
    have ih := atodDigits_point hd hr false n (fun e he => h e (List.mem_cons_of_mem _ he))
      (.inr (.inl rfl))
    rw [List.cons_append, atodDigits_cons, if_neg (fun h => not_digit_dot hc h.1),
      if_pos (isNum_iff.2 hc), ih, if_neg (by simp)]

theorem atodDigits_sound_frac : ∀ (p : List ℕ) (start : Bool),
    ∃ f r, atodDigits start true p = ([], f, r) ∧ (∀ c ∈ f, IsDigit c) ∧ p = f ++ r
      ∧ ¬ IsDigit (cur r)
  | [], _ => ⟨[], [], rfl, by simp, rfl, by decide⟩
  | c :: p, start => by
    rw [atodDigits_cons, if_neg (by simp)]
    by_cases hc : isNum c = true
    · obtain ⟨f, r, he, hf, hp, hr⟩ := atodDigits_sound_frac p false
      rw [if_pos hc, he, if_pos rfl]
      exact ⟨c :: f, r, rfl, List.forall_mem_cons.2 ⟨isNum_iff.1 hc, hf⟩, by rw [hp]; rfl, hr⟩
    · rw [if_neg hc]
      exact ⟨[], c :: p, rfl, by simp, rfl, by rwa [isNum_iff] at hc⟩

/-- What the scan of the digits has passed. -/
theorem atodDigits_sound : ∀ (p : List ℕ) (start : Bool),
    ∃ n f r, atodDigits start false p = (n, f, r) ∧ (∀ c ∈ n, IsDigit c) ∧ (∀ c ∈ f, IsDigit c)
      ∧ (f = [] ∧ p = n ++ r
        ∨ p = n ++ 0x2e :: (f ++ r) ∧ (n ≠ [] ∨ start = false ∨ f ≠ []))
  | [], _ => ⟨[], [], [], rfl, by simp, by simp, .inl ⟨rfl, rfl⟩⟩
  | c :: p, start => by
    rw [atodDigits_cons]
    by_cases hdot : c = 0x2e ∧ (start = false ∨ isNum (cur p) = true) ∧ (false : Bool) = false
    · rw [if_pos hdot]
      obtain ⟨rfl, hs, -⟩ := hdot
      obtain ⟨f, r, he, hf, hp, hr⟩ := atodDigits_sound_frac p false
      refine ⟨[], f, r, he, by simp, hf, .inr ⟨by rw [hp]; rfl, ?_⟩⟩
      rcases hs with hs | hs
      · exact .inr (.inl hs)
      · refine .inr (.inr ?_)
        rintro rfl
        rw [hp, List.nil_append, isNum_iff] at hs
        exact hr hs
    · rw [if_neg hdot]
      by_cases hc : isNum c = true
      · obtain ⟨n, f, r, he, hn, hf, hp⟩ := atodDigits_sound p false
        rw [if_pos hc, he, if_neg (by simp)]
        refine ⟨c :: n, f, r, rfl, List.forall_mem_cons.2 ⟨isNum_iff.1 hc, hn⟩, hf, ?_⟩
        rcases hp with ⟨rfl, hp⟩ | ⟨hp, -⟩
        · exact .inl ⟨rfl, by rw [hp]; rfl⟩
        · exact .inr ⟨by rw [hp]; rfl, .inl (by simp)⟩
      · rw [if_neg hc]
        exact ⟨[], [], c :: p, rfl, by simp, by simp, .inl ⟨rfl, rfl⟩⟩

theorem dropWhile_cur {q : ℕ → Bool} {r : List ℕ} (h : ¬ q (cur r) = true) : r.dropWhile q = r := by
  cases r with
  | nil => rfl
  | cons c p => exact List.dropWhile_cons_of_neg h

theorem dropWhile_digits {d r : List ℕ} (hd : ∀ c ∈ d, IsDigit c) (hr : ¬ IsDigit (cur r)) :
    (d ++ r).dropWhile isNum = r := by
  rw [List.dropWhile_append_of_pos (fun c hc => isNum_iff.2 (hd c hc))]
  exact dropWhile_cur (by rwa [isNum_iff])

theorem skipSign_append {s r : List ℕ} (hs : s = [] ∨ s = [0x2b] ∨ s = [0x2d])
    (hr : cur r ≠ 0x2b ∧ cur r ≠ 0x2d) : skipSign (s ++ r) = r := by
  rcases hs with rfl | rfl | rfl
  · rw [List.nil_append, skipSign, if_neg (by omega)]
  · exact if_pos (.inl rfl)
  · exact if_pos (.inr rfl)

theorem skipSign_sound (p : List ℕ) :
    ∃ s, (s = [] ∨ s = [0x2b] ∨ s = [0x2d]) ∧ p = s ++ skipSign p := by
  unfold skipSign
  split_ifs with h
  · have hp := cur_eq_cons (show cur p = cur p from rfl) (by omega)
    refine ⟨[cur p], ?_, hp⟩
    rcases h with h | h
    · exact .inr (.inl (by rw [h]))
    · exact .inr (.inr (by rw [h]))
  · exact ⟨[], .inl rfl, rfl⟩

theorem cur_digits {d : List ℕ} (hd : Digits d) (r : List ℕ) : IsDigit (cur (d ++ r)) := by
  obtain ⟨hne, hd⟩ := hd
  cases d with
  | nil => exact absurd rfl hne
  | cons c d => exact hd c List.mem_cons_self

theorem atodExponent_complete {x r : List ℕ} (hx : Exponent x) (hr : Stop r) :
    ∃ b e, atodExponent (x ++ r) = some (b, e, r) := by
  rcases hx with rfl | ⟨e, s, d, he, hs, hd, rfl⟩
  · refine ⟨false, [], ?_⟩
    rw [atodExponent, if_neg]
    · rfl
    · rintro (h | h)
      · exact hr.2.2.1 h
      · exact hr.2.2.2 h
  · have hdig := cur_digits hd r
    have htail : (e :: (s ++ d) ++ r).tail = s ++ (d ++ r) := by simp
    have hskip : skipSign (s ++ (d ++ r)) = d ++ r := by
      refine skipSign_append hs ?_
      rw [IsDigit] at hdig
      omega
    rw [atodExponent, if_pos (show cur (e :: (s ++ d) ++ r) = 0x65 ∨ cur (e :: (s ++ d) ++ r) = 0x45
      from he), htail]
    simp only [hskip, isNum_iff.2 hdig, if_true, dropWhile_digits hd.2 hr.1]
    exact ⟨_, _, rfl⟩

theorem takeWhile_isNum_digits (p : List ℕ) (h : isNum (cur p) = true) :
    Digits (p.takeWhile isNum) := by
  refine ⟨?_, fun c hc => isNum_iff.1 (List.mem_takeWhile_imp hc)⟩
  cases p with
  | nil => cases h
  | cons c p =>
    rw [List.takeWhile_cons_of_pos (show isNum c = true from h)]
    simp

theorem atodExponent_sound {p e r : List ℕ} {b : Bool} (h : atodExponent p = some (b, e, r)) :
    ∃ x, Exponent x ∧ p = x ++ r := by
  rw [atodExponent] at h
  by_cases he : cur p = 0x65 ∨ cur p = 0x45
  · rw [if_pos he] at h
    simp only at h
    split_ifs at h with hd
    cases h
    have hp := cur_eq_cons (show cur p = cur p from rfl) (by omega)
    obtain ⟨s, hs, hsp⟩ := skipSign_sound p.tail
    refine ⟨cur p :: (s ++ (skipSign p.tail).takeWhile isNum), .inr ⟨_, _, _, he, hs,
      takeWhile_isNum_digits _ hd, rfl⟩, ?_⟩
    rw [List.cons_append, List.append_assoc, List.takeWhile_append_dropWhile, ← hsp, ← hp]
  · rw [if_neg he] at h
    cases h
    exact ⟨[], .inl rfl, rfl⟩

variable {D : Type} {conv : Conv D}

/-- The start of a number. -/
def NumberStart (i : List ℕ) : Prop := IsDigit (cur i) ∨ cur i = 0x2d

theorem literalNumber_start {i r : List ℕ} (h : literalNumber i r) : NumberStart i := by
  rcases h with rfl | ⟨s, n, f, x, rfl, hs, hn, -, hne, -⟩
  · exact .inr rfl
  · rcases hs with rfl | rfl
    · rcases hne with hne | ⟨hne, -⟩
      · exact .inl (cur_digits ⟨hne, hn⟩ _)
      · exact absurd rfl hne
    · exact .inr rfl

theorem Exponent.cur_ne {x r : List ℕ} (hx : Exponent x) (hr : Stop r) :
    ¬ IsDigit (cur (x ++ r)) ∧ cur (x ++ r) ≠ 0x2e := by
  rcases hx with rfl | ⟨e, s, d, he, -, -, rfl⟩
  · exact ⟨hr.1, hr.2.1⟩
  · rw [IsDigit, show cur (e :: (s ++ d) ++ r) = e from rfl]
    omega

theorem jsAtod_eq (conv : Conv D) (str : List ℕ) :
    jsAtod conv str =
      if cur (skipSign str) ≠ 0x30 ∧ infinityText.isPrefixOf (skipSign str) then
        some (conv.infinity (cur str == 0x2d), (skipSign str).drop 8)
      else if (atodDigits true false (skipSign str)).2.2.length = (skipSign str).length then none
      else match atodExponent (atodDigits true false (skipSign str)).2.2 with
        | none => none
        | some (eneg, e, r) => some (conv.decimal (cur str == 0x2d)
          (atodDigits true false (skipSign str)).1 (atodDigits true false (skipSign str)).2.1
          eneg e, r) := rfl

theorem isPrefixOf_infinity {p : List ℕ} :
    infinityText.isPrefixOf p = true ↔ p = infinityText ++ p.drop 8 := by
  rw [List.isPrefixOf_iff_prefix]
  constructor
  · rintro ⟨t, rfl⟩
    rfl
  · intro h
    exact ⟨p.drop 8, h.symm⟩

/-- Digits, with a point among them or before them. -/
theorem atodDigits_complete {s n f x r : List ℕ} (hn : ∀ c ∈ n, IsDigit c)
    (hf : f = [] ∨ ∃ d, (∀ c ∈ d, IsDigit c) ∧ f = 0x2e :: d)
    (hne : n ≠ [] ∨ s ≠ [] ∧ ∃ d, Digits d ∧ f = 0x2e :: d) (hx : Exponent x) (hr : Stop r) :
    ∃ g, atodDigits true false (n ++ (f ++ (x ++ r))) = (n, g, x ++ r) := by
  obtain ⟨hxd, hxp⟩ := Exponent.cur_ne hx hr
  rcases hf with rfl | ⟨d, hd, rfl⟩
  · exact ⟨[], atodDigits_int hxd hxp true n hn⟩
  · refine ⟨d, atodDigits_point hd hxd true n hn ?_⟩
    rcases hne with hne | ⟨-, d', hd', h⟩
    · exact .inl hne
    · cases h
      exact .inr (.inr hd'.1)

theorem jsAtod_complete (conv : Conv D) {i r : List ℕ} (h : literalNumber i r) (hr : Stop r) :
    ∃ d, jsAtod conv i = some (d, r) := by
  rw [jsAtod_eq]
  rcases h with rfl | ⟨s, n, f, x, rfl, hs, hn, hf, hne, hx⟩
  · have hskip : skipSign (0x2d :: (infinityText ++ r)) = infinityText ++ r := if_pos (.inr rfl)
    refine ⟨conv.infinity true, ?_⟩
    rw [hskip, if_pos ⟨by simp [cur, infinityText], isPrefixOf_infinity.2 rfl⟩]
    rfl
  · obtain ⟨b, e, he⟩ := atodExponent_complete hx hr
    obtain ⟨g, hdig⟩ := atodDigits_complete hn hf hne hx hr
    -- the digits start with a digit or a point
    have hcur : IsDigit (cur (n ++ (f ++ (x ++ r)))) ∨ cur (n ++ (f ++ (x ++ r))) = 0x2e := by
      cases n with
      | nil =>
        rcases hne with hne | ⟨-, d, -, rfl⟩
        · exact absurd rfl hne
        · exact .inr rfl
      | cons c n => exact .inl (hn c List.mem_cons_self)
    rw [IsDigit] at hcur
    have hlen : (x ++ r).length ≠ (n ++ (f ++ (x ++ r))).length := by
      have : 0 < n.length ∨ 0 < f.length := by
        rcases hne with hne | ⟨-, d, -, rfl⟩
        · exact .inl (List.length_pos_of_ne_nil hne)
        · exact .inr (Nat.succ_pos _)
      simp only [List.length_append]
      omega
    have hskip : skipSign (s ++ (n ++ (f ++ (x ++ r)))) = n ++ (f ++ (x ++ r)) := by
      refine skipSign_append ?_ (by omega)
      rcases hs with rfl | rfl
      · exact .inl rfl
      · exact .inr (.inr rfl)
    rw [hskip, if_neg, hdig]
    · simp only [if_neg hlen, he]
      exact ⟨_, rfl⟩
    · rintro ⟨-, hp⟩
      rw [isPrefixOf_infinity] at hp
      rw [hp] at hcur
      exact absurd hcur (by simp [cur, infinityText])

/-- The sign of a number, and what is after it. -/
theorem NumberStart.sign {i : List ℕ} (hi : NumberStart i) :
    ∃ s, Sign s ∧ i = s ++ skipSign i ∧ (s = [] → IsDigit (cur (skipSign i))) := by
  rcases hi with hi | hi
  · have hskip : skipSign i = i := if_neg (by rw [IsDigit] at hi; omega)
    rw [hskip]
    exact ⟨[], .inl rfl, rfl, fun _ => hi⟩
  · refine ⟨[0x2d], .inr rfl, ?_, by simp⟩
    rw [skipSign, if_pos (.inr hi)]
    exact cur_eq_cons hi (by decide)

theorem jsAtod_sound {i r : List ℕ} {d : D} (hi : NumberStart i)
    (h : jsAtod conv i = some (d, r)) : literalNumber i r := by
  rw [jsAtod_eq] at h
  obtain ⟨s, hs, hsp, hdigit⟩ := hi.sign
  by_cases hinf : cur (skipSign i) ≠ 0x30 ∧ infinityText.isPrefixOf (skipSign i) = true
  · rw [if_pos hinf] at h
    cases h
    have hp := isPrefixOf_infinity.1 hinf.2
    rcases hs with rfl | rfl
    · rw [hp] at hdigit
      exact absurd (hdigit rfl) (by simp [cur, infinityText, IsDigit])
    · refine .inl ?_
      rw [← hp]
      exact hsp
  · rw [if_neg hinf] at h
    obtain ⟨n, f, q, he, hn, hf, hp⟩ := atodDigits_sound (skipSign i) true
    rw [he] at h
    simp only at h
    split_ifs at h with hlen
    cases hx : atodExponent q with
    | none =>
      rw [hx] at h
      cases h
    | some t =>
      obtain ⟨b, e, r'⟩ := t
      rw [hx] at h
      cases h
      obtain ⟨x, hexp, rfl⟩ := atodExponent_sound hx
      rcases hp with ⟨-, hp⟩ | ⟨hp, hstart⟩
      · refine .inr ⟨s, n, [], x, by rw [hsp, hp]; simp, hs, hn, .inl rfl, .inl ?_, hexp⟩
        rintro rfl
        exact hlen (by rw [hp]; rfl)
      · refine .inr ⟨s, n, 0x2e :: f, x, by rw [hsp, hp]; simp, hs, hn, .inr ⟨f, hf, rfl⟩, ?_,
          hexp⟩
        by_cases hne : n = []
        · subst hne
          refine .inr ⟨?_, f, ⟨?_, hf⟩, rfl⟩
          · intro hs
            have := hdigit hs
            rw [hp] at this
            exact absurd this (by simp [cur, IsDigit])
          · rcases hstart with h | h | h
            · exact absurd rfl h
            · cases h
            · exact h
        · exact .inl hne

/-! ### Space -/

theorem isSpace_iff {c : ℕ} : isSpace c = true ↔ tokenizer.space c := by
  simp [isSpace, tokenizer]

theorem spaces_skipSpaces : ∀ p : List ℕ, Spaces tokenizer p (skipSpaces p)
  | [] => .nil _
  | c :: p => by
    by_cases hc : isSpace c = true
    · rw [skipSpaces, List.dropWhile_cons_of_pos hc]
      exact .cons (isSpace_iff.1 hc) (spaces_skipSpaces p)
    · rw [skipSpaces, List.dropWhile_cons_of_neg hc]
      exact .nil _

theorem skipSpaces_eq_self {r : List ℕ} (hr : ¬ isSpace (cur r) = true) : skipSpaces r = r :=
  dropWhile_cur hr

theorem skipSpaces_of_spaces {i r : List ℕ} (h : Spaces tokenizer i r)
    (hr : ¬ isSpace (cur r) = true) : skipSpaces i = r := by
  induction h with
  | nil => exact skipSpaces_eq_self hr
  | cons hc _ ih =>
    rw [skipSpaces, List.dropWhile_cons_of_pos (isSpace_iff.2 hc)]
    exact ih hr

theorem skipSpaces_idem (p : List ℕ) : skipSpaces (skipSpaces p) = skipSpaces p := by
  unfold skipSpaces
  exact List.dropWhile_idempotent _ _

theorem spaces_length_le {i r : List ℕ} (h : Spaces tokenizer i r) : r.length ≤ i.length := by
  induction h with
  | nil => exact le_rfl
  | cons _ _ ih =>
    rw [List.length_cons]
    omega

/-- Where space or the end of a value follows, a number stops. -/
theorem Stop.of_spaces {k r : List ℕ} (h : Spaces tokenizer k r) (hr : Stop r) : Stop k := by
  cases h with
  | nil => exact hr
  | @cons c i _ hc _ =>
    simp only [tokenizer] at hc
    simp only [Stop, IsDigit, show cur (c :: i) = c from rfl]
    omega

end Json

end Qjs
