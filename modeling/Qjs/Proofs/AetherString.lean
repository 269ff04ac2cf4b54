import Qjs.Proofs.AetherScan

/-!
# The strings of the JSON parser

`parse_string_raw` takes the strings of the grammar and gives their bytes (`parseStringRaw_complete`,
`parseStringRaw_sound`); the length that it gives is cut to 32 bits. The span that is measured first
is room enough for what is decoded.
-/

namespace Qjs

namespace Aether

open Wtf8 JsonText

/-- A computation that succeeds succeeds step by step. -/
theorem bind_eq_ok {α β : Type} {x : Except Failure α} {f : α → Except Failure β} {b : β} :
    (x >>= f) = .ok b ↔ ∃ a, x = .ok a ∧ f a = .ok b := by
  cases x with
  | error e => simp [bind, Except.bind]
  | ok a => simp [bind, Except.bind]

@[simp] theorem ok_bind {α β : Type} (a : α) (f : α → Except Failure β) :
    ((.ok a : Except Failure α) >>= f) = f a := rfl

/-! ### White space -/

theorem isWhitespace_iff {c : ℕ} : isWhitespace c = true ↔ rfc8259.space c := by
  simp [isWhitespace, rfc8259]
  tauto

theorem spaces_skipWhitespace : ∀ p : List ℕ, Spaces rfc8259 p (skipWhitespace p)
  | [] => .nil _
  | c :: p => by
    rw [skipWhitespace, List.dropWhile_cons]
    split_ifs with h
    · exact .cons (isWhitespace_iff.1 h) (spaces_skipWhitespace p)
    · exact .nil _

theorem skipWhitespace_of_spaces {i r : List ℕ} (h : Spaces rfc8259 i r)
    (hr : ¬ isWhitespace (peek r) = true) : skipWhitespace i = r := by
  induction h with
  | nil r =>
    cases r with
    | nil => rfl
    | cons c r =>
      rw [skipWhitespace, List.dropWhile_cons, if_neg]
      exact hr
  | cons hc _ ih =>
    rw [skipWhitespace, List.dropWhile_cons, if_pos (isWhitespace_iff.2 hc)]
    exact ih hr

theorem spaces_suffix {i r : List ℕ} (h : Spaces rfc8259 i r) : r <:+ i := by
  induction h with
  | nil r => exact List.suffix_rfl
  | cons hc _ ih => exact ih.trans (List.suffix_cons _ _)

theorem peek_eq_cons {p : List ℕ} {c : ℕ} (h : peek p = c) (hc : c ≠ 0) : p = c :: p.tail := by
  cases p with
  | nil => exact absurd h.symm hc
  | cons d p =>
    cases h
    rfl

/-! ### Escapes -/

theorem hexValue_of_isHex {c : ℕ} (h : IsHex c) : hexValue c = some (hexDigit c) := by
  unfold IsHex IsDigit at h
  unfold hexValue hexDigit
  split_ifs <;> first | omega | rfl

theorem hexValue_some {c d : ℕ} (h : hexValue c = some d) : IsHex c := by
  unfold hexValue at h
  unfold IsHex IsDigit
  split_ifs at h <;> omega

theorem hexDigit_lt {c : ℕ} (h : IsHex c) : hexDigit c < 16 := by
  unfold IsHex IsDigit at h
  unfold hexDigit
  split_ifs <;> omega

theorem shift_or_hexDigit (v : ℕ) {c : ℕ} (h : IsHex c) :
    (v <<< 4) ||| hexDigit c = v * 16 + hexDigit c := by
  rw [← Nat.shiftLeft_add_eq_or_of_lt (i := 4) (hexDigit_lt h), Nat.shiftLeft_eq]

theorem hexLoop_cons (n v : ℕ) {c : ℕ} (hc : IsHex c) (p : List ℕ) :
    hexLoop (n + 1) v (c :: p) = hexLoop n (v * 16 + hexDigit c) p := by
  rw [hexLoop, hexValue_of_isHex hc]
  simp only [shift_or_hexDigit v hc]

theorem hexLoop_succ_ok {n v : ℕ} {p : List ℕ} {y : ℕ × List ℕ} (h : hexLoop (n + 1) v p = .ok y) :
    ∃ c q, p = c :: q ∧ IsHex c ∧ hexLoop n (v * 16 + hexDigit c) q = .ok y := by
  cases p with
  | nil => cases h
  | cons c q =>
    cases hv : hexValue c with
    | none =>
      rw [hexLoop, hv] at h
      cases h
    | some d =>
      have hc := hexValue_some hv
      rw [hexLoop_cons n v hc] at h
      exact ⟨c, q, rfl, hc, h⟩

theorem parseHex4_hex {x : List ℕ} {v : ℕ} (h : Hex4 x v) (r : List ℕ) :
    parseHex4 (x ++ r) = .ok (v, r) := by
  cases h with
  | mk ha hb hc hd =>
    rw [parseHex4, if_neg (by simp)]
    simp only [List.cons_append, List.nil_append]
    rw [hexLoop_cons _ _ ha, hexLoop_cons _ _ hb, hexLoop_cons _ _ hc, hexLoop_cons _ _ hd, hexLoop,
      Nat.zero_mul, Nat.zero_add]

theorem parseHex4_ok {p r : List ℕ} {v : ℕ} (h : parseHex4 p = .ok (v, r)) :
    ∃ x, Hex4 x v ∧ p = x ++ r := by
  unfold parseHex4 at h
  split_ifs at h
  obtain ⟨a, p, rfl, ha, h⟩ := hexLoop_succ_ok h
  obtain ⟨b, p, rfl, hb, h⟩ := hexLoop_succ_ok h
  obtain ⟨c, p, rfl, hc, h⟩ := hexLoop_succ_ok h
  obtain ⟨d, p, rfl, hd, h⟩ := hexLoop_succ_ok h
  cases h
  rw [Nat.zero_mul, Nat.zero_add]
  exact ⟨[a, b, c, d], .mk ha hb hc hd, rfl⟩

theorem hex4_lt {x : List ℕ} {v : ℕ} (h : Hex4 x v) : v < 0x10000 := by
  cases h with
  | mk ha hb hc hd =>
    have := hexDigit_lt ha
    have := hexDigit_lt hb
    have := hexDigit_lt hc
    have := hexDigit_lt hd
    omega

theorem join_eq {l t : ℕ} (hl : IsLead l) (ht : IsTrail t) :
    0x10000 + ((l - 0xd800) <<< 10) + (t - 0xdc00) = join l t := by
  obtain ⟨hl1, hl2⟩ := hl
  obtain ⟨ht1, ht2⟩ := ht
  rw [join, Nat.shiftLeft_eq]
  omega

theorem join_isScalar (l t : ℕ) : IsScalar (join l t) := by
  obtain ⟨h1, h2⟩ := join_bounds l t
  exact ⟨h2, by omega⟩

theorem parseUnicode_unicode {x : List ℕ} {c : ℕ} (h : Hex4 x c) (hs : IsScalar c) (r : List ℕ) :
    parseUnicode (x ++ r) = .ok (encode c, r) := by
  have hsur := hs.2
  have hesc : unicodeEscape c r = .ok (c, r) := by
    unfold unicodeEscape
    rw [if_neg (by omega), if_neg (by omega)]
  simp only [parseUnicode, parseHex4_hex h, ok_bind, hesc, encodeUtf8_eq hs, encode_ne_nil,
    if_false]

theorem parseUnicode_pair {x y : List ℕ} {l t : ℕ} (hx : Hex4 x l) (hy : Hex4 y t)
    (hl : IsLead l) (ht : IsTrail t) (r : List ℕ) :
    parseUnicode (x ++ 0x5c :: 0x75 :: (y ++ r)) = .ok (encode (join l t), r) := by
  have hl' : 0xd800 ≤ l ∧ l ≤ 0xdbff := ⟨hl.1, by have := hl.2; omega⟩
  have ht' : ¬(t < 0xdc00 ∨ 0xdfff < t) := by
    have := ht.1
    have := ht.2
    omega
  have hs := join_isScalar l t
  have hesc : unicodeEscape l (0x5c :: 0x75 :: (y ++ r)) = .ok (join l t, r) := by
    unfold unicodeEscape
    rw [if_pos hl']
    simp only [parseHex4_hex hy, ok_bind, if_neg ht', join_eq hl ht]
  simp only [parseUnicode, parseHex4_hex hx, ok_bind, hesc, encodeUtf8_eq hs, encode_ne_nil,
    if_false]

theorem unicodeEscape_ok {hi v : ℕ} {p r : List ℕ} (hhi : hi < 0x10000)
    (h : unicodeEscape hi p = .ok (v, r)) :
    v = hi ∧ r = p ∧ IsScalar hi
      ∨ ∃ y t, Hex4 y t ∧ IsLead hi ∧ IsTrail t ∧ v = join hi t ∧ p = 0x5c :: 0x75 :: (y ++ r) := by
  unfold unicodeEscape at h
  split_ifs at h with h1 h2
  · split at h
    · rename_i p
      obtain ⟨⟨t, q⟩, hy, ht'⟩ := bind_eq_ok.1 h
      simp only at ht'
      split_ifs at ht' with ht
      simp only [Except.ok.injEq, Prod.mk.injEq] at ht'
      obtain ⟨rfl, rfl⟩ := ht'
      obtain ⟨y, hy4, rfl⟩ := parseHex4_ok hy
      have hl : IsLead hi := ⟨h1.1, by omega⟩
      have ht' : IsTrail t := ⟨by omega, by omega⟩
      exact .inr ⟨y, t, hy4, hl, ht', join_eq hl ht', rfl⟩
    · cases h
  · cases h
    exact .inl ⟨rfl, rfl, by omega, by omega⟩

theorem parseUnicode_ok {p bs r : List ℕ} (h : parseUnicode p = .ok (bs, r)) :
    CharText (0x5c :: 0x75 :: p) bs r := by
  obtain ⟨⟨hi, q⟩, hx, h₁⟩ := bind_eq_ok.1 h
  obtain ⟨⟨cp, q'⟩, he, h₂⟩ := bind_eq_ok.1 h₁
  simp only at he h₂
  split_ifs at h₂
  cases h₂
  obtain ⟨x, hx4, rfl⟩ := parseHex4_ok hx
  rcases unicodeEscape_ok (hex4_lt hx4) he with ⟨rfl, rfl, hs⟩ | ⟨y, t, hy, hl, ht, rfl, rfl⟩
  · rw [encodeUtf8_eq hs]
    exact .unicode hx4 hs
  · rw [encodeUtf8_eq (join_isScalar _ _)]
    exact .pair hx4 hy hl ht

theorem simpleEscape_eq (c : ℕ) : simpleEscape c = shortEscape c := rfl

theorem parseEscape_ok {p bs r : List ℕ} (h : parseEscape p = .ok (bs, r)) :
    CharText (0x5c :: p) bs r := by
  cases p with
  | nil => cases h
  | cons c p =>
    rw [parseEscape, simpleEscape_eq] at h
    cases hc : shortEscape c with
    | some d =>
      rw [hc] at h
      cases h
      exact .short hc
    | none =>
      rw [hc] at h
      simp only at h
      split_ifs at h with hu
      subst hu
      exact parseUnicode_ok h

/-- The first byte of a code point. -/
theorem encode_eq_cons (c : ℕ) : ∃ b bs, encode c = b :: bs ∧ (c < 0x80 ∧ b = c ∧ bs = []
    ∨ 0x80 ≤ c ∧ 0x80 ≤ b) := by
  unfold encode
  split_ifs with h1 h2 h3
  · exact ⟨_, _, rfl, .inl ⟨h1, rfl, rfl⟩⟩
  · exact ⟨_, _, rfl, .inr ⟨by omega, by omega⟩⟩
  · exact ⟨_, _, rfl, .inr ⟨by omega, by omega⟩⟩
  · exact ⟨_, _, rfl, .inr ⟨by omega, by omega⟩⟩

theorem parseEscape_complete {p bs r : List ℕ} (h : CharText (0x5c :: p) bs r) :
    parseEscape p = .ok (bs, r) := by
  generalize hi : 0x5c :: p = i at h
  cases h with
  | @unescaped c r h hs hq hb =>
    obtain ⟨b, bs, he, hb'⟩ := encode_eq_cons c
    rw [he, List.cons_append, List.cons.injEq] at hi
    omega
  | short h =>
    cases hi
    rw [parseEscape, simpleEscape_eq, h]
  | unicode h hs =>
    cases hi
    exact parseUnicode_unicode h hs _
  | pair hx hy hl ht =>
    cases hi
    exact parseUnicode_pair hx hy hl ht _

/-! ### Characters -/

theorem isStrSafeByte_iff {c : ℕ} :
    isStrSafeByte c = true ↔ 0x20 ≤ c ∧ c < 0x80 ∧ c ≠ 0x22 ∧ c ≠ 0x5c := by
  simp [isStrSafeByte, and_assoc]

theorem encode_ascii {c : ℕ} (h : c < 0x80) : encode c = [c] := by rw [encode, if_pos h]

theorem charText_safe {c : ℕ} (h : isStrSafeByte c = true) (r : List ℕ) :
    CharText (c :: r) [c] r := by
  obtain ⟨h1, h2, h3, h4⟩ := isStrSafeByte_iff.1 h
  have hchar := CharText.unescaped (r := r) h1 ⟨by omega, by omega⟩ h3 h4
  rwa [encode_ascii h2] at hchar

theorem charText_of_safe {c : ℕ} {i b j : List ℕ} (h : isStrSafeByte c = true)
    (hc : CharText (c :: i) b j) : b = [c] ∧ j = i := by
  obtain ⟨-, h2, -, h4⟩ := isStrSafeByte_iff.1 h
  generalize hi : c :: i = k at hc
  cases hc with
  | @unescaped d r h hs hq hb =>
    obtain ⟨x, xs, he, hx⟩ := encode_eq_cons d
    rw [he] at hi ⊢
    rw [List.cons_append, List.cons.injEq] at hi
    rcases hx with ⟨-, rfl, rfl⟩ | ⟨-, hx⟩
    · exact ⟨by rw [hi.1], hi.2.symm⟩
    · omega
  | _ => exact absurd (List.cons.inj hi).1 h4

/-- A character that is no plain byte starts with a backslash or is encoded in more bytes. -/
theorem charText_not_safe {c : ℕ} {i b j : List ℕ} (h : ¬ isStrSafeByte c = true)
    (hc : CharText (c :: i) b j) : c = 0x5c ∨ 0x80 ≤ c ∧ ∃ d, 0x80 ≤ d ∧ IsScalar d ∧ b = encode d
      ∧ c :: i = encode d ++ j := by
  generalize hi : c :: i = k at hc
  cases hc with
  | @unescaped d r h' hs hq hb =>
    right
    obtain ⟨x, xs, he, hx⟩ := encode_eq_cons d
    have hi' := hi
    rw [he, List.cons_append, List.cons.injEq] at hi'
    rcases hx with ⟨hlt, rfl, rfl⟩ | ⟨hd, hx⟩
    · rw [isStrSafeByte_iff] at h
      omega
    · exact ⟨by omega, d, hd, hs, rfl, rfl⟩
  | _ => exact .inl (List.cons.inj hi).1

theorem CharsText.trans' {i j r b b' : List ℕ} (h : CharsText i b j) (h' : CharsText j b' r) :
    CharsText i (b ++ b') r := by
  induction h with
  | nil => exact h'
  | cons hc _ ih =>
    rw [List.append_assoc]
    exact .cons hc (ih h')

/-- The plain bytes in front stand for themselves. -/
theorem charsText_takeWhile : ∀ i : List ℕ,
    CharsText i (i.takeWhile isStrSafeByte) (i.dropWhile isStrSafeByte)
  | [] => .nil []
  | c :: i => by
    rw [List.takeWhile_cons, List.dropWhile_cons]
    split_ifs with h
    · exact .cons (charText_safe h i) (charsText_takeWhile i)
    · exact .nil _

/-- A string starts with its plain bytes. -/
theorem charsText_run {i bs r : List ℕ} (h : CharsText i bs (0x22 :: r)) :
    ∃ bs', bs = i.takeWhile isStrSafeByte ++ bs'
      ∧ CharsText (i.dropWhile isStrSafeByte) bs' (0x22 :: r) := by
  generalize hq : 0x22 :: r = q at h ⊢
  induction h with
  | nil r' =>
    subst hq
    exact ⟨[], rfl, .nil _⟩
  | @cons i j r' b bs hc h ih =>
    obtain ⟨bs', rfl, hrest⟩ := ih hq
    cases i with
    | nil => exact ⟨_, rfl, .cons hc h⟩
    | cons c i =>
      by_cases hs : isStrSafeByte c = true
      · obtain ⟨rfl, rfl⟩ := charText_of_safe hs hc
        refine ⟨bs', ?_, ?_⟩
        · rw [List.takeWhile_cons, if_pos hs]
          rfl
        · rwa [List.dropWhile_cons, if_pos hs]
      · refine ⟨b ++ (j.takeWhile isStrSafeByte ++ bs'), ?_, ?_⟩
        · rw [List.takeWhile_cons, if_neg hs, List.nil_append]
        · rw [List.dropWhile_cons, if_neg hs]
          exact .cons hc h

/-! ### The span -/

/-- A character is at least as long as its bytes. -/
theorem charText_length {i b j : List ℕ} (h : CharText i b j) :
    0 < b.length ∧ b.length + j.length ≤ i.length := by
  have hlen : ∀ c, 0 < (encode c).length ∧ (encode c).length ≤ 4 := encode_length
  have hhex : ∀ {x : List ℕ} {v : ℕ}, Hex4 x v → x.length = 4 := by
    intro x v hx
    cases hx
    rfl
  cases h with
  | @unescaped c r h hs hq hb =>
    rw [List.length_append]
    exact ⟨(hlen c).1, le_rfl⟩
  | short h =>
    simp only [List.length_cons, List.length_nil]
    omega
  | @unicode x r c h hs =>
    have := hlen c
    simp only [List.length_cons, List.length_append, hhex h]
    omega
  | @pair x y r l t hx hy hl ht =>
    have := hlen (join l t)
    simp only [List.length_cons, List.length_append, hhex hx, hhex hy]
    omega

theorem charsText_length {i bs r : List ℕ} (h : CharsText i bs r) :
    bs.length + r.length ≤ i.length := by
  induction h with
  | nil => simp
  | cons hc _ ih =>
    have := (charText_length hc).2
    rw [List.length_append]
    omega

theorem charText_suffix {i b j : List ℕ} (h : CharText i b j) : j <:+ i := by
  cases h with
  | unescaped => exact List.suffix_append _ _
  | short => exact ⟨[_, _], rfl⟩
  | @unicode x r c => exact ⟨0x5c :: 0x75 :: x, rfl⟩
  | @pair x y r => exact ⟨0x5c :: 0x75 :: (x ++ 0x5c :: 0x75 :: y), by simp⟩

theorem charsText_suffix {i bs r : List ℕ} (h : CharsText i bs r) : r <:+ i := by
  induction h with
  | nil => exact List.suffix_rfl
  | cons hc _ ih => exact ih.trans (charText_suffix hc)

theorem preScan_plain : ∀ (n : ℕ) (bs r : List ℕ), (∀ b ∈ bs, b ≠ 0x22 ∧ b ≠ 0x5c) →
    preScan n (bs ++ r) = preScan (n + bs.length) r
  | n, [], r, _ => rfl
  | n, b :: bs, r, h => by
    obtain ⟨hb, hbs⟩ := List.forall_mem_cons.1 h
    rw [List.cons_append, preScan.eq_def]
    simp only [hb.1, hb.2, if_false]
    rw [preScan_plain (n + 1) bs r hbs, List.length_cons]
    congr 1
    omega

theorem preScan_escape (n c : ℕ) (p : List ℕ) : preScan n (0x5c :: c :: p) = preScan (n + 2) p := by
  rw [preScan.eq_def]
  simp

theorem encode_plain {c : ℕ} (hq : c ≠ 0x22) (hb : c ≠ 0x5c) :
    ∀ b ∈ encode c, b ≠ 0x22 ∧ b ≠ 0x5c := by
  unfold encode
  split_ifs <;> simp only [List.mem_cons, List.not_mem_nil, or_false, forall_eq_or_imp, forall_eq]
    <;> omega

theorem hex4_plain {x : List ℕ} {v : ℕ} (h : Hex4 x v) : ∀ b ∈ x, b ≠ 0x22 ∧ b ≠ 0x5c := by
  have hhex : ∀ {c : ℕ}, IsHex c → c ≠ 0x22 ∧ c ≠ 0x5c := by
    intro c hc
    unfold IsHex IsDigit at hc
    omega
  cases h with
  | mk ha hb hc hd =>
    simp only [List.forall_mem_cons]
    exact ⟨hhex ha, hhex hb, hhex hc, hhex hd, by simp⟩

/-- The span goes on after a character. -/
theorem preScan_char {i b j : List ℕ} (h : CharText i b j) (n : ℕ) :
    preScan n i = preScan (n + (i.length - j.length)) j := by
  cases h with
  | @unescaped c r h hs hq hb =>
    rw [preScan_plain n _ _ (encode_plain hq hb)]
    simp
  | short h =>
    rw [preScan_escape]
    simp only [List.length_cons]
    congr 1
    omega
  | unicode h hs =>
    rw [preScan_escape, preScan_plain _ _ _ (hex4_plain h)]
    simp only [List.length_cons, List.length_append]
    congr 1
    omega
  | pair hx hy hl ht =>
    rw [preScan_escape, preScan_plain _ _ _ (hex4_plain hx), preScan_escape,
      preScan_plain _ _ _ (hex4_plain hy)]
    simp only [List.length_cons, List.length_append]
    congr 1
    omega

theorem preScan_chars {i bs r : List ℕ} (h : CharsText i bs (0x22 :: r)) :
    ∀ n, preScan n i = .ok (n + (i.length - (r.length + 1))) := by
  generalize hq : 0x22 :: r = q at h
  induction h with
  | nil r' =>
    intro n
    subst hq
    rw [preScan.eq_def]
    simp
  | @cons i j r' b bs hc h ih =>
    intro n
    have h1 := (charText_length hc).2
    have h2 := charsText_length h
    subst hq
    rw [List.length_cons] at h2
    rw [preScan_char hc, ih rfl]
    congr 1
    omega

/-! ### The loop -/

theorem putBytes_ok {span : ℕ} {dst bs : List ℕ} (h : dst.length + bs.length ≤ span + 1) :
    putBytes span dst bs = .ok (dst ++ bs) := by
  rw [putBytes, if_pos (by rwa [List.length_append])]

theorem putBytes_eq {span : ℕ} {dst bs dst' : List ℕ} (h : putBytes span dst bs = .ok dst') :
    dst' = dst ++ bs := by
  unfold putBytes at h
  split_ifs at h
  cases h
  rfl

theorem parseUtf8_encode {c : ℕ} (hc : 0x80 ≤ c) (hs : IsScalar c) (r : List ℕ) :
    parseUtf8 (encode c ++ r) = .ok (encode c, r) := by
  unfold parseUtf8
  rw [show utf8Accept = 0 from rfl, utf8Loop_encode hc hs]
  simp

theorem parseUtf8_ok {c : ℕ} {p bs r : List ℕ} (hc : 0x80 ≤ c) (hp : Bytes (c :: p))
    (h : parseUtf8 (c :: p) = .ok (bs, r)) : CharText (c :: p) bs r := by
  unfold parseUtf8 at h
  generalize hl : utf8Loop utf8Accept 0 (c :: p) = t at h
  obtain ⟨st, q⟩ := t
  simp only at h
  split_ifs at h with hst
  rw [not_not] at hst
  subst hst
  obtain ⟨d, hd, hs, he⟩ := utf8Loop_accept hc hp hl
  cases h
  rw [he]
  simp only [List.length_append, Nat.add_sub_cancel, List.take_left]
  exact .unescaped (by omega) hs (by omega) (by omega)

section Loop

variable {sc : Scanner} {span : ℕ}

theorem take_scanStrSafe {p : List ℕ} (hp : Bytes p) :
    p.take (scanStrSafe sc p) = p.takeWhile isStrSafeByte := by
  rw [scanStrSafe_eq sc hp]
  nth_rewrite 2 [← List.takeWhile_append_dropWhile (p := isStrSafeByte) (l := p)]
  exact List.take_left

theorem drop_scanStrSafe {p : List ℕ} (hp : Bytes p) :
    p.drop (scanStrSafe sc p) = p.dropWhile isStrSafeByte := by
  rw [scanStrSafe_eq sc hp]
  nth_rewrite 2 [← List.takeWhile_append_dropWhile (p := isStrSafeByte) (l := p)]
  exact List.drop_left

/-- One turn of the loop. -/
theorem stringLoop_succ (fuel : ℕ) {dst p : List ℕ} (hp : Bytes p) :
    stringLoop sc span (fuel + 1) dst p = (do
      let dst ← putBytes span dst (p.takeWhile isStrSafeByte)
      match p.dropWhile isStrSafeByte with
      | [] => .error (.error "unterminated string" [])
      | c :: p =>
        if c = 0x22 then
          let _ ← putBytes span dst [0]
          .ok (dst, p)
        else if c = 0x5c then
          let (bs, p) ← parseEscape p
          let dst ← putBytes span dst bs
          stringLoop sc span fuel dst p
        else if c < 0x20 then
          .error (.error "control character U+%04X must be escaped" [c])
        else
          let (bs, p) ← parseUtf8 (c :: p)
          let dst ← putBytes span dst bs
          stringLoop sc span fuel dst p) := by
  rw [stringLoop, take_scanStrSafe hp, drop_scanStrSafe hp] <;> rfl

theorem dropWhile_not {c : ℕ} {p q : List ℕ} (h : p.dropWhile isStrSafeByte = c :: q) :
    ¬ isStrSafeByte c = true := by
  have hhead := List.head?_dropWhile_not isStrSafeByte p
  rw [h] at hhead
  simpa using hhead

/-- What the loop takes are the characters of a string. -/
theorem stringLoop_sound : ∀ {fuel : ℕ} {dst p out r : List ℕ}, Bytes p →
    stringLoop sc span fuel dst p = .ok (out, r) →
    ∃ bs, CharsText p bs (0x22 :: r) ∧ out = dst ++ bs
  | 0, _, _, _, _, _, h => by cases h
  | fuel + 1, dst, p, out, r, hp, h => by
    have hrun := charsText_takeWhile p
    rw [stringLoop_succ fuel hp] at h
    obtain ⟨dst₁, hdst₁, h⟩ := bind_eq_ok.1 h
    obtain rfl := putBytes_eq hdst₁
    have hq : Bytes (p.dropWhile isStrSafeByte) := hp.suffix (List.dropWhile_suffix _)
    cases hd : p.dropWhile isStrSafeByte with
    | nil =>
      rw [hd] at h
      cases h
    | cons c q =>
      rw [hd] at h hrun hq
      simp only at h
      split_ifs at h with h1 h2 h3
      · obtain ⟨_, -, h⟩ := bind_eq_ok.1 h
        cases h
        subst h1
        exact ⟨_, hrun, rfl⟩
      · obtain ⟨⟨bs, q'⟩, hesc, h⟩ := bind_eq_ok.1 h
        obtain ⟨dst₂, hdst₂, h⟩ := bind_eq_ok.1 h
        obtain rfl := putBytes_eq hdst₂
        subst h2
        have hchar := parseEscape_ok hesc
        obtain ⟨bs', hrest, rfl⟩ := stringLoop_sound (hq.suffix (charText_suffix hchar)) h
        refine ⟨_, CharsText.trans' hrun (.cons hchar hrest), ?_⟩
        simp only [List.append_assoc]
      · have hns := dropWhile_not hd
        rw [isStrSafeByte_iff] at hns
        obtain ⟨⟨bs, q'⟩, hutf, h⟩ := bind_eq_ok.1 h
        obtain ⟨dst₂, hdst₂, h⟩ := bind_eq_ok.1 h
        obtain rfl := putBytes_eq hdst₂
        have hchar := parseUtf8_ok (by omega) hq hutf
        obtain ⟨bs', hrest, rfl⟩ := stringLoop_sound (hq.suffix (charText_suffix hchar)) h
        refine ⟨_, CharsText.trans' hrun (.cons hchar hrest), ?_⟩
        simp only [List.append_assoc]

/-- The loop takes the characters of a string that fits the buffer. -/
theorem stringLoop_complete : ∀ {fuel : ℕ} {dst p bs r : List ℕ}, Bytes p →
    CharsText p bs (0x22 :: r) → p.length < fuel → dst.length + bs.length ≤ span →
    stringLoop sc span fuel dst p = .ok (dst ++ bs, r)
  | 0, _, _, _, _, _, _, h, _ => absurd h (Nat.not_lt_zero _)
  | fuel + 1, dst, p, bs, r, hp, h, hf, hroom => by
    obtain ⟨bs', rfl, hrest⟩ := charsText_run h
    have hq : Bytes (p.dropWhile isStrSafeByte) := hp.suffix (List.dropWhile_suffix _)
    have hlen : (p.dropWhile isStrSafeByte).length ≤ p.length :=
      (List.dropWhile_suffix _).length_le
    rw [List.length_append] at hroom
    rw [stringLoop_succ fuel hp, putBytes_ok (by omega), ok_bind]
    generalize hd : p.dropWhile isStrSafeByte = q at hrest hq hlen
    generalize p.takeWhile isStrSafeByte = run at hroom
    generalize hend : 0x22 :: r = e at hrest
    cases hrest with
    | nil =>
      subst hend
      simp only [if_true, List.append_nil]
      rw [putBytes_ok (by simp at hroom ⊢; omega)]
      rfl
    | @cons _ j _ b bs hc hcs =>
      obtain ⟨hb, hbj⟩ := charText_length hc
      cases q with
      | nil =>
        rw [List.length_nil] at hbj
        omega
      | cons c q =>
        have hns := dropWhile_not hd
        have hj : Bytes j := hq.suffix (charText_suffix hc)
        subst hend
        rw [List.length_append] at hroom
        have hjf : j.length < fuel := by omega
        have hjroom : (dst ++ run ++ b).length + bs.length ≤ span := by
          simp only [List.length_append]
          omega
        have ih := stringLoop_complete hj hcs hjf hjroom
        simp only
        rcases charText_not_safe hns hc with rfl | ⟨hc80, d, hd80, hds, rfl, he⟩
        · rw [if_neg (by norm_num), if_pos rfl, parseEscape_complete hc]
          simp only [ok_bind]
          rw [putBytes_ok (by simp only [List.length_append]; omega), ok_bind, ih]
          simp only [List.append_assoc]
        · rw [if_neg (by omega), if_neg (by omega), if_neg (by omega), he, parseUtf8_encode hd80 hds]
          simp only [ok_bind]
          rw [putBytes_ok (by simp only [List.length_append]; omega), ok_bind, ih]
          simp only [List.append_assoc]

end Loop

theorem parseStringRaw_sound {sc : Scanner} {p data r : List ℕ} {len : ℕ} (hp : Bytes p)
    (h : parseStringRaw sc p = .ok ((data, len), r)) :
    ∃ i, p = 0x22 :: i ∧ CharsText i data (0x22 :: r) := by
  unfold parseStringRaw at h
  split_ifs at h with hq
  rw [not_not] at hq
  obtain ⟨span, -, h⟩ := bind_eq_ok.1 h
  obtain ⟨⟨dst, q⟩, hl, h⟩ := bind_eq_ok.1 h
  have hcons := peek_eq_cons hq (by norm_num)
  rw [hcons] at hp
  obtain ⟨bs, hbs, rfl⟩ := stringLoop_sound hp.tail hl
  cases h
  exact ⟨p.tail, hcons, hbs⟩

/-- A string is decoded, and its length is cut to 32 bits. -/
theorem parseStringRaw_complete (sc : Scanner) {i bs r : List ℕ} (hi : Bytes i)
    (h : CharsText i bs (0x22 :: r)) :
    parseStringRaw sc (0x22 :: i) = .ok ((bs, bs.length % 2 ^ 32), r) := by
  have hlen := charsText_length h
  rw [List.length_cons] at hlen
  have hspan := preScan_chars h 0
  have hloop : stringLoop sc (i.length - (r.length + 1)) (i.length + 1 + 1) [] i
      = .ok ([] ++ bs, r) :=
    stringLoop_complete hi h (by omega) (by rw [List.length_nil]; omega)
  rw [Nat.zero_add] at hspan
  unfold parseStringRaw
  rw [if_neg (by simp [peek]), List.tail_cons, hspan, ok_bind, List.length_cons, hloop]
  rfl

end Aether

end Qjs
