import Qjs.Str

/-!
# Reading and writing UTF-8

The byte routines agree with the encoding of `Wtf8`: what is written is `encode`
(`unicodeToUtf8_eq`), what is read at the first byte of a code point is that code point
(`utf8Get_encode`), and the tests for surrogates at the two sides of a seam see the code points
there (`isUtf8LeftSurrogate_seam`, `isUtf8RightSurrogate_seam`).
-/

namespace Qjs

open Wtf8

/-! ### Bits -/

theorem and_mask (x : ℕ) : x &&& 0x3f = x % 0x40 := Nat.and_two_pow_sub_one_eq_mod x 6

theorem or_tail {x : ℕ} (h : x < 0x40) : x ||| 0x80 = 0x80 + x := by
  rw [Nat.or_comm]
  exact (Nat.two_pow_add_eq_or_of_lt (i := 7) (by omega) 1).symm

theorem or_shift {x k n : ℕ} (h : x < 2 ^ k) : (n <<< k) ||| x = n * 2 ^ k + x := by
  rw [← Nat.shiftLeft_add_eq_or_of_lt h, Nat.shiftLeft_eq]

theorem unicodeToUtf8_eq {c : ℕ} (hc : c < 0x110000) : unicodeToUtf8 c = encode c := by
  have h6 : c >>> 6 = c / 0x40 := Nat.shiftRight_eq_div_pow c 6
  have h12 : c >>> 12 = c / 0x1000 := Nat.shiftRight_eq_div_pow c 12
  have h18 : c >>> 18 = c / 0x40000 := Nat.shiftRight_eq_div_pow c 18
  unfold unicodeToUtf8 encode
  simp only [and_mask, h6, h12, h18]
  rw [or_tail (Nat.mod_lt c (by norm_num)), or_tail (Nat.mod_lt (c / 0x40) (by norm_num)),
    or_tail (Nat.mod_lt (c / 0x1000) (by norm_num))]
  split_ifs with h1 h2 h3 h4
  · rfl
  · have : c / 0x40 ||| 0xc0 = 0xc0 + c / 0x40 := by
      rw [Nat.or_comm]
      exact (Nat.two_pow_add_eq_or_of_lt (i := 6) (by omega) 3).symm
    rw [this]
  · have : c / 0x1000 ||| 0xe0 = 0xe0 + c / 0x1000 := by
      rw [Nat.or_comm]
      exact (Nat.two_pow_add_eq_or_of_lt (i := 5) (by omega) 7).symm
    rw [this]
  · have : c / 0x40000 ||| 0xf0 = 0xf0 + c / 0x40000 := by
      rw [Nat.or_comm]
      exact (Nat.two_pow_add_eq_or_of_lt (i := 4) (by omega) 15).symm
    rw [this]
  · omega

/-! ### At the start of a code point -/

variable {c : ℕ} {rest : List ℕ}

theorem byteAt_drop (p : List ℕ) (i k : ℕ) : byteAt (p.drop i) k = byteAt p (i + k) := by
  simp [byteAt]

/-- The first byte tells how many there are. -/
theorem utf8CharLen_encode (hc : c < 0x110000) (rest : List ℕ) :
    utf8CharLen (byteAt (encode c ++ rest) 0) = (encode c).length := by
  unfold encode
  split_ifs with h1 h2 h3 <;>
    simp only [byteAt, List.cons_append, List.nil_append, List.getD_cons_zero, List.length_cons,
      List.length_nil, utf8CharLen]
  · rw [if_pos h1]
  · rw [if_neg (by omega), if_neg (by omega), if_pos (by omega)]
  · rw [if_neg (by omega), if_neg (by omega), if_neg (by omega), if_pos (by omega)]
  · rw [if_neg (by omega), if_neg (by omega), if_neg (by omega), if_neg (by omega),
      if_pos (by omega)]

theorem utf8Get_encode (hc : c < 0x110000) (rest : List ℕ) : utf8Get (encode c ++ rest) = c := by
  have m5 : ∀ x : ℕ, x &&& 0x1f = x % 0x20 := fun x => Nat.and_two_pow_sub_one_eq_mod x 5
  have m4 : ∀ x : ℕ, x &&& 0x0f = x % 0x10 := fun x => Nat.and_two_pow_sub_one_eq_mod x 4
  have m3 : ∀ x : ℕ, x &&& 0x07 = x % 0x08 := fun x => Nat.and_two_pow_sub_one_eq_mod x 3
  unfold encode
  split_ifs with h1 h2 h3 <;>
    simp only [utf8Get, byteAt, List.cons_append, List.nil_append, List.getD_cons_zero,
      List.getD_cons_succ, and_mask, m5, m4, m3]
  · rw [if_pos (by omega)]
  · rw [if_neg (by omega), if_pos (by omega), or_shift (by omega)]
    omega
  · rw [if_neg (by omega), if_neg (by omega), if_pos (by omega), Nat.or_assoc,
      or_shift (k := 6) (by omega), or_shift (by omega)]
    omega
  · rw [if_neg (by omega), if_neg (by omega), if_neg (by omega), if_pos (by omega), Nat.or_assoc,
      Nat.or_assoc, or_shift (k := 6) (by omega), or_shift (k := 12) (by omega),
      or_shift (by omega)]
    omega

theorem encode_length_eq_four (hc : 0x10000 ≤ c) : (encode c).length = 4 := by
  rw [encode, if_neg (by omega), if_neg (by omega), if_neg (by omega)]
  rfl

theorem encode_length_lt_four (hc : c < 0x10000) : (encode c).length < 4 := by
  unfold encode
  split_ifs <;> simp

/-- Four bytes are always a code point above the 16-bit range. -/
theorem isValidLen4Utf8_encode (h : 0x10000 ≤ c) (hc : c < 0x110000) (rest : List ℕ) :
    isValidLen4Utf8 (encode c ++ rest) = true := by
  have m4 : ∀ x : ℕ, x &&& 0x0f = x % 0x10 := fun x => Nat.and_two_pow_sub_one_eq_mod x 4
  rw [encode, if_neg (by omega), if_neg (by omega), if_neg (by omega)]
  simp only [isValidLen4Utf8, byteAt, List.cons_append, List.nil_append, List.getD_cons_zero,
    List.getD_cons_succ, and_mask, m4, decide_eq_true_eq]
  rw [or_shift (by omega)]
  omega

/-- The test the scans make: whether a code point has two units. -/
theorem isPair_iff (hc : c < 0x110000) (rest : List ℕ) :
    ((encode c).length = 4 ∧ isValidLen4Utf8 (encode c ++ rest) = true) ↔ 0x10000 ≤ c := by
  constructor
  · rintro ⟨h, -⟩
    by_contra hlt
    have := encode_length_lt_four (not_le.1 hlt)
    omega
  · intro h
    exact ⟨encode_length_eq_four h, isValidLen4Utf8_encode h hc rest⟩

/-! ### Seams -/

theorem byteAt_append_left {p q : List ℕ} {i : ℕ} (h : i < p.length) :
    byteAt (p ++ q) i = byteAt p i := by
  rw [byteAt, byteAt, List.getD_append _ _ _ _ h]

theorem byteAt_append_right (p q : List ℕ) (k : ℕ) : byteAt (p ++ q) (p.length + k) = byteAt q k := by
  rw [byteAt, byteAt, List.getD_append_right _ _ _ _ (by omega)]
  congr 1
  omega

/-- The first two bytes of a code point, tested for a range of the surrogates. -/
theorem surrogate_bytes (hc : c < 0x110000) (rest : List ℕ) (lo hi : ℕ) (hlo : 0xa0 ≤ lo)
    (hhi : hi ≤ 0xbf) :
    (byteAt (encode c ++ rest) 0 = 0xed ∧ lo ≤ byteAt (encode c ++ rest) 1
        ∧ byteAt (encode c ++ rest) 1 ≤ hi)
      ↔ 0xd000 + (lo - 0x80) * 0x40 ≤ c ∧ c < 0xd000 + (hi - 0x80 + 1) * 0x40 := by
  unfold encode
  split_ifs with h1 h2 h3 <;>
    simp only [byteAt, List.cons_append, List.nil_append, List.getD_cons_zero,
      List.getD_cons_succ] <;> omega

theorem isUtf8RightSurrogate_seam {ds : List ℕ} (hd : CodePoints ds) :
    isUtf8RightSurrogate (encodeAll ds) = true ↔ ∃ t rest, ds = t :: rest ∧ IsTrail t := by
  cases ds with
  | nil => simp [isUtf8RightSurrogate, byteAt]
  | cons d ds =>
    have h := surrogate_bytes (hd.lt d List.mem_cons_self) (encodeAll ds) 0xb0 0xbf (by norm_num)
      (by norm_num)
    rw [isUtf8RightSurrogate, encodeAll_cons, Bool.and_eq_true, Bool.and_eq_true, beq_iff_eq,
      decide_eq_true_eq, decide_eq_true_eq, h]
    constructor
    · intro h'
      exact ⟨d, ds, rfl, by omega, by omega⟩
    · rintro ⟨t, rest, he, h1, h2⟩
      obtain ⟨rfl, -⟩ := List.cons.inj he
      omega

/-- A string ends with an ASCII or a continuation byte. -/
theorem byteAt_last_lt : ∀ (cs : List ℕ), (∀ d ∈ cs, d < 0x110000) →
    byteAt (encodeAll cs) ((encodeAll cs).length - 1) < 0xc0
  | [], _ => by simp [byteAt]
  | [d], h => by
    have hd := h d List.mem_cons_self
    simp only [encodeAll_cons, encodeAll_nil, List.append_nil]
    unfold encode
    split_ifs <;> simp [byteAt] <;> omega
  | d :: e :: cs, h => by
    have ih := byteAt_last_lt (e :: cs) fun x hx => h x (List.mem_cons_of_mem d hx)
    have he := (encode_length e).1
    rw [encodeAll_cons, List.length_append]
    have hlen : (encode d).length + (encodeAll (e :: cs)).length - 1
        = (encode d).length + ((encodeAll (e :: cs)).length - 1) := by
      simp only [encodeAll_cons, List.length_append]
      omega
    rw [hlen, byteAt_append_right]
    exact ih

/-- Before its last byte, a string that ends with a continuation byte has no byte of three. -/
theorem byteAt_before_last {cs : List ℕ} (hc : ∀ d ∈ cs, d < 0x110000)
    (h2 : 2 ≤ (encodeAll cs).length)
    (h : byteAt (encodeAll cs) ((encodeAll cs).length - 2) = 0xed) :
    byteAt (encodeAll cs) ((encodeAll cs).length - 1) < 0x80 := by
  rcases List.eq_nil_or_concat cs with rfl | ⟨init, d, rfl⟩
  · simp at h2
  have hd := hc d (by simp)
  simp only [List.concat_eq_append, encodeAll_append, encodeAll_cons, encodeAll_nil,
    List.append_nil, List.length_append] at *
  have hk : ∀ k, 1 ≤ k → k ≤ (encode d).length →
      byteAt (encodeAll init ++ encode d) ((encodeAll init).length + (encode d).length - k)
        = byteAt (encode d) ((encode d).length - k) := by
    intro k h1 h2
    rw [show (encodeAll init).length + (encode d).length - k
      = (encodeAll init).length + ((encode d).length - k) by omega, byteAt_append_right]
  have hlen := (encode_length d).1
  rw [hk 1 le_rfl hlen]
  by_cases hl : 2 ≤ (encode d).length
  · rw [hk 2 (by omega) hl] at h
    unfold encode at h
    split_ifs at h <;> simp [byteAt] at h <;> omega
  · have h1 : (encode d).length = 1 := by omega
    unfold encode at h1 ⊢
    split_ifs at h1 ⊢ <;> simp [byteAt] at h1 ⊢
    assumption

theorem isUtf8LeftSurrogate_seam {cs : List ℕ} (hc : CodePoints cs)
    (h3 : 3 ≤ (encodeAll cs).length) :
    isUtf8LeftSurrogate ((encodeAll cs).drop ((encodeAll cs).length - 3)) = true
      ↔ ∃ init l, cs = init ++ [l] ∧ IsLead l := by
  rcases List.eq_nil_or_concat cs with rfl | ⟨init, d, rfl⟩
  · simp at h3
  have hd := hc.lt d (by simp)
  have hinit : ∀ x ∈ init, x < 0x110000 := fun x hx => hc.lt x (by simp [hx])
  have hiff : (∃ init' l, init.concat d = init' ++ [l] ∧ IsLead l) ↔ IsLead d := by
    constructor
    · rintro ⟨init', l, he, hl⟩
      rw [List.concat_eq_append] at he
      have := List.append_inj_right' he rfl
      simp only [List.cons.injEq, and_true] at this
      exact this ▸ hl
    · intro hl
      exact ⟨init, d, List.concat_eq_append .., hl⟩
  rw [hiff]
  simp only [List.concat_eq_append, encodeAll_append, encodeAll_cons, encodeAll_nil,
    List.append_nil, List.length_append] at *
  simp only [isUtf8LeftSurrogate, byteAt_drop, Bool.and_eq_true, beq_iff_eq, decide_eq_true_eq]
  have hlast := byteAt_last_lt init hinit
  have hrange : 0xd000 ≤ d → d < 0xe000 → (encode d).length = 3 := by
    intro h1 h2
    rw [encode, if_neg (by omega), if_neg (by omega), if_pos (by omega)]
    rfl
  rcases Nat.lt_or_ge (encode d).length 3 with hl | hl
  · -- one or two bytes: what lies three bytes back is not the start of three
    have hno : ¬IsLead d := fun h => by
      have := hrange (by have := h.1; omega) (by have := h.2; omega)
      omega
    refine iff_of_false ?_ hno
    rintro ⟨he, hlo, hhi⟩
    have hpos := (encode_length d).1
    rcases Nat.lt_or_ge (encode d).length 2 with h1 | h2
    · rw [byteAt_append_left (by omega)] at he hlo
      have he' : byteAt (encodeAll init) ((encodeAll init).length - 2) = 0xed := by
        rw [← he]
        congr 1
        omega
      have := byteAt_before_last hinit (by omega) he'
      rw [show (encodeAll init).length + (encode d).length - 3 + 1
        = (encodeAll init).length - 1 by omega] at hlo
      omega
    · rw [byteAt_append_left (by omega)] at he
      rw [show (encodeAll init).length + (encode d).length - 3 + 0
        = (encodeAll init).length - 1 by omega] at he
      omega
  · rw [show (encodeAll init).length + (encode d).length - 3 + 0
        = (encodeAll init).length + ((encode d).length - 3) by omega,
      show (encodeAll init).length + (encode d).length - 3 + 1
        = (encodeAll init).length + ((encode d).length - 3 + 1) by omega,
      byteAt_append_right, byteAt_append_right]
    have h4 := (encode_length d).2
    rcases Nat.lt_or_ge (encode d).length 4 with hl3 | hl4
    · have h := surrogate_bytes hd [] 0xa0 0xaf (by norm_num) (by norm_num)
      rw [List.append_nil] at h
      rw [show (encode d).length - 3 = 0 by omega, h, IsLead]
    · have hno : ¬IsLead d := fun h => by
        have := hrange (by have := h.1; omega) (by have := h.2; omega)
        omega
      refine iff_of_false ?_ hno
      rintro ⟨he, -, -⟩
      rw [show (encode d).length - 3 = 1 by omega] at he
      have h10 : 0x10000 ≤ d := by
        by_contra hlt
        have := encode_length_lt_four (not_le.1 hlt)
        omega
      rw [encode, if_neg (by omega), if_neg (by omega), if_neg (by omega)] at he
      simp only [byteAt, List.getD_cons_zero, List.getD_cons_succ] at he
      omega

end Qjs
