import Qjs.Stringify
import Qjs.Proofs.JsonLex

/-!
# Strings and keys as text

A property key is made from its text again (`toPropertyKey_keyText`), and what
`js_to_quoted_string` writes is read back as the string (`jsParseString_quoted`).
-/

namespace Qjs

namespace Json

open Wtf8 JsonText

/-! ### Integer keys -/

/-- The value of the text of digits, from `a` on. -/
def digitsValue (a : ℕ) (ds : List ℕ) : ℕ := ds.foldl (fun n c => n * 10 + (c - 0x30)) a

theorem numDigits_some {max : ℕ} : ∀ {ds : List ℕ} {a m : ℕ}, numDigits max a ds = some m →
    (∀ c ∈ ds, IsDigit c) ∧ m = digitsValue a ds
  | [], a, m, h => by
    cases h
    exact ⟨by simp, rfl⟩
  | c :: ds, a, m, h => by
    rw [numDigits] at h
    split_ifs at h with hc
    obtain ⟨hds, hm⟩ := numDigits_some h
    exact ⟨List.forall_mem_cons.2 ⟨isNum_iff.1 hc, hds⟩, hm⟩

theorem digitsValue_eq_ofDigits : ∀ (ds : List ℕ) (a : ℕ), digitsValue a ds
    = Nat.ofDigits 10 ((ds.map (· - 0x30)).reverse) + 10 ^ ds.length * a
  | [], a => by simp [digitsValue]
  | c :: ds, a => by
    rw [digitsValue, List.foldl_cons, ← digitsValue, digitsValue_eq_ofDigits ds, List.map_cons,
      List.reverse_cons, Nat.ofDigits_append, Nat.ofDigits_singleton, List.length_reverse,
      List.length_map, List.length_cons]
    ring

/-- Digits without a leading zero are the text of their value. -/
theorem natText_digitsValue {c : ℕ} {ds : List ℕ} (hc : IsDigit c) (hz : c ≠ 0x30)
    (hds : ∀ d ∈ ds, IsDigit d) : natText (digitsValue (c - 0x30) ds) = c :: ds := by
  have hval : digitsValue (c - 0x30) ds = digitsValue 0 (c :: ds) := by
    rw [digitsValue, digitsValue, List.foldl_cons, Nat.zero_mul, Nat.zero_add]
  have hdig : Nat.digits 10 (digitsValue (c - 0x30) ds) = ((c :: ds).map (· - 0x30)).reverse := by
    rw [hval, digitsValue_eq_ofDigits, Nat.mul_zero, Nat.add_zero]
    refine Nat.digits_ofDigits 10 (by norm_num) _ ?_ ?_
    · intro d hd
      rw [List.mem_reverse, List.mem_map] at hd
      obtain ⟨e, he, rfl⟩ := hd
      have : IsDigit e := by
        rcases List.mem_cons.1 he with rfl | he
        · exact hc
        · exact hds e he
      rw [IsDigit] at this
      omega
    · intro hne
      simp only [List.getLast_reverse, List.map_cons, List.head_cons]
      rw [IsDigit] at hc
      omega
  have hne : digitsValue (c - 0x30) ds ≠ 0 := by
    intro h0
    rw [h0] at hdig
    simp at hdig
  rw [natText, if_neg hne, hdig, List.reverse_reverse, List.map_map]
  have hall : ∀ d ∈ c :: ds, IsDigit d := List.forall_mem_cons.2 ⟨hc, hds⟩
  have hid : ∀ d ∈ c :: ds, ((0x30 + ·) ∘ (· - 0x30)) d = d := by
    intro d hd
    have := hall d hd
    rw [IsDigit] at this
    simp only [Function.comp_apply]
    omega
  rw [List.map_congr_left hid, List.map_id']

theorem keyText_of_isNumString {us : List ℕ} {z : ℤ} (h : isNumString us = some z) :
    keyText (.int z) = us := by
  rw [isNumString] at h
  split_ifs at h with hlen
  simp only at h
  -- what the digits are, with the sign that is before them
  have hdigits : ∀ {p : List ℕ} {m max : ℕ}, p ≠ [] → isNum (cur p) = true → cur p ≠ 0x30 →
      numDigits max (cur p - 0x30) p.tail = some m → natText m = p ∧ m ≠ 0 := by
    intro p m max hp hn hz hm
    obtain ⟨hds, rfl⟩ := numDigits_some hm
    cases p with
    | nil => exact absurd rfl hp
    | cons c ds =>
      have htext := natText_digitsValue (isNum_iff.1 hn) hz hds
      refine ⟨htext, ?_⟩
      intro h0
      have : natText 0 = c :: ds := by rw [← h0]; exact htext
      simp only [natText, if_true, List.cons.injEq] at this
      exact hz this.1.symm
  by_cases hneg : cur us = 0x2d
  · simp only [hneg, beq_self_eq_true, if_true] at h
    have hus := cur_eq_cons hneg (by decide)
    split_ifs at h with h1 h2 h3
    · simp at h3
    · rw [Option.map_eq_some_iff] at h
      obtain ⟨m, hm, rfl⟩ := h
      push Not at h1
      obtain ⟨htext, hm0⟩ := hdigits h1.1 h1.2 h2 hm
      rw [keyText, if_pos (by omega), Int.natAbs_neg, Int.natAbs_natCast, htext, ← hus]
  · have hbeq : (cur us == 0x2d) = false := by simpa using hneg
    simp only [hbeq, Bool.false_eq_true, if_false, or_false] at h
    split_ifs at h with h1 h2 h3
    · cases h
      rw [not_not] at h3
      rw [keyText, if_neg (by omega), Int.natAbs_zero, natText, if_pos rfl,
        cur_eq_cons h2 (by decide), h3]
    · rw [Option.map_eq_some_iff] at h
      obtain ⟨m, hm, rfl⟩ := h
      push Not at h1
      obtain ⟨htext, -⟩ := hdigits h1.1 h1.2 h2 hm
      rw [keyText, if_neg (by omega), Int.natAbs_natCast, htext]

/-- A key made from a text has this text. -/
theorem keyText_toPropertyKey (us : List ℕ) : keyText (toPropertyKey us) = us := by
  unfold toPropertyKey
  cases h : isNumString us with
  | none => rfl
  | some z => exact keyText_of_isNumString h

theorem toPropertyKey_keyText {k : PropKey} (h : ∃ us, k = toPropertyKey us) :
    toPropertyKey (keyText k) = k := by
  obtain ⟨us, rfl⟩ := h
  rw [keyText_toPropertyKey]

/-! ### Code points -/

/-- The units of a string. -/
def Units (us : List ℕ) : Prop := ∀ u ∈ us, u < 0x10000

theorem units_of_lt {c : ℕ} (h : c < 0x10000) : units c = [c] := if_pos h

theorem unitsAll_codePoints : ∀ {us : List ℕ}, Units us → unitsAll (codePoints us) = us
  | [], _ => rfl
  | [u], h => by
    rw [codePoints, unitsAll, List.flatMap_singleton, units_of_lt (h u List.mem_cons_self)]
  | u :: v :: us, h => by
    have hv : Units (v :: us) := fun w hw => h w (List.mem_cons_of_mem _ hw)
    rw [codePoints]
    split_ifs with hp
    · rw [unitsAll, List.flatMap_cons, units_join hp.1 hp.2, ← unitsAll,
        unitsAll_codePoints (fun w hw => hv w (List.mem_cons_of_mem _ hw))]
      rfl
    · rw [unitsAll, List.flatMap_cons, units_of_lt (h u List.mem_cons_self), ← unitsAll,
        unitsAll_codePoints hv]
      rfl

theorem codePoints_lt : ∀ {us : List ℕ}, Units us → ∀ c ∈ codePoints us, c < 0x110000
  | [], _, c, hc => by cases hc
  | [u], h, c, hc => by
    have := h u List.mem_cons_self
    rw [codePoints, List.mem_singleton] at hc
    omega
  | u :: v :: us, h, c, hc => by
    have hv : Units (v :: us) := fun w hw => h w (List.mem_cons_of_mem _ hw)
    have hu := h u List.mem_cons_self
    rw [codePoints] at hc
    split_ifs at hc with hp
    · rcases List.mem_cons.1 hc with rfl | hc
      · exact (join_bounds u v).2
      · exact codePoints_lt (fun w hw => hv w (List.mem_cons_of_mem _ hw)) c hc
    · rcases List.mem_cons.1 hc with rfl | hc
      · omega
      · exact codePoints_lt hv c hc

/-! ### Quoted strings -/

theorem quotedLoop_encodeAll : ∀ (cs : List ℕ) {fuel : ℕ}, (∀ c ∈ cs, c < 0x110000) →
    (encodeAll cs).length ≤ fuel → quotedLoop fuel (encodeAll cs) = cs.flatMap quoteChar
  | [], 0, _, _ => rfl
  | [], fuel + 1, _, _ => rfl
  | c :: cs, fuel, h, hf => by
    have hc := h c List.mem_cons_self
    have hlen := encode_length c
    have he : encodeAll (c :: cs) = encode c ++ encodeAll cs := rfl
    rw [he, List.length_append] at hf
    obtain ⟨fuel, rfl⟩ : ∃ k, fuel = k + 1 := ⟨fuel - 1, by omega⟩
    rw [he, quotedLoop, if_neg (by simp [encode_ne_nil]), utf8Get_encode hc, utf8CharLen_encode hc,
      List.drop_left, quotedLoop_encodeAll cs (fun d hd => h d (List.mem_cons_of_mem _ hd))
        (by omega), List.flatMap_cons]

theorem jsToQuotedString_eq {us : List ℕ} (h : Units us) :
    jsToQuotedString us = 0x22 :: ((codePoints us).flatMap quoteChar ++ [0x22]) := by
  rw [jsToQuotedString, strBuf, quotedLoop_encodeAll _ (codePoints_lt h) le_rfl]

theorem fromHex_hexChar {d : ℕ} (h : d < 16) : fromHex (hexChar d) = some d := by
  unfold hexChar fromHex
  split_ifs <;> first | omega | (congr 1; omega)

theorem stringStep_short {e c : ℕ} (h : escapeChar e = some c) (r : List ℕ) :
    stringStep 0x22 (0x5c :: e :: r) = .put c r := by
  have he : cur (e :: r) ≠ 0x0a := by
    rintro (rfl : e = 0x0a)
    cases h
  rw [stringStep_backslash he, jsParseEscape_short r h]

theorem stringStep_unicode {c : ℕ} (hc : c < 0x10000) (r : List ℕ) :
    stringStep 0x22 (0x5c :: 0x75 :: hexChar (c / 0x1000 % 16) :: hexChar (c / 0x100 % 16)
      :: hexChar (c / 0x10 % 16) :: hexChar (c % 16) :: r) = .put c r := by
  have hbrace : ∀ p, ¬ cur (hexChar (c / 0x1000 % 16) :: p) = 0x7b := by
    intro p
    change ¬ hexChar (c / 0x1000 % 16) = 0x7b
    unfold hexChar
    split_ifs <;> omega
  have hor : ∀ a d : ℕ, d < 16 → (a <<< 4) ||| d = 16 * a + d := by
    intro a d hd
    rw [or_shift hd]
    omega
  rw [stringStep_backslash (by simp [cur]), jsParseEscape_cons _ (by decide), if_neg (by decide),
    if_pos rfl, if_neg (hbrace _)]
  simp only [escapeHex, fromHex_hexChar (Nat.mod_lt _ (by norm_num : 16 > 0)),
    hor _ _ (Nat.mod_lt _ (by norm_num : 16 > 0))]
  congr 1
  omega

/-- A turn of the loop reads what was written for a code point. -/
theorem stringStep_quoteChar {c : ℕ} (hc : c < 0x110000) (r : List ℕ) :
    stringStep 0x22 (quoteChar c ++ r) = .put c r := by
  unfold quoteChar
  split_ifs with h1 h2 h3 h4 h5 h6 h7
  · rw [h1]
    exact stringStep_short rfl r
  · rw [h2]
    exact stringStep_short rfl r
  · rw [h3]
    exact stringStep_short rfl r
  · rw [h4]
    exact stringStep_short rfl r
  · rw [h5]
    exact stringStep_short rfl r
  · rcases h6 with rfl | rfl
    · exact stringStep_short rfl r
    · exact stringStep_short rfl r
  · exact stringStep_unicode (by omega) r
  · rw [unicodeToUtf8_eq hc]
    by_cases hascii : c < 0x80
    · rw [encode, if_pos hascii, List.singleton_append, stringStep_cons, if_neg (by omega),
        if_neg (by omega), if_neg (by omega), if_neg (by omega)]
    · have hcur := cur_encode (not_lt.1 hascii) r
      unfold stringStep
      simp only
      rw [if_neg (by omega), if_neg (by omega), if_neg (by omega), if_pos (by omega),
        unicodeFromUtf8_encode (by omega) hc]
      simp only [List.drop_left]

theorem quoteChar_ne_nil {c : ℕ} (hc : c < 0x110000) : quoteChar c ≠ [] := by
  unfold quoteChar
  rw [unicodeToUtf8_eq hc]
  split_ifs <;> first | exact encode_ne_nil c | simp

theorem stringLoop_quoted : ∀ (cs : List ℕ) {acc r : List ℕ} {fuel : ℕ},
    (∀ c ∈ cs, c < 0x110000) → (cs.flatMap quoteChar ++ 0x22 :: r).length < fuel →
    stringLoop 0x22 fuel acc (cs.flatMap quoteChar ++ 0x22 :: r) = .ok (acc ++ cs, r)
  | [], acc, r, fuel, _, hf => by
    obtain ⟨fuel, rfl⟩ : ∃ k, fuel = k + 1 := ⟨fuel - 1, by omega⟩
    rw [List.append_nil]
    rfl
  | c :: cs, acc, r, fuel, h, hf => by
    obtain ⟨fuel, rfl⟩ : ∃ k, fuel = k + 1 := ⟨fuel - 1, by omega⟩
    have hc := h c List.mem_cons_self
    have hpos := List.length_pos_of_ne_nil (quoteChar_ne_nil hc)
    rw [List.flatMap_cons, List.append_assoc] at hf ⊢
    rw [List.length_append] at hf
    rw [stringLoop, stringStep_quoteChar hc]
    have ih := @stringLoop_quoted cs (acc ++ [c]) r fuel
      (fun d hd => h d (List.mem_cons_of_mem _ hd)) (by omega)
    rw [List.append_assoc, List.singleton_append] at ih
    exact ih

/-- What `js_to_quoted_string` has written is read back. -/
theorem jsParseString_quoted {us : List ℕ} (h : Units us) (r : List ℕ) :
    jsParseString ((codePoints us).flatMap quoteChar ++ 0x22 :: r) 0x22
      = .ok (codePoints us, r) :=
  stringLoop_quoted _ (codePoints_lt h) (Nat.lt_succ_self _)

end Json

end Qjs
