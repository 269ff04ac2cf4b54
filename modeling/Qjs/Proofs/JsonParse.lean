import Qjs.Proofs.JsonLex

/-!
# What JSON.parse accepts

The JSON mode accepts the grammar of JSON with the white space, the numbers and the strings of the
scanners that it shares with JavaScript, and with it every text of RFC 8259 (`jsParseJson_ok_iff`).
-/

namespace Qjs

namespace Json

open Wtf8 JsonText

variable {D : Type} {conv : Conv D}

/-! ### Values -/

/-- A value starts with none of these. -/
theorem derives_start {i r : List ℕ} (h : Derives tokenizer .value i r) :
    ¬ isSpace (cur i) = true ∧ cur i ≠ 0x5d ∧ cur i ≠ 0x7d := by
  have hsp : ∀ c, ¬ (0x09 ≤ c ∧ c ≤ 0x0d ∨ c = 0x20) → ¬ isSpace c = true := by
    intro c hc h
    exact hc (isSpace_iff.1 h)
  cases h with
  | number h =>
    have hs := literalNumber_start h
    simp only [NumberStart, IsDigit] at hs
    exact ⟨hsp _ (by omega), by omega, by omega⟩
  | _ => exact ⟨by simp [cur, isSpace], by simp [cur], by simp [cur]⟩

theorem literalNumber_length_lt {i r : List ℕ} (h : literalNumber i r) : r.length < i.length := by
  rcases h with rfl | ⟨s, n, f, x, rfl, -, -, -, hne, -⟩
  · simp only [List.length_cons, List.length_append]
    omega
  · have : 0 < n.length ∨ 0 < f.length := by
      rcases hne with hne | ⟨-, d, -, rfl⟩
      · exact .inl (List.length_pos_of_ne_nil hne)
      · exact .inr (Nat.succ_pos _)
    simp only [List.length_append]
    omega

theorem derives_length_lt {n : Nonterminal} {i r : List ℕ} (h : Derives tokenizer n i r) :
    r.length < i.length := by
  induction h with
  | number h => exact literalNumber_length_lt h
  | string h =>
    have := chars_length_le h
    simp only [List.length_cons] at this ⊢
    omega
  | emptyArray hw | emptyObject hw =>
    have := spaces_length_le hw
    simp only [List.length_cons] at this ⊢
    omega
  | array _ ih | object _ ih =>
    simp only [List.length_cons] at ih ⊢
    omega
  | element hw _ hw' ih =>
    have := spaces_length_le hw
    have := spaces_length_le hw'
    omega
  | elements hw _ hw' _ ihv ih =>
    have := spaces_length_le hw
    have := spaces_length_le hw'
    simp only [List.length_cons] at this
    omega
  | member hw hs hc hw' _ hw'' ih =>
    have h1 := spaces_length_le hw
    have h2 := chars_length_le hs
    have h3 := spaces_length_le hc
    have h4 := spaces_length_le hw'
    have h5 := spaces_length_le hw''
    simp only [List.length_cons] at h1 h2 h3
    omega
  | members hw hs hc hw' _ hw'' _ ihv ih =>
    have h1 := spaces_length_le hw
    have h2 := chars_length_le hs
    have h3 := spaces_length_le hc
    have h4 := spaces_length_le hw'
    have h5 := spaces_length_le hw''
    simp only [List.length_cons] at h1 h2 h3 h5
    omega
  | _ =>
    simp only [List.length_cons]
    omega

theorem isPrefixOf_eq {w p : List ℕ} (h : w.isPrefixOf p = true) : p = w ++ p.drop w.length := by
  rw [List.isPrefixOf_iff_prefix] at h
  obtain ⟨t, rfl⟩ := h
  rw [List.drop_left]

section Sound

/-- What a call with this fuel takes is derived by the grammar. -/
structure SoundAt (conv : Conv D) (fuel : ℕ) : Prop where
  value : ∀ {p v r}, jsParseJsonValue conv fuel p = .ok (v, r) →
    Derives tokenizer .value (skipSpaces p) r
  elements : ∀ {vs p vs' r}, jsonElements conv fuel vs p = .ok (vs', r) →
    Derives tokenizer .elements p r
  members : ∀ {ps p ps' r}, jsonMembers conv fuel ps p = .ok (ps', r) →
    Derives tokenizer .members p r

variable {fuel : ℕ} (ih : SoundAt conv fuel) {p r : List ℕ}

include ih

theorem SoundAt.value_succ {v : JVal D} (h : jsParseJsonValue conv (fuel + 1) p = .ok (v, r)) :
    Derives tokenizer .value (skipSpaces p) r := by
  rw [jsParseJsonValue] at h
  simp only at h
  generalize skipSpaces p = q at h ⊢
  by_cases h1 : isNum (cur q) = true ∨ cur q = 0x2d
  · rw [if_pos h1] at h
    cases hn : jsAtod conv q with
    | none =>
      rw [hn] at h
      cases h
    | some t =>
      rw [hn] at h
      cases h
      exact .number (jsAtod_sound (by rwa [isNum_iff] at h1) hn)
  rw [if_neg h1] at h
  split_ifs at h with h2 h3 h4 h5 h6 h7 h8 h9
  · cases h
    rw [isPrefixOf_eq h2]
    exact .true
  · cases h
    rw [isPrefixOf_eq h3]
    exact .false
  · cases h
    rw [isPrefixOf_eq h4]
    exact .null
  · cases hs : jsParseString q.tail 0x22 with
    | error msg =>
      rw [hs] at h
      cases h
    | ok t =>
      rw [hs] at h
      cases h
      rw [cur_eq_cons h5 (by decide)]
      exact .string (jsParseString_ok.1 ⟨t.1, hs⟩)
  · cases he : jsonElements conv fuel [] (skipSpaces q.tail) with
    | error msg =>
      rw [he] at h
      cases h
    | ok t =>
      rw [he] at h
      simp only at h
      split_ifs at h with hc
      cases h
      rw [not_not] at hc
      have hels := ih.elements he
      rw [cur_eq_cons hc (by decide)] at hels
      rw [cur_eq_cons h6 (by decide)]
      exact .array (.space_left (by simp) (spaces_skipSpaces _) hels)
  · rw [not_not] at h7
    simp only [h7, ne_eq, not_true_eq_false, if_false] at h
    cases h
    rw [cur_eq_cons h6 (by decide)]
    refine .emptyArray ?_
    rw [List.tail_cons, ← cur_eq_cons h7 (by decide)]
    exact spaces_skipSpaces _
  · cases he : jsonMembers conv fuel [] (skipSpaces q.tail) with
    | error msg =>
      rw [he] at h
      cases h
    | ok t =>
      rw [he] at h
      simp only at h
      split_ifs at h with hc
      cases h
      rw [not_not] at hc
      have hmem := ih.members he
      rw [cur_eq_cons hc (by decide)] at hmem
      rw [cur_eq_cons h8 (by decide)]
      exact .object (.space_left (by simp) (spaces_skipSpaces _) hmem)
  · rw [not_not] at h9
    simp only [h9, ne_eq, not_true_eq_false, if_false] at h
    cases h
    rw [cur_eq_cons h8 (by decide)]
    refine .emptyObject ?_
    rw [List.tail_cons, ← cur_eq_cons h9 (by decide)]
    exact spaces_skipSpaces _

theorem SoundAt.elements_succ {vs vs' : List (JVal D)}
    (h : jsonElements conv (fuel + 1) vs p = .ok (vs', r)) : Derives tokenizer .elements p r := by
  rw [jsonElements] at h
  cases hv : jsParseJsonValue conv fuel p with
  | error msg =>
    rw [hv] at h
    cases h
  | ok t =>
    obtain ⟨v, k⟩ := t
    rw [hv] at h
    simp only at h
    have hval := ih.value hv
    split_ifs at h with hc
    · refine .elements (spaces_skipSpaces p) hval ?_ (ih.elements h)
      rw [← cur_eq_cons hc (by decide)]
      exact spaces_skipSpaces k
    · cases h
      exact .element (spaces_skipSpaces p) hval (spaces_skipSpaces k)

theorem SoundAt.members_succ {ps ps' : List (PropKey × JVal D)}
    (h : jsonMembers conv (fuel + 1) ps p = .ok (ps', r)) : Derives tokenizer .members p r := by
  rw [jsonMembers] at h
  simp only at h
  split_ifs at h with hq
  rw [not_not] at hq
  cases hs : jsParseString (skipSpaces p).tail 0x22 with
  | error msg =>
    rw [hs] at h
    cases h
  | ok t =>
    obtain ⟨cs, k⟩ := t
    rw [hs] at h
    simp only at h
    split_ifs at h with hcol
    rw [not_not] at hcol
    have hname := jsParseString_ok.1 ⟨cs, hs⟩
    have hw := spaces_skipSpaces p
    rw [cur_eq_cons hq (by decide)] at hw
    have hw' := spaces_skipSpaces k
    rw [cur_eq_cons hcol (by decide)] at hw'
    cases hv : jsParseJsonValue conv fuel (skipSpaces k).tail with
    | error msg =>
      rw [hv] at h
      cases h
    | ok t =>
      obtain ⟨v, o⟩ := t
      rw [hv] at h
      simp only at h
      have hval := ih.value hv
      split_ifs at h with hc
      · refine .members hw hname hw' (spaces_skipSpaces _) hval ?_ (ih.members h)
        rw [← cur_eq_cons hc (by decide)]
        exact spaces_skipSpaces o
      · cases h
        exact .member hw hname hw' (spaces_skipSpaces _) hval (spaces_skipSpaces o)

end Sound

variable (conv) in
theorem soundAt : ∀ fuel : ℕ, SoundAt conv fuel
  | 0 => by constructor <;> intros <;> contradiction
  | fuel + 1 => ⟨(soundAt fuel).value_succ, (soundAt fuel).elements_succ, (soundAt fuel).members_succ⟩

/-! ### Completeness -/

variable (conv) in
/-- What it is for the parser to take a part of a text. -/
def Taken : Nonterminal → List ℕ → List ℕ → Prop
  | .value, i, r => Stop r → ∀ fuel, 2 * i.length + 1 ≤ fuel → ∀ p, skipSpaces p = i →
      ∃ v, jsParseJsonValue conv fuel p = .ok (v, r)
  | .elements, i, r => cur r = 0x5d → ∀ fuel, 2 * i.length + 2 ≤ fuel → ∀ vs p,
      skipSpaces p = skipSpaces i → ∃ vs', jsonElements conv fuel vs p = .ok (vs', r)
  | .members, i, r => cur r = 0x7d → ∀ fuel, 2 * i.length + 2 ≤ fuel → ∀ ps p,
      skipSpaces p = skipSpaces i → ∃ ps', jsonMembers conv fuel ps p = .ok (ps', r)

theorem stop_of_cur {r : List ℕ} (h : cur r = 0 ∨ cur r = 0x2c ∨ cur r = 0x5d ∨ cur r = 0x7d) :
    Stop r := by
  unfold Stop IsDigit
  omega

theorem not_isSpace_cur {r : List ℕ}
    (h : cur r = 0 ∨ cur r = 0x22 ∨ cur r = 0x2c ∨ cur r = 0x3a ∨ cur r = 0x5d ∨ cur r = 0x7d) :
    ¬ isSpace (cur r) = true := by
  rw [isSpace_iff]
  simp only [tokenizer]
  omega

section Complete

variable {i r : List ℕ}

theorem taken_number (h : literalNumber i r) : Taken conv .value i r := by
  intro hr fuel hf p hp
  obtain ⟨fuel, rfl⟩ : ∃ k, fuel = k + 1 := ⟨fuel - 1, by omega⟩
  obtain ⟨d, hd⟩ := jsAtod_complete conv h hr
  have hstart := literalNumber_start h
  rw [NumberStart, ← isNum_iff] at hstart
  rw [jsParseJsonValue]
  simp only [hp]
  rw [if_pos hstart, hd]
  exact ⟨_, rfl⟩

theorem taken_null : Taken conv .value (0x6e :: 0x75 :: 0x6c :: 0x6c :: r) r := by
  intro _ fuel hf p hp
  obtain ⟨fuel, rfl⟩ : ∃ k, fuel = k + 1 := ⟨fuel - 1, by omega⟩
  rw [jsParseJsonValue]
  simp only [hp]
  exact ⟨.null, rfl⟩

theorem taken_true : Taken conv .value (0x74 :: 0x72 :: 0x75 :: 0x65 :: r) r := by
  intro _ fuel hf p hp
  obtain ⟨fuel, rfl⟩ : ∃ k, fuel = k + 1 := ⟨fuel - 1, by omega⟩
  rw [jsParseJsonValue]
  simp only [hp]
  exact ⟨.bool true, rfl⟩

theorem taken_false : Taken conv .value (0x66 :: 0x61 :: 0x6c :: 0x73 :: 0x65 :: r) r := by
  intro _ fuel hf p hp
  obtain ⟨fuel, rfl⟩ : ∃ k, fuel = k + 1 := ⟨fuel - 1, by omega⟩
  rw [jsParseJsonValue]
  simp only [hp]
  exact ⟨.bool false, rfl⟩

theorem taken_string (h : Chars tokenizer i (0x22 :: r)) : Taken conv .value (0x22 :: i) r := by
  intro _ fuel hf p hp
  obtain ⟨fuel, rfl⟩ : ∃ k, fuel = k + 1 := ⟨fuel - 1, by omega⟩
  obtain ⟨cs, hcs⟩ := jsParseString_ok.2 h
  have hcs' : jsParseString (0x22 :: i).tail 0x22 = .ok (cs, r) := hcs
  rw [jsParseJsonValue]
  simp only [hp, hcs']
  exact ⟨.str (unitsAll cs), rfl⟩

/-- After an opening bracket. -/
theorem value_bracket (fuel : ℕ) {p : List ℕ} (hp : skipSpaces p = 0x5b :: i) :
    jsParseJsonValue conv (fuel + 1) p =
      match if cur (skipSpaces i) ≠ 0x5d then jsonElements conv fuel [] (skipSpaces i)
        else .ok ([], skipSpaces i) with
      | .error msg => .error msg
      | .ok (vs, p) => if cur p ≠ 0x5d then .error "expecting ']'" else .ok (.arr vs, p.tail) := by
  rw [jsParseJsonValue]
  simp only [hp]
  rfl

/-- After an opening brace. -/
theorem value_brace (fuel : ℕ) {p : List ℕ} (hp : skipSpaces p = 0x7b :: i) :
    jsParseJsonValue conv (fuel + 1) p =
      match if cur (skipSpaces i) ≠ 0x7d then jsonMembers conv fuel [] (skipSpaces i)
        else .ok ([], skipSpaces i) with
      | .error msg => .error msg
      | .ok (ps, p) =>
        if cur p ≠ 0x7d then .error "expecting '\x7d'" else .ok (.obj ps, p.tail) := by
  rw [jsParseJsonValue]
  simp only [hp]
  rfl

theorem taken_emptyArray (hw : Spaces tokenizer i (0x5d :: r)) :
    Taken conv .value (0x5b :: i) r := by
  intro _ fuel hf p hp
  obtain ⟨fuel, rfl⟩ : ∃ k, fuel = k + 1 := ⟨fuel - 1, by omega⟩
  rw [value_bracket fuel hp, skipSpaces_of_spaces hw (not_isSpace_cur (by simp [cur]))]
  exact ⟨.arr [], rfl⟩

theorem taken_emptyObject (hw : Spaces tokenizer i (0x7d :: r)) :
    Taken conv .value (0x7b :: i) r := by
  intro _ fuel hf p hp
  obtain ⟨fuel, rfl⟩ : ∃ k, fuel = k + 1 := ⟨fuel - 1, by omega⟩
  rw [value_brace fuel hp, skipSpaces_of_spaces hw (not_isSpace_cur (by simp [cur]))]
  exact ⟨.obj [], rfl⟩

/-- The first element or member of a list is not its end. -/
theorem cur_skipSpaces_elements (h : Derives tokenizer .elements i r) :
    cur (skipSpaces i) ≠ 0x5d := by
  cases h with
  | element hw hv _ | elements hw hv _ _ =>
    obtain ⟨hsp, hb, -⟩ := derives_start hv
    rwa [skipSpaces_of_spaces hw hsp]

theorem cur_skipSpaces_members (h : Derives tokenizer .members i r) :
    cur (skipSpaces i) ≠ 0x7d := by
  cases h with
  | member hw | members hw =>
    rw [skipSpaces_of_spaces hw (not_isSpace_cur (by simp [cur]))]
    simp [cur]

theorem taken_array (h : Derives tokenizer .elements i (0x5d :: r))
    (ih : Taken conv .elements i (0x5d :: r)) : Taken conv .value (0x5b :: i) r := by
  intro _ fuel hf p hp
  rw [List.length_cons] at hf
  obtain ⟨fuel, rfl⟩ : ∃ k, fuel = k + 1 := ⟨fuel - 1, by omega⟩
  obtain ⟨vs, hvs⟩ := ih rfl fuel (by omega) [] (skipSpaces i) (skipSpaces_idem i)
  rw [value_bracket fuel hp, if_pos (cur_skipSpaces_elements h), hvs]
  exact ⟨.arr vs, rfl⟩

theorem taken_object (h : Derives tokenizer .members i (0x7d :: r))
    (ih : Taken conv .members i (0x7d :: r)) : Taken conv .value (0x7b :: i) r := by
  intro _ fuel hf p hp
  rw [List.length_cons] at hf
  obtain ⟨fuel, rfl⟩ : ∃ k, fuel = k + 1 := ⟨fuel - 1, by omega⟩
  obtain ⟨ps, hps⟩ := ih rfl fuel (by omega) [] (skipSpaces i) (skipSpaces_idem i)
  rw [value_brace fuel hp, if_pos (cur_skipSpaces_members h), hps]
  exact ⟨.obj ps, rfl⟩

/-- One element, with what the loop does after it. -/
theorem elements_value {j k t : List ℕ} (hw : Spaces tokenizer i j)
    (hv : Derives tokenizer .value j k) (ihv : Taken conv .value j k) (hw' : Spaces tokenizer k t)
    (ht : cur t = 0x2c ∨ cur t = 0x5d) {fuel : ℕ} (hf : 2 * i.length + 2 ≤ fuel + 1)
    (vs : List (JVal D)) {p : List ℕ} (hp : skipSpaces p = skipSpaces i) :
    ∃ v, jsonElements conv (fuel + 1) vs p
      = if cur t = 0x2c then jsonElements conv fuel (vs ++ [v]) t.tail else .ok (vs ++ [v], t) := by
  have hlen := spaces_length_le hw
  have hj := skipSpaces_of_spaces hw (derives_start hv).1
  have hk := skipSpaces_of_spaces hw' (not_isSpace_cur (by omega))
  have hstop := Stop.of_spaces hw' (stop_of_cur (by omega))
  obtain ⟨v, hval⟩ := ihv hstop fuel (by omega) p (hp.trans hj)
  refine ⟨v, ?_⟩
  rw [jsonElements, hval]
  simp only [hk]

theorem taken_element {j k : List ℕ} (hw : Spaces tokenizer i j)
    (hv : Derives tokenizer .value j k) (ihv : Taken conv .value j k)
    (hw' : Spaces tokenizer k r) : Taken conv .elements i r := by
  intro hr fuel hf vs p hp
  obtain ⟨fuel, rfl⟩ : ∃ k, fuel = k + 1 := ⟨fuel - 1, by omega⟩
  obtain ⟨v, he⟩ := elements_value hw hv ihv hw' (.inr hr) hf vs hp
  rw [he, if_neg (by omega)]
  exact ⟨_, rfl⟩

theorem taken_elements {j k m : List ℕ} (hw : Spaces tokenizer i j)
    (hv : Derives tokenizer .value j k) (ihv : Taken conv .value j k)
    (hw' : Spaces tokenizer k (0x2c :: m)) (ih : Taken conv .elements m r) :
    Taken conv .elements i r := by
  intro hr fuel hf vs p hp
  obtain ⟨fuel, rfl⟩ : ∃ k, fuel = k + 1 := ⟨fuel - 1, by omega⟩
  have h1 := spaces_length_le hw
  have h2 := spaces_length_le hw'
  have h3 := derives_length_lt hv
  rw [List.length_cons] at h2
  obtain ⟨v, he⟩ := elements_value hw hv ihv hw' (.inl rfl) hf vs hp
  rw [he, if_pos (by rfl)]
  exact ih hr fuel (by omega) (vs ++ [v]) m rfl

/-- One member, with what the loop does after it. -/
theorem members_value {j k m n o t : List ℕ} (hw : Spaces tokenizer i (0x22 :: j))
    (hs : Chars tokenizer j (0x22 :: k)) (hc : Spaces tokenizer k (0x3a :: m))
    (hw' : Spaces tokenizer m n) (hv : Derives tokenizer .value n o) (ihv : Taken conv .value n o)
    (hw'' : Spaces tokenizer o t) (ht : cur t = 0x2c ∨ cur t = 0x7d) {fuel : ℕ}
    (hf : 2 * i.length + 2 ≤ fuel + 1) (ps : List (PropKey × JVal D)) {p : List ℕ}
    (hp : skipSpaces p = skipSpaces i) :
    ∃ ps', jsonMembers conv (fuel + 1) ps p
      = if cur t = 0x2c then jsonMembers conv fuel ps' t.tail else .ok (ps', t) := by
  have h1 := spaces_length_le hw
  have h2 := chars_length_le hs
  have h3 := spaces_length_le hc
  have h4 := spaces_length_le hw'
  simp only [List.length_cons] at h1 h2 h3
  have hi := skipSpaces_of_spaces hw (not_isSpace_cur (by simp [cur]))
  have hk := skipSpaces_of_spaces hc (not_isSpace_cur (by simp [cur]))
  have hn := skipSpaces_of_spaces hw' (derives_start hv).1
  have ho := skipSpaces_of_spaces hw'' (not_isSpace_cur (by omega))
  have hstop := Stop.of_spaces hw'' (stop_of_cur (by omega))
  obtain ⟨cs, hcs⟩ := jsParseString_ok.2 hs
  obtain ⟨v, hval⟩ := ihv hstop fuel (by omega) m hn
  refine ⟨definePropertyValue ps (toPropertyKey (unitsAll cs)) v, ?_⟩
  rw [jsonMembers]
  simp only [hp, hi, List.tail_cons, hcs, hk, hval, ho]
  rfl

theorem taken_member {j k m n o : List ℕ} (hw : Spaces tokenizer i (0x22 :: j))
    (hs : Chars tokenizer j (0x22 :: k)) (hc : Spaces tokenizer k (0x3a :: m))
    (hw' : Spaces tokenizer m n) (hv : Derives tokenizer .value n o) (ihv : Taken conv .value n o)
    (hw'' : Spaces tokenizer o r) : Taken conv .members i r := by
  intro hr fuel hf ps p hp
  obtain ⟨fuel, rfl⟩ : ∃ k, fuel = k + 1 := ⟨fuel - 1, by omega⟩
  obtain ⟨ps', he⟩ := members_value hw hs hc hw' hv ihv hw'' (.inr hr) hf ps hp
  rw [he, if_neg (by omega)]
  exact ⟨_, rfl⟩

theorem taken_members {j k m n o q : List ℕ} (hw : Spaces tokenizer i (0x22 :: j))
    (hs : Chars tokenizer j (0x22 :: k)) (hc : Spaces tokenizer k (0x3a :: m))
    (hw' : Spaces tokenizer m n) (hv : Derives tokenizer .value n o) (ihv : Taken conv .value n o)
    (hw'' : Spaces tokenizer o (0x2c :: q)) (ih : Taken conv .members q r) :
    Taken conv .members i r := by
  intro hr fuel hf ps p hp
  obtain ⟨fuel, rfl⟩ : ∃ k, fuel = k + 1 := ⟨fuel - 1, by omega⟩
  have h1 := spaces_length_le hw
  have h2 := chars_length_le hs
  have h3 := spaces_length_le hc
  have h4 := spaces_length_le hw'
  have h5 := spaces_length_le hw''
  have h6 := derives_length_lt hv
  simp only [List.length_cons] at h1 h2 h3 h5
  obtain ⟨ps', he⟩ := members_value hw hs hc hw' hv ihv hw'' (.inl rfl) hf ps hp
  rw [he, if_pos (by rfl)]
  exact ih hr fuel (by omega) ps' q rfl

end Complete

variable (conv) in
theorem Derives.taken {n : Nonterminal} {i r : List ℕ} (h : Derives tokenizer n i r) :
    Taken conv n i r := by
  induction h with
  | null => exact taken_null
  | true => exact taken_true
  | false => exact taken_false
  | number h => exact taken_number h
  | string h => exact taken_string h
  | emptyArray hw => exact taken_emptyArray hw
  | array h ih => exact taken_array h ih
  | emptyObject hw => exact taken_emptyObject hw
  | object h ih => exact taken_object h ih
  | element hw hv hw' ih => exact taken_element hw hv ih hw'
  | elements hw hv hw' _ ihv ih => exact taken_elements hw hv ihv hw' ih
  | member hw hs hc hw' hv hw'' ih => exact taken_member hw hs hc hw' hv ih hw''
  | members hw hs hc hw' hv hw'' _ ihv ih => exact taken_members hw hs hc hw' hv ihv hw'' ih

/-! ### Texts -/

theorem jsParseJson_sound {text : List ℕ} {v : JVal D} (h : jsParseJson conv text = .ok v) :
    Text tokenizer text := by
  unfold jsParseJson at h
  cases hv : jsParseJsonValue conv (2 * text.length + 1) text with
  | error msg =>
    rw [hv] at h
    cases h
  | ok t =>
    obtain ⟨v', k⟩ := t
    rw [hv] at h
    simp only at h
    split_ifs at h with hend
    rw [not_not] at hend
    refine ⟨_, k, spaces_skipSpaces text, (soundAt conv _).value hv, ?_⟩
    rw [← hend]
    exact spaces_skipSpaces k

variable (conv) in
theorem jsParseJson_complete {text : List ℕ} (h : Text tokenizer text) :
    ∃ v, jsParseJson conv text = .ok v := by
  obtain ⟨j, k, hw, hv, hw'⟩ := h
  have hj := skipSpaces_of_spaces hw (derives_start hv).1
  have hk := skipSpaces_of_spaces hw' (not_isSpace_cur (by simp [cur]))
  have hlen := spaces_length_le hw
  have hstop := Stop.of_spaces hw' (stop_of_cur (by simp [cur]))
  obtain ⟨v, hval⟩ := Derives.taken conv hv hstop (2 * text.length + 1) (by omega) text hj
  refine ⟨v, ?_⟩
  unfold jsParseJson
  rw [hval]
  simp only [hk, ne_eq, not_true_eq_false, if_false]

/-- Numbers without a fraction and an exponent, for examples. -/
def natConv : Conv ℕ where
  infinity _ := 0
  decimal _ n _ _ _ := n.foldl (fun a c => 10 * a + (c - 0x30)) 0

theorem not_rfcNumber_leading_zero {r : List ℕ} (h : rfcNumber [0x30, 0x31] r) : r = [0x31] := by
  obtain ⟨s, n, f, x, he, hs, hn, hf, hx⟩ := h
  obtain rfl : s = [] := by
    rcases hs with rfl | rfl
    · rfl
    · cases he
  obtain rfl : n = [0x30] := by
    rcases hn with rfl | ⟨hn, hz⟩
    · rfl
    · cases n with
      | nil => exact absurd rfl hn.1
      | cons c n =>
        simp only [List.nil_append, List.cons_append, List.cons.injEq] at he
        exact absurd (by rw [← he.1]; rfl) hz
  obtain rfl : f = [] := by
    rcases hf with rfl | ⟨d, -, rfl⟩
    · rfl
    · cases he
  obtain rfl : x = [] := by
    rcases hx with rfl | ⟨e, s, d, he', -, -, rfl⟩
    · rfl
    · simp only [List.nil_append, List.cons_append, List.cons.injEq, true_and] at he
      omega
  simpa using he.symm

end Json

end Qjs
