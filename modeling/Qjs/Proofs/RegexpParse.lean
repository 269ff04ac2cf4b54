import Qjs.Proofs.RegexpClassItem
import Qjs.Proofs.RegexpShape

/-!
# Regular expressions: the compiler writes trees

A term leaves the code of a tree behind the code that was there (`reParseTerm_emits`), joining two
literal terms gives one (`combineChars_emits`), and so a disjunction leaves the code of a tree
(`reParseDisjunction_emits`).
-/

namespace Qjs.Regexp

open Json

variable {src : Source} {cc : ℕ} {a b t : Node}

/-- The parser went on from one state to the other: what was written since is the code of a tree. -/
structure Emits (st st' : PState) (a : Node) : Prop where
  code : st'.code = st.code ++ a.raw
  ok : a.Ok st'.captureCount
  le : st.captureCount ≤ st'.captureCount
  max : st.captureCount ≤ captureCountMax → st'.captureCount ≤ captureCountMax

theorem Emits.refl (st : PState) : Emits st st .nil := ⟨by simp, trivial, le_rfl, id⟩

theorem Emits.trans {st st' st'' : PState} (h : Emits st st' a) (h' : Emits st' st'' b) :
    Emits st st'' (.cat a b) := by
  refine ⟨?_, ⟨h.ok.mono h'.le, h'.ok⟩, h.le.trans h'.le, h'.max ∘ h.max⟩
  rw [h'.code, h.code, raw_cat, List.append_assoc]

/-- The position plays no part. -/
theorem Emits.move {st st' : PState} (h : Emits st st' a) (pos : ℕ) :
    Emits st { st' with pos := pos } a := ⟨h.code, h.ok, h.le, h.max⟩

theorem emits_emit (st : PState) {op : Op} (h : op.Plain st.captureCount) (pos : ℕ) :
    Emits st (st.emit op pos) (.op op) := ⟨by simp [PState.emit], h, le_rfl, id⟩

/-- A term, and where a quantifier finds it. -/
structure TermEmits (st : PState) (t : Term) : Prop where
  emits : ∃ a, Emits st t.1 a
  atom : ∀ x, t.2 = some x → x = (st.code.length, st.captureCount)

theorem termEmits_atom {st st' : PState} (h : Emits st st' a) : TermEmits st (atomTerm st st') :=
  ⟨⟨a, h⟩, fun x hx => by
    cases hx
    rfl⟩

theorem termEmits_none {st st' : PState} (h : Emits st st' a) : TermEmits st (st', none) :=
  ⟨⟨a, h⟩, fun x hx => by cases hx⟩

/-! ### Atoms -/

theorem length_unicodeToUtf8 {c : ℕ} (h : c < 0x110000) :
    1 ≤ (unicodeToUtf8 c).length ∧ (unicodeToUtf8 c).length ≤ 4 := by
  rw [unicodeToUtf8_eq h]
  exact Wtf8.encode_length c

theorem Op.Plain.ofZero {op : Op} (h : op.Plain 0) (cc : ℕ) : op.Plain cc := h.mono (Nat.zero_le _)

theorem ok_of_bind {α β : Type} {x : Parse α} {f : α → Parse β} {r : β} (h : x >>= f = .ok r) :
    ∃ y, x = .ok y ∧ f y = .ok r := by
  rcases x with e | y
  · cases h
  · exact ⟨y, rfl, h⟩

theorem atomOp_plain {pos : ℕ} {x : ClassAtom} {op : Op} (h : atomOp src pos x = .ok op)
    (hx : ∀ c, x = .char c → c < 0x110000) : op.Plain 0 := by
  cases x with
  | range r => exact (atomOp_range h).1
  | char c =>
    change (if src.ignoreCase = true ∧ isLetter c = true then _ else _) = _ at h
    by_cases hl : src.ignoreCase = true ∧ isLetter c = true
    · rw [if_pos hl] at h
      cases h
      simp [Op.Plain]
    · rw [if_neg hl] at h
      cases h
      exact length_unicodeToUtf8 (hx c rfl)

theorem classAtomTerm_emits {st : PState} {t : Term} (h : classAtomTerm src st = .ok t) :
    TermEmits st t := by
  obtain ⟨⟨x, pos⟩, h1, h⟩ := ok_of_bind h
  obtain ⟨op, h2, h⟩ := ok_of_bind h
  cases h
  refine termEmits_atom (emits_emit st (Op.Plain.ofZero (atomOp_plain h2 ?_) _) pos)
  intro c hc
  exact getClassAtom_lt (hc ▸ h1)

theorem escapeTerm_emits {st : PState} {t : Term} (h : escapeTerm src st = .ok t) :
    TermEmits st t := by
  unfold escapeTerm at h
  simp only at h
  by_cases h1 : src.byte (st.pos + 1) = 0x62 ∨ src.byte (st.pos + 1) = 0x42
  · rw [if_pos h1] at h
    cases h
    exact termEmits_none (@emits_emit st (.wordBoundary _) trivial _)
  rw [if_neg h1] at h
  by_cases h2 : src.byte (st.pos + 1) = 0x30
  · rw [if_pos h2] at h
    by_cases h3 : Json.isNum (src.byte (st.pos + 2)) = true
    · rw [if_pos h3] at h
      cases h
    rw [if_neg h3] at h
    obtain ⟨op, h4, h⟩ := ok_of_bind h
    cases h
    refine termEmits_atom (emits_emit st (Op.Plain.ofZero (atomOp_plain h4 ?_) _) _)
    intro c hc
    cases hc
    omega
  rw [if_neg h2] at h
  by_cases h3 : Json.isNum (src.byte (st.pos + 1)) = true
  · rw [if_pos h3] at h
    rcases hd : parseDigits src (st.pos + 1) with ⟨i, pos⟩
    rw [hd] at h
    simp only at h
    by_cases h4 : captureCountMax < i
    · rw [if_pos h4] at h
      cases h
    · rw [if_neg h4] at h
      cases h
      exact termEmits_atom (@emits_emit st (.backReference _ _) trivial _)
  · rw [if_neg h3] at h
    exact classAtomTerm_emits h

/-! ### Groups -/

/-- The number of a jump is put in its place. -/
theorem putU32_append (pre post : List ℕ) (op : ℕ) (v w : ℤ) :
    putU32 (pre ++ (op :: i32Bytes v) ++ post) (pre.length + 1) w
      = pre ++ (op :: i32Bytes w) ++ post := by
  have htake : (pre ++ (op :: i32Bytes v) ++ post).take (pre.length + 1) = pre ++ [op] := by
    have : pre ++ (op :: i32Bytes v) ++ post = (pre ++ [op]) ++ (i32Bytes v ++ post) := by simp
    rw [this]
    exact List.take_left' (by simp)
  have hdrop : (pre ++ (op :: i32Bytes v) ++ post).drop (pre.length + 1 + 4) = post :=
    List.drop_left' (by simp)
  rw [putU32, htake, hdrop]
  simp

section Groups

variable {disjunction : PState → Parse PState}
  (hd : ∀ {st st' : PState}, disjunction st = .ok st' → ∃ a, Emits st st' a)

include hd

theorem lookaheadTerm_emits {st : PState} {t : Term} {isNeg : Bool}
    (h : lookaheadTerm src disjunction st isNeg = .ok t) : TermEmits st t := by
  obtain ⟨st', h1, h⟩ := ok_of_bind h
  obtain ⟨pos, -, h⟩ := ok_of_bind h
  cases h
  obtain ⟨a, ha⟩ := hd h1
  refine termEmits_none (a := .look isNeg a) ⟨?_, ha.ok, ha.le, ha.max⟩
  have hcode : st'.code ++ (Op.lookaheadMatch isNeg).encode
      = st.code ++ ((Op.lookahead isNeg 0).code :: i32Bytes 0)
        ++ (a.raw ++ (Op.lookaheadMatch isNeg).encode) := by
    rw [ha.code, ← List.append_assoc]
    rfl
  have hlen : ((st'.code ++ (Op.lookaheadMatch isNeg).encode).length : ℤ)
      - (((st.code.length + 1 : ℕ) : ℤ) + 4) = a.size + 1 := by
    rw [ha.code]
    simp only [PState.emit, List.length_append, Op.length_encode, length_raw]
    simp [Op.size, Op.operands]
    omega
  change putU32 (st'.code ++ (Op.lookaheadMatch isNeg).encode) (st.code.length + 1)
    (((st'.code ++ (Op.lookaheadMatch isNeg).encode).length : ℤ)
      - (((st.code.length + 1 : ℕ) : ℤ) + 4)) = _
  rw [hlen, hcode, putU32_append, raw_look]
  simp only [List.append_assoc]
  rfl

theorem groupTerm_emits {st : PState} {t : Term} (h : groupTerm src disjunction st = .ok t) :
    TermEmits st t := by
  unfold groupTerm at h
  by_cases h1 : src.byte (st.pos + 1) = 0x3f
  · rw [if_pos h1] at h
    split at h
    · -- without a capture
      obtain ⟨st', h2, h⟩ := ok_of_bind h
      obtain ⟨pos, -, h⟩ := ok_of_bind h
      cases h
      obtain ⟨a, ha⟩ := hd h2
      exact termEmits_atom (a := a) ⟨ha.code, ha.ok, ha.le, ha.max⟩
    · exact lookaheadTerm_emits hd h
    · exact lookaheadTerm_emits hd h
    · cases h
  rw [if_neg h1] at h
  by_cases h2 : captureCountMax ≤ st.captureCount
  · rw [if_pos h2] at h
    cases h
  rw [if_neg h2] at h
  obtain ⟨st', h3, h⟩ := ok_of_bind h
  obtain ⟨pos, -, h⟩ := ok_of_bind h
  cases h
  obtain ⟨a, ha⟩ := hd h3
  have hle : st.captureCount + 1 ≤ st'.captureCount := ha.le
  refine termEmits_atom (a := .cat (.op (.save false st.captureCount))
    (.cat a (.op (.save true st.captureCount)))) ⟨?_, ⟨?_, ha.ok, ?_⟩, Nat.le_of_succ_le hle, ?_⟩
  · change st'.code ++ (Op.save true st.captureCount).encode = _
    rw [ha.code]
    simp only [PState.emit, raw_cat, raw_op, List.append_assoc]
  · change st.captureCount < st'.captureCount
    omega
  · change st.captureCount < st'.captureCount
    omega
  · intro _
    exact ha.max (by change st.captureCount + 1 ≤ captureCountMax; omega)

theorem reParseTerm_emits {st : PState} {t : Term} (h : reParseTerm src disjunction st = .ok t) :
    TermEmits st t := by
  unfold reParseTerm at h
  split at h
  · cases h
    exact termEmits_none (@emits_emit st (.lineStart _) trivial _)
  · cases h
    exact termEmits_none (@emits_emit st (.lineEnd _) trivial _)
  · cases h
    refine termEmits_atom (emits_emit st ?_ _)
    split_ifs <;> trivial
  · split_ifs at h
    exact classAtomTerm_emits h
  · cases h
  · cases h
  · cases h
  · exact groupTerm_emits hd h
  · exact escapeTerm_emits h
  · obtain ⟨⟨op, pos⟩, h1, h⟩ := ok_of_bind h
    cases h
    exact termEmits_atom (emits_emit st (Op.Plain.ofZero (reParseCharClass_plain h1) _) _)
  · split_ifs at h
    exact classAtomTerm_emits h
  · split_ifs at h
    exact classAtomTerm_emits h
  · exact classAtomTerm_emits h

end Groups

/-! ### Joining literal characters -/

/-- What `re_is_char` recognises is one character instruction. -/
theorem reIsChar_eq {pre xs post : List ℕ} {n : ℕ}
    (h : reIsChar (pre ++ xs ++ post) pre.length (pre.length + xs.length) = n) (hn : 0 < n) :
    ∃ bs, xs = n :: bs ∧ bs.length = n ∧ n ≤ 4 := by
  unfold reIsChar at h
  simp only at h
  by_cases h1 : 1 ≤ byteAt (pre ++ xs ++ post) pre.length
    ∧ byteAt (pre ++ xs ++ post) pre.length ≤ 4
  · rw [if_neg (not_not.2 h1)] at h
    by_cases h2 : pre.length + xs.length - pre.length = byteAt (pre ++ xs ++ post) pre.length + 1
    · rw [if_neg (not_not.2 h2)] at h
      cases xs with
      | nil => simp at h2
      | cons x bs =>
        have hx : byteAt (pre ++ x :: bs ++ post) pre.length = x := by
          rw [List.append_assoc]
          exact byteAt_append_right pre _ 0
        rw [hx] at h h1 h2
        refine ⟨bs, by rw [h], ?_, by omega⟩
        simp only [List.length_cons] at h2
        omega
    · rw [if_pos h2] at h
      omega
  · rw [if_pos h1] at h
    omega

@[simp] theorem length_moveBytes (dst : ℕ) : ∀ (n : ℕ) (code : List ℕ),
    (moveBytes dst n code).length = code.length
  | 0, _ => rfl
  | n + 1, code => by
    simp only [moveBytes, List.length_set, length_moveBytes dst n code]

/-- Only the first byte that is moved lands before the end. -/
theorem take_moveBytes {dst : ℕ} {code : List ℕ} (hlen : code.length = dst + 2) : ∀ n : ℕ,
    (moveBytes dst (n + 1) code).take (dst + 1) = code.take dst ++ [byteAt code (dst + 1)]
  | 0 => by
    change (code.set dst (byteAt code (dst + 1))).take (dst + 1) = _
    rw [List.take_add_one, List.take_set_of_le le_rfl, List.getElem?_set_self (by omega)]
    rfl
  | n + 1 => by
    rw [moveBytes, List.take_set_of_le (by omega)]
    exact take_moveBytes hlen n

/-- The bytes of two characters that are joined: the number of bytes of the second one stays, and
one of its bytes goes, unless it has only one. -/
def joinedBytes (bs₁ bs₂ : List ℕ) : List ℕ :=
  bs₁ ++ (bs₂.length :: bs₂).eraseIdx (bs₂.length - 1)

theorem length_joinedBytes (bs₁ bs₂ : List ℕ) :
    (joinedBytes bs₁ bs₂).length = bs₁.length + bs₂.length := by
  rw [joinedBytes, List.length_append, List.length_eraseIdx_of_lt (by simp)]
  simp

theorem joined_eq (pre : List ℕ) {bs₁ bs₂ : List ℕ} (h : 0 < bs₂.length) (n : ℕ) :
    (moveBytes (pre.length + (bs₁.length + bs₂.length)) bs₂.length
        ((pre ++ bs₁.length :: bs₁ ++ bs₂.length :: bs₂).set pre.length n)).take
      ((pre ++ bs₁.length :: bs₁ ++ bs₂.length :: bs₂).length - 1)
      = pre ++ n :: joinedBytes bs₁ bs₂ := by
  have hset : (pre ++ bs₁.length :: bs₁ ++ bs₂.length :: bs₂).set pre.length n
      = pre ++ n :: (bs₁ ++ bs₂.length :: bs₂) := by
    rw [List.append_assoc, List.set_append_right _ _ le_rfl, Nat.sub_self]
    rfl
  obtain ⟨k, hk⟩ : ∃ k, bs₂.length = k + 1 := ⟨bs₂.length - 1, by omega⟩
  have hlen : (pre ++ n :: (bs₁ ++ bs₂.length :: bs₂)).length
      = pre.length + (bs₁.length + bs₂.length) + 2 := by
    simp
    omega
  have hcut : (pre ++ bs₁.length :: bs₁ ++ bs₂.length :: bs₂).length - 1
      = pre.length + (bs₁.length + bs₂.length) + 1 := by
    simp
    omega
  have hpre : pre ++ n :: (bs₁ ++ bs₂.length :: bs₂)
      = (pre ++ n :: bs₁) ++ bs₂.length :: bs₂ := by simp
  have hmoved := take_moveBytes hlen k
  rw [← hk] at hmoved
  rw [hset, hcut, hmoved, hpre]
  have hpl : (pre ++ n :: bs₁).length = pre.length + bs₁.length + 1 := by
    simp [Nat.add_assoc]
  have htake : ((pre ++ n :: bs₁) ++ bs₂.length :: bs₂).take
      (pre.length + (bs₁.length + bs₂.length)) = pre ++ n :: bs₁ ++ (bs₂.length :: bs₂).take k := by
    have : pre.length + (bs₁.length + bs₂.length) = (pre ++ n :: bs₁).length + k := by omega
    rw [this, List.take_length_add_append]
  have hbyte : byteAt ((pre ++ n :: bs₁) ++ bs₂.length :: bs₂)
      (pre.length + (bs₁.length + bs₂.length) + 1) = byteAt (bs₂.length :: bs₂) (k + 1) := by
    have : pre.length + (bs₁.length + bs₂.length) + 1 = (pre ++ n :: bs₁).length + (k + 1) := by
      omega
    rw [this, byteAt_append_right]
  have hlast : (bs₂.length :: bs₂).drop (k + 1) = [byteAt (bs₂.length :: bs₂) (k + 1)] := by
    rw [List.drop_eq_getElem_cons (by simp; omega), List.drop_eq_nil_of_le (by simp; omega)]
    rw [byteAt, List.getD_eq_getElem _ _ (by simp; omega)]
  have herase : (bs₂.length :: bs₂).eraseIdx (bs₂.length - 1)
      = (bs₂.length :: bs₂).take k ++ [byteAt (bs₂.length :: bs₂) (k + 1)] := by
    rw [← hlast, List.eraseIdx_eq_take_drop_succ, show bs₂.length - 1 = k by omega]
  rw [htake, hbyte, joinedBytes, herase]
  simp

/-- The code since the start of an alternative is that of a tree, whose last term starts at
`last`. -/
def LastTerm (cc : ℕ) (base code : List ℕ) : Option ℕ → Prop
  | none => ∃ a : Node, a.Ok cc ∧ code = base ++ a.raw
  | some last => ∃ a t : Node, a.Ok cc ∧ t.Ok cc ∧ code = base ++ a.raw ++ t.raw
    ∧ last = (base ++ a.raw).length

theorem LastTerm.tree {base code : List ℕ} {last : Option ℕ} (h : LastTerm cc base code last) :
    ∃ a : Node, a.Ok cc ∧ code = base ++ a.raw := by
  cases last with
  | none => exact h
  | some last =>
    obtain ⟨a, t, ha, ht, hcode, -⟩ := h
    exact ⟨.cat a t, ⟨ha, ht⟩, by rw [hcode, raw_cat, List.append_assoc]⟩

theorem LastTerm.mono {base code : List ℕ} {last : Option ℕ} {cc' : ℕ}
    (h : LastTerm cc base code last) (hcc : cc ≤ cc') : LastTerm cc' base code last := by
  cases last with
  | none =>
    obtain ⟨a, ha, hcode⟩ := h
    exact ⟨a, ha.mono hcc, hcode⟩
  | some last =>
    obtain ⟨a, t, ha, ht, h⟩ := h
    exact ⟨a, t, ha.mono hcc, ht.mono hcc, h⟩

/-- Two terms that are joined are characters, and become one. -/
theorem combineChars_joined {pre x₁ x₂ : List ℕ} {n₁ n₂ : ℕ}
    (h₁ : reIsChar (pre ++ x₁ ++ x₂) pre.length (pre ++ x₁).length = n₁)
    (h₂ : reIsChar (pre ++ x₁ ++ x₂) (pre ++ x₁).length (pre ++ x₁ ++ x₂).length = n₂)
    (hn₁ : 0 < n₁) (hn₂ : 0 < n₂) (hn : n₁ + n₂ ≤ 4) :
    ∃ bs₁ bs₂, x₁ = (Op.char bs₁).encode ∧ x₂ = (Op.char bs₂).encode ∧ bs₁.length = n₁
      ∧ bs₂.length = n₂ ∧ combineChars (pre ++ x₁ ++ x₂) (some pre.length) (pre ++ x₁).length
        = (pre ++ (Op.char (joinedBytes bs₁ bs₂)).encode, pre.length) := by
  rw [List.length_append] at h₁
  have hx₂ : pre ++ x₁ ++ x₂ = (pre ++ x₁) ++ x₂ ++ [] := (List.append_nil _).symm
  have h₂' := h₂
  rw [@List.length_append _ (pre ++ x₁), hx₂] at h₂'
  obtain ⟨bs₁, rfl, hb₁, -⟩ := reIsChar_eq h₁ hn₁
  obtain ⟨bs₂, rfl, hb₂, -⟩ := reIsChar_eq h₂' hn₂
  refine ⟨bs₁, bs₂, by rw [Op.encode, Op.code, hb₁]; rfl, by rw [Op.encode, Op.code, hb₂]; rfl, hb₁,
    hb₂, ?_⟩
  rw [← List.length_append] at h₁
  have hlen := length_joinedBytes bs₁ bs₂
  rw [combineChars]
  simp only [h₁, h₂]
  rw [if_pos ⟨hn₁, hn₂, hn⟩]
  have hjoin := @joined_eq pre bs₁ bs₂ (by omega) (n₁ + n₂)
  rw [hb₁, hb₂] at hjoin
  simp only [length_moveBytes, List.length_set]
  rw [hjoin, Op.encode, Op.code, hlen, hb₁, hb₂]
  rfl

theorem combineChars_emits {base code : List ℕ} {last : Option ℕ} (h : LastTerm cc base code last)
    (ht : t.Ok cc) :
    LastTerm cc base (combineChars (code ++ t.raw) last code.length).1
      (some (combineChars (code ++ t.raw) last code.length).2) := by
  have hsame : ∀ {code : List ℕ} {a : Node}, a.Ok cc → code = base ++ a.raw →
      LastTerm cc base (code ++ t.raw) (some code.length) := by
    intro code a ha hcode
    exact ⟨a, t, ha, ht, by rw [hcode], by rw [hcode]⟩
  cases last with
  | none =>
    obtain ⟨a, ha, hcode⟩ := h
    exact hsame ha hcode
  | some last =>
    obtain ⟨a, t₁, ha, ht₁, hcode, hlast⟩ := h
    by_cases hj : 0 < reIsChar (code ++ t.raw) last code.length
        ∧ 0 < reIsChar (code ++ t.raw) code.length (code ++ t.raw).length
        ∧ reIsChar (code ++ t.raw) last code.length
          + reIsChar (code ++ t.raw) code.length (code ++ t.raw).length ≤ 4
    · subst hcode hlast
      obtain ⟨bs₁, bs₂, -, -, h₁, h₂, heq⟩ := combineChars_joined rfl rfl hj.1 hj.2.1 hj.2.2
      rw [heq]
      refine ⟨a, .op (.char (joinedBytes bs₁ bs₂)), ha, ?_, by rw [raw_op], rfl⟩
      have hlen := length_joinedBytes bs₁ bs₂
      exact ⟨by omega, by omega⟩
    · have heq : combineChars (code ++ t.raw) (some last) code.length
          = (code ++ t.raw, code.length) := by
        rw [combineChars]
        exact if_neg hj
      rw [heq]
      exact hsame (a := .cat a t₁) ⟨ha, ht₁⟩ (by rw [hcode, raw_cat, List.append_assoc])

/-! ### Quantifiers that are read -/

/-- The bounds are in order, and short integers. -/
def Quantifier.Ok (q : Quantifier) : Prop := q.quantMin ≤ q.quantMax ∧ q.quantMax ≤ shortIntMax

theorem parseDigits_le (pos : ℕ) : (parseDigits src pos).1 ≤ shortIntMax := by
  unfold parseDigits
  simp only
  generalize ((src.buf.drop pos).takeWhile Json.isNum) = ds
  induction ds using List.reverseRecOn with
  | nil => exact Nat.zero_le _
  | append_singleton ds d ih =>
    rw [List.foldl_concat]
    exact min_le_right _ _

theorem lazyMark_ok {quantMin quantMax pos : ℕ} {x : Quantifier × ℕ}
    (h : lazyMark src quantMin quantMax pos = some x) (hle : quantMin ≤ quantMax)
    (hmax : quantMax ≤ shortIntMax) : x.1.Ok := by
  unfold lazyMark at h
  split_ifs at h <;> cases h <;> exact ⟨hle, hmax⟩

theorem closeBrace_ok {quantMin quantMax pos : ℕ} {x : Quantifier × ℕ}
    (h : closeBrace src quantMin quantMax pos = .ok (some x)) (hle : quantMin ≤ quantMax)
    (hmax : quantMax ≤ shortIntMax) : x.1.Ok := by
  obtain ⟨p, -, h⟩ := ok_of_bind h
  exact lazyMark_ok (Except.ok.inj h) hle hmax

theorem readQuantifier_ok {pos : ℕ} {x : Quantifier × ℕ}
    (h : readQuantifier src pos = .ok (some x)) : x.1.Ok := by
  unfold readQuantifier at h
  split at h
  · exact lazyMark_ok (Except.ok.inj h) (Nat.zero_le _) le_rfl
  · exact lazyMark_ok (Except.ok.inj h) (by norm_num [shortIntMax]) le_rfl
  · exact lazyMark_ok (Except.ok.inj h) (Nat.zero_le _) (by norm_num [shortIntMax])
  · have h1 := @parseDigits_le src (pos + 1)
    rcases hd : parseDigits src (pos + 1) with ⟨quantMin, p⟩
    rw [hd] at h h1
    have h2 := @parseDigits_le src (p + 1)
    rcases hd' : parseDigits src (p + 1) with ⟨quantMax, p'⟩
    rw [hd'] at h2
    simp only [hd'] at h
    split_ifs at h with h3 h4 h5 h6
    · exact closeBrace_ok h (by omega) h2
    · exact closeBrace_ok h h1 le_rfl
    · exact closeBrace_ok h le_rfl h1
  · cases h

theorem reParseQuantifier_emits {st st' st'' : PState} (h : Emits st st' a)
    (hq : reParseQuantifier src st' st.code.length st.captureCount = .ok st'') :
    ∃ b, Emits st st'' b := by
  obtain ⟨x, hr, hq⟩ := ok_of_bind hq
  rcases x with _ | ⟨q, pos⟩
  · cases hq
    exact ⟨a, h⟩
  · cases hq
    obtain ⟨hle, hmax⟩ := readQuantifier_ok hr
    obtain ⟨b, hb, heq⟩ := quantify_emits st.code h.ok h.le hle hmax
    refine ⟨b, ?_, hb, h.le, h.max⟩
    rw [← heq, ← h.code]

theorem quantifyTerm_emits {st st' : PState} {t : Term} (ht : TermEmits st t)
    (h : quantifyTerm src t = .ok st') : ∃ b, Emits st st' b := by
  obtain ⟨a, ha⟩ := ht.emits
  unfold quantifyTerm at h
  rcases ht' : t.2 with _ | x
  · rw [ht'] at h
    cases h
    exact ⟨a, ha⟩
  · rw [ht', ht.atom x ht'] at h
    exact reParseQuantifier_emits ha h

/-! ### Alternatives -/

/-- A second alternative, with the choice in front of the first one and the jump behind it. -/
theorem alternatives_code (base : List ℕ) (a b : Node) :
    putU32 (base ++ (Op.split true (a.size + 5)).encode ++ a.raw ++ (Op.goto 0).encode ++ b.raw)
        ((base ++ (Op.split true (a.size + 5)).encode ++ a.raw).length + 1) b.size
      = base ++ (Node.alt a b).raw := by
  have h := putU32_append (base ++ (Op.split true (a.size + 5)).encode ++ a.raw) b.raw
    (Op.goto 0).code 0 b.size
  rw [raw_alt]
  refine h.trans ?_
  simp only [List.append_assoc]
  rfl

mutual

theorem reParseAlternative_emits : ∀ {fuel : ℕ} {st st' : PState} {last : Option ℕ}
    {base : List ℕ}, reParseAlternative src fuel st last = .ok st' →
    LastTerm st.captureCount base st.code last →
    (∃ a : Node, a.Ok st'.captureCount ∧ st'.code = base ++ a.raw)
      ∧ st.captureCount ≤ st'.captureCount
      ∧ (st.captureCount ≤ captureCountMax → st'.captureCount ≤ captureCountMax)
  | 0, _, _, _, _, h, _ => by cases h
  | fuel + 1, st, st', last, base, h, hlast => by
    rw [reParseAlternative] at h
    by_cases hend : src.bufLen ≤ st.pos ∨ src.byte st.pos = 0x7c ∨ src.byte st.pos = 0x29
    · rw [if_pos hend] at h
      cases h
      exact ⟨hlast.tree, le_rfl, id⟩
    rw [if_neg hend] at h
    obtain ⟨t, hterm, h⟩ := ok_of_bind h
    obtain ⟨st₂, hquant, h⟩ := ok_of_bind h
    obtain ⟨b, hb⟩ := quantifyTerm_emits
      (reParseTerm_emits (fun hd => reParseDisjunction_emits hd) hterm) hquant
    have hcomb := combineChars_emits (hlast.mono hb.le) hb.ok
    rw [← hb.code] at hcomb
    obtain ⟨htree, hle, hmax⟩ := reParseAlternative_emits h hcomb
    exact ⟨htree, hb.le.trans hle, fun hm => hmax (hb.max hm)⟩

theorem reParseDisjunction_emits : ∀ {fuel : ℕ} {st st' : PState},
    reParseDisjunction src fuel st = .ok st' → ∃ a, Emits st st' a
  | 0, _, _, h => by cases h
  | fuel + 1, st, st', h => by
    rw [reParseDisjunction] at h
    obtain ⟨st₁, halt, h⟩ := ok_of_bind h
    obtain ⟨⟨a, ha, hcode⟩, hle, hmax⟩ :=
      @reParseAlternative_emits _ _ _ _ st.code halt ⟨.nil, trivial, by simp⟩
    exact moreAlternatives_emits ⟨hcode, ha, hle, hmax⟩ h

theorem moreAlternatives_emits : ∀ {fuel : ℕ} {st st' st'' : PState} {a : Node}, Emits st st' a →
    moreAlternatives src fuel st.code.length st' = .ok st'' → ∃ b, Emits st st'' b
  | 0, _, _, _, _, _, h => by cases h
  | fuel + 1, st, st', st'', a, ha, h => by
    rw [moreAlternatives] at h
    by_cases hbar : src.byte st'.pos = 0x7c
    · rw [if_pos hbar] at h
      obtain ⟨st₂, halt, h⟩ := ok_of_bind h
      have hlen : ((st'.code.length - st.code.length : ℕ) : ℤ) + 5 = a.size + 5 := by
        rw [ha.code, List.length_append, length_raw]
        omega
      obtain ⟨⟨b, hb, hcode⟩, hle, hmax⟩ := reParseAlternative_emits halt
        ⟨.nil, trivial, (List.append_nil _).symm⟩
      have hins : insertAt st'.code st.code.length
          (Op.split true ((st'.code.length - st.code.length : ℕ) + 5)).encode
          = st.code ++ (Op.split true (a.size + 5)).encode ++ a.raw := by
        rw [hlen, ha.code, insertAt_append, List.append_assoc]
      have hbranch := alternatives_code st.code a b
      rw [← hins] at hbranch
      generalize insertAt st'.code st.code.length
        (Op.split true ((st'.code.length - st.code.length : ℕ) + 5)).encode = pre
        at hcode h hbranch
      have hval : (st₂.code.length : ℤ) - ((pre.length + 1 : ℕ) + 4) = b.size := by
        rw [hcode, List.length_append, List.length_append, Op.length_encode, length_raw]
        simp [Op.size, Op.operands]
        omega
      rw [← hcode, ← hval] at hbranch
      have hem : Emits st ⟨st₂.pos, putU32 st₂.code (pre.length + 1)
          (st₂.code.length - ((pre.length + 1 : ℕ) + 4)), st₂.captureCount⟩ (.alt a b) :=
        ⟨hbranch, ⟨ha.ok.mono hle, hb⟩, ha.le.trans hle, fun hm => hmax (ha.max hm)⟩
      exact moreAlternatives_emits hem h
    · rw [if_neg hbar] at h
      cases h
      exact ⟨a, ha⟩

end

end Qjs.Regexp
