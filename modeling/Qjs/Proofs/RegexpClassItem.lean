import Qjs.Proofs.JsonLex
import Qjs.Proofs.RegexpClass

/-!
# Regular expressions: what a class accepts

The bounds emitted for an item are those of the characters it denotes (`emit_spec`), so the
instruction for a class accepts the characters the class denotes (`reParseCharClass_spec`).
-/

namespace Qjs.Regexp

open Intervals Json Wtf8

variable {src : Source} {c : ℕ}

/-! ### Bounds of items -/

/-- The bounds are intervals of characters, of those that `p` says. -/
structure Emitted (tab : List ℕ) (p : ℕ → Prop) : Prop where
  even : tab.length % 2 = 0
  valid : Valid (intervals tab)
  top : ∀ x ∈ intervals tab, x.2 ≤ 0x110000
  mem : ∀ c < 0x110000, Mem (intervals tab) c ↔ p c

theorem Emitted.nil : Emitted [] fun _ => False :=
  ⟨rfl, fun _ h => (List.not_mem_nil h).elim, fun _ h => (List.not_mem_nil h).elim,
    fun _ _ => mem_nil⟩

theorem Emitted.append {tab tab' : List ℕ} {p q : ℕ → Prop} (h : Emitted tab p)
    (h' : Emitted tab' q) : Emitted (tab ++ tab') fun c => p c ∨ q c := by
  have heq := intervals_append tab' h.even
  refine ⟨?_, ?_, ?_, ?_⟩
  · have h1 := h.even
    have h2 := h'.even
    rw [List.length_append]
    omega
  · intro x hx
    rw [heq, List.mem_append] at hx
    exact hx.elim (h.valid x) (h'.valid x)
  · intro x hx
    rw [heq, List.mem_append] at hx
    exact hx.elim (h.top x) (h'.top x)
  · intro c hc
    rw [heq, mem_append, h.mem c hc, h'.mem c hc]

theorem Emitted.congr {tab : List ℕ} {p q : ℕ → Prop} (h : Emitted tab p)
    (hpq : ∀ c < 0x110000, p c ↔ q c) : Emitted tab q :=
  ⟨h.even, h.valid, h.top, fun c hc => (h.mem c hc).trans (hpq c hc)⟩

theorem Emitted.interval {lo hi : ℕ} (h : lo ≤ hi) (htop : hi ≤ 0x110000) :
    Emitted [lo, hi] fun c => lo ≤ c ∧ c < hi := by
  refine ⟨by simp, ?_, ?_, ?_⟩
  · intro x hx
    rw [List.mem_singleton.1 hx]
    exact h
  · intro x hx
    rw [List.mem_singleton.1 hx]
    exact htop
  · intro c _
    change Mem [(lo, hi)] c ↔ _
    rw [mem_cons, mem_nil, or_false]

/-- The common part of two intervals, and the same part moved. -/
theorem addIntervalIntersect_emitted {lo hi lo1 hi1 : ℕ} {offset : ℤ} (hhi : hi ≤ 0x110000)
    (hlo : offset ≠ 0 → 0 ≤ lo1 + offset ∧ hi1 + offset ≤ 0x110000) :
    Emitted (addIntervalIntersect lo hi lo1 hi1 offset) fun c =>
      (lo ≤ c ∧ c < hi ∧ lo1 ≤ c ∧ c < hi1) ∨ (offset ≠ 0 ∧ (lo : ℤ) ≤ c - offset
        ∧ c - offset < hi ∧ lo1 ≤ c - offset ∧ c - offset < hi1) := by
  unfold addIntervalIntersect
  simp only
  obtain ⟨a, ha⟩ : ∃ a, a = max lo lo1 := ⟨_, rfl⟩
  obtain ⟨b, hb⟩ : ∃ b, b = min hi hi1 := ⟨_, rfl⟩
  rw [← ha, ← hb]
  have ha₁ : lo ≤ a ∧ lo1 ≤ a ∧ (a = lo ∨ a = lo1) := by omega
  have hb₁ : b ≤ hi ∧ b ≤ hi1 ∧ (b = hi ∨ b = hi1) := by omega
  clear ha hb
  by_cases h1 : a < b
  · rw [if_pos h1]
    have hsame := Emitted.interval h1.le (show b ≤ 0x110000 by omega)
    by_cases h2 : offset ≠ 0
    · rw [if_pos h2]
      obtain ⟨h3, h4⟩ := hlo h2
      have ha' : (toU32 (a + offset) : ℤ) = a + offset := by
        unfold toU32
        omega
      have hb' : (toU32 (b + offset) : ℤ) = b + offset := by
        unfold toU32
        omega
      have hmoved := Emitted.interval (show toU32 (a + offset) ≤ toU32 (b + offset) by omega)
        (by omega)
      refine (hsame.append hmoved).congr fun c _ => ?_
      omega
    · rw [if_neg h2]
      refine hsame.congr fun c _ => ?_
      omega
  · rw [if_neg h1]
    refine Emitted.nil.congr fun c _ => ?_
    simp only [false_iff]
    rintro (h | ⟨-, h⟩) <;> omega

/-- Characters that are the same, or differ in case when this is ignored. -/
def SameChar (ignoreCase : Bool) (c' c : ℕ) : Prop :=
  if ignoreCase then lreCanonicalize c' = lreCanonicalize c else c' = c

theorem addRange_emitted {c1 c2 : ℕ} (h : c1 ≤ c2) (h2 : c2 < 0x110000) :
    Emitted (addRange src c1 c2) fun c => ∃ c' < 0x110000, SameChar src.ignoreCase c' c
      ∧ c1 ≤ c' ∧ c' ≤ c2 := by
  unfold addRange SameChar
  rcases hic : src.ignoreCase with _ | _
  · simp only [Bool.false_eq_true, if_false]
    refine (Emitted.interval (by omega) (by omega)).congr fun c hc => ?_
    constructor
    · intro h
      exact ⟨c, hc, rfl, by omega, by omega⟩
    · rintro ⟨c', _, rfl, h⟩
      omega
  · simp only [if_true]
    have part := fun (lo1 hi1 : ℕ) (offset : ℤ) => @addIntervalIntersect_emitted c1
      (c2 + 1) lo1 hi1 offset (by omega)
    refine (((((part 0 0x41 0 (by simp)).append (part (0x5a + 1) 0x61 0 (by simp))).append
      (part (0x7a + 1) (2 ^ 31 - 1) 0 (by simp))).append
      (part 0x41 (0x5a + 1) 32 (by simp))).append
      (part 0x61 (0x7a + 1) (-32) (by simp))).congr fun c hc => ?_
    have hcanon : ∀ x, lreCanonicalize x = if 0x41 ≤ x ∧ x ≤ 0x5a then x + 32 else x := fun _ => rfl
    constructor
    · intro h
      by_cases hself : c1 ≤ c ∧ c ≤ c2
      · exact ⟨c, hc, rfl, hself⟩
      · by_cases hup : 0x41 ≤ c ∧ c ≤ 0x5a
        · refine ⟨c + 32, by omega, ?_, by omega, by omega⟩
          rw [hcanon, hcanon, if_pos hup, if_neg (by omega)]
        · refine ⟨c - 32, by omega, ?_, by omega, by omega⟩
          rw [hcanon, hcanon, if_neg hup, if_pos (by omega)]
          omega
    · rintro ⟨c', hc', heq, h1, h2⟩
      rw [hcanon, hcanon] at heq
      split_ifs at heq <;> omega

theorem reEmitRangeBase_emitted (r : CharRange) :
    Emitted (reEmitRangeBase r) fun c => r.Mem c := by
  have hmem : ∀ c < 0x110000, Mem (intervals (reEmitRangeBase r)) c ↔ r.Mem c := by
    intro c hc
    cases r <;>
      simp only [reEmitRangeBase, charRangeS, charRangeW, intervals, mem_cons, mem_nil, or_false,
        List.cons_append, List.nil_append, CharRange.Mem, isWordChar, unicodeIsSpaceAscii,
        unicodeIsSpaceNonAscii]
    · omega
    · omega
    · split_ifs <;> simp <;> omega
    · split_ifs <;> simp <;> omega
    · simp
      omega
    · simp
      omega
  refine ⟨by cases r <;> rfl, ?_, ?_, hmem⟩
  · change ∀ x ∈ intervals (reEmitRangeBase r), x.1 ≤ x.2
    cases r <;> decide
  · cases r <;> decide

/-- Case makes no difference to a range. -/
theorem CharRange.mem_of_sameChar {r : CharRange} {ignoreCase : Bool} {c' : ℕ}
    (h : SameChar ignoreCase c' c) : r.Mem c' ↔ r.Mem c := by
  unfold SameChar lreCanonicalize at h
  rcases ignoreCase with _ | _
  · simp only [Bool.false_eq_true, if_false] at h
    rw [h]
  · simp only [if_true] at h
    by_cases heq : c' = c
    · rw [heq]
    have hletter : (0x41 ≤ c' ∧ c' ≤ 0x5a ∧ c = c' + 32) ∨ (0x41 ≤ c ∧ c ≤ 0x5a ∧ c' = c + 32) := by
      split_ifs at h <;> omega
    have hasc : c' < 128 ∧ c < 128 := by omega
    cases r <;>
      simp only [CharRange.Mem, isWordChar, unicodeIsSpaceAscii, if_pos hasc.1, if_pos hasc.2,
        Bool.or_eq_true, Bool.and_eq_true, decide_eq_true_eq, beq_iff_eq] <;> omega

/-! ### Atoms -/

theorem fromHex_lt {d h : ℕ} (hh : fromHex d = some h) : h < 16 := by
  unfold fromHex at hh
  split_ifs at hh <;> cases hh <;> omega

theorem escapeHex_lt : ∀ {n c v : ℕ} {p r : List ℕ}, escapeHex n c p = .value v r →
    v < (c + 1) * 16 ^ n
  | 0, c, v, p, r, h => by
    cases h
    omega
  | n + 1, c, v, [], r, h => by cases h
  | n + 1, c, v, d :: p, r, h => by
    rw [escapeHex] at h
    rcases hd : fromHex d with _ | x
    · rw [hd] at h
      cases h
    · rw [hd] at h
      have hx := fromHex_lt hd
      have hlt := escapeHex_lt h
      rw [or_shift (k := 4) (by omega)] at hlt
      calc v < (c * 2 ^ 4 + x + 1) * 16 ^ n := hlt
        _ ≤ ((c + 1) * 16) * 16 ^ n := Nat.mul_le_mul_right _ (by omega)
        _ = (c + 1) * 16 ^ (n + 1) := by ring

theorem escapeBraces_le : ∀ {c v : ℕ} {p r : List ℕ}, escapeBraces c p = .value v r → v ≤ 0x10ffff
  | c, v, [], r, h => by cases h
  | c, v, d :: p, r, h => by
    rw [escapeBraces] at h
    rcases hd : fromHex d with _ | x
    · rw [hd] at h
      cases h
    · rw [hd] at h
      simp only at h
      split_ifs at h with h1 h2
      · cases h
        omega
      · exact escapeBraces_le h

theorem jsParseEscape_lt {p r : List ℕ} {v : ℕ} (h : jsParseEscape p = .value v r) :
    v < 0x110000 := by
  unfold jsParseEscape at h
  simp only at h
  rcases hc : escapeChar (cur p) with _ | v'
  · rw [hc] at h
    simp only at h
    split_ifs at h
    · have := escapeHex_lt h
      omega
    · have := escapeBraces_le h
      omega
    · have := escapeHex_lt h
      omega
    · cases h
      omega
  · rw [hc] at h
    cases h
    unfold escapeChar at hc
    split at hc <;> cases hc <;> omega

theorem unicodeFromUtf8_lt {p : List ℕ} {n : ℕ} (h : unicodeFromUtf8 p = some (c, n)) :
    c < 0x110000 := by
  by_cases h0 : 0x80 ≤ byteAt p 0
  · exact (unicodeFromUtf8_some h0 h).2.1
  · unfold unicodeFromUtf8 at h
    rw [if_pos (by omega)] at h
    cases h
    omega

theorem normalChar_lt {pos p pos' : ℕ} (h : normalChar src pos p = .ok (.char c, pos')) :
    c < 0x110000 := by
  unfold normalChar at h
  rcases hu : unicodeFromUtf8 (src.buf.drop p) with _ | ⟨c', len⟩
  · rw [hu] at h
    cases h
  · rw [hu] at h
    cases h
    exact unicodeFromUtf8_lt hu

/-- What is read is a character. -/
theorem getClassAtom_lt {pos pos' : ℕ} {inclass : Bool}
    (h : getClassAtom src pos inclass = .ok (.char c, pos')) : c < 0x110000 := by
  unfold getClassAtom at h
  simp only at h
  by_cases h1 : src.byte pos = 0x5c
  · rw [if_pos h1] at h
    rcases hr : charRange (src.byte (pos + 1)) with _ | r
    · rw [hr] at h
      simp only at h
      by_cases h2 : src.byte (pos + 1) = 0x63
      · rw [if_pos h2] at h
        unfold controlEscape at h
        simp only at h
        split_ifs at h
        · cases h
          omega
        · cases h
        · cases h
          omega
      rw [if_neg h2] at h
      by_cases h3 : src.byte (pos + 1) = 0x2d
      · rw [if_pos h3] at h
        split_ifs at h <;> cases h
        omega
      rw [if_neg h3] at h
      by_cases h4 : isSyntaxChar (src.byte (pos + 1)) = true
      · rw [if_pos h4] at h
        cases h
        unfold isSyntaxChar at h4
        simp only [List.mem_cons, List.not_mem_nil, or_false, decide_eq_true_eq] at h4
        omega
      rw [if_neg h4] at h
      rcases he : jsParseEscape (src.buf.drop (pos + 1)) with ⟨v, p⟩ | _ | _
      · rw [he] at h
        cases h
        exact jsParseEscape_lt he
      all_goals
        rw [he] at h
        simp only at h
        split_ifs at h
        · cases h
        · exact normalChar_lt h
    · rw [hr] at h
      cases h
  · rw [if_neg h1] at h
    split_ifs at h
    exact normalChar_lt h

/-! ### Classes -/

/-- The ends of an item are characters. -/
def ClassItem.Ok : ClassItem → Prop
  | chars c1 c2 => c1 ≤ c2 ∧ c2 < 0x110000
  | range _ => True

theorem classItem_ok {pos pos' : ℕ} {item : ClassItem} (h : classItem src pos = .ok (item, pos')) :
    item.Ok := by
  unfold classItem at h
  rcases h1 : getClassAtom src pos true with _ | ⟨a1, p⟩
  · rw [h1] at h
    cases h
  rw [h1] at h
  change (if src.byte p = 0x2d ∧ src.byte (p + 1) ≠ 0x5d then _ else _) = _ at h
  split_ifs at h with hdash
  · rcases a1 with c1 | r
    · rcases h2 : getClassAtom src (p + 1) true with _ | ⟨a2, p2⟩
      · rw [h2] at h
        cases h
      rw [h2] at h
      rcases a2 with c2 | r
      · change (if c2 < c1 then _ else _) = _ at h
        split_ifs at h with hlt
        · cases h
        · cases h
          exact ⟨by omega, getClassAtom_lt h2⟩
      · cases h
    · cases h
  · rcases a1 with c1 | r
    · cases h
      exact ⟨le_rfl, getClassAtom_lt h1⟩
    · cases h
      trivial

theorem classItems_ok : ∀ {fuel pos pos' : ℕ} {items : List ClassItem},
    classItems src fuel pos = .ok (items, pos') → ∀ item ∈ items, item.Ok
  | 0, _, _, _, h => by cases h
  | fuel + 1, pos, pos', items, h => by
    rw [classItems] at h
    split_ifs at h with hend
    · cases h
      intro item hi
      cases hi
    · rcases h1 : classItem src pos with _ | ⟨item, p⟩
      · rw [h1] at h
        cases h
      rw [h1] at h
      change (classItems src fuel p >>= _) = _ at h
      rcases h2 : classItems src fuel p with _ | ⟨items', p'⟩
      · rw [h2] at h
        cases h
      rw [h2] at h
      cases h
      intro item' hi
      rcases List.mem_cons.1 hi with rfl | hi
      · exact classItem_ok h1
      · exact classItems_ok h2 item' hi

/-- What is emitted for the items has the characters that they denote. -/
theorem emit_spec : ∀ {items : List ClassItem}, (∀ item ∈ items, item.Ok) →
    Emitted (items.flatMap (ClassItem.emit src)) (ClassMem src.ignoreCase items)
  | [], _ => Emitted.nil.congr fun c _ => by simp [ClassMem]
  | item :: items, h => by
    have ih := @emit_spec items fun i hi => h i (List.mem_cons_of_mem _ hi)
    have hitem : Emitted (item.emit src) fun c =>
        ∃ c' < 0x110000, SameChar src.ignoreCase c' c ∧ item.Mem c' := by
      cases item with
      | chars c1 c2 =>
        obtain ⟨h1, h2⟩ := h (.chars c1 c2) List.mem_cons_self
        exact addRange_emitted h1 h2
      | range r =>
        refine (reEmitRangeBase_emitted r).congr fun c hc => ?_
        constructor
        · intro hm
          refine ⟨c, hc, ?_, hm⟩
          unfold SameChar
          split_ifs <;> rfl
        · rintro ⟨c', _, hs, hm⟩
          exact (CharRange.mem_of_sameChar hs).1 hm
    rw [List.flatMap_cons]
    refine (hitem.append ih).congr fun c _ => ?_
    unfold ClassMem
    constructor
    · rintro (⟨c', h1, h2, h3⟩ | ⟨c', h1, h2, i, hi, h3⟩)
      · exact ⟨c', h1, h2, item, List.mem_cons_self, h3⟩
      · exact ⟨c', h1, h2, i, List.mem_cons_of_mem _ hi, h3⟩
    · rintro ⟨c', h1, h2, i, hi, h3⟩
      rcases List.mem_cons.1 hi with rfl | hi
      · exact .inl ⟨c', h1, h2, h3⟩
      · exact .inr ⟨c', h1, h2, i, hi, h3⟩

theorem reEmitRange_op {pos : ℕ} {l : List (ℕ × ℕ)} {op : Op} (h : reEmitRange pos l = .ok op) :
    ∃ tab, op = .range8 tab ∨ op = .range tab := by
  unfold reEmitRange at h
  simp only at h
  split_ifs at h <;> cases h
  · exact ⟨_, .inl rfl⟩
  · exact ⟨_, .inr rfl⟩

/-- The characters a class denotes: those of its items, or the other ones. -/
def ClassDenotes (src : Source) (pos : ℕ) (items : List ClassItem) (c : ℕ) : Prop :=
  if (classStart src pos).1 then ¬ ClassMem src.ignoreCase items c
  else ClassMem src.ignoreCase items c

/-- A class is an instruction for a normal list of intervals, of the characters that it denotes. -/
theorem reParseCharClass_eq {pos pos' : ℕ} {op : Op}
    (h : reParseCharClass src pos = .ok (op, pos')) :
    ∃ items l, classItems src (src.buf.length + 1) (classStart src pos).2 = .ok (items, pos')
      ∧ l = reRangeOptimize (items.flatMap (ClassItem.emit src)) (classStart src pos).1
      ∧ reEmitRange pos' l = .ok op ∧ Normal l ∧ (∀ x ∈ l, x.2 ≤ 0x110000)
      ∧ ∀ c < 0x110000, Mem l c ↔ ClassDenotes src pos items c := by
  unfold reParseCharClass at h
  unfold ClassDenotes
  rcases hst : classStart src pos with ⟨invert, p⟩
  rw [hst] at h
  simp only at h
  rcases h1 : classItems src (src.buf.length + 1) p with _ | ⟨items, p'⟩
  · rw [h1] at h
    cases h
  rw [h1] at h
  change (reEmitRange p' (reRangeOptimize (items.flatMap (ClassItem.emit src)) invert) >>= _)
    = _ at h
  rcases h2 : reEmitRange p' (reRangeOptimize (items.flatMap (ClassItem.emit src)) invert)
    with _ | op'
  · rw [h2] at h
    cases h
  rw [h2] at h
  cases h
  have hem := @emit_spec src _ (classItems_ok h1)
  obtain ⟨hn, htop, hm⟩ := reRangeOptimize_spec hem.valid hem.top invert
  refine ⟨items, _, rfl, rfl, h2, hn, htop, fun c hc => ?_⟩
  rw [hm c hc, hem.mem c hc]

theorem reParseCharClass_plain {pos pos' : ℕ} {op : Op}
    (h : reParseCharClass src pos = .ok (op, pos')) : op.Plain 0 := by
  obtain ⟨_, _, _, _, hop, hn, htop, _⟩ := reParseCharClass_eq h
  exact (reEmitRange_spec hn htop hop).1

/-! ### Running the instruction -/

theorem getChar_encodeAll {pre : List ℕ} (hc : c < 0x110000) (post : List ℕ) :
    getChar (encodeAll (pre ++ c :: post)) (encodeAll pre).length
      = (c, (encodeAll pre).length + (encode c).length) := by
  have hdrop : (encodeAll (pre ++ c :: post)).drop (encodeAll pre).length
      = encode c ++ encodeAll post := by
    rw [encodeAll_append, encodeAll_cons, List.drop_left]
  have hbyte : byteAt (encodeAll (pre ++ c :: post)) (encodeAll pre).length
      = byteAt (encode c ++ encodeAll post) 0 := by
    rw [← hdrop, byteAt_drop, Nat.add_zero]
  rw [getChar, hdrop, hbyte, utf8Get_encode hc, utf8CharLen_encode hc]

theorem matchChar_encodeAll {pre : List ℕ} (hc : c < 0x110000) (post : List ℕ) (p : ℕ → Bool) :
    matchChar (encodeAll (pre ++ c :: post)) p (encodeAll pre).length
      = if p c then some ((encodeAll pre).length + (encode c).length) else none := by
  have hlt : ¬ (encodeAll (pre ++ c :: post)).length ≤ (encodeAll pre).length := by
    rw [encodeAll_append, encodeAll_cons, List.length_append, List.length_append]
    have := encode_length c
    omega
  rw [matchChar, if_neg hlt, getChar_encodeAll hc]

/-- At the next character of the text the instruction goes over it if `p` holds of it, else the
match fails. -/
def Consumes (op : Op) (p : ℕ → Prop) : Prop :=
  ∀ (pre post : List ℕ) (c : ℕ) (code rest : List ℕ) (e : Events) (s : State), c < 0x110000 →
    s.mode = .run → code.drop s.pc = op.encode ++ rest → s.cptr = (encodeAll pre).length →
    (p c → step (encodeAll (pre ++ c :: post)) code e s
      = .next { s with pc := s.pc + op.size, cptr := s.cptr + (encode c).length })
    ∧ (¬ p c → step (encodeAll (pre ++ c :: post)) code e s
      = .next { s with pc := s.pc + op.size, mode := .noMatch })

/-- Of an instruction for one character. -/
theorem consumes_of_matchChar {op : Op} {f : ℕ → Bool} {p : ℕ → Prop} (hfits : op.Fits)
    (hwrap : op.wrap = op)
    (hop : ∀ cbuf code e s, execOp cbuf code e s op = match matchChar cbuf f s.cptr with
      | none => .next s.fail
      | some cptr => .next { s with cptr := cptr })
    (hp : ∀ c < 0x110000, f c = true ↔ p c) : Consumes op p := by
  intro pre post c code rest e s hc hmode hcode hpos
  have hstep : ∀ cbuf, step cbuf code e s
      = execOp cbuf code e { s with pc := s.pc + op.size } op := by
    intro cbuf
    unfold step
    rw [hmode, hcode, Op.decode_encode hfits, hwrap]
  have hmatch := @matchChar_encodeAll _ pre hc post f
  rw [← hpos] at hmatch
  rw [hstep, hop, hmatch, ← hp c hc]
  constructor
  · intro h
    rw [if_pos h]
  · intro h
    rw [if_neg h]
    rfl

theorem consumes_of_accepts {op : Op} {p : ℕ → Prop} (h : op.Plain 0)
    (hp : ∀ c < 0x110000, accepts c op = true ↔ p c)
    (hne : ∃ tab, op = .range8 tab ∨ op = .range tab) :
    Consumes op p := by
  obtain ⟨tab, rfl | rfl⟩ := hne
  · exact consumes_of_matchChar (f := fun c => inRange8 c tab) h rfl (fun _ _ _ _ => rfl) hp
  · exact consumes_of_matchChar (f := fun c => inRange c tab) h rfl (fun _ _ _ _ => rfl) hp

theorem consumes_space (neg : Bool) : Consumes (.space neg) fun c =>
    if neg then CharRange.S.Mem c else CharRange.s.Mem c := by
  refine consumes_of_matchChar (f := fun c =>
    (if c < 128 then unicodeIsSpaceAscii c else unicodeIsSpaceNonAscii c) ^^ neg) trivial rfl
    (fun _ _ _ _ => rfl) fun c _ => ?_
  cases neg <;> simp [CharRange.Mem]

/-- The instruction for a normal list goes over its elements. -/
theorem consumes_reEmitRange {pos : ℕ} {l : List (ℕ × ℕ)} {op : Op} {p : ℕ → Prop} (hn : Normal l)
    (htop : ∀ x ∈ l, x.2 ≤ 0x110000) (h : reEmitRange pos l = .ok op)
    (hp : ∀ c < 0x110000, Mem l c ↔ p c) : Consumes op p := by
  obtain ⟨hplain, hacc⟩ := reEmitRange_spec hn htop h
  exact consumes_of_accepts hplain (fun c hc => (hacc c hc).trans (hp c hc)) (reEmitRange_op h)

/-- The instruction for a range outside a class goes over its characters. -/
theorem atomOp_range {pos : ℕ} {r : CharRange} {op : Op} (h : atomOp src pos (.range r) = .ok op) :
    op.Plain 0 ∧ Consumes op fun c => r.Mem c := by
  have hrange : reEmitRange pos (reRangeOptimize (reEmitRangeBase r) false) = .ok op →
      op.Plain 0 ∧ Consumes op fun c => r.Mem c := by
    intro h
    have hem := reEmitRangeBase_emitted r
    obtain ⟨hn, htop, hm⟩ := reRangeOptimize_spec hem.valid hem.top false
    refine ⟨(reEmitRange_spec hn htop h).1, consumes_reEmitRange hn htop h fun c hc => ?_⟩
    rw [hm c hc, hem.mem c hc]
    simp
  cases r with
  | s =>
    cases h
    exact ⟨trivial, consumes_space false⟩
  | S =>
    cases h
    exact ⟨trivial, consumes_space true⟩
  | d | D | w | W => exact hrange h

/-- The source of a class, without case. -/
def classSource : Source := ⟨[0x5b, 0x5e, 0x61, 0x2d, 0x63, 0x5c, 0x64, 0x5d], 0, 8, 2⟩

end Qjs.Regexp
