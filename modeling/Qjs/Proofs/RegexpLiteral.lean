import Qjs.Proofs.RegexpRun

/-!
# Regular expressions: joined characters

The characters of a literal text end up in character instructions of up to four bytes
(`reParseAlternative_literals`). Joining keeps the text if what is joined is ASCII, and only then
(`flatten_joinAll`), so exactly then the instructions match it (`literals_match_iff`).
-/

namespace Qjs.Regexp

open Wtf8

variable {src : Source} {base bs bs' : List ℕ} {c n pos pos' : ℕ} {cs : List ℕ} {st : PState}

/-! ### The text of the instructions -/

/-- The bytes of the character instructions, if `bs` is in the last one when `cs` come. -/
def joinAll : List ℕ → List ℕ → List (List ℕ)
  | bs, [] => [bs]
  | bs, c :: cs =>
    if bs.length + (unicodeToUtf8 c).length ≤ 4 then joinAll (joinedBytes bs (unicodeToUtf8 c)) cs
    else bs :: joinAll (unicodeToUtf8 c) cs

theorem joinAll_prefix : ∀ (cs bs : List ℕ), ∃ rest, (joinAll bs cs).flatten = bs ++ rest
  | [], bs => ⟨[], by simp [joinAll]⟩
  | c :: cs, bs => by
    rw [joinAll]
    split_ifs
    · obtain ⟨rest, h⟩ := joinAll_prefix cs (joinedBytes bs (unicodeToUtf8 c))
      rw [h, joinedBytes, List.append_assoc]
      exact ⟨_, rfl⟩
    · rw [List.flatten_cons]
      exact ⟨_, rfl⟩

theorem length_joinAll : ∀ (cs bs : List ℕ), (joinAll bs cs).flatten.length
    = bs.length + (cs.flatMap unicodeToUtf8).length
  | [], bs => by simp [joinAll]
  | c :: cs, bs => by
    rw [joinAll, List.flatMap_cons, List.length_append]
    split_ifs
    · rw [length_joinAll, length_joinedBytes]
      omega
    · rw [List.flatten_cons, List.length_append, length_joinAll]

/-- A character of more bytes starts with one that is not their number. -/
theorem joinedBytes_eq_iff (hc : c < 0x110000) (bs : List ℕ) :
    joinedBytes bs (unicodeToUtf8 c) = bs ++ unicodeToUtf8 c ↔ (unicodeToUtf8 c).length = 1 := by
  rw [joinedBytes, List.append_cancel_left_eq, unicodeToUtf8_eq hc]
  unfold encode
  split_ifs <;> simp <;> omega

/-- Joining keeps the text exactly if the characters that are joined are ASCII. -/
theorem flatten_joinAll : ∀ {cs bs : List ℕ}, 0 < bs.length → (∀ c ∈ cs, c < 0x110000) →
    ((joinAll bs cs).flatten = bs ++ cs.flatMap unicodeToUtf8 ↔ JoinsAscii bs.length cs)
  | [], bs, _, _ => by simp [joinAll, JoinsAscii]
  | c :: cs, bs, hbs, h => by
    have hcs : ∀ d ∈ cs, d < 0x110000 := fun d hd => h d (List.mem_cons_of_mem c hd)
    have hc := h c List.mem_cons_self
    have hlen := length_unicodeToUtf8 hc
    rw [joinAll, JoinsAscii, List.flatMap_cons]
    simp only [hbs, true_and]
    split_ifs with hn
    · have hjoined := length_joinedBytes bs (unicodeToUtf8 c)
      have ih := flatten_joinAll (by omega : 0 < (joinedBytes bs (unicodeToUtf8 c)).length) hcs
      rw [hjoined] at ih
      constructor
      · intro heq
        obtain ⟨rest, hrest⟩ := joinAll_prefix cs (joinedBytes bs (unicodeToUtf8 c))
        have hjoin : joinedBytes bs (unicodeToUtf8 c) = bs ++ unicodeToUtf8 c := by
          rw [hrest, ← List.append_assoc] at heq
          refine (List.append_inj heq ?_).1
          rw [length_joinedBytes, List.length_append]
        refine ⟨(joinedBytes_eq_iff hc bs).1 hjoin, ih.1 ?_⟩
        rw [heq, hjoin, List.append_assoc]
      · rintro ⟨hone, hrest⟩
        rw [ih.2 hrest, (joinedBytes_eq_iff hc bs).2 hone, List.append_assoc]
    · rw [List.flatten_cons, List.append_cancel_left_eq]
      exact flatten_joinAll hlen.1 hcs

/-! ### Running the instructions -/

/-- Character instructions match their text. -/
theorem matchOps_chars (cbuf : List ℕ) : ∀ (l : List (List ℕ)) (s : State),
    s.cptr ≤ cbuf.length → matchOps cbuf s (l.map Op.char)
      = if l.flatten <+: cbuf.drop s.cptr then some (s.cptr + l.flatten.length) else none
  | [], s, _ => by simp [matchOps]
  | bs :: l, s, hs => by
    rw [List.map_cons, matchOps, List.flatten_cons]
    have hop : matchOp cbuf s (.char bs)
        = if bs <+: cbuf.drop s.cptr then some (s.cptr + bs.length) else none := by
      change (if cbuf.length - s.cptr < bs.length ∨ (cbuf.drop s.cptr).take bs.length ≠ bs then none
        else some (s.cptr + bs.length)) = _
      by_cases hp : bs <+: cbuf.drop s.cptr
      · have hlen := hp.length_le
        rw [List.length_drop] at hlen
        rw [if_pos hp, if_neg]
        rw [not_or, not_not]
        exact ⟨by omega, (List.prefix_iff_eq_take.1 hp).symm⟩
      · rw [if_neg hp, if_pos]
        right
        intro h
        exact hp (List.prefix_iff_eq_take.2 h.symm)
    rw [hop]
    by_cases hp : bs <+: cbuf.drop s.cptr
    · obtain ⟨rest, hrest⟩ := hp
      have hlen : s.cptr + bs.length ≤ cbuf.length := by
        have := congrArg List.length hrest
        rw [List.length_append, List.length_drop] at this
        omega
      rw [if_pos ⟨rest, hrest⟩]
      dsimp only
      rw [matchOps_chars cbuf l _ hlen, ← hrest]
      dsimp only
      rw [← List.drop_drop, ← hrest, List.drop_left]
      simp only [List.prefix_append_right_inj, List.length_append, Nat.add_assoc]
    · rw [if_neg hp, if_neg]
      intro h
      exact hp ((List.prefix_append bs l.flatten).trans h)

/-- Where the instructions stand makes no difference. -/
theorem matchOps_pc (cbuf : List ℕ) (pc : ℕ) : ∀ (ops : List Op) (s : State),
    matchOps cbuf { s with pc := pc } ops = matchOps cbuf s ops
  | [], _ => rfl
  | o :: ops, s => by
    have hop : matchOp cbuf { s with pc := pc } o = matchOp cbuf s o := by cases o <;> rfl
    rw [matchOps, matchOps, hop]
    cases matchOp cbuf s o with
    | none => rfl
    | some m => exact matchOps_pc cbuf pc ops { s with cptr := m }

/-- The interpreter goes from one state to another, whatever happens outside. -/
def Goes (cbuf code : List ℕ) (s s' : State) : Prop :=
  ∀ e, Relation.ReflTransGen (fun a b => step cbuf code e a = .next b) s s'

/-- The interpreter does what `matchOps` says. -/
theorem goes_matchOps {cbuf code : List ℕ} : ∀ {l : List (List ℕ)} {s : State}, s.mode = .run →
    Listing code s.pc (l.map Op.char) →
    (∀ m, matchOps cbuf s (l.map Op.char) = some m →
      Goes cbuf code s { s with pc := s.pc + (bytes (l.map Op.char)).length, cptr := m }) ∧
    (matchOps cbuf s (l.map Op.char) = none →
      ∃ pc cptr, Goes cbuf code s { s with pc := pc, cptr := cptr, mode := .noMatch })
  | [], s, _, _ => by
    refine ⟨fun m hm e => ?_, fun h => by cases h⟩
    cases hm
    exact .refl
  | bs :: l, s, hm, hl => by
    rw [List.map_cons, Listing] at hl
    have hstep (e : Events) : step cbuf code e s
        = (matchOp cbuf s (.char bs)).elim
            (.next { s with pc := s.pc + (Op.char bs).size, mode := .noMatch })
            (fun m => .next { s with pc := s.pc + (Op.char bs).size, cptr := m }) := by
      unfold step
      rw [hm]
      dsimp only
      rw [hl.1]
      have hop : matchOp cbuf { s with pc := s.pc + (Op.char bs).size, mode := .run } (.char bs)
          = matchOp cbuf s (.char bs) := rfl
      simp only [execOp, hop]
      cases matchOp cbuf s (.char bs) <;> rfl
    rw [List.map_cons, matchOps, bytes_cons, List.length_append, Op.length_encode]
    cases hop : matchOp cbuf s (.char bs) with
    | none =>
      refine ⟨fun m h => (by cases h), fun _ => ⟨s.pc + (Op.char bs).size, s.cptr, fun e => ?_⟩⟩
      refine .single ?_
      rw [hstep, hop]
      rfl
    | some m =>
      have hnext (e : Events) : step cbuf code e s
          = .next { s with pc := s.pc + (Op.char bs).size, cptr := m } := by
        rw [hstep, hop]
        rfl
      obtain ⟨h1, h2⟩ := @goes_matchOps cbuf code l
        ({ s with pc := s.pc + (Op.char bs).size, cptr := m }) hm hl.2
      rw [matchOps_pc cbuf _ _ { s with cptr := m }] at h1 h2
      refine ⟨fun m' hm' e => ?_, fun hnone => ?_⟩
      · have := h1 m' hm' e
        rw [← Nat.add_assoc]
        exact .head (hnext e) this
      · obtain ⟨pc, cptr, hgoes⟩ := h2 hnone
        exact ⟨pc, cptr, fun e => .head (hnext e) (hgoes e)⟩

/-! ### Compiling -/

theorem encode_char (bs : List ℕ) : (Op.char bs).encode = bs.length :: bs := rfl

/-- `re_is_char` on a character instruction. -/
theorem reIsChar_char {bs : List ℕ} (h : 1 ≤ bs.length ∧ bs.length ≤ 4) (pre post : List ℕ) :
    reIsChar (pre ++ (Op.char bs).encode ++ post) pre.length
      (pre ++ (Op.char bs).encode).length = bs.length := by
  have hbyte : byteAt (pre ++ (Op.char bs).encode ++ post) pre.length = bs.length := by
    rw [List.append_assoc]
    exact byteAt_append_right pre _ 0
  unfold reIsChar
  simp only [hbyte]
  rw [if_neg (not_not.2 h), if_neg]
  rw [List.length_append, encode_char, List.length_cons]
  omega

/-- Two characters that fit in one instruction. -/
theorem combineChars_fit (h₁ : 1 ≤ bs.length) (h₂ : 1 ≤ bs'.length)
    (h : bs.length + bs'.length ≤ 4) :
    combineChars (base ++ (Op.char bs).encode ++ (Op.char bs').encode) (some base.length)
      (base ++ (Op.char bs).encode).length
      = (base ++ (Op.char (joinedBytes bs bs')).encode, base.length) := by
  have hn₁ := @reIsChar_char bs ⟨h₁, by omega⟩ base (Op.char bs').encode
  have hn₂ := @reIsChar_char bs' ⟨h₂, by omega⟩ (base ++ (Op.char bs).encode) []
  rw [List.append_nil] at hn₂
  obtain ⟨bs₁, bs₂, hb₁, hb₂, -, -, heq⟩ := combineChars_joined hn₁ hn₂ h₁ h₂ h
  rw [heq]
  rw [encode_char, encode_char, List.cons.injEq] at hb₁ hb₂
  rw [hb₁.2, hb₂.2]

/-- Two characters that do not fit. -/
theorem combineChars_full (h₁ : 1 ≤ bs.length ∧ bs.length ≤ 4)
    (h₂ : 1 ≤ bs'.length ∧ bs'.length ≤ 4) (h : ¬ bs.length + bs'.length ≤ 4) :
    combineChars (base ++ (Op.char bs).encode ++ (Op.char bs').encode) (some base.length)
      (base ++ (Op.char bs).encode).length
      = (base ++ (Op.char bs).encode ++ (Op.char bs').encode,
        (base ++ (Op.char bs).encode).length) := by
  have hn₁ := reIsChar_char h₁ base (Op.char bs').encode
  have hn₂ := reIsChar_char h₂ (base ++ (Op.char bs).encode) []
  rw [List.append_nil] at hn₂
  rw [combineChars]
  simp only [hn₁, hn₂]
  rw [if_neg (by omega)]

/-- A turn of the loop on a literal. -/
theorem reParseAlternative_literal (h : IsLiteral src st.pos c pos') (fuel : ℕ)
    (last : Option ℕ) : reParseAlternative src (fuel + 1) st last
      = reParseAlternative src fuel
        { st with
          pos := pos'
          code := (combineChars (st.code ++ (Op.char (unicodeToUtf8 c)).encode) last
            st.code.length).1 }
        (some (combineChars (st.code ++ (Op.char (unicodeToUtf8 c)).encode) last
          st.code.length).2) := by
  have hquant : quantifyTerm src (atomTerm st (st.emit (.char (unicodeToUtf8 c)) pos'))
      = .ok (st.emit (.char (unicodeToUtf8 c)) pos') := by
    change (readQuantifier src pos' >>= fun q => _) = _
    rw [h.alone]
    rfl
  rw [reParseAlternative, if_neg h.inside]
  change (reParseTerm src (reParseDisjunction src fuel) st >>= fun t => _) = _
  rw [h.term _ _ rfl]
  change (quantifyTerm src (atomTerm st (st.emit (.char (unicodeToUtf8 c)) pos')) >>= fun t => _)
    = _
  rw [hquant]
  rfl

/-- The literals that follow one. -/
theorem reParseAlternative_literals : ∀ {cs bs base : List ℕ} {st : PState} {pos' : ℕ},
    1 ≤ bs.length ∧ bs.length ≤ 4 → st.code = base ++ (Op.char bs).encode →
    Literals src st.pos cs pos' → ∃ last, ∀ fuel,
      reParseAlternative src (cs.length + fuel) st (some base.length)
        = reParseAlternative src fuel
          { st with pos := pos', code := base ++ bytes ((joinAll bs cs).map Op.char) } (some last)
  | [], bs, base, st, pos', _, hcode, hl => by
    refine ⟨base.length, fun fuel => ?_⟩
    have hst : st = { st with
        pos := pos', code := base ++ bytes ((joinAll bs []).map Op.char) } := by
      rw [joinAll, List.map_singleton, bytes_singleton, ← hcode, ← show st.pos = pos' from hl]
    rw [List.length_nil, Nat.zero_add, ← hst]
  | c :: cs, bs, base, st, pos', hbs, hcode, hl => by
    obtain ⟨p, hc, hl⟩ := hl
    have hlen := length_unicodeToUtf8 hc.codePoint
    have hturn (fuel : ℕ) := reParseAlternative_literal hc (cs.length + fuel) (some base.length)
    rw [joinAll]
    split_ifs with hn
    · have hjoined := length_joinedBytes bs (unicodeToUtf8 c)
      rw [hcode, combineChars_fit hbs.1 hlen.1 hn] at hturn
      obtain ⟨last, h⟩ := @reParseAlternative_literals cs
        (joinedBytes bs (unicodeToUtf8 c)) base
        { st with pos := p, code := base ++ (Op.char (joinedBytes bs (unicodeToUtf8 c))).encode } _
        (by omega) rfl hl
      refine ⟨last, fun fuel => ?_⟩
      rw [List.length_cons, Nat.add_right_comm, hturn]
      exact h fuel
    · rw [hcode, combineChars_full hbs hlen hn] at hturn
      obtain ⟨last, h⟩ := @reParseAlternative_literals cs (unicodeToUtf8 c)
        (base ++ (Op.char bs).encode)
        { st with
          pos := p, code := base ++ (Op.char bs).encode ++ (Op.char (unicodeToUtf8 c)).encode } _
        hlen rfl hl
      refine ⟨last, fun fuel => ?_⟩
      rw [List.length_cons, Nat.add_right_comm, hturn, List.map_cons, bytes_cons,
        ← List.append_assoc]
      exact h fuel

/-! ### Literal texts -/

/-- The instructions match the text and nothing else: from where they start the interpreter goes to
their end if the text is there, and otherwise to where it goes back. -/
def MatchText (ops : List Op) (text : List ℕ) : Prop :=
  ∀ (cbuf code : List ℕ) (s : State), s.mode = .run → s.cptr ≤ cbuf.length →
    Listing code s.pc ops →
    (text <+: cbuf.drop s.cptr →
      Goes cbuf code s { s with pc := s.pc + (bytes ops).length, cptr := s.cptr + text.length }) ∧
    (¬ text <+: cbuf.drop s.cptr →
      ∃ pc cptr, Goes cbuf code s { s with pc := pc, cptr := cptr, mode := .noMatch })

theorem joinAll_fits : ∀ {cs bs : List ℕ}, 1 ≤ bs.length ∧ bs.length ≤ 4 →
    (∀ c ∈ cs, c < 0x110000) → ∀ x ∈ joinAll bs cs, 1 ≤ x.length ∧ x.length ≤ 4
  | [], bs, hbs, _, x, hx => by
    rw [joinAll, List.mem_singleton] at hx
    rwa [hx]
  | c :: cs, bs, hbs, h, x, hx => by
    have hcs : ∀ d ∈ cs, d < 0x110000 := fun d hd => h d (List.mem_cons_of_mem c hd)
    have hlen := length_unicodeToUtf8 (h c List.mem_cons_self)
    rw [joinAll] at hx
    split_ifs at hx with hn
    · have hjoined := length_joinedBytes bs (unicodeToUtf8 c)
      exact joinAll_fits (by omega) hcs x hx
    · rcases List.mem_cons.1 hx with rfl | hx
      · exact hbs
      · exact joinAll_fits hlen hcs x hx

/-- The instructions of joined characters match the text exactly if the bytes are the same. -/
theorem matchText_iff {l : List (List ℕ)} {text : List ℕ}
    (hfits : ∀ x ∈ l, 1 ≤ x.length ∧ x.length ≤ 4) (hlen : l.flatten.length = text.length) :
    MatchText (l.map Op.char) text ↔ l.flatten = text := by
  constructor
  · intro h
    have hlist : Listing (bytes (l.map Op.char)) 0 (l.map Op.char) := by
      refine @listing_of_code _ _ _ [] ?_ (List.append_nil _).symm
      intro o ho
      obtain ⟨x, hx, rfl⟩ := List.mem_map.1 ho
      exact ⟨hfits x hx, trivial⟩
    have hgoes := (h text (bytes (l.map Op.char)) ⟨0, 0, [], [], 0, .run⟩ rfl (Nat.zero_le _)
      hlist).1 List.prefix_rfl ⟨false, false⟩
    obtain ⟨-, hfail⟩ := @goes_matchOps text _ _ ⟨0, 0, [], [], 0, .run⟩ rfl hlist
    have hchars := matchOps_chars text l ⟨0, 0, [], [], 0, .run⟩ (Nat.zero_le _)
    by_cases hp : l.flatten <+: text
    · exact hp.eq_of_length hlen
    · exfalso
      simp only [List.drop_zero, if_neg hp] at hchars
      obtain ⟨pc, cptr, hno⟩ := hfail hchars
      -- the interpreter stops in both states
      have hend : step text (bytes (l.map Op.char)) ⟨false, false⟩
          ⟨0 + (bytes (l.map Op.char)).length, 0 + text.length, [], [], 0, .run⟩ = .abort := by
        unfold step
        dsimp only
        rw [Nat.zero_add, List.drop_length]
        rfl
      have hunique : Relator.RightUnique fun a b =>
          step text (bytes (l.map Op.char)) ⟨false, false⟩ a = .next b := by
        intro a b b' hb hb'
        rw [hb] at hb'
        cases hb'
        rfl
      rcases Relation.ReflTransGen.total_of_right_unique hunique hgoes (hno ⟨false, false⟩)
        with h | h
      · rcases h.cases_head with heq | ⟨t, ht, -⟩
        · cases heq
        · rw [hend] at ht
          cases ht
      · rcases h.cases_head with heq | ⟨t, ht, -⟩
        · cases heq
        · cases ht
  · rintro rfl cbuf code s hm hs hl
    obtain ⟨hgo, hfail⟩ := @goes_matchOps cbuf code l s hm hl
    have hchars := matchOps_chars cbuf l s hs
    constructor
    · intro hp
      rw [if_pos hp] at hchars
      exact hgo _ hchars
    · intro hp
      rw [if_neg hp] at hchars
      exact hfail hchars

theorem Literals.codePoints : ∀ {cs : List ℕ} {pos pos' : ℕ}, Literals src pos cs pos' →
    ∀ c ∈ cs, c < 0x110000
  | [], _, _, _, _, h => by cases h
  | c :: cs, pos, pos', hl, d, hd => by
    obtain ⟨p, hc, hl⟩ := hl
    rcases List.mem_cons.1 hd with rfl | hd
    · exact hc.codePoint
    · exact hl.codePoints d hd

/-- A term that is no character is kept. -/
theorem combineChars_none (code ops : List ℕ) :
    ∀ last : Option ℕ, (∀ p, last = some p → reIsChar code p code.length = 0) →
      combineChars (code ++ ops) last code.length = (code ++ ops, code.length)
  | none, _ => rfl
  | some p, h => by
    have hzero : reIsChar (code ++ ops) p code.length = 0 := by
      rw [← h p rfl]
      by_cases hp : p < code.length
      · simp only [reIsChar, show byteAt (code ++ ops) p = byteAt code p from byteAt_append_left hp]
      · unfold reIsChar
        simp only [show code.length - p = 0 by omega]
        split_ifs <;> omega
    rw [combineChars]
    simp only [hzero]
    rw [if_neg (by omega)]

/-- The last term, if it is a character. -/
theorem lastChar_spec (st : PState) : ∀ last : Option ℕ,
    (lastChar st last = [] ∧ beforeChar st last = st.code ∧
      ∀ p, last = some p → reIsChar st.code p st.code.length = 0) ∨
    (1 ≤ (lastChar st last).length ∧ (lastChar st last).length ≤ 4 ∧
      st.code = beforeChar st last ++ (Op.char (lastChar st last)).encode ∧
      last = some (beforeChar st last).length)
  | none => .inl ⟨rfl, rfl, fun p h => (by cases h)⟩
  | some p => by
    rw [lastChar, beforeChar]
    split_ifs with h
    · right
      unfold reIsChar at h
      simp only at h
      split_ifs at h with h1 h2
      any_goals omega
      have hp : p < st.code.length := by omega
      have hlen : (st.code.drop (p + 1)).length = byteAt st.code p := by
        rw [List.length_drop]
        omega
      refine ⟨by omega, by omega, ?_, ?_⟩
      · rw [encode_char, hlen, byteAt, List.getD_eq_getElem _ _ hp, ← List.drop_eq_getElem_cons hp,
          List.take_append_drop]
      · rw [List.length_take, Nat.min_eq_left hp.le]
    · refine .inl ⟨rfl, rfl, fun q hq => ?_⟩
      cases hq
      omega

/-- Literal characters, whatever comes before them, are compiled to instructions that match exactly
the text of the last term, if it is a character, and their own if and only if none that is joined
to those before it has more than one byte. -/
theorem literals_match_iff (last : Option ℕ) (hl : Literals src st.pos (c :: cs) pos') :
    ∃ ops last', (∀ fuel, reParseAlternative src ((c :: cs).length + fuel) st last
      = reParseAlternative src fuel
        { st with pos := pos', code := beforeChar st last ++ bytes ops } (some last')) ∧
      (MatchText ops (lastChar st last ++ (c :: cs).flatMap unicodeToUtf8)
        ↔ JoinsAscii (lastChar st last).length (c :: cs)) := by
  have hcodes := hl.codePoints
  rcases lastChar_spec st last with ⟨hnil, hbefore, hlast⟩ | ⟨hpos, hfour, hcode, hlast⟩
  · obtain ⟨p, hc, hl⟩ := hl
    have hlen := length_unicodeToUtf8 hc.codePoint
    have hcs : ∀ d ∈ cs, d < 0x110000 := fun d hd => hcodes d (List.mem_cons_of_mem c hd)
    obtain ⟨last', h⟩ := @reParseAlternative_literals src cs (unicodeToUtf8 c)
      st.code { st with pos := p, code := st.code ++ (Op.char (unicodeToUtf8 c)).encode } _ hlen rfl
        hl
    refine ⟨(joinAll (unicodeToUtf8 c) cs).map Op.char, last', fun fuel => ?_, ?_⟩
    · rw [List.length_cons, Nat.add_right_comm, reParseAlternative_literal hc,
        combineChars_none _ _ last hlast, hbefore]
      exact h fuel
    · rw [hnil, List.nil_append, matchText_iff (joinAll_fits hlen hcs), List.flatMap_cons,
        flatten_joinAll hlen.1 hcs, JoinsAscii, List.length_nil, if_neg (by omega)]
      rw [length_joinAll, List.flatMap_cons, List.length_append]
  · obtain ⟨last', h⟩ := reParseAlternative_literals ⟨hpos, hfour⟩ hcode hl
    refine ⟨(joinAll (lastChar st last) (c :: cs)).map Op.char, last', fun fuel => ?_, ?_⟩
    · rw [← h fuel, ← hlast]
    · rw [matchText_iff (joinAll_fits ⟨hpos, hfour⟩ hcodes), flatten_joinAll hpos hcodes]
      rw [length_joinAll, List.length_append]

/-- `/ab/` on bytes. -/
def sourceAb : Source := ⟨[0x61, 0x62], 0, 2, 0⟩

theorem literals_match_iff_ab : ∃ ops last', (∀ fuel,
    reParseAlternative sourceAb (2 + fuel) ⟨0, [], 1⟩ none
      = reParseAlternative sourceAb fuel ⟨2, [] ++ bytes ops, 1⟩ (some last')) ∧
    (MatchText ops [0x61, 0x62] ↔ JoinsAscii 0 [0x61, 0x62]) := by
  have ha : IsLiteral sourceAb 0 0x61 1 :=
    ⟨by decide, by decide, fun d ⟨pos, code, cc⟩ h => by cases h; rfl, rfl⟩
  have hb : IsLiteral sourceAb 1 0x62 2 :=
    ⟨by decide, by decide, fun d ⟨pos, code, cc⟩ h => by cases h; rfl, rfl⟩
  have hl : Literals sourceAb 0 [0x61, 0x62] 2 := ⟨1, ha, 2, hb, rfl⟩
  exact @literals_match_iff sourceAb 0x61 2 [0x62] ⟨0, [], 1⟩ none hl

/-- The literals of `/aé/` do not match `aé`. -/
theorem literals_lose_text : ∃ code,
    jsParseRegexp ⟨[0x61, 0xc3, 0xa9], 0, 3, 0⟩ = .ok code ∧
    lreExec [0x61, 0xc3, 0xa9] code 40 (fun _ => ⟨false, false⟩)
      (start [2 ^ 32 - 1, 2 ^ 32 - 1] 0) = some (0, [2 ^ 32 - 1, 2 ^ 32 - 1]) :=
  ⟨_, rfl, by decide +kernel⟩

end Qjs.Regexp
