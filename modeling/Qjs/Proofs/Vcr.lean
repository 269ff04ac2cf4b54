import Qjs.Proofs.VcrBlocks

/-!
# The round trip of a tape

A tape that was written is read back as it was exactly when it has an interaction and each of its
interactions meets `RoundTrips` (`parseTapeFile_emitTape_iff`). A line of a block that the parser
takes for a heading loses: what is read for the block, then or later, is shorter than what was
written (`short_of_fake`).
-/

namespace Qjs.Aether.Vcr

open JsonText Sections

/-! ### A section at a time -/

variable {q q' : Parts} {name : Text} {ls : List Text}

def IsReqHeaders (name : Text) : Prop := (text "Request headers recorded").isPrefixOf name = true

def IsReqBody (name : Text) : Prop := (text "Request body recorded").isPrefixOf name = true

def IsRespBody (name : Text) : Prop := (text "Response body recorded").isPrefixOf name = true

/-- What a section can change. -/
theorem parseSection_cases (h : parseSection q name ls = .ok q') :
    (q'.body = q.body ∨ IsRespBody name ∧ q'.body = extractCodeBlockAt ls)
      ∧ (q'.reqBody = q.reqBody ∨ IsReqBody name ∧ q'.reqBody = extractCodeBlockAt ls)
      ∧ (q'.reqHeaders = q.reqHeaders
        ∨ IsReqHeaders name ∧ q'.reqHeaders = headersOf (extractCodeBlockAt ls))
      ∧ (q'.contentType = q.contentType ∨ ∀ c ∈ q'.contentType, c ∈ name) := by
  unfold parseSection at h
  simp only at h
  split_ifs at h with h1 h2 h3 h4
  · cases h
    exact ⟨.inl rfl, .inl rfl, .inl rfl, .inl rfl⟩
  · cases h
    refine ⟨.inl rfl, .inl rfl, .inr ⟨h1, ?_⟩, .inl rfl⟩
    rw [headersOf, if_neg h2]
  · cases h
    exact ⟨.inl rfl, .inr ⟨h3, rfl⟩, .inl rfl, .inl rfl⟩
  · rcases hp : parseResponseBodyHeader name with _ | ⟨st, ct⟩
    · rw [hp] at h
      cases h
    · rw [hp] at h
      cases h
      exact ⟨.inr ⟨h4, rfl⟩, .inl rfl, .inl rfl, .inr (mem_of_parseResponseBodyHeader hp)⟩
  · cases h
    exact ⟨.inl rfl, .inl rfl, .inl rfl, .inl rfl⟩

theorem body_of_parseSection (h : parseSection q name ls = .ok q') :
    q'.body = q.body
      ∨ IsRespBody name ∧ q'.body.length ≤ (extractCodeBlockAt ls).length + 1 := by
  rcases (parseSection_cases h).1 with h | ⟨hname, h⟩
  · exact .inl h
  · exact .inr ⟨hname, by rw [h]; exact Nat.le_succ _⟩

theorem reqBody_of_parseSection (h : parseSection q name ls = .ok q') :
    q'.reqBody = q.reqBody
      ∨ IsReqBody name ∧ q'.reqBody.length ≤ (extractCodeBlockAt ls).length + 1 := by
  rcases (parseSection_cases h).2.1 with h | ⟨hname, h⟩
  · exact .inl h
  · exact .inr ⟨hname, by rw [h]; exact Nat.le_succ _⟩

theorem reqHeaders_of_parseSection (h : parseSection q name ls = .ok q') :
    q'.reqHeaders = q.reqHeaders
      ∨ IsReqHeaders name ∧ q'.reqHeaders.length ≤ (extractCodeBlockAt ls).length + 1 := by
  rcases (parseSection_cases h).2.2.1 with h | ⟨hname, h⟩
  · exact .inl h
  · exact .inr ⟨hname, by rw [h]; exact length_headersOf _⟩

/-- The loop before its last section. -/
def parseEnded (q : Parts) (gs : List (Text × List Text)) : Except String Parts :=
  gs.foldlM (fun q g => parseSection q (g.1.drop 4) (g.2 ++ [[]])) q

theorem parseSections_cons {line : Text} (h : parseSection q (line.drop 4) (ls ++ [[]]) = .ok q')
    (g : Text × List Text) (gs : List (Text × List Text)) :
    parseSections q ((line, ls) :: g :: gs) = parseSections q' (g :: gs) := by
  rw [parseSections, h]
  rfl

theorem parseSections_append {hs : List (Text × List Text)} (hne : hs ≠ []) :
    ∀ (gs : List (Text × List Text)) (q : Parts),
    parseSections q (gs ++ hs) = parseEnded q gs >>= fun q => parseSections q hs
  | [], _ => rfl
  | g :: gs, q => by
    obtain ⟨h, hs', hh⟩ := List.exists_cons_of_ne_nil (l := gs ++ hs) (by simp [hne])
    rw [List.cons_append, hh, parseSections, ← hh, parseEnded, List.foldlM_cons]
    rcases parseSection q (g.1.drop 4) (g.2 ++ [[]]) with e | q₁
    · rfl
    · exact parseSections_append hne gs q₁

/-- What holds of the variables from one section to the next holds in the end. -/
theorem parseSections_keeps {P : Parts → Prop} : ∀ {gs : List (Text × List Text)} {q : Parts},
    (∀ g ∈ gs, ∀ ls q q', ls = g.2 ∨ ls = g.2 ++ [[]] →
      parseSection q (g.1.drop 4) ls = .ok q' → P q → P q') →
    parseSections q gs = .ok q' → P q → P q'
  | [], _, _, h, hq => by
    cases h
    exact hq
  | [(line, ls)], q, hstep, h, hq => by
    rw [parseSections] at h
    split_ifs at h
    · cases h
      exact hq
    · exact hstep (line, ls) (by simp) ls q q' (.inl rfl) h hq
  | (line, ls) :: g :: gs, q, hstep, h, hq => by
    rw [parseSections] at h
    rcases h₁ : parseSection q (line.drop 4) (ls ++ [[]]) with e | q₁
    · rw [h₁] at h
      cases h
    · rw [h₁] at h
      exact parseSections_keeps (fun g hg => hstep g (List.mem_cons_of_mem _ hg)) h
        (hstep (line, ls) List.mem_cons_self _ q q₁ (.inr rfl) h₁ hq)

/-! ### Blocks with a line that looks like a heading -/

/-- A fenced block with the blank line before it and the lines after it. -/
def fencedLines (s : Text) (post : List Text) : List Text :=
  [] :: fence :: (blockLines s ++ fence :: post)

variable {s : Text} {post : List Text} {g : Text × List Text}

/-- What a heading in the block begins is too short to be the block. -/
theorem short_of_fake (hpost : (endl newline post).length ≤ 2)
    (hg : g ∈ (groups isSection (fencedLines s post)).2) (hname : 21 ≤ (g.1.drop 4).length)
    (hls : ls = g.2 ∨ ls = g.2 ++ [[]]) : (extractCodeBlockAt ls).length + 2 ≤ s.length := by
  have h1 := length_endl_le_of_sublist newline (sublist_of_mem_groups hg)
  have h2 : (endl newline ls).length ≤ (endl newline g.2).length + 1 := by
    rcases hls with rfl | rfl
    · omega
    · rw [endl_append, List.length_append]
      simp
  have h3 := length_extract ls
  have h4 := length_endl_blockLines s
  have h5 : fence.length = 3 := rfl
  rw [List.length_drop] at hname
  simp only [fencedLines, endl_cons, endl_append, List.length_append, List.length_cons,
    List.length_nil] at h1
  omega

/-- What is left of a block before the first such heading is too short too. -/
theorem short_of_cut (hpost : ∀ line ∈ post, isSection line = false)
    (hne : (groups isSection (fencedLines s post)).2 ≠ []) :
    (extractCodeBlockAt ((groups isSection (fencedLines s post)).1 ++ [[]])).length + 2
      ≤ s.length := by
  have hfence : isSection fence = false := rfl
  rcases hd : (blockLines s).dropWhile fun line => !isSection line with _ | ⟨m, c⟩
  · refine absurd (congrArg Prod.snd (groups_of_none ?_)) hne
    intro line hline
    have hall := List.dropWhile_eq_nil_iff.1 hd
    simp only [fencedLines, List.mem_cons, List.mem_append] at hline
    rcases hline with rfl | rfl | hline | rfl | hline
    · rfl
    · exact hfence
    · simpa using hall line hline
    · exact hfence
    · exact hpost line hline
  · have hm : isSection m = true := by
      have := List.head?_dropWhile_not (fun line => !isSection line) (blockLines s)
      rw [hd] at this
      simpa using this
    have hb : (blockLines s).takeWhile (fun line => !isSection line) ++ m :: c = blockLines s := by
      rw [← hd, List.takeWhile_append_dropWhile]
    have hfst : (groups isSection (fencedLines s post)).1
        = [] :: fence :: (blockLines s).takeWhile fun line => !isSection line := by
      have hsplit : fencedLines s post = ([] :: fence
          :: (blockLines s).takeWhile fun line => !isSection line)
            ++ m :: (c ++ fence :: post) := by
        rw [fencedLines]
        conv_lhs => rw [← hb]
        simp
      rw [hsplit, groups_append_cons hm, groups_fst, List.takeWhile_eq_self_iff]
      intro line hline
      rcases List.mem_cons.1 hline with rfl | hline
      · rfl
      rcases List.mem_cons.1 hline with rfl | hline
      · rfl
      · exact List.mem_takeWhile_imp (p := fun line => !isSection line) hline
    have h1 := length_extract_cut ((blockLines s).takeWhile fun line => !isSection line)
    have h2 := length_endl_middle ((blockLines s).takeWhile fun line => !isSection line) c m
    have h3 := length_endl_blockLines s
    have h4 : 4 ≤ m.length := (List.isPrefixOf_iff_prefix.1 hm).length_le
    rw [hb] at h2
    rw [hfst]
    refine (Nat.add_le_add_right h1 2).trans ?_
    omega

theorem length_of_isReqHeaders (h : IsReqHeaders name) : 24 ≤ name.length :=
  (List.isPrefixOf_iff_prefix.1 h).length_le

theorem length_of_isReqBody (h : IsReqBody name) : 21 ≤ name.length :=
  (List.isPrefixOf_iff_prefix.1 h).length_le

theorem length_of_isRespBody (h : IsRespBody name) : 22 ≤ name.length :=
  (List.isPrefixOf_iff_prefix.1 h).length_le

/-! ### The four parts of an interaction -/

def lineReqHeaders : Text := text "### Request headers recorded for playback:"

def lineReqBody : Text := text "### Request body recorded for playback ():"

def lineRespHeaders : Text := text "### Response headers recorded for playback:"

variable {t : Toggles}

/-- The content type that is written. -/
def writtenType (x : Interaction) : Text :=
  if x.contentType = [] then text "text/plain" else x.contentType

def lineRespBody (x : Interaction) : Text :=
  text "### Response body recorded for playback (" ++ formatLld x.status ++ text ": "
    ++ writtenType x ++ text "):"

def typeLine (x : Interaction) : Text :=
  if x.contentType = [] then [] else text "Content-Type: " ++ x.contentType

/-- The lines of an interaction below its heading. -/
def partLines (t : Toggles) (x : Interaction) (post : List Text) : List Text :=
  (lineReqHeaders :: [] :: blockText t x.reqHeaders)
    ++ ((lineReqBody :: [] :: blockText t x.reqBody)
    ++ ((lineRespHeaders :: [] :: blockText t (typeLine x))
    ++ (lineRespBody x :: [] :: (blockText t x.body ++ [] :: post))))

/-- A block with the blank line before it, and the sections that begin in it. -/
def blockSections (t : Toggles) (s : Text) (post : List Text) :
    List Text × List (Text × List Text) :=
  groups isSection ([] :: (blockText t s ++ post))

theorem groups_partLines (t : Toggles) (x : Interaction) (post : List Text) :
    (groups isSection ([] :: partLines t x post)).2
      = (lineReqHeaders, (blockSections t x.reqHeaders []).1) :: (blockSections t x.reqHeaders []).2
        ++ ((lineReqBody, (blockSections t x.reqBody []).1) :: (blockSections t x.reqBody []).2
        ++ ((lineRespHeaders, (blockSections t (typeLine x) []).1)
            :: (blockSections t (typeLine x) []).2
        ++ (lineRespBody x, (blockSections t x.body ([] :: post)).1)
            :: (blockSections t x.body ([] :: post)).2)) := by
  have h1 : isSection lineReqHeaders = true := rfl
  have h2 : isSection lineReqBody = true := rfl
  have h3 : isSection lineRespHeaders = true := rfl
  have h4 : isSection (lineRespBody x) = true := rfl
  have hnil : ∀ xs : List Text, (groups isSection ([] :: xs)).2 = (groups isSection xs).2 :=
    fun _ => rfl
  rw [hnil, partLines]
  refine (groups_cons_append_cons h1 h2 _ _).trans ?_
  refine congrArg₂ (· ++ ·) ?_ ((groups_cons_append_cons h2 h3 _ _).trans ?_)
  · simp only [blockSections, List.append_nil]
  refine congrArg₂ (· ++ ·) ?_ ((groups_cons_append_cons h3 h4 _ _).trans ?_)
  · simp only [blockSections, List.append_nil]
  rw [groups_cons_pos h4]
  simp only [blockSections, List.append_nil]

theorem parseSection_reqHeaders (q : Parts) (ls : List Text) :
    parseSection q (lineReqHeaders.drop 4) ls = .ok (if extractCodeBlockAt ls = [] then q
      else { q with reqHeaders := normalizeRecordedHeaders (extractCodeBlockAt ls) }) := rfl

theorem parseSection_reqBody (q : Parts) (ls : List Text) :
    parseSection q (lineReqBody.drop 4) ls = .ok { q with reqBody := extractCodeBlockAt ls } := rfl

theorem parseSection_respHeaders (q : Parts) (ls : List Text) :
    parseSection q (lineRespHeaders.drop 4) ls = .ok q := rfl

theorem parseSection_respBody {x : Interaction} (hlo : -2 ^ 31 ≤ x.status)
    (hhi : x.status ≤ 2 ^ 31 - 1) (q : Parts) (ls : List Text) :
    parseSection q ((lineRespBody x).drop 4) ls = .ok { q with
      status := x.status
      contentType := ((writtenType x).takeWhile (· != 41)).dropWhile isBlank
      body := extractCodeBlockAt ls } := by
  have hname : (lineRespBody x).drop 4 = text "Response body recorded for playback ("
      ++ formatLld x.status ++ text ": " ++ writtenType x ++ text "):" := rfl
  have h1 : (text "Request headers recorded").isPrefixOf ((lineRespBody x).drop 4) = false := rfl
  have h2 : (text "Request body recorded").isPrefixOf ((lineRespBody x).drop 4) = false := rfl
  have h3 : (text "Response body recorded").isPrefixOf ((lineRespBody x).drop 4) = true := rfl
  rw [parseSection]
  simp only [h1, h2, h3, Bool.false_eq_true, if_false, if_true]
  rw [hname, parseResponseBodyHeader_eq hlo hhi]

/-! ### Fenced blocks -/

theorem blockSections_fenced (h : t.indentCodeBlocks = false) (s : Text) (post : List Text) :
    blockSections t s post = groups isSection (fencedLines s post) := by
  rw [blockSections, blockText, if_neg (by rw [h]; simp), fencedLines]
  simp

/-- A part of an interaction whose block has a line that looks like a heading: what is read for it
in the end is too short, if no heading after it is one of the same kind. -/
theorem short_of_sections {f : Parts → Text} {I : Text → Prop}
    (hf : ∀ {q q' name ls}, parseSection q name ls = .ok q' →
      f q' = f q ∨ I name ∧ (f q').length ≤ (extractCodeBlockAt ls).length + 1)
    (hI : ∀ {name}, I name → 21 ≤ name.length) {line : Text} {r : List (Text × List Text)}
    (hfirst : ∀ {q₁ ls}, parseSection q (line.drop 4) ls = .ok q₁ →
      (f q₁).length ≤ (extractCodeBlockAt ls).length + 1)
    (hr : ∀ g ∈ r, ¬ I (g.1.drop 4)) (hpost : (endl newline post).length ≤ 2)
    (hmark : ∀ line ∈ post, isSection line = false)
    (hfake : (groups isSection (fencedLines s post)).2 ≠ [])
    (h : parseSections q ((line, (groups isSection (fencedLines s post)).1)
      :: (groups isSection (fencedLines s post)).2 ++ r) = .ok q') :
    (f q').length < s.length := by
  have hcut := short_of_cut hmark hfake
  obtain ⟨g, gs, hg⟩ := List.exists_cons_of_ne_nil hfake
  have hstep : ∀ g' ∈ g :: gs ++ r, ∀ ls q q', ls = g'.2 ∨ ls = g'.2 ++ [[]] →
      parseSection q (g'.1.drop 4) ls = .ok q' → (f q).length < s.length →
      (f q').length < s.length := by
    intro g' hg' ls q q' hls hq hlt
    rcases hf hq with heq | ⟨hname, hle⟩
    · rwa [heq]
    · rcases List.mem_append.1 hg' with hg' | hg'
      · have := short_of_fake hpost (hg ▸ hg') (hI hname) hls
        omega
      · exact absurd hname (hr g' hg')
  rw [hg] at h
  rw [List.cons_append, List.cons_append, parseSections] at h
  rcases h₁ : parseSection q (line.drop 4) ((groups isSection (fencedLines s post)).1 ++ [[]])
    with e | q₁
  · rw [h₁] at h
    cases h
  · rw [h₁] at h
    have hlt := hfirst h₁
    exact parseSections_keeps (P := fun q => (f q).length < s.length) hstep h (by omega)

/-! ### Blocks without headings -/

theorem blockLines_of_line (h : newline ∉ s) (hne : s ≠ []) : blockLines s = [s] := by
  rw [blockLines, lines, List.splitOn_eq_singleton h, visited, if_neg (by simpa using hne)]

/-- A kind of heading: none of the lines that are always written is one. -/
structure Heading (p : Text → Bool) : Prop where
  nil : p [] = false
  fence : p fence = false
  indent : ∀ line, p (indent line) = false
  typeLine : ∀ line, p (text "Content-Type: " ++ line) = false

theorem heading_isSection : Heading isSection := ⟨rfl, rfl, fun _ => rfl, fun _ => rfl⟩

theorem heading_isInteraction : Heading isInteraction := ⟨rfl, rfl, fun _ => rfl, fun _ => rfl⟩

/-- No line of the block is taken for a heading. -/
def Clear (p : Text → Bool) (t : Toggles) (s : Text) : Prop :=
  ∀ line ∈ blockText t s, p line = false

section Heading

variable {p : Text → Bool} (hp : Heading p)
include hp

theorem clear_indented (h : t.indentCodeBlocks = true) (s : Text) : Clear p t s := by
  intro line hline
  rw [blockText_indent h] at hline
  obtain ⟨l, -, rfl⟩ := List.mem_map.1 hline
  exact hp.indent l

theorem clear_fenced (h : t.indentCodeBlocks = false) (s : Text) :
    Clear p t s ↔ ∀ line ∈ blockLines s, p line = false := by
  rw [Clear, blockText, if_neg (by rw [h]; simp)]
  constructor
  · intro hn line hline
    exact hn line (by simp [hline])
  · intro hn line hline
    simp only [List.mem_cons, List.mem_append, List.not_mem_nil, or_false] at hline
    rcases hline with rfl | hline | rfl
    · exact hp.fence
    · exact hn line hline
    · exact hp.fence

theorem clear_typeLine {x : Interaction} (h : newline ∉ x.contentType) :
    Clear p t (typeLine x) := by
  by_cases hi : t.indentCodeBlocks = true
  · exact clear_indented hp hi _
  rw [Bool.not_eq_true] at hi
  rw [clear_fenced hp hi, typeLine]
  split_ifs with hct
  · simp [blockLines_nil]
  · have hpre : newline ∉ text "Content-Type: " := by decide
    have hline : newline ∉ text "Content-Type: " ++ x.contentType := by
      rw [List.mem_append, not_or]
      exact ⟨hpre, h⟩
    rw [blockLines_of_line hline (by simp [hct])]
    intro line hl
    rw [List.mem_singleton.1 hl]
    exact hp.typeLine _

end Heading

theorem blockSections_eq_nil_iff (hpost : ∀ line ∈ post, isSection line = false) :
    (blockSections t s post).2 = [] ↔ Clear isSection t s := by
  rw [blockSections, groups_eq_nil_iff]
  constructor
  · intro h line hline
    exact h line (List.mem_cons_of_mem _ (List.mem_append_left _ hline))
  · intro h line hline
    rcases List.mem_cons.1 hline with rfl | hline
    · rfl
    rcases List.mem_append.1 hline with hline | hline
    · exact h line hline
    · exact hpost line hline

theorem blockSections_of_clear (hpost : ∀ line ∈ post, isSection line = false)
    (h : Clear isSection t s) : blockSections t s post = ([] :: (blockText t s ++ post), []) := by
  refine groups_of_none ?_
  rw [← groups_eq_nil_iff, ← blockSections]
  exact (blockSections_eq_nil_iff hpost).2 h

theorem noSection_post (hpost : post = [] ∨ post = [[]]) :
    ∀ line ∈ post, isSection line = false := by
  rcases hpost with rfl | rfl
  · simp
  · intro line hline
    rw [List.mem_singleton.1 hline]
    rfl

theorem parseSections_append_ok {hs gs : List (Text × List Text)} (hne : hs ≠ [])
    (h : parseSections q (gs ++ hs) = .ok q') :
    ∃ q₁, parseEnded q gs = .ok q₁ ∧ parseSections q₁ hs = .ok q' := by
  rw [parseSections_append hne] at h
  rcases h₁ : parseEnded q gs with e | q₁
  · rw [h₁] at h
    cases h
  · rw [h₁] at h
    exact ⟨q₁, rfl, h⟩

theorem length_endl_post (hpost : post = [] ∨ post = [[]]) :
    (endl newline ([] :: post)).length ≤ 2 := by
  rcases hpost with rfl | rfl
  · exact Nat.le_succ 1
  · exact le_rfl

/-- If the three blocks come back then none has a line that looks like a heading. -/
theorem clear_of_parsed {x : Interaction} (hi : t.indentCodeBlocks = false)
    (hct : newline ∉ x.contentType) (hlo : -2 ^ 31 ≤ x.status) (hhi : x.status ≤ 2 ^ 31 - 1)
    (hpost : post = [] ∨ post = [[]])
    (hq : parseSections .start (groups isSection ([] :: partLines t x post)).2 = .ok q)
    (hbody : q.body = x.body) (hreqBody : q.reqBody = x.reqBody)
    (hheaders : q.reqHeaders = x.reqHeaders) :
    Clear isSection t x.reqHeaders ∧ Clear isSection t x.reqBody ∧ Clear isSection t x.body := by
  have hmark : ∀ line ∈ [] :: post, isSection line = false := by
    intro line hline
    rcases List.mem_cons.1 hline with rfl | hline
    · rfl
    · exact noSection_post hpost line hline
  have hnil : ∀ line ∈ ([] : List Text), isSection line = false := by simp
  have htype : (blockSections t (typeLine x) []).2 = [] :=
    (blockSections_eq_nil_iff hnil).2 (clear_typeLine heading_isSection hct)
  rw [groups_partLines, htype] at hq
  have hbodyClear : (blockSections t x.body ([] :: post)).2 = [] := by
    by_contra hne
    rw [← List.append_assoc, ← List.append_assoc] at hq
    obtain ⟨q₁, -, hq⟩ := parseSections_append_ok (List.cons_ne_nil _ _) hq
    rw [blockSections_fenced hi] at hne hq
    have := short_of_sections (f := Parts.body) (I := IsRespBody) (r := [])
      body_of_parseSection
      (fun h => (length_of_isRespBody h).trans' (by decide)) (fun {_ ls} h => by
        rw [parseSection_respBody hlo hhi] at h
        cases h
        exact Nat.le_succ _)
      (by simp) (length_endl_post hpost) hmark hne (by rwa [List.append_nil])
    rw [hbody] at this
    omega
  have hrest4 : ¬ IsReqBody ((lineRespBody x).drop 4) ∧ ¬ IsReqHeaders ((lineRespBody x).drop 4) :=
    ⟨Bool.false_ne_true, Bool.false_ne_true⟩
  rw [hbodyClear] at hq
  have hreqBodyClear : (blockSections t x.reqBody []).2 = [] := by
    by_contra hne
    obtain ⟨q₁, -, hq⟩ := parseSections_append_ok (by simp) hq
    rw [blockSections_fenced hi] at hne hq
    have := short_of_sections (f := Parts.reqBody) (I := IsReqBody)
      reqBody_of_parseSection
      (fun h => length_of_isReqBody h) (fun {_ ls} h => by
        rw [parseSection_reqBody] at h
        cases h
        exact Nat.le_succ _)
      (by
        intro g hg
        simp only [List.mem_append, List.mem_cons, List.not_mem_nil, or_false] at hg
        rcases hg with rfl | rfl
        · exact Bool.false_ne_true
        · exact hrest4.1) (by simp) hnil hne hq
    rw [hreqBody] at this
    omega
  rw [hreqBodyClear] at hq
  have hheadersClear : (blockSections t x.reqHeaders []).2 = [] := by
    by_contra hne
    rw [blockSections_fenced hi] at hne hq
    have := short_of_sections (f := Parts.reqHeaders) (I := IsReqHeaders)
      reqHeaders_of_parseSection
      (fun h => (length_of_isReqHeaders h).trans' (by decide)) (fun {_ ls} h => by
        rcases (parseSection_cases h).2.2.1 with h | h
        · rw [h]
          exact Nat.zero_le _
        · rw [h.2]
          exact length_headersOf _)
      (by
        intro g hg
        simp only [List.mem_append, List.mem_cons, List.not_mem_nil, or_false] at hg
        rcases hg with rfl | rfl | rfl
        · exact Bool.false_ne_true
        · exact Bool.false_ne_true
        · exact hrest4.2) (by simp) hnil hne hq
    rw [hheaders] at this
    omega
  exact ⟨(blockSections_eq_nil_iff hnil).1 hheadersClear,
    (blockSections_eq_nil_iff hnil).1 hreqBodyClear, (blockSections_eq_nil_iff hmark).1 hbodyClear⟩

/-! ### What is read -/

def readBlock (t : Toggles) (s : Text) (post : List Text) : Text :=
  extractCodeBlockAt ([] :: (blockText t s ++ post))

theorem parseSections_clear {x : Interaction} (hct : newline ∉ x.contentType)
    (hlo : -2 ^ 31 ≤ x.status) (hhi : x.status ≤ 2 ^ 31 - 1) (hpost : post = [] ∨ post = [[]])
    (hheaders : Clear isSection t x.reqHeaders) (hreqBody : Clear isSection t x.reqBody)
    (hbody : Clear isSection t x.body) :
    parseSections .start (groups isSection ([] :: partLines t x post)).2 = .ok {
      status := x.status
      contentType := ((writtenType x).takeWhile (· != 41)).dropWhile isBlank
      body := readBlock t x.body ([] :: post)
      reqHeaders := headersOf (readBlock t x.reqHeaders [[]])
      reqBody := readBlock t x.reqBody [[]] } := by
  have hnil : ∀ line ∈ ([] : List Text), isSection line = false := by simp
  have hmark : ∀ line ∈ [] :: post, isSection line = false := by
    intro line hline
    rcases List.mem_cons.1 hline with rfl | hline
    · rfl
    · exact noSection_post hpost line hline
  have hstart : ∀ ls, parseSection .start (lineReqHeaders.drop 4) ls
      = .ok ⟨0, [], [], headersOf (extractCodeBlockAt ls), []⟩ := by
    intro ls
    rw [parseSection_reqHeaders, headersOf]
    split_ifs <;> rfl
  rw [groups_partLines, blockSections_of_clear hnil hheaders, blockSections_of_clear hnil hreqBody,
    blockSections_of_clear hnil (clear_typeLine heading_isSection hct),
    blockSections_of_clear hmark hbody]
  simp only [List.append_nil, List.cons_append, List.nil_append]
  rw [parseSections_cons (hstart _), parseSections_cons (parseSection_reqBody _ _),
    parseSections_cons (parseSection_respHeaders _ _), parseSections, if_neg (List.cons_ne_nil _ _), parseSection_respBody hlo hhi]
  rfl

/-- No line of the block is taken for its end, or for a blank line before it. -/
def Delimited (t : Toggles) (s : Text) : Prop :=
  if t.indentCodeBlocks then ∀ line, (blockLines s).head? = some line → rtrim line ≠ []
  else ∀ line ∈ blockLines s, fence.isPrefixOf line = false

/-- The lines after an interaction: the end of the tape after the last one. -/
def ending (last : Bool) : List Text := if last then [[]] else []

theorem ending_cases (last : Bool) : ending last = [] ∨ ending last = [[]] := by
  cases last
  · exact .inl rfl
  · exact .inr rfl

theorem indentedLines_ending (last : Bool) : indentedLines ([] :: ending last) = ending last := by
  cases last <;> rfl

theorem extract_ending (last : Bool) : extractCodeBlockAt ([] :: ending last) = [] := by
  cases last <;> rfl

theorem readBlock_indent (h : t.indentCodeBlocks = true) (s : Text) (last : Bool) :
    readBlock t s ([] :: ending last) = if shownLines (shown s) = [] then []
      else [newline].intercalate (shownLines (shown s) ++ ending last) := by
  rw [readBlock, blockText_indent h, extract_indented, indentedLines_ending, extract_ending]

theorem readBlock_fence (h : t.indentCodeBlocks = false) (s : Text) (post : List Text) :
    readBlock t s post = [newline].intercalate (untilFence (blockLines s)) := by
  rw [readBlock, blockText, if_neg (by rw [h]; simp), List.cons_append, List.append_assoc]
  exact extract_fenced _ _

theorem readBlock_eq_iff (last : Bool) :
    readBlock t s ([] :: ending last) = s ↔ Delimited t s ∧ KeepsEnd t last s := by
  by_cases hi : t.indentCodeBlocks = true
  · rw [extract_shown (readBlock_indent hi s last) (ending_cases last), Delimited, if_pos hi,
      KeepsEnd, hi]
    cases last <;> rfl
  · rw [Bool.not_eq_true] at hi
    rw [readBlock_fence hi, fenced_eq_iff, Delimited, if_neg (by simp [hi]), KeepsEnd, hi]
    rfl

theorem readHeaders_eq_iff (h : normalizeRecordedHeaders s = s) :
    headersOf (readBlock t s [[]]) = s ↔ Delimited t s := by
  by_cases hi : t.indentCodeBlocks = true
  · have := readBlock_indent hi s false
    rw [ending, if_neg (by simp), List.append_nil] at this
    rw [this, indented_headers_iff h, Delimited, if_pos hi]
  · rw [Bool.not_eq_true] at hi
    rw [readBlock_fence hi, fenced_headers_iff h, Delimited, if_neg (by simp [hi])]

/-! ### An interaction -/

/-- What the sections of a recorded interaction have to come to. -/
def Interaction.parts (x : Interaction) : Parts :=
  ⟨x.status, x.contentType, x.body, x.reqHeaders, x.reqBody⟩

theorem parseSections_eq_iff (x : Recorded) (hct : newline ∉ x.contentType) (last : Bool) :
    parseSections .start (groups isSection ([] :: partLines t x.toInteraction (ending last))).2
        = .ok x.parts
      ↔ (41 ∉ x.contentType ∧ ∃ c, x.contentType.head? = some c ∧ isBlank c = false)
        ∧ (Clear isSection t x.reqHeaders ∧ Delimited t x.reqHeaders)
        ∧ (Clear isSection t x.reqBody ∧ Delimited t x.reqBody ∧ KeepsEnd t false x.reqBody)
        ∧ (Clear isSection t x.body ∧ Delimited t x.body ∧ KeepsEnd t last x.body) := by
  have hclear : Clear isSection t x.reqHeaders → Clear isSection t x.reqBody →
      Clear isSection t x.body →
      (parseSections .start (groups isSection ([] :: partLines t x.toInteraction (ending last))).2
          = .ok x.parts
        ↔ (41 ∉ x.contentType ∧ ∃ c, x.contentType.head? = some c ∧ isBlank c = false)
          ∧ (Delimited t x.body ∧ KeepsEnd t last x.body) ∧ Delimited t x.reqHeaders
          ∧ Delimited t x.reqBody ∧ KeepsEnd t false x.reqBody) := by
    intro h1 h2 h4
    rw [parseSections_clear hct x.status_int.1 x.status_int.2 (ending_cases last) h1 h2 h4,
      Except.ok.injEq, Interaction.parts, Parts.mk.injEq, readBlock_eq_iff,
      readHeaders_eq_iff x.headers_canonical, writtenType, typeText_eq_iff, and_iff_right rfl,
      ← readBlock_eq_iff false]
    rfl
  have hnone : parseSections .start
        (groups isSection ([] :: partLines t x.toInteraction (ending last))).2 = .ok x.parts →
      Clear isSection t x.reqHeaders ∧ Clear isSection t x.reqBody ∧ Clear isSection t x.body := by
    intro h
    by_cases hi : t.indentCodeBlocks = true
    · have hall := clear_indented heading_isSection hi
      exact ⟨hall _, hall _, hall _⟩
    · rw [Bool.not_eq_true] at hi
      exact clear_of_parsed hi hct x.status_int.1 x.status_int.2 (ending_cases last) h rfl rfl
        rfl
  constructor
  · intro h
    obtain ⟨h1, h2, h4⟩ := hnone h
    obtain ⟨ht, hb, hh, hr⟩ := (hclear h1 h2 h4).1 h
    exact ⟨ht, ⟨h1, hh⟩, ⟨h2, hr⟩, ⟨h4, hb⟩⟩
  · rintro ⟨ht, ⟨h1, hh⟩, ⟨h2, hr⟩, ⟨h4, hb⟩⟩
    exact (hclear h1 h2 h4).2 ⟨ht, hb, hh, hr⟩

theorem keepsLines_iff : KeepsLines t s
    ↔ Clear isInteraction t s ∧ Clear isSection t s ∧ Delimited t s := by
  by_cases hi : t.indentCodeBlocks = true
  · rw [KeepsLines, Delimited, if_pos hi, if_pos hi,
      and_iff_right (clear_indented heading_isInteraction hi s),
      and_iff_right (clear_indented heading_isSection hi s)]
  · rw [Bool.not_eq_true] at hi
    rw [KeepsLines, Delimited, clear_fenced heading_isInteraction hi,
      clear_fenced heading_isSection hi, hi]
    simp only [Bool.false_eq_true, if_false, isMark, Bool.or_eq_false_iff]
    constructor
    · intro h
      exact ⟨fun l hl => (h l hl).2, fun l hl => (h l hl).1.2, fun l hl => (h l hl).1.1⟩
    · rintro ⟨h1, h2, h3⟩ l hl
      exact ⟨⟨h3 l hl, h2 l hl⟩, h1 l hl⟩

/-- The heading of an interaction after its first words. -/
def headingRest (t : Toggles) (i : ℕ) (x : Interaction) : Text :=
  formatLld i ++ text ": " ++ (emphasis t ++ x.method ++ emphasis t ++ 32 :: x.path)

theorem parseOneInteraction_iff (i : ℕ) (x : Recorded) (last : Bool) :
    parseOneInteraction (headingRest t i x.toInteraction
        :: [] :: partLines t x.toInteraction (ending last)) = .ok x.toInteraction
      ↔ ((t.emphasizeHttpVerbs = false → x.method ≠ []) ∧ isEmphasized x.method = false
          ∧ ∃ c, x.path.getLast? = some c ∧ isTrimmed c = false)
        ∧ parseSections .start
            (groups isSection ([] :: partLines t x.toInteraction (ending last))).2
          = .ok x.parts := by
  rw [← parseInteractionHeader_eq_iff t i x.method_noSpace, parseOneInteraction, ← headingRest]
  rcases parseInteractionHeader (skipNumber (headingRest t i x.toInteraction)) with _ | ⟨m, p⟩
  · simp
  rcases parseSections .start
    (groups isSection ([] :: partLines t x.toInteraction (ending last))).2 with e | q
  · simp only [bind, Except.bind, reduceCtorEq, and_false]
  · simp only [bind, Except.bind]
    have hst := x.status_ne
    split_ifs with h0
    · simp only [false_iff, not_and, Except.ok.injEq]
      rintro - rfl
      exact hst h0
    · rw [Except.ok.injEq, Except.ok.injEq, Option.some.injEq, Prod.mk.injEq]
      obtain ⟨st, ct, b, rh, rb⟩ := q
      rw [Interaction.parts, Parts.mk.injEq]
      constructor
      · intro h
        rw [← h]
        exact ⟨⟨rfl, rfl⟩, rfl, rfl, rfl, rfl, rfl⟩
      · rintro ⟨⟨rfl, rfl⟩, rfl, rfl, rfl, rfl, rfl⟩
        rfl

/-- The fields that stand in headings have no line feed. -/
structure OneLine (x : Interaction) : Prop where
  method : newline ∉ x.method
  path : newline ∉ x.path
  contentType : newline ∉ x.contentType

/-- No line of the interaction but its heading is taken for one. -/
def OneHeading (t : Toggles) (x : Interaction) : Prop :=
  Clear isInteraction t x.reqHeaders ∧ Clear isInteraction t x.reqBody
    ∧ Clear isInteraction t x.body

theorem roundTrips_iff (last : Bool) (i : ℕ) (x : Recorded) :
    RoundTrips t last x.toInteraction ↔ OneLine x.toInteraction ∧ OneHeading t x.toInteraction
      ∧ parseOneInteraction (headingRest t i x.toInteraction
        :: [] :: partLines t x.toInteraction (ending last)) = .ok x.toInteraction := by
  constructor
  · intro h
    have hh := keepsLines_iff.1 h.headers
    have hr := keepsLines_iff.1 h.reqBody
    have hb := keepsLines_iff.1 h.body
    refine ⟨⟨h.method_line, h.path_line, h.type_line⟩, ⟨hh.1, hr.1, hb.1⟩, ?_⟩
    rw [parseOneInteraction_iff, parseSections_eq_iff x h.type_line]
    exact ⟨⟨h.method_ne_nil, h.method_plain, h.path_end⟩, ⟨h.type_paren, h.type_start⟩, hh.2,
      ⟨hr.2.1, hr.2.2, h.reqBody_end⟩, ⟨hb.2.1, hb.2.2, h.body_end⟩⟩
  · rintro ⟨hline, ⟨hh, hr, hb⟩, h⟩
    rw [parseOneInteraction_iff, parseSections_eq_iff x hline.contentType] at h
    obtain ⟨⟨hne, hplain, hend⟩, ⟨hparen, hstart⟩, hh', ⟨hr1, hr2, hr3⟩, hb1, hb2, hb3⟩ := h
    exact {
      method_line := hline.method
      method_ne_nil := hne
      method_plain := hplain
      path_line := hline.path
      path_end := hend
      type_line := hline.contentType
      type_paren := hparen
      type_start := hstart
      headers := keepsLines_iff.2 ⟨hh, hh'⟩
      reqBody := keepsLines_iff.2 ⟨hr, hr1, hr2⟩
      reqBody_end := hr3
      body := keepsLines_iff.2 ⟨hb, hb1, hb2⟩
      body_end := hb3 }

/-- The fields that are parsed of lines have no line feed. -/
theorem oneLine_of_parseOneInteraction {x : Interaction} (hls : ∀ line ∈ ls, newline ∉ line)
    (h : parseOneInteraction ls = .ok x) : OneLine x := by
  rcases ls with _ | ⟨line, _ | ⟨l, ls⟩⟩
  · cases h
  · cases h
  rw [parseOneInteraction] at h
  rcases hp : parseInteractionHeader (skipNumber line) with _ | ⟨m, p⟩
  · rw [hp] at h
    cases h
  rw [hp] at h
  rcases hq : parseSections .start (groups isSection (l :: ls)).2 with e | q
  · rw [hq] at h
    cases h
  rw [hq] at h
  simp only [bind, Except.bind] at h
  split_ifs at h
  cases h
  have hsub : ∀ c ∈ skipNumber line, c ∈ line := by
    intro c hc
    refine (List.dropWhile_sublist isDigit).subset ?_
    have hc' := (List.dropWhile_sublist _).subset hc
    split_ifs at hc'
    · exact List.mem_of_mem_tail hc'
    · exact hc'
  have hline : newline ∉ skipNumber line := fun hc => hls line List.mem_cons_self (hsub _ hc)
  obtain ⟨hm, hpath, -⟩ := parseInteractionHeader_sub hp
  refine ⟨fun hc => hline (hm _ hc), fun hc => hline (hpath _ hc), ?_⟩
  refine parseSections_keeps (P := fun q => newline ∉ q.contentType) ?_ hq List.not_mem_nil
  intro g hg ls' q₁ q₂ _ hs hq₁
  rcases (parseSection_cases hs).2.2.2 with heq | hname
  · rwa [heq]
  · intro hc
    have hg1 : g.1 ∈ line :: l :: ls :=
      List.mem_cons_of_mem _ ((sublist_of_mem_groups hg).subset List.mem_cons_self)
    exact hls _ hg1 (List.mem_of_mem_drop (hname _ hc))

/-! ### The lines of a tape -/

def headingLine (t : Toggles) (i : ℕ) (x : Interaction) : Text :=
  text "## Interaction " ++ headingRest t i x

/-- The lines of an interaction. -/
def chunk (t : Toggles) (i : ℕ) (x : Interaction) : List Text :=
  headingLine t i x :: [] :: partLines t x []

def tapeLines (t : Toggles) : ℕ → List Interaction → List Text
  | _, [] => []
  | i, x :: xs => chunk t i x ++ tapeLines t (i + 1) xs

theorem emitOneInteraction_eq (i : ℕ) (x : Interaction) :
    emitOneInteraction t i x = endl newline (chunk t i x) := by
  have h1 : text "### Request headers recorded for playback:\n\n"
      = lineReqHeaders ++ [newline, newline] := rfl
  have h2 : text "### Request body recorded for playback ():\n\n"
      = lineReqBody ++ [newline, newline] := rfl
  have h3 : text "### Response headers recorded for playback:\n\n"
      = lineRespHeaders ++ [newline, newline] := rfl
  have h4 : text "):\n\n" = text "):" ++ [newline, newline] := rfl
  have h5 : text "\n\n" = [newline, newline] := rfl
  have h6 : text "\n" = [newline] := rfl
  have h7 : text " " = [32] := rfl
  unfold emitOneInteraction chunk partLines headingLine headingRest lineRespBody writtenType
    typeLine
  rw [h1, h2, h3, h4, h5, h6, h7]
  simp only [emitCodeBlock_eq, endl_cons, endl_append, endl_nil, List.append_assoc,
    List.cons_append, List.nil_append]

theorem emitFrom_eq (i : ℕ) (xs : List Interaction) :
    emitFrom t i xs = endl newline (tapeLines t i xs) := by
  induction xs generalizing i with
  | nil => rfl
  | cons x xs ih => rw [emitFrom, tapeLines, endl_append, emitOneInteraction_eq, ih]

theorem newline_not_mem_formatLld (z : ℤ) : newline ∉ formatLld z := by
  intro h
  rcases mem_formatLld h with h | h
  · cases h
  · cases h

theorem newline_not_mem_partLines {x : Interaction} (h : newline ∉ x.contentType) :
    ∀ line ∈ partLines t x [], newline ∉ line := by
  have h1 : newline ∉ lineReqHeaders := by decide
  have h2 : newline ∉ lineReqBody := by decide
  have h3 : newline ∉ lineRespHeaders := by decide
  have h4 : newline ∉ lineRespBody x := by
    have ha : newline ∉ text "### Response body recorded for playback (" := by decide
    have hb : newline ∉ text ": " := by decide
    have hc : newline ∉ text "):" := by decide
    have hd : newline ∉ writtenType x := by
      have hplain : newline ∉ text "text/plain" := by decide
      unfold writtenType
      split_ifs
      · exact hplain
      · exact h
    simp only [lineRespBody, List.mem_append, not_or]
    exact ⟨⟨⟨⟨ha, newline_not_mem_formatLld _⟩, hb⟩, hd⟩, hc⟩
  intro line hline
  simp only [partLines, List.mem_append, List.mem_cons, List.not_mem_nil, or_false] at hline
  rcases hline with (rfl | rfl | hl) | (rfl | rfl | hl) | (rfl | rfl | hl) | rfl | rfl | hl | rfl
  · exact h1
  · exact List.not_mem_nil
  · exact newline_not_mem_blockText hl
  · exact h2
  · exact List.not_mem_nil
  · exact newline_not_mem_blockText hl
  · exact h3
  · exact List.not_mem_nil
  · exact newline_not_mem_blockText hl
  · exact h4
  · exact List.not_mem_nil
  · exact newline_not_mem_blockText hl
  · exact List.not_mem_nil

theorem newline_not_mem_headingLine {x : Interaction} (h : OneLine x) (i : ℕ) :
    newline ∉ headingLine t i x := by
  have h1 : newline ∉ text "## Interaction " := by decide
  have h2 : newline ∉ text ": " := by decide
  have h3 : newline ∉ emphasis t := by
    unfold emphasis
    split_ifs
    · decide
    · simp
  have h4 : newline ≠ 32 := by decide
  simp only [headingLine, headingRest, List.mem_append, List.mem_cons, not_or]
  exact ⟨h1, ⟨newline_not_mem_formatLld _, h2⟩, ⟨⟨h3, h.method⟩, h3⟩, h4, h.path⟩

theorem newline_not_mem_tapeLines : ∀ (i : ℕ) {xs : List Interaction}, (∀ x ∈ xs, OneLine x) →
    ∀ line ∈ tapeLines t i xs, newline ∉ line
  | _, [], _, _, h => by cases h
  | i, x :: xs, hxs, line, h => by
    have hx := hxs x List.mem_cons_self
    rw [tapeLines, chunk, List.cons_append, List.cons_append, List.mem_cons, List.mem_cons,
      List.mem_append] at h
    rcases h with rfl | rfl | h | h
    · exact newline_not_mem_headingLine hx i
    · exact List.not_mem_nil
    · exact newline_not_mem_partLines hx.contentType line h
    · exact newline_not_mem_tapeLines (i + 1) (fun y hy => hxs y (List.mem_cons_of_mem x hy)) line h

theorem lines_emitTape {xs : List Interaction} (h : ∀ x ∈ xs, OneLine x) :
    lines (emitTape t xs) = tapeLines t 0 xs ++ [[]] := by
  have := splitOn_endl [] (newline_not_mem_tapeLines (t := t) 0 h)
  rw [List.append_nil] at this
  rw [emitTape, emitFrom_eq]
  exact this

/-! ### The interactions of a tape -/

theorem mem_of_parseInteractions : ∀ {gs : List (Text × List Text)} {xs : List Interaction},
    parseInteractions gs = .ok xs → ∀ x ∈ xs, ∃ g ∈ gs,
      parseOneInteraction (g.1.drop 15 :: g.2) = .ok x
  | [], xs, h, x, hx => by
    cases h
    cases hx
  | (line, ls) :: gs, xs, h, x, hx => by
    rw [parseInteractions] at h
    split_ifs at h
    · cases h
      cases hx
    rcases h₁ : parseOneInteraction (line.drop 15 :: ls) with e | y
    · rw [h₁] at h
      cases h
    rcases h₂ : parseInteractions gs with e | ys
    · rw [h₁, h₂] at h
      cases h
    rw [h₁, h₂] at h
    cases h
    rcases List.mem_cons.1 hx with rfl | hx
    · exact ⟨_, List.mem_cons_self, h₁⟩
    · obtain ⟨g, hg, hgx⟩ := mem_of_parseInteractions h₂ x hx
      exact ⟨g, List.mem_cons_of_mem _ hg, hgx⟩

/-- The loop reads one interaction for each group of lines. -/
theorem parseInteractions_iff : ∀ {gs : List (Text × List Text)} {xs : List Interaction},
    (∀ g, gs.getLast? = some g → g.2 ≠ []) →
    (parseInteractions gs = .ok xs
      ↔ List.Forall₂ (fun g x => parseOneInteraction (g.1.drop 15 :: g.2) = .ok x) gs xs)
  | [], xs, _ => by
    rw [parseInteractions, Except.ok.injEq, List.forall₂_nil_left_iff, eq_comm]
  | (line, ls) :: gs, xs, hlast => by
    have hne : ¬ (line.drop 15 = [] ∧ ls = [] ∧ gs = []) := by
      rintro ⟨-, rfl, rfl⟩
      exact hlast (line, []) rfl rfl
    have ih : ∀ ys, parseInteractions gs = .ok ys
        ↔ List.Forall₂ (fun g x => parseOneInteraction (g.1.drop 15 :: g.2) = .ok x) gs ys := by
      intro ys
      refine parseInteractions_iff fun g hg => hlast g ?_
      rcases gs with _ | ⟨g', gs⟩
      · cases hg
      · rw [List.getLast?_cons_cons]
        exact hg
    rw [parseInteractions, if_neg hne, List.forall₂_cons_left_iff]
    rcases h₁ : parseOneInteraction (line.drop 15 :: ls) with e | y
    · simp [bind, Except.bind]
    rcases h₂ : parseInteractions gs with e | ys
    · refine iff_of_false (by simp [bind, Except.bind]) ?_
      rintro ⟨x, zs, -, hzs, -⟩
      rw [← ih, h₂] at hzs
      cases hzs
    · simp only [bind, Except.bind, pure, Except.pure, Except.ok.injEq]
      constructor
      · rintro rfl
        exact ⟨y, ys, rfl, (ih ys).1 h₂, rfl⟩
      · rintro ⟨x, zs, hx, hzs, rfl⟩
        rw [← ih, h₂, Except.ok.injEq] at hzs
        rw [hx, hzs]

/-- The groups of lines of a tape whose blocks have no headings of interactions. -/
def tapeGroups (t : Toggles) : ℕ → List Interaction → List (Text × List Text)
  | _, [] => []
  | i, [x] => [(headingLine t i x, [] :: partLines t x (ending true))]
  | i, x :: y :: xs =>
    (headingLine t i x, [] :: partLines t x (ending false)) :: tapeGroups t (i + 1) (y :: xs)

theorem partLines_ending (x : Interaction) (last : Bool) :
    partLines t x [] ++ ending last = partLines t x (ending last) := by
  simp [partLines]

/-- An interaction has its heading, and no other where its blocks have none. -/
theorem clear_partLines {x : Interaction} (hx : newline ∉ x.contentType) (last : Bool) :
    (∀ line ∈ [] :: partLines t x (ending last), isInteraction line = false) ↔ OneHeading t x := by
  have h1 : isInteraction lineReqHeaders = false := rfl
  have h2 : isInteraction lineReqBody = false := rfl
  have h3 : isInteraction lineRespHeaders = false := rfl
  have h4 : isInteraction (lineRespBody x) = false := rfl
  have htype := clear_typeLine (t := t) heading_isInteraction hx
  constructor
  · intro h
    refine ⟨fun line hl => h line ?_, fun line hl => h line ?_, fun line hl => h line ?_⟩ <;>
      simp [partLines, hl]
  · rintro ⟨hh, hr, hb⟩ line hline
    simp only [partLines, List.mem_append, List.mem_cons] at hline
    rcases hline with rfl | (rfl | rfl | hl) | (rfl | rfl | hl) | (rfl | rfl | hl) | rfl | rfl
      | hl | rfl | hl
    · rfl
    · exact h1
    · rfl
    · exact hh line hl
    · exact h2
    · rfl
    · exact hr line hl
    · exact h3
    · rfl
    · exact htype line hl
    · exact h4
    · rfl
    · exact hb line hl
    · rfl
    · rcases ending_cases last with he | he <;> rw [he] at hl
      · cases hl
      · rw [List.mem_singleton.1 hl]
        rfl

theorem isInteraction_headingLine (i : ℕ) (x : Interaction) :
    isInteraction (headingLine t i x) = true :=
  List.isPrefixOf_iff_prefix.2 (List.prefix_append _ _)

theorem groups_tapeLines : ∀ (i : ℕ) {xs : List Interaction}, (∀ x ∈ xs, OneLine x) →
    (∀ x ∈ xs, OneHeading t x) →
    (groups isInteraction (tapeLines t i xs ++ [[]])).2 = tapeGroups t i xs
  | _, [], _, _ => rfl
  | i, [x], hline, hone => by
    have hclear := (clear_partLines (hline x List.mem_cons_self).contentType true).2
      (hone x List.mem_cons_self)
    have hend : tapeLines t i [x] ++ [[]]
        = headingLine t i x :: [] :: partLines t x (ending true) := by
      rw [← partLines_ending, tapeLines, tapeLines, chunk]
      simp [ending]
    rw [hend, groups_cons_pos (isInteraction_headingLine i x), groups_of_none hclear]
    rfl
  | i, x :: y :: xs, hline, hone => by
    have hclear := (clear_partLines (hline x List.mem_cons_self).contentType false).2
      (hone x List.mem_cons_self)
    have ih := groups_tapeLines (i + 1) (fun z hz => hline z (List.mem_cons_of_mem x hz))
      fun z hz => hone z (List.mem_cons_of_mem x hz)
    obtain ⟨ls, hls⟩ : ∃ ls, tapeLines t (i + 1) (y :: xs) ++ [[]]
        = headingLine t (i + 1) y :: ls := ⟨_, rfl⟩
    have hcons : tapeLines t i (x :: y :: xs) ++ [[]]
        = headingLine t i x :: ([] :: partLines t x (ending false))
          ++ headingLine t (i + 1) y :: ls := by
      rw [tapeLines, List.append_assoc, hls, chunk]
      rfl
    rw [hcons, groups_cons_append_cons (isInteraction_headingLine i x)
      (isInteraction_headingLine (i + 1) y), groups_of_none hclear, ← hls, ih]
    rfl

/-- A tape has a heading for each interaction, and more if a block has one. -/
theorem oneHeading_of_countP : ∀ (i : ℕ) {xs : List Interaction}, (∀ x ∈ xs, OneLine x) →
    xs.length ≤ (tapeLines t i xs).countP isInteraction
      ∧ ((tapeLines t i xs).countP isInteraction = xs.length → ∀ x ∈ xs, OneHeading t x)
  | _, [], _ => ⟨le_rfl, fun _ x hx => by cases hx⟩
  | i, x :: xs, hline => by
    obtain ⟨hle, heq⟩ := oneHeading_of_countP (i + 1)
      fun z hz => hline z (List.mem_cons_of_mem x hz)
    have hcount : (tapeLines t i (x :: xs)).countP isInteraction
        = ([] :: partLines t x (ending false)).countP isInteraction + 1
          + (tapeLines t (i + 1) xs).countP isInteraction := by
      rw [tapeLines, List.countP_append, chunk,
        List.countP_cons_of_pos (isInteraction_headingLine i x)]
      rfl
    rw [hcount, List.length_cons]
    refine ⟨by omega, fun h z hz => ?_⟩
    have h0 : ([] :: partLines t x (ending false)).countP isInteraction = 0 := by omega
    rcases List.mem_cons.1 hz with rfl | hz
    · rw [List.countP_eq_zero] at h0
      refine (clear_partLines (hline z List.mem_cons_self).contentType false).1 fun line hl => ?_
      simpa using h0 line hl
    · exact heq (by omega) z hz

theorem forall₂_tapeGroups_iff : ∀ (i : ℕ) {xs : List Recorded},
    (∀ x ∈ xs, OneLine x.toInteraction) → (∀ x ∈ xs, OneHeading t x.toInteraction) →
    (List.Forall₂ (fun g x => parseOneInteraction (g.1.drop 15 :: g.2) = .ok x)
        (tapeGroups t i (xs.map Recorded.toInteraction)) (xs.map Recorded.toInteraction)
      ↔ (∀ x ∈ xs.dropLast, RoundTrips t false x.toInteraction)
        ∧ ∀ x, xs.getLast? = some x → RoundTrips t true x.toInteraction)
  | _, [], _, _ => by simp [tapeGroups]
  | i, [x], hline, hone => by
    have hx := roundTrips_iff (t := t) true i x
    rw [and_iff_right (hline x List.mem_cons_self), and_iff_right (hone x List.mem_cons_self)] at hx
    simp only [List.map_cons, List.map_nil, tapeGroups, List.forall₂_cons, List.Forall₂.nil,
      and_true, List.dropLast_singleton, List.not_mem_nil, false_implies, implies_true, true_and,
      List.getLast?_singleton, Option.some.injEq, forall_eq', hx]
    rfl
  | i, x :: y :: xs, hline, hone => by
    have ih := forall₂_tapeGroups_iff (i + 1) (fun z hz => hline z (List.mem_cons_of_mem x hz))
      fun z hz => hone z (List.mem_cons_of_mem x hz)
    have hx := roundTrips_iff (t := t) false i x
    rw [and_iff_right (hline x List.mem_cons_self), and_iff_right (hone x List.mem_cons_self)] at hx
    rw [List.map_cons] at ih
    rw [List.map_cons, List.map_cons, tapeGroups, List.forall₂_cons, ih, List.dropLast_cons_cons,
      List.forall_mem_cons, List.getLast?_cons_cons, hx, and_assoc]
    rfl

/-! ### The tape -/

theorem parseTapeFile_ok_iff {c : Text} {xs : List Interaction} : parseTapeFile c = .ok xs
    ↔ xs ≠ [] ∧ parseInteractions (groups isInteraction (lines c)).2 = .ok xs := by
  rw [parseTapeFile]
  rcases hg : (groups isInteraction (lines c)).2 with _ | ⟨g, gs⟩
  · simp only [if_true, reduceCtorEq, false_iff, not_and]
    rintro hne ⟨⟩
    exact hne rfl
  rcases hp : parseInteractions (g :: gs) with e | ys
  · simp [bind, Except.bind]
  · simp only [reduceCtorEq, if_false, bind, Except.bind]
    split_ifs with hys
    · simp only [Except.ok.injEq, false_iff, not_and]
      rintro hne rfl
      exact hne hys
    · rw [Except.ok.injEq]
      refine ⟨?_, fun h => h.2⟩
      rintro rfl
      exact ⟨hys, rfl⟩

/-- What was parsed of a tape has no line feed in a heading. -/
theorem oneLine_of_parseTapeFile {c : Text} {xs : List Interaction} (h : parseTapeFile c = .ok xs) :
    ∀ x ∈ xs, OneLine x := by
  intro x hx
  obtain ⟨g, hg, hgx⟩ := mem_of_parseInteractions (parseTapeFile_ok_iff.1 h).2 x hx
  have hsub := (sublist_of_mem_groups hg).subset
  refine oneLine_of_parseOneInteraction ?_ hgx
  intro line hline hn
  rcases List.mem_cons.1 hline with rfl | hline
  · exact newline_not_mem (hsub List.mem_cons_self) (List.mem_of_mem_drop hn)
  · exact newline_not_mem (hsub (List.mem_cons_of_mem _ hline)) hn

theorem last_of_tape (i : ℕ) (xs : List Interaction) : ∀ g,
    (groups isInteraction (tapeLines t i xs ++ [[]])).2.getLast? = some g → g.2 ≠ [] :=
  fun _ hg => snd_ne_nil_of_getLast?_groups rfl _ hg

theorem mem_dropLast_or_getLast {α : Type*} {xs : List α} {x : α} (h : x ∈ xs) :
    x ∈ xs.dropLast ∨ xs.getLast? = some x := by
  obtain ⟨ys, y, rfl⟩ := List.eq_nil_or_concat' xs |>.resolve_left (List.ne_nil_of_mem h)
  rw [List.dropLast_concat, List.getLast?_concat, Option.some.injEq]
  rcases List.mem_append.1 h with h | h
  · exact .inl h
  · exact .inr (List.mem_singleton.1 h).symm

theorem parseTapeFile_emitTape_iff (t : Toggles) (xs : List Recorded) :
    parseTapeFile (emitTape t (xs.map Recorded.toInteraction))
        = .ok (xs.map Recorded.toInteraction)
      ↔ xs ≠ [] ∧ (∀ x ∈ xs.dropLast, RoundTrips t false x.toInteraction)
        ∧ ∀ x, xs.getLast? = some x → RoundTrips t true x.toInteraction := by
  have hmem : ∀ {P : Interaction → Prop}, (∀ y ∈ xs.map Recorded.toInteraction, P y)
      ↔ ∀ x ∈ xs, P x.toInteraction := by simp
  have hiff : (∀ x ∈ xs, OneLine x.toInteraction) → (∀ x ∈ xs, OneHeading t x.toInteraction) →
      (parseTapeFile (emitTape t (xs.map Recorded.toInteraction))
          = .ok (xs.map Recorded.toInteraction)
        ↔ xs ≠ [] ∧ (∀ x ∈ xs.dropLast, RoundTrips t false x.toInteraction)
          ∧ ∀ x, xs.getLast? = some x → RoundTrips t true x.toInteraction) := by
    intro hline hone
    rw [parseTapeFile_ok_iff, lines_emitTape (hmem.2 hline),
      parseInteractions_iff (last_of_tape 0 _), groups_tapeLines 0 (hmem.2 hline) (hmem.2 hone), forall₂_tapeGroups_iff 0 hline hone, ne_eq,
      List.map_eq_nil_iff]
  constructor
  · intro h
    have hline := oneLine_of_parseTapeFile h
    have hone : ∀ x ∈ xs.map Recorded.toInteraction, OneHeading t x := by
      have h' := (parseTapeFile_ok_iff.1 h).2
      rw [lines_emitTape hline, parseInteractions_iff (last_of_tape 0 _)] at h'
      have hlen := h'.length_eq
      have hend : [[]].countP isInteraction = 0 := rfl
      rw [length_groups, List.countP_append, hend] at hlen
      exact (oneHeading_of_countP 0 hline).2 hlen
    exact (hiff (hmem.1 hline) (hmem.1 hone)).1 h
  · intro h
    have hline : ∀ x ∈ xs, OneLine x.toInteraction ∧ OneHeading t x.toInteraction := by
      intro x hx
      rcases mem_dropLast_or_getLast hx with hx | hx
      · have := (roundTrips_iff _ 0 x).1 (h.2.1 x hx)
        exact ⟨this.1, this.2.1⟩
      · have := (roundTrips_iff _ 0 x).1 (h.2.2 x hx)
        exact ⟨this.1, this.2.1⟩
    exact (hiff (fun x hx => (hline x hx).1) fun x hx => (hline x hx).2).2 h

/-- A request for one letter. -/
def getA : Recorded where
  method := text "GET"
  path := text "/a"
  status := 200
  contentType := text "text/plain"
  body := text "a"
  reqHeaders := []
  reqBody := []
  bytes := by decide
  method_noSpace := by decide
  status_ne := by decide
  status_int := by decide
  headers_canonical := rfl

/-- With indented blocks the blank line after the last interaction is read as part of its body. -/
theorem indented_body_gains_newline : ¬ ∀ (t : Toggles) (xs : List Recorded),
    parseTapeFile (emitTape t (xs.map Recorded.toInteraction))
      = .ok (xs.map Recorded.toInteraction) := by
  intro h
  have hread : parseTapeFile (emitTape ⟨false, true⟩ [getA.toInteraction])
      = .ok [{ getA.toInteraction with body := text "a\n" }] := rfl
  have heq := Except.ok.inj (hread.symm.trans (h ⟨false, true⟩ [getA]))
  have hbody := congrArg Interaction.body (List.head_eq_of_cons_eq heq)
  have hne : text "a\n" ≠ text "a" := by decide
  exact hne hbody

end Qjs.Aether.Vcr
