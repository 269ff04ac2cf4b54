import Qjs.Vcr
import Qjs.Proofs.ConstFoldText
import Mathlib.Data.List.DropRight

/-!
# Code blocks and headings of a tape

What is read from a block that was written, fenced (`fenced_eq_iff`) or indented
(`extract_shown`), and from the two headings that carry data (`parseInteractionHeader_eq_iff`,
`parseResponseBodyHeader_eq_iff`).
-/

namespace Qjs.Aether.Vcr

open JsonText Sections

/-! ### Lines -/

theorem newline_not_mem {s l : Text} (h : l ∈ lines s) : newline ∉ l := not_mem_of_mem_splitOn h

theorem visited_concat (l : Text) : ∀ ls : List Text,
    visited (ls ++ [l]) = ls ++ if l = [] then [] else [l]
  | [] => by cases l <;> simp [visited]
  | [m] => by
    change m :: visited ([] ++ [l]) = _
    rw [visited_concat l []]
    rfl
  | m :: n :: ls => by
    change m :: visited ((n :: ls) ++ [l]) = _
    rw [visited_concat l (n :: ls)]
    rfl

/-- A text is lines with their ends and a rest without one. -/
theorem text_cases (s : Text) : ∃ ls l, (∀ m ∈ ls, newline ∉ m) ∧ newline ∉ l
    ∧ s = endl newline ls ++ l ∧ blockLines s = ls ++ if l = [] then [] else [l] := by
  obtain ⟨ls, l, h⟩ : ∃ ls l, lines s = ls ++ [l] :=
    ⟨_, _, (List.dropLast_append_getLast (List.splitOn_ne_nil newline s)).symm⟩
  have hmem : ∀ m ∈ ls ++ [l], newline ∉ m := fun m hm => newline_not_mem (h ▸ hm)
  refine ⟨ls, l, fun m hm => hmem m (by simp [hm]), hmem l (by simp), ?_, ?_⟩
  · have hs : [newline].intercalate (lines s) = s := List.intercalate_splitOn newline
    rw [← hs, h, intercalate_concat]
  · rw [blockLines, h, visited_concat]

theorem newline_not_mem_blockLines {s l : Text} (h : l ∈ blockLines s) : newline ∉ l := by
  obtain ⟨ls, m, hls, hm, -, hb⟩ := text_cases s
  rw [hb, List.mem_append] at h
  rcases h with h | h
  · exact hls l h
  · split_ifs at h with hnil
    · cases h
    · rw [List.mem_singleton.1 h]
      exact hm

theorem endl_concat (ls : List Text) (l : Text) :
    endl newline (ls ++ [l]) = endl newline ls ++ l ++ [newline] := by
  simp

theorem getLast?_endl {ls : List Text} (h : ls ≠ []) :
    (endl newline ls).getLast? = some newline := by
  obtain ⟨ms, m, rfl⟩ := List.eq_nil_or_concat' ls |>.resolve_left h
  rw [endl_concat, List.getLast?_concat]

/-- A text whose last line is ended is its lines with their ends. -/
theorem endl_blockLines {s : Text} (h : s = [] ∨ s.getLast? = some newline) :
    endl newline (blockLines s) = s := by
  obtain ⟨ls, l, -, hl, hs, hb⟩ := text_cases s
  have hnil : l = [] := by
    by_contra hne
    rcases h with rfl | h
    · exact hne (List.append_eq_nil_iff.1 hs.symm).2
    · rw [hs, List.getLast?_append_of_ne_nil _ hne] at h
      exact hl (List.mem_of_getLast? h)
  rw [hb, if_pos hnil, List.append_nil]
  rw [hnil, List.append_nil] at hs
  exact hs.symm

/-- A text whose last line is not ended. -/
theorem endl_blockLines_of_ne {s : Text} (hne : s ≠ []) (h : s.getLast? ≠ some newline) :
    endl newline (blockLines s) = s ++ [newline] := by
  obtain ⟨ls, l, -, -, hs, hb⟩ := text_cases s
  have hnil : l ≠ [] := by
    rintro rfl
    rw [List.append_nil] at hs
    have hls : ls ≠ [] := by
      rintro rfl
      exact hne hs
    exact h (by rw [hs, getLast?_endl hls])
  rw [hb, if_neg hnil, endl_concat, ← hs]

theorem length_endl_blockLines (s : Text) :
    (endl newline (blockLines s)).length ≤ s.length + 1 := by
  by_cases h : s = [] ∨ s.getLast? = some newline
  · rw [endl_blockLines h]
    omega
  · rw [not_or] at h
    rw [endl_blockLines_of_ne h.1 h.2]
    simp

theorem blockLines_nil : blockLines [] = [] := rfl

theorem blockLines_ne_nil {s : Text} (h : s ≠ []) : blockLines s ≠ [] := by
  intro hb
  by_cases hl : s.getLast? = some newline
  · have := endl_blockLines (.inr hl)
    rw [hb] at this
    exact h this.symm
  · have := endl_blockLines_of_ne h hl
    rw [hb] at this
    simp at this

theorem intercalate_length_lt {ls : List Text} (h : ls ≠ []) :
    ([newline].intercalate ls).length + 1 = (endl newline ls).length := by
  obtain ⟨ms, m, rfl⟩ := List.eq_nil_or_concat' ls |>.resolve_left h
  rw [intercalate_concat, endl_concat, List.length_append, List.length_append, List.length_append,
    List.length_singleton]

theorem intercalate_length_le (ls : List Text) :
    ([newline].intercalate ls).length ≤ (endl newline ls).length := by
  rcases eq_or_ne ls [] with rfl | h
  · simp
  · have := intercalate_length_lt h
    omega

theorem endl_eq_intercalate {ls : List Text} (h : ls ≠ []) :
    endl newline ls = [newline].intercalate ls ++ [newline] := by
  obtain ⟨ms, m, rfl⟩ := List.eq_nil_or_concat' ls |>.resolve_left h
  rw [intercalate_concat, endl_concat]

/-- The lines of a block, put together, are the block unless its last line is ended. -/
theorem intercalate_blockLines {s : Text} :
    [newline].intercalate (blockLines s) = s ↔ s.getLast? ≠ some newline := by
  rcases eq_or_ne s [] with rfl | hne
  · simp [blockLines_nil]
  have hb := blockLines_ne_nil hne
  constructor
  · intro h hl
    have h1 := intercalate_length_lt hb
    rw [endl_blockLines (.inr hl), h] at h1
    omega
  · intro h
    have h1 := endl_blockLines_of_ne hne h
    rw [endl_eq_intercalate hb] at h1
    exact List.append_cancel_right h1

/-! ### Blocks as lines -/

/-- The lines of a code block. -/
def blockText (t : Toggles) (s : Text) : List Text :=
  if t.indentCodeBlocks then
    if s = [] then [text "    "] else (blockLines s).map (text "    " ++ ·)
  else fence :: (blockLines s ++ [fence])

theorem emitCodeBlock_eq (t : Toggles) (s : Text) :
    emitCodeBlock t s = endl newline (blockText t s) := by
  unfold emitCodeBlock blockText
  split_ifs with hi hs hs hl
  · rfl
  · rw [endl, List.flatMap_map, blockLines]
    rfl
  · rw [hs]
    rfl
  · have h := endl_blockLines (.inr hl)
    rw [endl_cons, endl_concat, h]
    simp [fence, text, newline]
  · have h := endl_blockLines_of_ne hs hl
    rw [endl_cons, endl_concat, h]
    simp [fence, text, newline]

theorem newline_not_mem_blockText {t : Toggles} {s l : Text} (h : l ∈ blockText t s) :
    newline ∉ l := by
  have hfence : newline ∉ fence := by decide
  have hblank : newline ∉ text "    " := by decide
  unfold blockText at h
  split_ifs at h with hi hs
  · rw [List.mem_singleton.1 h]
    exact hblank
  · obtain ⟨m, hm, rfl⟩ := List.mem_map.1 h
    rw [List.mem_append, not_or]
    exact ⟨hblank, newline_not_mem_blockLines hm⟩
  · simp only [List.mem_cons, List.mem_append, List.not_mem_nil, or_false] at h
    rcases h with rfl | h | rfl
    · exact hfence
    · exact newline_not_mem_blockLines h
    · exact hfence

/-! ### Reading a fenced block -/

theorem extractCodeBlockAt_blank {line : Text} (h : rtrim line = []) (ls : List Text) :
    extractCodeBlockAt (line :: ls) = extractCodeBlockAt ls := by
  rw [extractCodeBlockAt, if_pos h]

theorem extractCodeBlockAt_fence (ls : List Text) : extractCodeBlockAt (fence :: ls)
    = if ls.any fence.isPrefixOf then
        [newline].intercalate (ls.takeWhile fun line => !fence.isPrefixOf line)
      else [] := by
  rw [extractCodeBlockAt, if_neg (by decide), if_pos (by decide)]

/-- The lines of a block up to one that looks like its end. -/
def untilFence (b : List Text) : List Text := b.takeWhile fun line => !fence.isPrefixOf line

theorem extract_fenced (b post : List Text) :
    extractCodeBlockAt ([] :: fence :: (b ++ fence :: post))
      = [newline].intercalate (untilFence b) := by
  have hfence : fence.isPrefixOf fence = true := by decide
  rw [extractCodeBlockAt_blank rfl, extractCodeBlockAt_fence, if_pos (by simp [hfence])]
  congr 1
  rw [List.takeWhile_append, untilFence]
  split_ifs with h
  · rw [List.takeWhile_cons_of_neg (by simp [hfence]), List.append_nil]
    exact (List.IsPrefix.eq_of_length (List.takeWhile_prefix _) h).symm
  · rfl

theorem three_le_of_fence {line : Text} (h : fence.isPrefixOf line = true) : 3 ≤ line.length := by
  have := (List.isPrefixOf_iff_prefix.1 h).length_le
  exact this

/-- A line in the middle takes room. -/
theorem length_endl_middle (a c : List Text) (l : Text) :
    (endl newline (a ++ l :: c)).length
      = (endl newline a).length + (l.length + 1) + (endl newline c).length := by
  rw [endl_append, endl_cons, List.length_append, List.length_append, List.length_cons]
  omega

theorem untilFence_eq_self {b : List Text} (h : ∀ line ∈ b, fence.isPrefixOf line = false) :
    untilFence b = b :=
  List.takeWhile_eq_self_iff.2 fun line hl => by rw [h line hl]; rfl

/-- A fence among the lines shortens the block. -/
theorem length_untilFence {b : List Text} (h : ¬ ∀ line ∈ b, fence.isPrefixOf line = false) :
    (endl newline (untilFence b)).length + 4 ≤ (endl newline b).length := by
  push Not at h
  obtain ⟨line, hline, hf⟩ := h
  rcases hd : b.dropWhile fun line => !fence.isPrefixOf line with _ | ⟨m, c⟩
  · have := List.dropWhile_eq_nil_iff.1 hd line hline
    simp [hf] at this
  · have hm : fence.isPrefixOf m = true := by
      have := List.head?_dropWhile_not (fun line => !fence.isPrefixOf line) b
      rw [hd] at this
      simpa using this
    have hb : b = untilFence b ++ m :: c := by
      rw [← hd, untilFence, List.takeWhile_append_dropWhile]
    have h3 := three_le_of_fence hm
    have h4 := length_endl_middle (untilFence b) c m
    rw [← hb] at h4
    omega

theorem fenced_eq_iff {s : Text} : [newline].intercalate (untilFence (blockLines s)) = s
    ↔ (∀ line ∈ blockLines s, fence.isPrefixOf line = false) ∧ s.getLast? ≠ some newline := by
  by_cases hall : ∀ line ∈ blockLines s, fence.isPrefixOf line = false
  · rw [untilFence_eq_self hall, intercalate_blockLines]
    exact (and_iff_right hall).symm
  · refine iff_of_false ?_ fun h => hall h.1
    intro h
    have h1 := intercalate_length_le (untilFence (blockLines s))
    rw [h] at h1
    have h2 := length_endl_blockLines s
    have h3 := length_untilFence hall
    omega

/-! ### Reading an indented block -/

def indent (line : Text) : Text := text "    " ++ line

theorem rtrim_eq_nil {line : Text} : rtrim line = [] ↔ ∀ c ∈ line, isTrimmed c = true :=
  List.rdropWhile_eq_nil_iff

theorem rtrim_indent {line : Text} : rtrim (indent line) = [] ↔ rtrim line = [] := by
  rw [rtrim_eq_nil, rtrim_eq_nil, indent]
  constructor
  · intro h c hc
    exact h c (List.mem_append_right _ hc)
  · intro h c hc
    rcases List.mem_append.1 hc with hc | hc
    · have : ∀ c ∈ text "    ", isTrimmed c = true := by decide
      exact this c hc
    · exact h c hc

theorem isIndented_indent (line : Text) : isIndented (indent line) = true := by
  rw [isIndented, Bool.or_eq_true]
  exact .inr (List.isPrefixOf_iff_prefix.2 (List.prefix_append _ _))

theorem stripIndent_indent (line : Text) : stripIndent (indent line) = line := rfl

theorem indentedLines_indent (post : List Text) : ∀ b : List Text,
    indentedLines (b.map indent ++ post) = b ++ indentedLines post
  | [] => rfl
  | line :: b => by
    rw [List.map_cons, List.cons_append, indentedLines, if_neg (fun h => by cases h.1),
      if_pos (isIndented_indent line), stripIndent_indent, indentedLines_indent post b,
      List.cons_append]

theorem extract_skip {b : List Text} (h : ∀ line ∈ b, rtrim line = []) (ls : List Text) :
    extractCodeBlockAt (b ++ ls) = extractCodeBlockAt ls := by
  induction b with
  | nil => rfl
  | cons line b ih =>
    rw [List.cons_append, extractCodeBlockAt_blank (h line List.mem_cons_self),
      ih fun l hl => h l (List.mem_cons_of_mem line hl)]

theorem extract_indent {line : Text} (h : rtrim line ≠ []) (ls : List Text) :
    extractCodeBlockAt (indent line :: ls) = extractIndentedAt (indent line :: ls) := by
  have hne : rtrim (indent line) ≠ [] := fun h' => h (rtrim_indent.1 h')
  have hfence : fence.isPrefixOf (rtrim (indent line)) = false := by
    have hpre : rtrim (indent line) <+: indent line := List.rdropWhile_prefix _ _
    obtain ⟨c, cs, hc⟩ := List.exists_cons_of_ne_nil hne
    rw [hc] at hpre ⊢
    obtain ⟨r, hr⟩ := hpre
    have hc' : c = 32 := by
      have := congrArg List.head? hr
      simpa [indent, text] using this
    rw [hc']
    rfl
  rw [extractCodeBlockAt, if_neg hne, if_neg (by rw [hfence]; simp),
    if_pos (isIndented_indent line)]

/-- The lines of an indented block from the first one on that is not blank. -/
def shownLines (b : List Text) : List Text := b.dropWhile fun line => rtrim line = []

theorem extract_indented (b post : List Text) :
    extractCodeBlockAt ([] :: (b.map indent ++ post))
      = if shownLines b = [] then extractCodeBlockAt post
        else [newline].intercalate (shownLines b ++ indentedLines post) := by
  have hb : b.map indent = (b.takeWhile fun line => rtrim line = []).map indent
      ++ (shownLines b).map indent := by
    rw [← List.map_append, shownLines, List.takeWhile_append_dropWhile]
  rw [extractCodeBlockAt_blank rfl, hb, List.append_assoc, extract_skip]
  · split_ifs with h
    · rw [h]
      rfl
    · obtain ⟨line, ls, hl⟩ := List.exists_cons_of_ne_nil h
      have hline : rtrim line ≠ [] := by
        have := List.head?_dropWhile_not (fun line => decide (rtrim line = [])) b
        rw [← shownLines, hl] at this
        simpa using this
      rw [hl, List.map_cons, List.cons_append, extract_indent hline, extractIndentedAt,
        ← List.cons_append, ← List.map_cons, indentedLines_indent]
  · intro line hline
    obtain ⟨m, hm, rfl⟩ := List.mem_map.1 hline
    rw [rtrim_indent]
    simpa using List.mem_takeWhile_imp hm

theorem head?_visited : ∀ {ls : List Text}, visited ls ≠ [] → (visited ls).head? = ls.head?
  | [], h => absurd rfl h
  | [l], h => by
    rw [visited] at h ⊢
    split_ifs at h ⊢ with hl
    · exact absurd rfl h
    · rfl
  | _ :: _ :: _, _ => rfl

theorem head?_blockLines {s : Text} (h : s ≠ []) : (blockLines s).head? = (lines s).head? :=
  head?_visited (blockLines_ne_nil h)

theorem lines_intercalate {ls : List Text} (h : ∀ l ∈ ls, newline ∉ l) (hne : ls ≠ []) :
    lines ([newline].intercalate ls) = ls := List.splitOn_intercalate newline h hne

/-- The lines that a written block is made of. -/
def shown (s : Text) : List Text := if s = [] then [[]] else blockLines s

theorem blockText_indent {t : Toggles} (h : t.indentCodeBlocks = true) (s : Text) :
    blockText t s = (shown s).map indent := by
  rw [blockText, if_pos h, shown]
  split_ifs <;> rfl

theorem extract_shown {s : Text} {post : List Text} {r : Text}
    (hr : r = if shownLines (shown s) = [] then []
      else [newline].intercalate (shownLines (shown s) ++ post))
    (hpost : post = [] ∨ post = [[]]) :
    r = s ↔ (∀ line, (blockLines s).head? = some line → rtrim line ≠ [])
      ∧ (if post = [] then s.getLast? ≠ some newline else s = [] ∨ s.getLast? = some newline) := by
  rcases eq_or_ne s [] with rfl | hs
  · have hr' : r = [] := hr
    rw [hr']
    simp [blockLines_nil]
  rw [shown, if_neg hs] at hr
  obtain ⟨line, ls, hb⟩ := List.exists_cons_of_ne_nil (blockLines_ne_nil hs)
  by_cases hline : rtrim line = []
  · -- the first line is lost
    refine iff_of_false ?_ fun h => h.1 line (by rw [hb]; rfl) hline
    rintro rfl
    split_ifs at hr with h
    · exact hs hr
    · obtain ⟨m, ms, hm⟩ := List.exists_cons_of_ne_nil h
      have hmem : ∀ l ∈ shownLines (blockLines r) ++ post, newline ∉ l := by
        intro l hl
        rcases List.mem_append.1 hl with hl | hl
        · exact newline_not_mem_blockLines ((List.dropWhile_sublist _).mem hl)
        · rcases hpost with rfl | rfl
          · cases hl
          · rw [List.mem_singleton.1 hl]
            exact List.not_mem_nil
      have hl := lines_intercalate hmem (by rw [hm]; simp)
      rw [← hr] at hl
      have hhead := head?_blockLines hs
      rw [hl, hm, hb] at hhead
      have hmline : rtrim m ≠ [] := by
        have := List.head?_dropWhile_not (fun line => decide (rtrim line = [])) (blockLines r)
        rw [← shownLines, hm] at this
        simpa using this
      simp only [List.head?_cons, List.cons_append, Option.some.injEq] at hhead
      exact hmline (hhead ▸ hline)
  · have hshown : shownLines (blockLines s) = blockLines s := by
      rw [shownLines, hb, List.dropWhile_cons_of_neg (by simpa using hline)]
    rw [hshown, if_neg (blockLines_ne_nil hs)] at hr
    rw [hr, hb]
    have hfirst : ∀ l, (line :: ls).head? = some l → rtrim l ≠ [] := by
      rintro l ⟨⟩
      exact hline
    rw [and_iff_right hfirst, ← hb]
    rcases hpost with rfl | rfl
    · rw [List.append_nil, intercalate_blockLines, if_pos rfl]
    · rw [intercalate_concat, List.append_nil, if_neg (by simp)]
      constructor
      · intro h
        by_contra hcon
        rw [not_or] at hcon
        rw [endl_blockLines_of_ne hcon.1 hcon.2] at h
        simpa using congrArg List.length h
      · exact endl_blockLines

/-! ### The heading of an interaction -/

theorem mem_of_mem_rtrim {c : ℕ} {s : Text} (h : c ∈ rtrim s) : c ∈ s :=
  (List.rdropWhile_prefix _ s).subset h

theorem rtrim_append {a b : Text} (h : rtrim b ≠ []) : rtrim (a ++ b) = a ++ rtrim b := by
  rw [rtrim, List.rdropWhile] at h
  rw [rtrim, rtrim, List.rdropWhile, List.rdropWhile, List.reverse_append, List.dropWhile_append,
    if_neg (by simpa using h), List.reverse_append, List.reverse_reverse]

theorem rtrim_append_nil {a b : Text} (h : rtrim b = []) : rtrim (a ++ b) = rtrim a := by
  rw [rtrim, List.rdropWhile, List.reverse_eq_nil_iff] at h
  rw [rtrim, rtrim, List.rdropWhile, List.rdropWhile, List.reverse_append, List.dropWhile_append,
    if_pos (by simpa using h)]

theorem rtrim_eq_self {s : Text} (h : rtrim s = s) (hs : s ≠ []) :
    ∃ c, s.getLast? = some c ∧ isTrimmed c = false := by
  refine ⟨s.getLast hs, List.getLast?_eq_some_getLast hs, ?_⟩
  simpa using List.rdropWhile_eq_self_iff.1 h hs

theorem rtrim_of_getLast {s : Text} {c : ℕ} (h : s.getLast? = some c) (hc : isTrimmed c = false) :
    rtrim s = s := by
  refine List.rdropWhile_eq_self_iff.2 fun hs => ?_
  rw [List.getLast?_eq_some_getLast hs, Option.some.injEq] at h
  rw [h, hc]
  simp

/-! Stripping a method. -/

theorem stripLoop_le : ∀ (fuel : ℕ) (m : Text), (stripLoop fuel m).length ≤ m.length
  | 0, _ => le_rfl
  | fuel + 1, m => by
    rw [stripLoop]
    split_ifs
    · have := stripLoop_le fuel m.tail.dropLast
      simp only [List.length_dropLast, List.length_tail] at this
      omega
    · exact le_rfl

theorem mem_of_mem_stripLoop {c : ℕ} : ∀ (fuel : ℕ) {m : Text}, c ∈ stripLoop fuel m → c ∈ m
  | 0, _, h => h
  | fuel + 1, m, h => by
    rw [stripLoop] at h
    split_ifs at h
    · exact List.mem_of_mem_tail (List.mem_of_mem_dropLast (mem_of_mem_stripLoop fuel h))
    · exact h

/-- More turns than there are pairs to strip change nothing. -/
theorem stripLoop_fuel : ∀ {fuel fuel' : ℕ} {m : Text}, m.length ≤ fuel → m.length ≤ fuel' →
    stripLoop fuel m = stripLoop fuel' m
  | 0, 0, _, _, _ => rfl
  | 0, fuel' + 1, m, h, _ => by
    obtain rfl := List.length_eq_zero_iff.1 (Nat.le_zero.1 h)
    rfl
  | fuel + 1, 0, m, _, h => by
    obtain rfl := List.length_eq_zero_iff.1 (Nat.le_zero.1 h)
    rfl
  | fuel + 1, fuel' + 1, m, h, h' => by
    rw [stripLoop, stripLoop]
    split_ifs
    · exact stripLoop_fuel (by simp; omega) (by simp; omega)
    · rfl

theorem stripEmphasis_eq_self {m : Text} : stripEmphasis m = m ↔ isEmphasized m = false := by
  unfold stripEmphasis
  rcases m with _ | ⟨c, m⟩
  · exact iff_of_true rfl rfl
  · rw [List.length_cons, stripLoop]
    split_ifs with h
    · refine iff_of_false ?_ (by simp [h])
      intro heq
      have := stripLoop_le m.length (List.dropLast (List.tail (c :: m)))
      rw [heq] at this
      simp at this
      omega
    · exact iff_of_true rfl (by simpa using h)

/-- Stars around a method are stripped first. -/
theorem stripEmphasis_emphasis (t : Toggles) (m : Text) :
    stripEmphasis (emphasis t ++ m ++ emphasis t) = stripEmphasis m := by
  unfold emphasis
  split_ifs with h
  · have hstar : isEmphasized (text "*" ++ m ++ text "*") = true := by
      have hlen : 2 ≤ (text "*" ++ m ++ text "*").length := by simp [text]
      rw [isEmphasized, Bool.and_eq_true, Bool.and_eq_true]
      refine ⟨⟨by simpa using hlen, rfl⟩, ?_⟩
      change (List.getLast? (text "*" ++ m ++ [42])).any isEmphasis = true
      rw [List.getLast?_concat]
      rfl
    have hinner : (text "*" ++ m ++ text "*").tail.dropLast = m := by
      change (m ++ [42]).dropLast = m
      exact List.dropLast_concat
    rw [stripEmphasis, List.length_append, List.length_append]
    change stripLoop (1 + m.length + 1) _ = _
    rw [stripLoop, if_pos hstar, hinner]
    exact stripLoop_fuel (by omega) le_rfl
  · simp

theorem span_append {p : ℕ → Bool} {w : Text} {c : ℕ} (hw : ∀ d ∈ w, p d = true)
    (hc : p c = false) (s : Text) : (w ++ c :: s).span p = (w, c :: s) := by
  rw [List.span_eq_takeWhile_dropWhile, List.takeWhile_append_of_pos hw,
    List.dropWhile_append_of_pos hw, List.takeWhile_cons_of_neg (by simp [hc]),
    List.dropWhile_cons_of_neg (by simp [hc]), List.append_nil]

theorem span_all {p : ℕ → Bool} {w : Text} (hw : ∀ d ∈ w, p d = true) : w.span p = (w, []) := by
  rw [List.span_eq_takeWhile_dropWhile, List.takeWhile_eq_self_iff.2 hw,
    List.dropWhile_eq_nil_iff.2 hw]

/-- What is parsed of a line is part of it. -/
theorem parseInteractionHeader_sub {line m p : Text}
    (h : parseInteractionHeader line = some (m, p)) :
    (∀ c ∈ m, c ∈ line) ∧ (∀ c ∈ p, c ∈ line) ∧ p.length < line.length := by
  rw [parseInteractionHeader, List.span_eq_takeWhile_dropWhile] at h
  rcases hd : (rtrim line).dropWhile (· != 32) with _ | ⟨c, path⟩
  · rw [hd] at h
    cases h
  · rw [hd] at h
    obtain ⟨rfl, rfl⟩ : stripEmphasis ((rtrim line).takeWhile (· != 32)) = m ∧ path = p := by
      simpa using h
    have hsub : (c :: path).Sublist (rtrim line) := hd ▸ List.dropWhile_sublist _
    have hlen := hsub.length_le
    have hpre : (rtrim line) <+: line := List.rdropWhile_prefix _ line
    have hlen' := hpre.length_le
    rw [List.length_cons] at hlen
    refine ⟨?_, ?_, by omega⟩
    · intro d hd'
      exact mem_of_mem_rtrim ((List.takeWhile_prefix _).subset (mem_of_mem_stripLoop _ hd'))
    · intro d hd'
      exact mem_of_mem_rtrim (hsub.subset (List.mem_cons_of_mem c hd'))

theorem all_isDigit_natText (n : ℕ) : ∀ c ∈ natText n, isDigit c = true :=
  fun _ hc => isDigit_iff.2 ((intText_digits (intText_natText n)).2 _ hc)

/-- The number of an interaction is skipped. -/
theorem skipNumber_eq (i : ℕ) (s : Text) :
    skipNumber (formatLld i ++ text ": " ++ s) = s.dropWhile (· == 32) := by
  have hi : formatLld i = natText i := by
    simp [formatLld, signText]
  have h1 : (formatLld i ++ text ": " ++ s).dropWhile isDigit = 58 :: 32 :: s := by
    rw [hi, List.append_assoc, List.dropWhile_append_of_pos (all_isDigit_natText i)]
    rfl
  rw [skipNumber, h1]
  simp

theorem parseInteractionHeader_eq_iff (t : Toggles) (i : ℕ) {m p : Text} (hm : 32 ∉ m) :
    parseInteractionHeader (skipNumber (formatLld i ++ text ": "
        ++ (emphasis t ++ m ++ emphasis t ++ 32 :: p))) = some (m, p)
      ↔ (t.emphasizeHttpVerbs = false → m ≠ []) ∧ isEmphasized m = false
        ∧ ∃ c, p.getLast? = some c ∧ isTrimmed c = false := by
  have hw : ∀ d ∈ emphasis t ++ m ++ emphasis t, (d != 32) = true := by
    intro d hd
    have hem : ∀ d ∈ emphasis t, d ≠ 32 := by
      unfold emphasis
      split_ifs
      · decide
      · simp
    simp only [List.mem_append] at hd
    rcases hd with (hd | hd) | hd
    · simpa using hem d hd
    · simpa using fun h : d = 32 => hm (h ▸ hd)
    · simpa using hem d hd
  rw [skipNumber_eq]
  rcases hw' : emphasis t ++ m ++ emphasis t with _ | ⟨d, w⟩
  · -- nothing between the spaces
    obtain ⟨h1, rfl, -⟩ : emphasis t = [] ∧ m = [] ∧ emphasis t = [] := by simpa using hw'
    have ht : t.emphasizeHttpVerbs = false := by
      rw [emphasis] at h1
      split_ifs at h1 with h
      · cases h1
      · simpa using h
    refine iff_of_false ?_ fun h => h.1 ht rfl
    intro h
    have hlen := (parseInteractionHeader_sub h).2.2
    have hle : ((32 :: p).dropWhile (· == 32)).length ≤ p.length := by
      rw [List.dropWhile_cons_of_pos rfl]
      exact (List.dropWhile_sublist _).length_le
    rw [List.nil_append] at hlen
    omega
  · rw [hw'] at hw
    have hd : (d == 32) = false := by simpa using hw d List.mem_cons_self
    rw [List.cons_append, List.dropWhile_cons_of_neg (by simp [hd]), ← List.cons_append,
      parseInteractionHeader]
    have hne : t.emphasizeHttpVerbs = false → m ≠ [] := by
      rintro h rfl
      simp [emphasis, h] at hw'
    rw [and_iff_right hne]
    by_cases hp : rtrim p = []
    · -- the space is trimmed too
      have h32 : rtrim (32 :: p) = [] := by
        rw [rtrim_eq_nil] at hp ⊢
        intro c hc
        rcases List.mem_cons.1 hc with rfl | hc
        · rfl
        · exact hp c hc
      rw [rtrim_append_nil h32, span_all fun c hc => hw c (mem_of_mem_rtrim hc)]
      refine iff_of_false (by simp) ?_
      rintro ⟨-, c, hc, hct⟩
      have := rtrim_eq_nil.1 hp c (List.mem_of_getLast? hc)
      rw [hct] at this
      cases this
    · have h32 : rtrim (32 :: p) = 32 :: rtrim p := rtrim_append (a := [32]) hp
      rw [rtrim_append (by rw [h32]; simp), h32, span_append hw rfl]
      have hstrip : stripEmphasis (d :: w) = stripEmphasis m := by
        rw [← hw', stripEmphasis_emphasis]
      simp only [hstrip, Option.some.injEq, Prod.mk.injEq, stripEmphasis_eq_self]
      refine and_congr_right fun _ => ⟨fun h => ?_, fun h => ?_⟩
      · exact rtrim_eq_self h (h ▸ hp)
      · obtain ⟨c, hc, hct⟩ := h
        exact rtrim_of_getLast hc hct

/-! ### The heading of a response body -/

theorem not_isSpace_of_digit {c : ℕ} (h : isDigit c = true) : isSpace c = false := by
  have := isDigit_iff.1 h
  rw [IsDigit] at this
  simp only [isSpace, Bool.or_eq_false_iff, beq_eq_false_iff_ne, ne_eq, Bool.and_eq_false_iff,
    decide_eq_false_iff_not]
  omega

theorem toInt_formatLld {z : ℤ} (hlo : -2 ^ 31 ≤ z) (hhi : z ≤ 2 ^ 31 - 1) :
    toInt (formatLld z) = some z := by
  have hdig := all_isDigit_natText z.natAbs
  have htake : (natText z.natAbs).takeWhile isDigit = natText z.natAbs :=
    List.takeWhile_eq_self_iff.2 hdig
  have hdrop : (natText z.natAbs).dropWhile isDigit = [] := List.dropWhile_eq_nil_iff.2 hdig
  have hne : natText z.natAbs ≠ [] := (intText_digits (intText_natText z.natAbs)).1
  rw [formatLld]
  by_cases hz : z < 0
  · have hs : signText (decide (z < 0)) ++ natText z.natAbs = 0x2d :: natText z.natAbs := by
      simp [signText, hz]
    rw [hs, toInt, List.dropWhile_cons_of_neg (by decide)]
    simp only [List.head?_cons, true_or, if_true, List.tail_cons, htake, hdrop, digitsValue_natText,
      List.all_nil]
    rw [if_neg (by
      rw [not_or, not_or]
      exact ⟨hne, by omega, by omega⟩)]
    congr 1
    omega
  · have hs : signText (decide (z < 0)) ++ natText z.natAbs = natText z.natAbs := by
      simp [signText, hz]
    obtain ⟨d, ds, hd⟩ := List.exists_cons_of_ne_nil hne
    have hdd : isDigit d = true := hdig d (by rw [hd]; exact List.mem_cons_self)
    have h1 : ¬ d = 0x2d ∧ ¬ d = 0x2b := by
      have := isDigit_iff.1 hdd
      rw [IsDigit] at this
      omega
    have hspace : (natText z.natAbs).dropWhile isSpace = natText z.natAbs := by
      rw [hd, List.dropWhile_cons_of_neg (by simp [not_isSpace_of_digit hdd])]
    have hhead : ¬ (natText z.natAbs).head? = some 0x2d
        ∧ ¬ (natText z.natAbs).head? = some 0x2b := by
      rw [hd]
      simpa using h1
    rw [hs, toInt, hspace]
    simp only [hhead.1, hhead.2, or_self, if_false, htake, hdrop, digitsValue_natText, List.all_nil,
      if_true]
    rw [if_neg (by
      rw [not_or, not_or]
      exact ⟨hne, by omega, by omega⟩)]
    congr 1
    omega

theorem takeWhile_stop {p : ℕ → Bool} {c : ℕ} (hc : p c = false) (s : Text) : ∀ l : Text,
    (l ++ c :: s).takeWhile p = l.takeWhile p
  | [] => by rw [List.nil_append, List.takeWhile_cons_of_neg (by simp [hc]), List.takeWhile_nil]
  | d :: l => by
    rw [List.cons_append, List.takeWhile_cons, List.takeWhile_cons, takeWhile_stop hc s l]

theorem mem_formatLld {z : ℤ} {c : ℕ} (h : c ∈ formatLld z) : c = 0x2d ∨ isDigit c = true := by
  rw [formatLld, List.mem_append] at h
  rcases h with h | h
  · left
    rw [signText] at h
    split_ifs at h
    · exact List.mem_singleton.1 h
    · cases h
  · exact .inr (all_isDigit_natText _ c h)

theorem formatLld_ne {z : ℤ} {d : ℕ} (hd : d ≠ 0x2d) (hdig : isDigit d = false) :
    ∀ c ∈ formatLld z, (c != d) = true := by
  intro c hc
  rcases mem_formatLld hc with rfl | h
  · simpa using hd.symm
  · have : c ≠ d := by
      rintro rfl
      rw [hdig] at h
      cases h
    simpa using this

theorem parseResponseBodyHeader_eq {z : ℤ} (hlo : -2 ^ 31 ≤ z) (hhi : z ≤ 2 ^ 31 - 1) (ct : Text) :
    parseResponseBodyHeader (text "Response body recorded for playback (" ++ formatLld z
        ++ text ": " ++ ct ++ text "):") = some (z, (ct.takeWhile (· != 41)).dropWhile isBlank) := by
  have h1 : (text "Response body recorded for playback (" ++ formatLld z ++ text ": " ++ ct
      ++ text "):").dropWhile (· != 40)
        = 40 :: (formatLld z ++ (58 :: 32 :: (ct ++ 41 :: [58]))) := by
    have hpre : ∀ c ∈ text "Response body recorded for playback ", (c != 40) = true := by decide
    have hsplit : text "Response body recorded for playback (" ++ formatLld z ++ text ": " ++ ct
        ++ text "):" = text "Response body recorded for playback "
          ++ 40 :: (formatLld z ++ (58 :: 32 :: (ct ++ 41 :: [58]))) := by
      simp [text]
    rw [hsplit, List.dropWhile_append_of_pos hpre, List.dropWhile_cons_of_neg (by decide)]
  have h2 : (formatLld z ++ 58 :: 32 :: (ct ++ 41 :: [58])).takeWhile (· != 41)
      = formatLld z ++ 58 :: 32 :: ct.takeWhile (· != 41) := by
    rw [List.takeWhile_append_of_pos (formatLld_ne (by decide) (by decide)),
      List.takeWhile_cons_of_pos (by decide), List.takeWhile_cons_of_pos (by decide),
      takeWhile_stop (by decide)]
  rw [parseResponseBodyHeader, h1]
  simp only
  rw [if_neg (by simp), h2, span_append (formatLld_ne (by decide) (by decide)) (by decide)]
  simp only [toInt_formatLld hlo hhi, Option.map_some]
  rw [List.dropWhile_cons_of_pos (by decide)]

theorem typeText_eq_iff {ct : Text} :
    ((if ct = [] then text "text/plain" else ct).takeWhile (· != 41)).dropWhile isBlank = ct
      ↔ 41 ∉ ct ∧ ∃ c, ct.head? = some c ∧ isBlank c = false := by
  rcases ct with _ | ⟨c, ct⟩
  · exact iff_of_false (by decide) (by simp)
  rw [if_neg (List.cons_ne_nil c ct)]
  constructor
  · intro h
    have h1 := List.takeWhile_sublist (l := c :: ct) (· != 41)
    have h2 := List.dropWhile_sublist (l := (c :: ct).takeWhile (· != 41)) isBlank
    have htake : (c :: ct).takeWhile (· != 41) = c :: ct :=
      h1.eq_of_length (le_antisymm h1.length_le (by rw [← h] ; simpa [h] using h2.length_le))
    rw [htake] at h
    refine ⟨?_, c, rfl, ?_⟩
    · intro hmem
      simpa using List.takeWhile_eq_self_iff.1 htake 41 hmem
    · by_contra hb
      rw [Bool.not_eq_false] at hb
      rw [List.dropWhile_cons_of_pos hb] at h
      have := congrArg List.length h
      have hle := (List.dropWhile_sublist (l := ct) isBlank).length_le
      rw [List.length_cons] at this
      omega
  · rintro ⟨hmem, d, ⟨⟩, hb⟩
    rw [List.takeWhile_eq_self_iff.2, List.dropWhile_cons_of_neg (by simp [hb])]
    intro d hd
    simpa using fun h : d = 41 => hmem (h ▸ hd)

/-- The content type that is parsed is part of the line. -/
theorem mem_of_parseResponseBodyHeader {line ct : Text} {z : ℤ}
    (h : parseResponseBodyHeader line = some (z, ct)) : ∀ c ∈ ct, c ∈ line := by
  rw [parseResponseBodyHeader] at h
  rcases hd : line.dropWhile (· != 40) with _ | ⟨d, rest⟩
  · rw [hd] at h
    cases h
  · rw [hd] at h
    simp only at h
    split_ifs at h with hmem
    rw [List.span_eq_takeWhile_dropWhile] at h
    rcases hs : (rest.takeWhile (· != 41)).dropWhile (· != 58) with _ | ⟨e, ct'⟩
    · rw [hs] at h
      cases h
    · rw [hs] at h
      simp only [Option.map_eq_some_iff, Prod.mk.injEq] at h
      obtain ⟨_, -, -, rfl⟩ := h
      intro c hc
      have h1 : c ∈ e :: ct' := List.mem_cons_of_mem e ((List.dropWhile_sublist _).subset hc)
      have h2 : c ∈ rest.takeWhile (· != 41) := (List.dropWhile_sublist _).subset (hs ▸ h1)
      have h3 : c ∈ d :: rest := List.mem_cons_of_mem d ((List.takeWhile_sublist _).subset h2)
      exact (List.dropWhile_sublist _).subset (hd ▸ h3)

/-! ### How long a block can be -/

theorem length_endl_map_le {f : Text → Text} (hf : ∀ l, (f l).length ≤ l.length) :
    ∀ ls : List Text, (endl newline (ls.map f)).length ≤ (endl newline ls).length
  | [] => le_rfl
  | l :: ls => by
    have := hf l
    have := length_endl_map_le hf ls
    simp only [List.map_cons, endl_cons, List.length_append, List.length_cons]
    omega

theorem length_indentedLines : ∀ ls : List Text,
    (endl newline (indentedLines ls)).length ≤ (endl newline ls).length
  | [] => le_rfl
  | l :: ls => by
    have ih := length_indentedLines ls
    have hstrip : (stripIndent l).length ≤ l.length := by
      unfold stripIndent
      split_ifs <;> simp
    rw [indentedLines]
    split_ifs
    · simp
    · simp only [endl_cons, List.length_append, List.length_cons]
      omega
    · simp only [endl_cons, List.length_append, List.length_cons, List.length_nil]
      omega
    · simp

theorem length_extract : ∀ ls : List Text,
    (extractCodeBlockAt ls).length ≤ (endl newline ls).length
  | [] => le_rfl
  | l :: ls => by
    have ih := length_extract ls
    have htail : (endl newline ls).length ≤ (endl newline (l :: ls)).length := by
      simp only [endl_cons, List.length_append, List.length_cons]
      omega
    rw [extractCodeBlockAt]
    split_ifs
    · exact ih.trans htail
    · exact (intercalate_length_le _).trans ((length_endl_le_of_sublist newline
        (List.takeWhile_sublist _)).trans htail)
    · simp
    · exact (intercalate_length_le _).trans (length_indentedLines _)
    · simp

/-- A block that a heading cuts off. -/
theorem length_extract_cut (b : List Text) :
    (extractCodeBlockAt ([] :: fence :: (b ++ [[]]))).length ≤ (endl newline b).length + 1 := by
  rw [extractCodeBlockAt_blank rfl, extractCodeBlockAt_fence]
  split_ifs
  · refine (intercalate_length_le _).trans ((length_endl_le_of_sublist newline
      (List.takeWhile_sublist _)).trans ?_)
    simp
  · simp

/-! ### Request headers -/

theorem perm_insertLine (out : List Text) (line : Text) :
    (insertLine out line).Perm (line :: out) := by
  unfold insertLine
  refine List.perm_middle.trans (List.Perm.cons line ?_)
  rw [List.takeWhile_append_dropWhile]

theorem perm_foldl_insertLine : ∀ (ls out : List Text), (ls.foldl insertLine out).Perm (ls ++ out)
  | [], out => .refl out
  | l :: ls, out => by
    rw [List.foldl_cons]
    refine (perm_foldl_insertLine ls (insertLine out l)).trans ?_
    refine ((perm_insertLine out l).append_left ls).trans ?_
    exact List.perm_middle

theorem perm_sortLines (ls : List Text) : (sortLines ls).Perm ls := by
  have := perm_foldl_insertLine ls []
  rwa [List.append_nil] at this

/-- The lines of the headers that are kept, before they are sorted. -/
def keptLines (ls : List Text) : List Text := (ls.map trimCr).filter keepsHeader

theorem normalize_eq (raw : Text) :
    normalizeRecordedHeaders raw = endl newline (sortLines (keptLines (blockLines raw))) := rfl

theorem length_trimCr (l : Text) : (trimCr l).length ≤ l.length := by
  unfold trimCr
  split_ifs <;> simp

theorem length_normalize (raw : Text) : (normalizeRecordedHeaders raw).length ≤ raw.length + 1 := by
  have h1 : (endl newline (sortLines (keptLines (blockLines raw)))).length
      = (endl newline (keptLines (blockLines raw))).length :=
    ((perm_sortLines _).flatMap_right _).length_eq
  rw [normalize_eq, h1]
  refine (length_endl_le_of_sublist newline List.filter_sublist).trans ?_
  exact (length_endl_map_le length_trimCr _).trans (length_endl_blockLines raw)

theorem mem_normalize_lines {raw l : Text} (h : l ∈ sortLines (keptLines (blockLines raw))) :
    l ≠ [] ∧ newline ∉ l := by
  rw [(perm_sortLines _).mem_iff, keptLines, List.mem_filter, List.mem_map] at h
  obtain ⟨⟨m, hm, rfl⟩, hk⟩ := h
  refine ⟨?_, ?_⟩
  · rw [keepsHeader, Bool.and_eq_true] at hk
    simpa using hk.1
  · intro hn
    refine newline_not_mem_blockLines hm ?_
    unfold trimCr at hn
    split_ifs at hn
    · exact List.mem_of_mem_dropLast hn
    · exact hn

theorem blockLines_endl {ls : List Text} (h : ∀ l ∈ ls, newline ∉ l) :
    blockLines (endl newline ls) = ls := by
  have hl : lines (endl newline ls ++ []) = ls ++ [[]] := splitOn_endl [] h
  rw [List.append_nil] at hl
  rw [blockLines, hl, visited_concat, if_pos rfl, List.append_nil]

theorem blockLines_intercalate {ls : List Text} (h : ∀ l ∈ ls, l ≠ [] ∧ newline ∉ l) :
    blockLines ([newline].intercalate ls) = ls := by
  rcases eq_or_ne ls [] with rfl | hne
  · rfl
  · rw [blockLines, lines_intercalate (fun l hl => (h l hl).2) hne]
    obtain ⟨ms, m, rfl⟩ := List.eq_nil_or_concat' ls |>.resolve_left hne
    rw [visited_concat, if_neg (h m (by simp)).1]

/-- Headers in the canonical form: lines that are not empty, with their ends. -/
theorem canonical_lines {s : Text} (h : normalizeRecordedHeaders s = s) :
    (∀ l ∈ blockLines s, l ≠ [] ∧ newline ∉ l) ∧ endl newline (blockLines s) = s
      ∧ normalizeRecordedHeaders ([newline].intercalate (blockLines s)) = s := by
  have hs : s = endl newline (sortLines (keptLines (blockLines s))) := h.symm
  have hmem : ∀ l ∈ sortLines (keptLines (blockLines s)), l ≠ [] ∧ newline ∉ l :=
    fun l hl => mem_normalize_lines hl
  have hb : blockLines s = sortLines (keptLines (blockLines s)) := by
    conv_lhs => rw [hs]
    exact blockLines_endl fun l hl => (hmem l hl).2
  have hlines : ∀ l ∈ blockLines s, l ≠ [] ∧ newline ∉ l := by
    rw [hb]
    exact hmem
  refine ⟨hlines, ?_, ?_⟩
  · rw [hb, ← hs]
  · rw [normalize_eq, blockLines_intercalate hlines, ← normalize_eq, h]

/-- What the parser makes of the block of the request headers. -/
def headersOf (block : Text) : Text := if block = [] then [] else normalizeRecordedHeaders block

theorem length_headersOf (block : Text) : (headersOf block).length ≤ block.length + 1 := by
  unfold headersOf
  split_ifs
  · simp
  · exact length_normalize block

theorem headersOf_canonical {s : Text} (h : normalizeRecordedHeaders s = s) :
    headersOf ([newline].intercalate (blockLines s)) = s := by
  obtain ⟨hl, hend, hn⟩ := canonical_lines h
  unfold headersOf
  split_ifs with hnil
  · by_contra hne
    have hs : s ≠ [] := fun h' => hne h'.symm
    obtain ⟨ms, m, hb⟩ :=
      List.eq_nil_or_concat' (blockLines s) |>.resolve_left (blockLines_ne_nil hs)
    rw [hb, intercalate_concat, List.append_eq_nil_iff] at hnil
    exact (hl m (by rw [hb]; simp)).1 hnil.2
  · exact hn

theorem fenced_headers_iff {s : Text} (h : normalizeRecordedHeaders s = s) :
    headersOf ([newline].intercalate (untilFence (blockLines s))) = s
      ↔ ∀ line ∈ blockLines s, fence.isPrefixOf line = false := by
  constructor
  · intro heq
    by_contra hall
    have h1 := length_headersOf ([newline].intercalate (untilFence (blockLines s)))
    rw [heq] at h1
    have h2 := intercalate_length_le (untilFence (blockLines s))
    have h3 := length_untilFence hall
    rw [(canonical_lines h).2.1] at h3
    omega
  · intro hall
    rw [untilFence_eq_self hall]
    exact headersOf_canonical h

theorem indented_headers_iff {s : Text} (h : normalizeRecordedHeaders s = s) :
    headersOf (if shownLines (shown s) = [] then []
        else [newline].intercalate (shownLines (shown s))) = s
      ↔ ∀ line, (blockLines s).head? = some line → rtrim line ≠ [] := by
  rcases eq_or_ne s [] with rfl | hs
  · exact iff_of_true rfl (by simp [blockLines_nil])
  rw [shown, if_neg hs]
  obtain ⟨line, ls, hb⟩ := List.exists_cons_of_ne_nil (blockLines_ne_nil hs)
  by_cases hline : rtrim line = []
  · refine iff_of_false ?_ fun h' => h' line (by rw [hb]; rfl) hline
    intro heq
    split_ifs at heq with hd
    · exact hs heq.symm
    · have h1 := length_headersOf ([newline].intercalate (shownLines (blockLines s)))
      have h2 := intercalate_length_lt hd
      have h3 : shownLines (blockLines s) = shownLines ls := by
        rw [shownLines, hb, List.dropWhile_cons_of_pos (by simpa using hline), shownLines]
      have h4 := length_endl_le_of_sublist newline
        (List.dropWhile_sublist (l := ls) fun line => decide (rtrim line = []))
      rw [← shownLines, ← h3] at h4
      have h5 := (canonical_lines h).2.1
      rw [hb, endl_cons] at h5
      have h6 := congrArg List.length h5
      rw [List.length_append, List.length_cons] at h6
      have h7 := List.length_pos_of_ne_nil ((canonical_lines h).1 line (by rw [hb]; simp)).1
      rw [heq] at h1
      omega
  · have hshown : shownLines (blockLines s) = blockLines s := by
      rw [shownLines, hb, List.dropWhile_cons_of_neg (by simpa using hline)]
    rw [hshown, if_neg (blockLines_ne_nil hs)]
    refine iff_of_true (headersOf_canonical h) ?_
    rw [hb]
    rintro l ⟨⟩
    exact hline

end Qjs.Aether.Vcr
