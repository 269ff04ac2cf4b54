import Qjs.VcrMatch
import Qjs.Proofs.VcrBlocks

/-!
# The order of the headers of a request does not matter

Both ways to compare lines compare the same words (`keys`), the lines with each letter made small,
in the order of their letters. Where no two lines have one word there is one sorted permutation, so
that every way to sort makes it (`sorted_unique`). Two lines that only differ in the case of a
letter stay as they come.
-/

namespace Qjs.Aether.Vcr

open Sections

variable {signed : Bool} {a b : Text} {hs ls : List (Text × Text)}

/-! ### What is compared -/

def key (signed : Bool) (b : ℕ) : ℤ := lowerChar (charValue signed b)

def keys (signed : Bool) (s : Text) : List ℤ := s.map (key signed)

theorem key_eq_iff {x y : ℕ} (hx : x < 256) (hy : y < 256) :
    key signed x = key signed y ↔ toLower x = toLower y := by
  unfold key lowerChar charValue toLower
  cases signed
  · simp only [Bool.false_eq_true, false_and, if_false]
    split_ifs <;> omega
  · simp only [true_and]
    split_ifs <;> omega

theorem keys_eq_iff : ∀ {a b : Text}, (∀ x ∈ a, x < 256) → (∀ x ∈ b, x < 256) →
    (keys signed a = keys signed b ↔ a.map toLower = b.map toLower)
  | [], [], _, _ => iff_of_true rfl rfl
  | [], _ :: _, _, _ => iff_of_false (List.cons_ne_nil _ _).symm (List.cons_ne_nil _ _).symm
  | _ :: _, [], _, _ => iff_of_false (List.cons_ne_nil _ _) (List.cons_ne_nil _ _)
  | x :: a, y :: b, ha, hb => by
    obtain ⟨hx, ha⟩ := List.forall_mem_cons.1 ha
    obtain ⟨hy, hb⟩ := List.forall_mem_cons.1 hb
    have ih := @keys_eq_iff a b ha hb
    simp only [keys, List.map_cons, List.cons.injEq, key_eq_iff hx hy] at ih ⊢
    rw [ih]

theorem keys_cons (x : ℕ) (s : Text) : keys signed (x :: s) = key signed x :: keys signed s := rfl

theorem icmpLive_pos_iff : ∀ {a b : Text}, (∀ x ∈ a, 0 < x) →
    (0 < icmpLive signed a b ↔ List.Lex (· < ·) (keys signed b) (keys signed a))
  | [], [], _ => iff_of_false (lt_irrefl 0) List.not_lex_nil
  | [], y :: b, _ => by
    refine iff_of_false ?_ List.not_lex_nil
    rw [icmpLive]
    omega
  | x :: a, [], ha => by
    have hx := ha x List.mem_cons_self
    refine iff_of_true ?_ List.nil_lex_cons'
    rw [icmpLive]
    omega
  | x :: a, y :: b, ha => by
    have ih := @icmpLive_pos_iff a b fun z hz => ha z (List.mem_cons_of_mem x hz)
    rw [icmpLive, keys_cons, keys_cons, List.cons_lex_cons_iff, ← ih]
    change 0 < (if key signed x ≠ key signed y then key signed x - key signed y else _) ↔ _
    split_ifs with hne <;> omega

theorem icmpOn_pos_iff : ∀ {a b : Text},
    0 < icmpOn signed a b ↔ List.Lex (· < ·) (keys signed b) (keys signed a)
  | [], [] => iff_of_false (lt_irrefl 0) List.not_lex_nil
  | [], y :: b => iff_of_false (by simp [icmpOn]) List.not_lex_nil
  | x :: a, [] => iff_of_true one_pos List.nil_lex_cons'
  | x :: a, y :: b => by
    have ih := @icmpOn_pos_iff a b
    rw [icmpOn, keys_cons, keys_cons, List.cons_lex_cons_iff, ← ih]
    change 0 < (if key signed x ≠ key signed y then if key signed x < key signed y then -1 else 1
      else _) ↔ _
    split_ifs with hne hlt <;> omega

theorem icmpLive_le_iff (ha : ∀ x ∈ a, 0 < x) :
    icmpLive signed a b ≤ 0 ↔ keys signed a ≤ keys signed b := by
  rw [← not_lt, icmpLive_pos_iff ha]
  exact not_lt (a := keys signed b)

theorem icmpOn_le_iff : icmpOn signed a b ≤ 0 ↔ keys signed a ≤ keys signed b := by
  rw [← not_lt, icmpOn_pos_iff]
  exact not_lt (a := keys signed b)

theorem icmpLive_eq_zero : ∀ {a b : Text}, (∀ x ∈ a, 0 < x) → (∀ x ∈ b, 0 < x) →
    (icmpLive signed a b = 0 ↔ keys signed a = keys signed b)
  | [], [], _, _ => iff_of_true rfl rfl
  | [], y :: b, _, hb => by
    have hy := hb y List.mem_cons_self
    refine iff_of_false ?_ (List.cons_ne_nil _ _).symm
    rw [icmpLive]
    omega
  | x :: a, [], ha, _ => by
    have hx := ha x List.mem_cons_self
    refine iff_of_false ?_ (List.cons_ne_nil _ _)
    rw [icmpLive]
    omega
  | x :: a, y :: b, ha, hb => by
    have ih := @icmpLive_eq_zero a b (fun z hz => ha z (List.mem_cons_of_mem x hz))
      fun z hz => hb z (List.mem_cons_of_mem y hz)
    rw [icmpLive, keys_cons, keys_cons, List.cons.injEq, ← ih]
    change (if key signed x ≠ key signed y then key signed x - key signed y else _) = 0 ↔ _
    split_ifs with hne
    · exact iff_of_false (sub_ne_zero.2 hne) fun h => hne h.1
    · exact (and_iff_right (not_not.1 hne)).symm

theorem icmpOn_eq_zero : ∀ {a b : Text}, icmpOn signed a b = 0 ↔ keys signed a = keys signed b
  | [], [] => iff_of_true rfl rfl
  | [], y :: b => iff_of_false (by simp [icmpOn]) (List.cons_ne_nil _ _).symm
  | x :: a, [] => iff_of_false one_ne_zero (List.cons_ne_nil _ _)
  | x :: a, y :: b => by
    have ih := @icmpOn_eq_zero a b
    rw [icmpOn, keys_cons, keys_cons, List.cons.injEq, ← ih]
    change (if key signed x ≠ key signed y then if key signed x < key signed y then -1 else 1
      else _) = (0 : ℤ) ↔ _
    split_ifs with hne hlt
    · exact iff_of_false (by decide) fun h => hne h.1
    · exact iff_of_false one_ne_zero fun h => hne h.1
    · exact (and_iff_right (not_not.1 hne)).symm

/-! ### The insertion -/

theorem perm_insertLineOn (out : List Text) (line : Text) :
    (insertLineOn signed out line).Perm (line :: out) := by
  unfold insertLineOn
  refine List.perm_middle.trans (List.Perm.cons line ?_)
  rw [List.takeWhile_append_dropWhile]

theorem sorted_insertLineOn {out : List Text} (line : Text)
    (h : out.Pairwise fun a b => keys signed a ≤ keys signed b) :
    (insertLineOn signed out line).Pairwise fun a b => keys signed a ≤ keys signed b := by
  have hcut := List.takeWhile_append_dropWhile
    (p := fun l => decide (icmpOn signed l line ≤ 0)) (l := out)
  have hbefore : ∀ l ∈ out.takeWhile fun l => decide (icmpOn signed l line ≤ 0),
      keys signed l ≤ keys signed line := by
    intro l hl
    have := List.mem_takeWhile_imp hl
    rw [decide_eq_true_eq, icmpOn_le_iff] at this
    exact this
  have hhead := List.head?_dropWhile_not (fun l => decide (icmpOn signed l line ≤ 0)) out
  unfold insertLineOn
  generalize (out.takeWhile fun l => decide (icmpOn signed l line ≤ 0)) = before at *
  generalize (out.dropWhile fun l => decide (icmpOn signed l line ≤ 0)) = after at *
  subst hcut
  obtain ⟨h₁, h₂, h₃⟩ := List.pairwise_append.1 h
  have hafter : ∀ l ∈ after, keys signed line ≤ keys signed l := by
    rcases after with _ | ⟨m, after⟩
    · exact fun l hl => absurd hl List.not_mem_nil
    · have hm : keys signed line ≤ keys signed m := by
        simp only [List.head?_cons, decide_eq_false_iff_not, icmpOn_le_iff, not_le] at hhead
        exact hhead.le
      intro l hl
      rcases List.mem_cons.1 hl with rfl | hl
      · exact hm
      · exact hm.trans (List.rel_of_pairwise_cons h₂ hl)
  refine List.pairwise_append.2 ⟨h₁, List.pairwise_cons.2 ⟨hafter, h₂⟩, fun l hl m hm => ?_⟩
  rcases List.mem_cons.1 hm with rfl | hm
  · exact hbefore l hl
  · exact h₃ l hl m hm

theorem foldl_insertLineOn (signed : Bool) : ∀ (ls : List Text) {out : List Text},
    (out.Pairwise fun a b => keys signed a ≤ keys signed b) →
    (ls.foldl (insertLineOn signed) out).Perm (ls ++ out)
      ∧ (ls.foldl (insertLineOn signed) out).Pairwise fun a b => keys signed a ≤ keys signed b
  | [], out, h => ⟨.refl out, h⟩
  | l :: ls, out, h => by
    obtain ⟨hperm, hsorted⟩ := foldl_insertLineOn signed ls (sorted_insertLineOn l h)
    refine ⟨hperm.trans (((perm_insertLineOn out l).append_left ls).trans ?_), hsorted⟩
    exact List.perm_middle

theorem sortLinesOn_sorts (signed : Bool) (ls : List Text) : (sortLinesOn signed ls).Perm ls
    ∧ (sortLinesOn signed ls).Pairwise fun a b => keys signed a ≤ keys signed b := by
  have hnil : ([] : List Text).Pairwise fun a b => keys signed a ≤ keys signed b := .nil
  have h := foldl_insertLineOn signed ls hnil
  rwa [List.append_nil] at h

theorem key_false (b : ℕ) : key false b = toLower b := by
  unfold key lowerChar charValue toLower
  simp only [Bool.false_eq_true, false_and, if_false]
  split_ifs <;> omega

theorem icmpOn_false : ∀ a b : Text, icmpOn false a b = icmp a b
  | [], [] => rfl
  | [], _ :: _ => rfl
  | _ :: _, [] => rfl
  | x :: a, y :: b => by
    have hlt : key false x < key false y ↔ toLower x < toLower y := by
      rw [key_false, key_false, Nat.cast_lt]
    have heq : key false x = key false y ↔ toLower x = toLower y := by
      rw [key_false, key_false, Nat.cast_inj]
    rw [icmpOn, icmp, icmpOn_false a b]
    change (if key false x ≠ key false y then if key false x < key false y then -1 else 1
      else _) = _
    simp only [ne_eq, heq, hlt, ite_not]

/-- With `char` unsigned these are the recorded headers of before. -/
theorem normalizeRecordedHeadersOn_false (raw : Text) :
    normalizeRecordedHeadersOn false raw = normalizeRecordedHeaders raw := by
  have hinsert : insertLineOn false = insertLine := by
    funext out line
    simp only [insertLineOn, insertLine, icmpOn_false]
  have hkeep : keepsHeaderOn false = keepsHeader := by
    funext line
    simp only [keepsHeaderOn, keepsHeader, icmpOn_false]
  rw [normalizeRecordedHeadersOn, normalizeRecordedHeaders, sortLinesOn, sortLines, hinsert, hkeep]

/-! ### The lines of plain headers -/

/-- There is one sorted permutation of lines that are told apart. -/
theorem sorted_unique {ms ns : List Text}
    (hk : ∀ a ∈ ms, ∀ b ∈ ms, keys signed a = keys signed b → a = b) (hperm : ms.Perm ns)
    (hm : ms.Pairwise fun a b => keys signed a ≤ keys signed b)
    (hn : ns.Pairwise fun a b => keys signed a ≤ keys signed b) : ms = ns :=
  hperm.eq_of_pairwise (fun a b ha hb hab hba =>
    hk a ha b (hperm.mem_iff.2 hb) (le_antisymm hab hba)) hm hn

theorem headerLine_eq (h : Text × Text) : headerLine h = h.1 ++ 58 :: 32 :: h.2 := by
  rw [headerLine, List.append_assoc]
  rfl

theorem takeWhile_headerLine {h : Text × Text} (hn : 58 ∉ h.1) :
    (headerLine h).takeWhile (· != 58) = h.1 := by
  have hname : ∀ x ∈ h.1, (x != 58) = true := fun x hx => by
    rw [bne_iff_ne]
    rintro rfl
    exact hn hx
  rw [headerLine_eq, List.takeWhile_append_of_pos hname, List.takeWhile_cons_of_neg (by simp),
    List.append_nil]

theorem headerLine_injective {h h' : Text × Text} (hn : 58 ∉ h.1) (hn' : 58 ∉ h'.1)
    (he : headerLine h = headerLine h') : h = h' := by
  have hname := takeWhile_headerLine hn
  rw [he, takeWhile_headerLine hn'] at hname
  rw [headerLine_eq, headerLine_eq, hname, List.append_cancel_left_eq] at he
  exact Prod.ext hname.symm (List.cons.inj (List.cons.inj he).2).2

/-- What is recorded of a header is kept as the live header is. -/
theorem keepsHeaderOn_headerLine {h : Text × Text} (hp : PlainHeader h) (s s' : Bool) :
    keepsHeaderOn s (headerLine h) = isLive s' h := by
  have hcolon : 58 ∈ headerLine h := by
    rw [headerLine_eq]
    simp
  have hbytes : ∀ b ∈ h.1, 0 < b ∧ b < 256 := fun b hb => by
    have := hp.bytes b (by rw [headerLine_eq]; exact List.mem_append_left _ hb)
    exact ⟨this.1, this.2.1⟩
  have hhost : ∀ b ∈ text "Host", 0 < b ∧ b < 256 := by decide
  have hsame : icmpOn s h.1 (text "Host") = 0 ↔ icmpLive s' h.1 (text "Host") = 0 := by
    rw [icmpOn_eq_zero, icmpLive_eq_zero (fun b hb => (hbytes b hb).1) fun b hb => (hhost b hb).1,
      keys_eq_iff (fun b hb => (hbytes b hb).2) fun b hb => (hhost b hb).2,
      keys_eq_iff (fun b hb => (hbytes b hb).2) fun b hb => (hhost b hb).2]
  have hcut := takeWhile_headerLine hp.name
  have hne : headerLine h ≠ [] := by
    rw [headerLine_eq]
    exact List.append_ne_nil_of_right_ne_nil _ (List.cons_ne_nil _ _)
  unfold keepsHeaderOn isLive
  simp only [hcut, hcolon, decide_true, Bool.true_and, bne_iff_ne.2 hne]
  rcases hname : h.1 with _ | ⟨c, name⟩
  · rfl
  · rw [hname] at hsame
    rw [bne_iff_ne.2 (List.cons_ne_nil c name), Bool.true_and]
    have hbeq : (icmpOn s (c :: name) (text "Host") == 0)
        = (icmpLive s' (c :: name) (text "Host") == 0) := by
      rw [Bool.eq_iff_iff, beq_iff_eq, beq_iff_eq, hsame]
    rw [hbeq]
    rfl

theorem trimCr_headerLine {h : Text × Text} (hp : PlainHeader h) :
    trimCr (headerLine h) = headerLine h := by
  refine if_neg ?_
  rw [headerLine_eq, List.getLast?_append_cons, List.getLast?_cons_cons]
  rcases hv : h.2 with _ | ⟨c, v⟩
  · simp
  · have := hp.value
    rw [hv] at this
    rwa [List.getLast?_cons_cons]

/-- The lines that are sorted are those of the live headers. -/
theorem normalizeRecordedHeadersOn_block (s s' : Bool) (hp : ∀ h ∈ hs, PlainHeader h) :
    normalizeRecordedHeadersOn s (recordedBlock hs)
      = endl newline (sortLinesOn s ((liveHeaders s' hs).map headerLine)) := by
  have hlines : blockLines (recordedBlock hs) = hs.map headerLine := by
    refine blockLines_endl fun l hl => ?_
    obtain ⟨h, hh, rfl⟩ := List.mem_map.1 hl
    exact fun hn => ((hp h hh).bytes newline hn).2.2 rfl
  have htrim : (hs.map headerLine).map trimCr = hs.map headerLine := by
    rw [List.map_map]
    exact List.map_congr_left fun h hh => trimCr_headerLine (hp h hh)
  have hkept : (hs.map headerLine).filter (keepsHeaderOn s)
      = (liveHeaders s' hs).map headerLine := by
    rw [List.filter_map, liveHeaders]
    refine congrArg _ (List.filter_congr fun h hh => ?_)
    exact keepsHeaderOn_headerLine (hp h hh) s s'
  rw [← hkept, ← htrim, ← hlines]
  rfl

theorem isBlankText_block {l : Text} {ms : List Text} (hl : 58 ∈ l) :
    isBlankText (endl newline (l :: ms)) = false := by
  rw [isBlankText, List.all_eq_false]
  exact ⟨58, by rw [endl_cons]; exact List.mem_append_left _ hl, by decide⟩

/-! ### Replays -/

/-- The bytes of the headers are the same numbers to both sides. -/
def SameChars (s s' : Bool) (hs : List (Text × Text)) : Prop :=
  s = s' ∨ ∀ h ∈ hs, ∀ b ∈ headerLine h, b < 128

theorem keys_of_sameChars {s s' : Bool} (hc : SameChars s s' hs) {h : Text × Text} (hh : h ∈ hs) :
    keys s (headerLine h) = keys s' (headerLine h) := by
  rcases hc with rfl | hc
  · rfl
  · refine List.map_congr_left fun b hb => ?_
    have := hc h hh b hb
    rw [key, key, charValue, charValue, if_neg (by omega), if_neg (by omega)]

variable {qsort : List Text → List Text}

theorem qsort_sorted {ms : List Text} (hq : SortsBy (lineCmp signed) qsort)
    (hm : ∀ l ∈ ms, ∀ x ∈ l, 0 < x) :
    (qsort ms).Pairwise fun a b => keys signed a ≤ keys signed b := by
  obtain ⟨hperm, hsorted⟩ := hq ms hm
  refine List.Pairwise.imp_of_mem (fun {a b} ha _ hab => ?_) hsorted
  exact (icmpLive_le_iff (hm a (hperm.mem_iff.1 ha))).1 hab

/-- The name and the value of a line. -/
def unline (l : Text) : Text × Text :=
  (l.takeWhile (· != 58), l.drop ((l.takeWhile (· != 58)).length + 2))

theorem unline_headerLine {h : Text × Text} (hn : 58 ∉ h.1) : unline (headerLine h) = h := by
  rw [unline, takeWhile_headerLine hn, headerLine_eq, ← List.drop_drop, List.drop_left]
  rfl

theorem perm_lines_iff {hs ls : List (Text × Text)} (hn : ∀ h ∈ hs, 58 ∉ h.1)
    (hl : ∀ h ∈ ls, 58 ∉ h.1) :
    (ls.map headerLine).Perm (hs.map headerLine) ↔ ls.Perm hs := by
  have hback : ∀ {ms : List (Text × Text)}, (∀ h ∈ ms, 58 ∉ h.1) →
      (ms.map headerLine).map unline = ms := fun hm => by
    rw [List.map_map]
    exact (List.map_congr_left fun h hh => unline_headerLine (hm h hh)).trans (List.map_id _)
  refine ⟨fun hperm => ?_, fun hperm => hperm.map _⟩
  have := hperm.map unline
  rwa [hback hl, hback hn] at this

theorem mem_of_mem_live {h : Text × Text} (hh : h ∈ liveHeaders signed hs) : h ∈ hs :=
  List.mem_of_mem_filter hh

theorem newline_not_mem_live (hp : ∀ h ∈ hs, PlainHeader h) :
    ∀ l ∈ (liveHeaders signed hs).map headerLine, newline ∉ l := by
  intro l hl hn
  obtain ⟨h, hh, rfl⟩ := List.mem_map.1 hl
  exact ((hp h (mem_of_mem_live hh)).bytes newline hn).2.2 rfl

/-- However the lines are sorted, they are sorted into one list. -/
theorem sorted_live {s s' : Bool} {ns : List Text} (hq : SortsBy (lineCmp s) qsort)
    (hp : ∀ h ∈ hs, PlainHeader h) (hcase : NoCaseTwins (liveHeaders s hs))
    (hchar : SameChars s s' (liveHeaders s hs))
    (hperm : ns.Perm ((liveHeaders s hs).map headerLine)) :
    qsort ns = sortLinesOn s' ((liveHeaders s hs).map headerLine) := by
  obtain ⟨hperm', hsorted⟩ := sortLinesOn_sorts s' ((liveHeaders s hs).map headerLine)
  have hmem : ∀ l ∈ (liveHeaders s hs).map headerLine, ∃ h ∈ liveHeaders s hs, headerLine h = l :=
    fun l hl => List.mem_map.1 hl
  have hkeys : ∀ l ∈ (liveHeaders s hs).map headerLine, keys s l = keys s' l := by
    intro l hl
    obtain ⟨h, hh, rfl⟩ := hmem l hl
    exact keys_of_sameChars hchar hh
  have hapart : ∀ a ∈ (liveHeaders s hs).map headerLine,
      ∀ b ∈ (liveHeaders s hs).map headerLine, keys s a = keys s b → a = b := by
    intro a ha b hb hab
    obtain ⟨h, hh, rfl⟩ := hmem a ha
    obtain ⟨h', hh', rfl⟩ := hmem b hb
    have hlt : ∀ {h}, h ∈ liveHeaders s hs → ∀ x ∈ headerLine h, x < 256 := fun hh x hx =>
      ((hp _ (mem_of_mem_live hh)).bytes x hx).2.1
    rw [keys_eq_iff (hlt hh) (hlt hh')] at hab
    rw [hcase h hh h' hh' hab]
  have hpos : ∀ l ∈ ns, ∀ x ∈ l, 0 < x := by
    intro l hl x hx
    obtain ⟨h, hh, rfl⟩ := hmem l (hperm.mem_iff.1 hl)
    exact ((hp h (mem_of_mem_live hh)).bytes x hx).1
  have hq' : (qsort ns).Perm ((liveHeaders s hs).map headerLine) := (hq ns hpos).1.trans hperm
  refine sorted_unique (fun a ha b hb => hapart a (hq'.mem_iff.1 ha) b (hq'.mem_iff.1 hb))
    (hq'.trans hperm'.symm) (qsort_sorted hq hpos) ?_
  refine List.Pairwise.imp_of_mem (fun {a b} ha hb hab => ?_) hsorted
  rw [hkeys a (hperm'.mem_iff.1 ha), hkeys b (hperm'.mem_iff.1 hb)]
  exact hab

/-- The text of the live headers does not depend on their order and is the one that is recorded, and
a difference is reported if and only if some header is recorded and the headers are not the same. -/
theorem headers_match {s s' : Bool} (hq : SortsBy (lineCmp s) qsort)
    (hp : ∀ h ∈ hs, PlainHeader h) (hl : ∀ h ∈ ls, PlainHeader h)
    (hcase : NoCaseTwins (liveHeaders s hs)) (hchar : SameChars s s' (liveHeaders s hs)) :
    (∀ hs', hs'.Perm hs → normalizeLiveHeaders s qsort hs' = normalizeLiveHeaders s qsort hs)
      ∧ normalizeLiveHeaders s qsort hs = normalizeRecordedHeadersOn s' (recordedBlock hs)
      ∧ (headersDiffer (normalizeRecordedHeadersOn s' (recordedBlock hs))
          (normalizeLiveHeaders s qsort ls) = true
        ↔ liveHeaders s hs ≠ [] ∧ ¬ (liveHeaders s ls).Perm (liveHeaders s hs)) := by
  have hone : ∀ {ns}, ns.Perm ((liveHeaders s hs).map headerLine) → qsort ns
      = sortLinesOn s' ((liveHeaders s hs).map headerLine) := sorted_live hq hp hcase hchar
  have hsort := (sortLinesOn_sorts s' ((liveHeaders s hs).map headerLine)).1
  have hrecorded := normalizeRecordedHeadersOn_block s' s hp
  refine ⟨fun hs' hperm => ?_, ?_, ?_⟩
  · have hlive : (liveHeaders s hs').Perm (liveHeaders s hs) := hperm.filter _
    rw [normalizeLiveHeaders, normalizeLiveHeaders, hone (hlive.map _), hone (.refl _)]
  · rw [normalizeLiveHeaders, hone (.refl _), hrecorded]
  rw [hrecorded]
  have hpos : ∀ l ∈ (liveHeaders s ls).map headerLine, ∀ x ∈ l, 0 < x := by
    intro l hl' x hx
    obtain ⟨h, hh, rfl⟩ := List.mem_map.1 hl'
    exact ((hl h (mem_of_mem_live hh)).bytes x hx).1
  have hequal : normalizeLiveHeaders s qsort ls
        = endl newline (sortLinesOn s' ((liveHeaders s hs).map headerLine))
      ↔ (liveHeaders s ls).Perm (liveHeaders s hs) := by
    rw [← perm_lines_iff (fun h hh => (hp h (mem_of_mem_live hh)).name)
      fun h hh => (hl h (mem_of_mem_live hh)).name]
    constructor
    · intro he
      have hleft := blockLines_endl fun l hl' =>
        newline_not_mem_live hl l ((hq _ hpos).1.mem_iff.1 hl')
      have hright := blockLines_endl fun l hl' => newline_not_mem_live hp l (hsort.mem_iff.1 hl')
      rw [normalizeLiveHeaders] at he
      rw [he, hright] at hleft
      exact (hq _ hpos).1.symm.trans (hleft ▸ hsort)
    · intro hperm
      rw [normalizeLiveHeaders, hone hperm]
  rw [headersDiffer, Bool.and_eq_true, bne_iff_ne, ne_eq, hequal]
  refine and_congr_left fun _ => ?_
  rcases hsorted : sortLinesOn s' ((liveHeaders s hs).map headerLine) with _ | ⟨l, ms⟩
  · rw [hsorted] at hsort
    have hnil : liveHeaders s hs = [] := List.map_eq_nil_iff.1 (List.nil_perm.1 hsort)
    exact iff_of_false (by simp [isBlankText]) fun hne => hne hnil
  · rw [hsorted] at hsort
    obtain ⟨h, hh, rfl⟩ := List.mem_map.1 (hsort.mem_iff.1 List.mem_cons_self)
    have hcolon : 58 ∈ headerLine h := by
      rw [headerLine_eq]
      simp
    refine iff_of_true ?_ (List.ne_nil_of_mem hh)
    rw [isBlankText_block hcolon]
    rfl

theorem sortLinesOn_sortsBy (s : Bool) : SortsBy (lineCmp s) (sortLinesOn s) := by
  intro ls hpos
  obtain ⟨hperm, hsorted⟩ := sortLinesOn_sorts s ls
  refine ⟨hperm, List.Pairwise.imp_of_mem (fun {a b} ha _ hab => ?_) hsorted⟩
  exact (icmpLive_le_iff (hpos a (hperm.mem_iff.1 ha))).2 hab

/-- Two headers, in two orders. -/
theorem headers_match_two :
    (∀ hs', hs'.Perm [([98], [49]), ([65], [50])] →
      normalizeLiveHeaders true (sortLinesOn true) hs'
        = normalizeLiveHeaders true (sortLinesOn true) [([98], [49]), ([65], [50])])
      ∧ normalizeLiveHeaders true (sortLinesOn true) [([98], [49]), ([65], [50])]
        = normalizeRecordedHeadersOn true (recordedBlock [([98], [49]), ([65], [50])])
      ∧ (headersDiffer
          (normalizeRecordedHeadersOn true (recordedBlock [([98], [49]), ([65], [50])]))
          (normalizeLiveHeaders true (sortLinesOn true) [([65], [50]), ([98], [49])]) = true
        ↔ liveHeaders true [([98], [49]), ([65], [50])] ≠ []
          ∧ ¬ (liveHeaders true [([65], [50]), ([98], [49])]).Perm
            (liveHeaders true [([98], [49]), ([65], [50])])) := by
  have hb : PlainHeader ([98], [49]) := ⟨by decide, by decide, by decide⟩
  have ha : PlainHeader ([65], [50]) := ⟨by decide, by decide, by decide⟩
  have htwins : NoCaseTwins (liveHeaders true [([98], [49]), ([65], [50])]) := by
    unfold NoCaseTwins
    decide
  refine headers_match (sortLinesOn_sortsBy true) ?_ ?_ htwins (.inl rfl)
  · simpa using ⟨hb, ha⟩
  · simpa using ⟨ha, hb⟩

/-- Headers whose values only differ in case, a value that ends with a carriage return, and a
request of which nothing was recorded. -/
theorem order_matters :
    (SortsBy (lineCmp true) (sortLinesOn true)
      ∧ normalizeLiveHeaders true (sortLinesOn true) [([97], [120]), ([97], [88])]
        ≠ normalizeLiveHeaders true (sortLinesOn true) [([97], [88]), ([97], [120])])
      ∧ headersDiffer (normalizeRecordedHeadersOn true (recordedBlock [([97], [120, 13])]))
        (normalizeLiveHeaders true (sortLinesOn true) [([97], [120, 13])]) = true
      ∧ headersDiffer (normalizeRecordedHeadersOn true (recordedBlock [(text "Host", [120])]))
        (normalizeLiveHeaders true (sortLinesOn true) [([97], [120])]) = false := by
  exact ⟨⟨sortLinesOn_sortsBy true, by decide⟩, by decide, by decide⟩

end Qjs.Aether.Vcr
