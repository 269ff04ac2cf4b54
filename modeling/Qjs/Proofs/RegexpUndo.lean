import Qjs.Regexp
import Qjs.Lib.UndoLog
import Qjs.Proofs.Utf8

/-!
# Backtracking restores the captures and registers

The words above a choice point are a log of what was overwritten since it was pushed, and between
two choice points those of the time between their pushes (`Logged`). A step keeps this
(`Logged.saveCaptureCheck`, `Logged.pushChoice`), so going back to a choice point brings back what
was stored then (`Logged.back`).
-/

namespace Qjs.Regexp

open UndoLog Wtf8

/-! ### Words -/

theorem short_of_lt {v : ℕ} (h : v < 2 ^ 30) : short v = v := by
  unfold short getInt newShortInt
  split_ifs <;> omega

theorem short_short (v : ℕ) : short (short v) = short v := by
  unfold short getInt newShortInt
  split_ifs <;> omega

theorem valueToType_pcTypeToValue (pc : ℕ) (type : ChoiceType) :
    valueToType (pcTypeToValue pc type) = type.toNat := by
  unfold valueToType pcTypeToValue
  cases type <;> simp only [ChoiceType.toNat] <;> omega

theorem ChoiceType.toNat_injective {type type' : ChoiceType} (h : type.toNat = type'.toNat) :
    type = type' := by
  cases type <;> cases type' <;> first | rfl | cases h

theorem valueToPc_pcTypeToValue (pc : ℕ) (type : ChoiceType) :
    valueToPc (pcTypeToValue pc type) = pc := by
  unfold valueToPc pcTypeToValue
  cases type <;> simp only [ChoiceType.toNat] <;> omega

theorem Cut.refl (x : ℕ) : Cut x x := .inl rfl

theorem Cut.trans (x y z : ℕ) (h : Cut x y) (h' : Cut y z) : Cut x z := by
  rcases h with rfl | rfl
  · exact h'
  · rcases h' with rfl | rfl
    · exact .inr rfl
    · exact .inr (short_short z)

theorem Cut.short (x : ℕ) : Cut (short x) x := .inr rfl

/-! ### The words above a choice point -/

/-- The words of slots and their old values. -/
def words (us : List (ℕ × ℕ)) : List ℕ := us.flatMap fun u => [newShortInt u.1, newShortInt u.2]

/-- The log they are. -/
def log (us : List (ℕ × ℕ)) : List (ℕ × ℕ) := us.map fun u => (u.1, short u.2)

@[simp] theorem words_cons (u : ℕ × ℕ) (us : List (ℕ × ℕ)) :
    words (u :: us) = newShortInt u.1 :: newShortInt u.2 :: words us := rfl

theorem words_append (us vs : List (ℕ × ℕ)) : words (us ++ vs) = words us ++ words vs :=
  List.flatMap_append

theorem log_append (us vs : List (ℕ × ℕ)) : log (us ++ vs) = log us ++ log vs := List.map_append

def Slots (us : List (ℕ × ℕ)) : Prop := ∀ u ∈ us, u.1 < 2 ^ 30

theorem undo_words : ∀ {us : List (ℕ × ℕ)} {rest : List ℕ} (capture : List ℕ), Slots us →
    undo rest.length capture (words us ++ rest) = (undoAll (log us) capture, rest)
  | [], rest, capture, _ => by
    change undo rest.length capture rest = (capture, rest)
    rcases rest with _ | ⟨w, _ | ⟨v, rest⟩⟩
    · rfl
    · rfl
    · rw [undo, if_neg (by simp)]
  | u :: us, rest, capture, h => by
    rw [words_cons, List.cons_append, List.cons_append, undo, if_pos (by simp; omega),
      undo_words _ fun v hv => h v (List.mem_cons_of_mem u hv)]
    have hu := short_of_lt (h u List.mem_cons_self)
    rw [short] at hu
    rw [hu]
    rfl

theorem isSaved_words {i : ℕ} : ∀ {us : List (ℕ × ℕ)} {rest : List ℕ}, Slots us →
    isSaved i rest.length (words us ++ rest) = true → i ∈ us.map Prod.fst
  | [], rest, _, h => by
    change isSaved i rest.length rest = true at h
    rcases rest with _ | ⟨w, _ | ⟨v, rest⟩⟩
    · cases h
    · cases h
    · rw [isSaved, if_neg (by simp)] at h
      cases h
  | u :: us, rest, hs, h => by
    rw [words_cons, List.cons_append, List.cons_append, isSaved, if_pos (by simp; omega),
      Bool.or_eq_true] at h
    rw [List.map_cons, List.mem_cons]
    rcases h with h | h
    · left
      have hu := short_of_lt (hs u List.mem_cons_self)
      rw [short] at hu
      rw [hu, beq_iff_eq] at h
      exact h.symm
    · exact .inr (isSaved_words (fun v hv => hs v (List.mem_cons_of_mem u hv)) h)

theorem map_fst_log (us : List (ℕ × ℕ)) : (log us).map Prod.fst = us.map Prod.fst := by
  rw [log, List.map_map]
  rfl

/-! ### The stack -/

/-- A choice point: what is done on going back to it, and the state right after it was pushed. -/
structure Choice where
  type : ChoiceType
  pc : ℕ
  pushed : State

/-- The stack is made of the choice points `xs`: above each one stands the log that takes the
captures, for the last one the present ones, back to those it was pushed with. -/
def Logged (n : ℕ) : List Choice → List ℕ → List ℕ → ℕ → Prop
  | [], _, _, bp => bp = 0
  | x :: xs, capture, stack, bp => ∃ us b rest, Slots us ∧
    stack = words us ++ pcTypeToValue x.pc x.type :: newShortInt x.pushed.cptr :: b :: rest ∧
    bp = rest.length + 3 ∧ x.pushed.bp = bp ∧ x.pushed.cptr ≤ n ∧
    Restores Cut (log us) capture x.pushed.capture ∧ Logged n xs x.pushed.capture rest b

variable {n : ℕ} {xs : List Choice} {x : Choice} {s s' : State} {capture stack : List ℕ}
  {bp i v : ℕ}

theorem Logged.bp_le (h : Logged n xs capture stack bp) : bp ≤ stack.length := by
  rcases xs with _ | ⟨x, xs⟩
  · rw [Logged] at h
    omega
  · obtain ⟨us, b, rest, -, rfl, rfl, -⟩ := h
    simp

theorem Logged.le_bp : ∀ {xs : List Choice} {capture stack : List ℕ} {bp : ℕ},
    Logged n xs capture stack bp → ∀ x ∈ xs, x.pushed.bp ≤ bp
  | [], _, _, _, _, _, hx => by cases hx
  | y :: xs, _, _, _, h, x, hx => by
    obtain ⟨us, b, rest, -, -, rfl, hb, -, -, hl⟩ := h
    rcases List.mem_cons.1 hx with rfl | hx
    · exact hb.le
    · have h1 := hl.le_bp x hx
      have h2 := hl.bp_le
      omega

/-- The same log for captures that agree. -/
theorem Logged.congr {capture' : List ℕ} (h : Logged n xs capture stack bp)
    (hc : List.Forall₂ Cut capture' capture) : Logged n xs capture' stack bp := by
  rcases xs with _ | ⟨x, xs⟩
  · exact h
  · obtain ⟨us, b, rest, hs, hst, hbp, hb, hp, hr, hl⟩ := h
    exact ⟨us, b, rest, hs, hst, hbp, hb, hp, hr.congr Cut.refl Cut.trans hc, hl⟩

/-- More words of the log above the stack. -/
theorem Logged.append {us : List (ℕ × ℕ)} {capture' : List ℕ} (hu : Slots us)
    (h : Logged n xs capture stack bp) (hr : Restores Cut (log us) capture' capture) :
    Logged n xs capture' (words us ++ stack) bp := by
  rcases xs with _ | ⟨x, xs⟩
  · exact h
  · obtain ⟨vs, b, rest, hs, rfl, hbp, hb, hp, hr', hl⟩ := h
    refine ⟨us ++ vs, b, rest, ?_, ?_, hbp, hb, hp, ?_, hl⟩
    · intro u hu'
      rcases List.mem_append.1 hu' with hu' | hu'
      · exact hu u hu'
      · exact hs u hu'
    · rw [words_append, List.append_assoc]
    · rw [log_append]
      exact hr.append Cut.refl Cut.trans hr'

/-- `SAVE_CAPTURE` logs the slot. -/
theorem Logged.saveCapture (hi : i < 2 ^ 30) (h : Logged n xs s.capture s.stack s.bp) :
    Logged n xs (s.saveCapture i v).capture (s.saveCapture i v).stack (s.saveCapture i v).bp := by
  have hu : Slots [(i, s.get i)] := by
    intro u hu
    rw [List.mem_singleton.1 hu]
    exact hi
  refine h.append hu ?_
  have hr : Restores Cut [] s.capture s.capture := .refl Cut.refl _
  exact hr.save Cut.refl Cut.trans (d := 0) (Cut.short _) v

/-- `SAVE_CAPTURE_CHECK` need not log a slot that is in the log. -/
theorem Logged.saveCaptureCheck {e : Events} (hi : i < 2 ^ 30)
    (h : Logged n xs s.capture s.stack s.bp) (hs : e.saveCaptureCheck s i v = some s') :
    Logged n xs s'.capture s'.stack s'.bp := by
  unfold Events.saveCaptureCheck at hs
  split_ifs at hs with h1 h2
  · cases hs
    rcases xs with _ | ⟨x, xs⟩
    · exact h
    · obtain ⟨us, b, rest, hus, hst, hbp, hb, hp, hr, hl⟩ := h
      refine ⟨us, b, rest, hus, hst, hbp, hb, hp, hr.write ?_ v, hl⟩
      rw [hst, hbp] at h1
      rw [map_fst_log]
      exact @isSaved_words _ _ (pcTypeToValue x.pc x.type :: newShortInt x.pushed.cptr :: b :: rest)
        hus h1
  · cases hs
    exact h.saveCapture hi

/-- A choice point that is pushed has nothing to undo. -/
theorem Logged.pushChoice (hn : s.cptr ≤ n) (h : Logged n xs s.capture s.stack s.bp)
    (hc : x.pushed.capture = s.capture) (hcptr : x.pushed.cptr = s.cptr)
    (hbp : x.pushed.bp = s.stack.length + 3) :
    Logged n (x :: xs) s.capture (s.pushChoice x.pc x.type).stack
      (s.pushChoice x.pc x.type).bp := by
  refine ⟨[], s.bp, s.stack, ?_, ?_, rfl, hbp, ?_, ?_, ?_⟩
  · intro u hu
    cases hu
  · rw [hcptr]
    rfl
  · rw [hcptr]
    exact hn
  · rw [hc]
    exact .refl Cut.refl _
  · rw [hc]
    exact h

/-! ### Going back -/

/-- Going back to a choice point brings back the captures it was pushed with. -/
theorem Logged.back (hn : n < 2 ^ 30) (h : Logged n (x :: xs) s.capture s.stack s.bp) :
    ∃ s', back s = some (pcTypeToValue x.pc x.type, s')
      ∧ List.Forall₂ Cut s'.capture x.pushed.capture ∧ s'.pc = x.pc ∧ s'.cptr = x.pushed.cptr
      ∧ s'.bp < x.pushed.bp ∧ s'.mode = s.mode ∧ Logged n xs s'.capture s'.stack s'.bp := by
  obtain ⟨us, b, rest, hus, hst, hbp, hb, hp, hr, hl⟩ := h
  have hundo : undo s.bp s.capture s.stack = (undoAll (log us) s.capture,
      pcTypeToValue x.pc x.type :: newShortInt x.pushed.cptr :: b :: rest) := by
    rw [hst, hbp]
    exact @undo_words _ (pcTypeToValue x.pc x.type :: newShortInt x.pushed.cptr :: b :: rest)
      s.capture hus
  have hcptr : getInt (newShortInt x.pushed.cptr) = x.pushed.cptr := short_of_lt (hp.trans_lt hn)
  refine ⟨⟨valueToPc (pcTypeToValue x.pc x.type), getInt (newShortInt x.pushed.cptr),
    undoAll (log us) s.capture, rest, b, s.mode⟩, ?_, hr, valueToPc_pcTypeToValue _ _, hcptr, ?_,
    rfl, hl.congr hr⟩
  · rw [Regexp.back, hundo]
    rfl
  · have hle : b ≤ rest.length := hl.bp_le
    change b < x.pushed.bp
    omega

/-- No choice point was popped that is not above the new `bp`. -/
theorem Logged.dropWhile (h : Logged n xs capture stack bp) :
    ((xs.map Choice.pushed).dropWhile fun c => bp < c.bp) = xs.map Choice.pushed := by
  rcases xs with _ | ⟨x, xs⟩
  · rfl
  · refine List.dropWhile_cons_of_neg ?_
    have := h.le_bp x List.mem_cons_self
    simpa using this

/-- The loop of `lookahead_match` stops at the last positive look-ahead, with the logs of the choice
points above it. -/
theorem Logged.popLookahead (hn : n < 2 ^ 30) : ∀ {fuel : ℕ} {xs : List Choice} {s : State}
    {m kept kept' : List ℕ}, Logged n xs m s.stack s.bp →
    popLookahead fuel s kept = some (s', kept') →
    ∃ xs₁ x xs₂ us, xs = xs₁ ++ x :: xs₂ ∧ (∀ y ∈ xs₁, y.type ≠ .lookahead)
      ∧ x.type = .lookahead ∧ s'.pc = x.pc ∧ s'.cptr = x.pushed.cptr ∧ s'.capture = s.capture
      ∧ s'.mode = s.mode ∧ kept' = kept ++ words us ∧ Slots us
      ∧ Restores Cut (log us) m x.pushed.capture
      ∧ Logged n xs₂ x.pushed.capture s'.stack s'.bp
      ∧ ∀ d ∈ xs₁ ++ [x], s'.bp < d.pushed.bp
  | 0, _, _, _, _, _, _, h => by cases h
  | fuel + 1, [], s, m, kept, kept', hl, h => by
    have hbp : s.bp = 0 := hl
    have hdrop : s.stack.drop (s.stack.length - s.bp) = [] := by
      rw [hbp, Nat.sub_zero, List.drop_length]
    rw [Regexp.popLookahead, hdrop] at h
    cases h
  | fuel + 1, x :: xs, s, m, kept, kept', hl, h => by
    obtain ⟨us, b, rest, hus, hst, hbp, hb, hp, hr, hl⟩ := hl
    have hn' : s.stack.length - s.bp = (words us).length := by
      rw [hst, hbp]
      simp
    have hcptr : getInt (newShortInt x.pushed.cptr) = x.pushed.cptr :=
      short_of_lt (hp.trans_lt hn)
    have hle := hl.bp_le
    rw [Regexp.popLookahead, hn', hst, List.drop_left, List.take_left] at h
    simp only [popChoice, valueToType_pcTypeToValue] at h
    split_ifs at h with htype
    · cases h
      refine ⟨[], x, xs, us, rfl, ?_, ?_, valueToPc_pcTypeToValue _ _, hcptr, rfl, rfl, rfl, hus,
        hr,
        hl, ?_⟩
      · intro y hy
        cases hy
      · exact ChoiceType.toNat_injective htype
      · intro d hd
        rw [List.nil_append, List.mem_singleton] at hd
        rw [hd]
        change b < x.pushed.bp
        omega
    · obtain ⟨xs₁, y, xs₂, vs, rfl, hne, hy, h0, h1, h2, h3, rfl, hvs, hr', hl', hbps⟩ :=
        Logged.popLookahead hn (s := ⟨_, _, _, _, _, _⟩) hl h
      refine ⟨x :: xs₁, y, xs₂, us ++ vs, rfl, ?_, hy, h0, h1, h2, h3, ?_, ?_, ?_, hl', ?_⟩
      · intro z hz
        rcases List.mem_cons.1 hz with rfl | hz
        · intro hz
          exact htype (by rw [hz])
        · exact hne z hz
      · rw [words_append, List.append_assoc]
      · intro u hu
        rcases List.mem_append.1 hu with hu | hu
        · exact hus u hu
        · exact hvs u hu
      · rw [log_append]
        exact hr.append Cut.refl Cut.trans hr'
      · intro z hz
        rw [List.cons_append, List.mem_cons] at hz
        rcases hz with rfl | hz
        · have hd := hbps y (by simp)
          have hd' := hl.le_bp y (by simp)
          omega
        · exact hbps z hz

/-- The loop of `lookahead_match` finds a positive look-ahead that is on the stack. -/
theorem Logged.popLookahead_isSome (hn : n < 2 ^ 30) : ∀ {xs : List Choice} {fuel : ℕ} {s : State}
    {m kept : List ℕ}, Logged n xs m s.stack s.bp → xs.length ≤ fuel →
    (∃ x ∈ xs, x.type = .lookahead) → ∃ out, Regexp.popLookahead fuel s kept = some out
  | [], _, _, _, _, _, _, hx => by
    obtain ⟨x, hx, -⟩ := hx
    cases hx
  | x :: xs, 0, _, _, _, _, hf, _ => by simp at hf
  | x :: xs, fuel + 1, s, m, kept, hl, hf, hx => by
    obtain ⟨us, b, rest, hus, hst, hbp, hb, hp, hr, hl⟩ := hl
    have hn' : s.stack.length - s.bp = (words us).length := by
      rw [hst, hbp]
      simp
    rw [Regexp.popLookahead, hn', hst, List.drop_left, List.take_left]
    simp only [popChoice, valueToType_pcTypeToValue]
    split_ifs with htype
    · exact ⟨_, rfl⟩
    · refine Logged.popLookahead_isSome hn (s := ⟨_, _, _, _, _, _⟩) hl ?_ ?_
      · simpa using hf
      · obtain ⟨y, hy, hyt⟩ := hx
        rcases List.mem_cons.1 hy with rfl | hy
        · exact absurd (by rw [hyt]) htype
        · exact ⟨y, hy, hyt⟩

/-- Each choice point takes room on the stack. -/
theorem Logged.length_le : ∀ {xs : List Choice} {capture stack : List ℕ} {bp : ℕ},
    Logged n xs capture stack bp → xs.length ≤ stack.length
  | [], _, _, _, _ => Nat.zero_le _
  | x :: xs, _, _, _, h => by
    obtain ⟨us, b, rest, -, rfl, -, -, -, -, hl⟩ := h
    have := hl.length_le
    simp only [List.length_cons, List.length_append]
    omega

end Qjs.Regexp
