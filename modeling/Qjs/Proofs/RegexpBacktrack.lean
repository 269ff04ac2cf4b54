import Qjs.Proofs.RegexpRun

/-!
# Regular expressions: going back restores the captures and registers

What is stored on a path are short integers, and so is the position of a group that is not set
(`Path.kept`). They go through the undo log unchanged, so on going back to a choice point every slot
is as it was when it was pushed, but for registers nothing was stored in
(`backtrack_restores`).
-/

namespace Qjs.Regexp

open Wtf8 UndoLog

variable {cbuf code capture : List ℕ} {n i v : ℕ} {c c' : Config} {s s' : State} {o : Op}

theorem short_unset : short (2 ^ 32 - 1) = 2 ^ 32 - 1 := by
  unfold short getInt newShortInt
  split_ifs <;> omega

/-! ### What is stored -/

theorem Config.get_write_or (c : Config) (i v j : ℕ) :
    (c.write i v).get j = c.get j ∨ (c.write i v).get j = v := by
  by_cases hij : i = j
  · subst hij
    by_cases hi : i < c.capture.length
    · exact .inr (Config.get_write hi)
    · left
      change (c.capture.set i v).getD i 0 = c.capture.getD i 0
      rw [List.set_eq_of_length_le (by omega)]
  · exact .inl (Config.get_write_of_ne hij)

theorem Config.get_resetGroups_or : ∀ (m i : ℕ) (c : Config) (j : ℕ),
    (c.resetGroups m i).get j = c.get j ∨ (c.resetGroups m i).get j = 0
  | 0, _, _, _ => .inl rfl
  | m + 1, i, c, j => by
    rw [Config.resetGroups]
    rcases Config.get_resetGroups_or m (i + 1) ((c.write (2 * i) 0).write (2 * i + 1) 0) j
      with h | h
    · rw [h]
      rcases (c.write (2 * i) 0).get_write_or (2 * i + 1) 0 j with h | h
      · rw [h]
        exact c.get_write_or (2 * i) 0 j
      · exact .inr h
    · exact .inr h

/-- A slot is kept or a short integer is stored in it. -/
theorem succs_get (hn : cbuf.length < 2 ^ 30) (hs : Sound cbuf.length code c)
    (hc : c' ∈ succs cbuf code c) (j : ℕ) : c'.get j = c.get j ∨ c'.get j < 2 ^ 30 := by
  obtain ⟨o, ho⟩ : ∃ o, Op.decode (code.drop c.pc) = o := ⟨_, rfl⟩
  have hop := hs.op
  unfold succs at hc
  rw [ho] at hc hop
  have write {i v : ℕ} (hv : v < 2 ^ 30) (d : Config) (hd : d.capture = c.capture.set i v) :
      d.get j = c.get j ∨ d.get j < 2 ^ 30 := by
    have h : d.get j = (c.write i v).get j := by rw [Config.get, hd]; rfl
    rw [h]
    rcases c.get_write_or i v j with h | h
    · exact .inl h
    · exact .inr (h.trans_lt hv)
  have hcptr := hs.cptr_le.trans_lt hn
  cases o with
  | goto val =>
    rw [List.mem_singleton.1 hc]
    exact .inl rfl
  | split nextFirst val =>
    left
    rcases List.mem_cons.1 hc with rfl | hc
    · rfl
    · rw [List.mem_singleton.1 hc]
      rfl
  | match_ => cases hc
  | lookaheadMatch neg =>
    obtain ⟨cptr, pc, looks, hlooks⟩ := hop
    cases neg with
    | true => cases hc
    | false =>
      rw [succs_lookaheadMatch (c := c.after (.lookaheadMatch false)) hlooks] at hc
      rw [List.mem_singleton.1 hc]
      exact .inl rfl
  | save isEnd i =>
    rw [List.mem_singleton.1 hc]
    exact write hcptr _ rfl
  | saveReset i j' =>
    rw [List.mem_singleton.1 hc]
    rcases Config.get_resetGroups_or (j' + 1 - i) i (c.after (.saveReset i j')) j with h | h
    · exact .inl h
    · right
      rw [h]
      norm_num
  | loop r val =>
    obtain ⟨hpos, hlt⟩ : 1 ≤ c.get (2 * lreGetCaptureCount code + r)
      ∧ c.get (2 * lreGetCaptureCount code + r) < 2 ^ 30 := hop
    have hval := toU32_pred (i := c.get (2 * lreGetCaptureCount code + r))
      (v := c.get (2 * lreGetCaptureCount code + r) - 1) (by omega) (by omega)
    rw [succs_loop (c := c.after (.loop r val)) hval] at hc
    split_ifs at hc <;>
    · rw [List.mem_singleton.1 hc]
      exact write (by omega) _ rfl
  | loopSplit checkAdv nextFirst r limit val =>
    obtain ⟨hpos, hlt⟩ : 1 ≤ c.get (2 * lreGetCaptureCount code + r)
      ∧ c.get (2 * lreGetCaptureCount code + r) < 2 ^ 30 := hop
    have hval := toU32_pred (i := c.get (2 * lreGetCaptureCount code + r))
      (v := c.get (2 * lreGetCaptureCount code + r) - 1) (by omega) (by omega)
    rw [succs_loopSplit (c := c.after (.loopSplit checkAdv nextFirst r limit val)) hval] at hc
    dsimp only at hc
    split_ifs at hc
    · rw [List.mem_singleton.1 hc]
      exact write (by omega) _ rfl
    · cases hc
    · rcases List.mem_cons.1 hc with rfl | hc
      · exact write (by omega) _ rfl
      · rw [List.mem_singleton.1 hc]
        exact write (by omega) _ rfl
    · rw [List.mem_singleton.1 hc]
      exact write (by omega) _ rfl
  | setI32 r v =>
    rw [List.mem_singleton.1 hc]
    exact write hop _ rfl
  | lookahead neg val =>
    left
    rcases List.mem_cons.1 hc with rfl | hc
    · rfl
    · cases neg with
      | false => cases hc
      | true =>
        rw [List.mem_singleton.1 hc]
        rfl
  | setCharPos r =>
    rw [List.mem_singleton.1 hc]
    exact write hcptr _ rfl
  | checkAdvance r =>
    change c' ∈ (if _ then [] else _) at hc
    split_ifs at hc
    · cases hc
    · rw [List.mem_singleton.1 hc]
      exact .inl rfl
  | invalid => exact absurd hop id
  | _ =>
    obtain ⟨m, -, rfl⟩ := mem_succs_text hc (fun h => by simp [Op.succs, h])
      (fun m h => by simp [Op.succs, h])
    exact .inl rfl

/-- A slot holds a short integer, or is a register with what was in the memory at first. -/
theorem Path.kept {prog : Program} {str : Subject} (hf : Fresh prog.code capture)
    (h : Path str.buf prog.code capture c) (i : ℕ) :
    short (c.get i) = c.get i ∨
      2 * lreGetCaptureCount prog.code ≤ i ∧ c.get i = capture.getD i 0 := by
  induction h with
  | start cindex _ =>
    by_cases hi : 2 * lreGetCaptureCount prog.code ≤ i
    · exact .inr ⟨hi, rfl⟩
    · left
      have hunset : capture.getD i 0 = 2 ^ 32 - 1 := of_decide_eq_true (hf.unset i (by omega))
      change short (capture.getD i 0) = capture.getD i 0
      rw [hunset, short_unset]
  | cut _ hcut ih =>
    rcases forall₂_getD hcut i with h | h
    · rw [Config.get] at ih
      rwa [Config.get, h]
    · left
      rw [Config.get, h, short_short]
  | step hp hc ih =>
    rcases succs_get str.short (prog.path_good str hf.length hp).sound hc i with h | h
    · rwa [h]
    · exact .inl (short_of_lt h)

/-- A slot that is back holds what it held, but for a register that still holds what was in the
memory at first: of that the bits of a short integer are left. -/
theorem get_restored {prog : Program} {str : Subject} (hf : Fresh prog.code capture)
    (h : Path str.buf prog.code capture c) {m : List ℕ} (hm : List.Forall₂ Cut m c.capture)
    (i : ℕ) :
    m.getD i 0 = c.get i ∨
      2 * lreGetCaptureCount prog.code ≤ i ∧ c.get i = capture.getD i 0
        ∧ m.getD i 0 = short (c.get i) := by
  rcases forall₂_getD hm i with hi | hi
  · exact .inl hi
  · rcases h.kept hf i with hk | ⟨hle, hk⟩
    · exact .inl (hi.trans hk)
    · exact .inr ⟨hle, hk, hi⟩

/-- Going back leads to the last choice point, with each slot as it was when that was pushed, but
for the registers that still hold what was in the memory at first. When a positive look-ahead has
matched, the captures are kept, the position is the one it was entered at, and the choice points
that are left are those from before its own, so going back to them undoes what was kept. -/
theorem backtrack_restores (prog : Program) (str : Subject) (hf : Fresh prog.code capture)
    {pushed : List State} (h : Run str prog.code capture s pushed) (e : Events)
    (hstep : step str.buf prog.code e s = .next s') :
    (s.mode ≠ .run → ∃ c rest, pushed = c :: rest ∧ track s s' pushed = rest ∧ s'.cptr = c.cptr ∧
      ∀ i, s'.get i = c.get i ∨ 2 * lreGetCaptureCount prog.code ≤ i ∧
        c.get i = capture.getD i 0 ∧ s'.get i = short (c.get i)) ∧
    (s.mode = .run → Op.decode (prog.code.drop s.pc) = .lookaheadMatch false →
      ∃ above c rest, pushed = above ++ c :: rest ∧ track s s' pushed = rest ∧
        (∃ val, Op.decode (prog.code.drop (c.pc - 5)) = .lookahead false val) ∧
        s'.cptr = c.cptr ∧ s'.capture = s.capture) := by
  obtain ⟨xs, rfl, hs⟩ := h.stands hf
  constructor
  · intro hm
    have hg := hs.goesBack hm
    rcases xs with _ | ⟨x, xs⟩
    · rw [hg.done_nil] at hstep
      cases hstep
    · obtain ⟨hcap, -, hcptr, hlog', hbp, hbps, -, -⟩ := step_back str.short hm hs.logged hstep
      obtain ⟨c, hc, hccap, -⟩ := hs.pending.1
      refine ⟨x.pushed, xs.map Choice.pushed, rfl, ?_, hcptr, fun i => ?_⟩
      · unfold track
        rw [if_neg (by omega), List.map_cons, List.dropWhile_cons_of_pos (by simpa using hbp)]
        exact hlog'.dropWhile
      · rw [← hccap] at hcap
        have hget : x.pushed.get i = c.get i := by rw [State.get, ← hccap]; rfl
        rw [hget]
        exact get_restored hf hc hcap i
  · intro hm ho
    obtain ⟨c, hc, ha, hl⟩ := hs.run hm
    have hlog := hs.logged
    have hop := (prog.path_good str hf.length hc).sound.op
    rw [ha.eq] at hlog hstep ho ⊢
    change Op.decode (prog.code.drop c.pc) = _ at ho
    rw [ho] at hop
    obtain ⟨xs₁, x, xs₂, hxs, -, hx, -, ha', -, htrack⟩ :=
      step_look str.short ho hop hl hlog hstep
    have hpend : Pending (Path str.buf prog.code capture) prog.code (x :: xs₂) := by
      refine hs.pending.suffix ?_
      rw [hxs]
      exact List.suffix_append xs₁ (x :: xs₂)
    refine ⟨xs₁.map Choice.pushed, x.pushed, xs₂.map Choice.pushed, ?_, htrack, hpend.2.1 hx, ?_,
      ?_⟩
    · rw [hxs, List.map_append, List.map_cons]
    · rw [ha'.eq]
      rfl
    · rw [ha'.eq]
      rfl

/-- A failed character, back at the choice of the start position. -/
theorem backtrack_restores_twice :
    ∃ c rest,
      [(⟨15, 0, [2 ^ 32 - 1, 2 ^ 32 - 1, 2 ^ 30], [72, 0, 0], 3, .run⟩ : State)] = c :: rest ∧
      (⟨9, 0, [2 ^ 32 - 1, 2 ^ 32 - 1, 3 * 2 ^ 30], [], 0, .run⟩ : State).cptr = c.cptr := by
  have hstep : step textB.buf twice.code ⟨false, false⟩
      ⟨25, 0, [0, 2 ^ 32 - 1, 2], [4, 2 ^ 31, 0, 2 ^ 32 - 2, 72, 0, 0], 3, .noMatch⟩
        = .next ⟨9, 0, [2 ^ 32 - 1, 2 ^ 32 - 1, 3 * 2 ^ 30], [], 0, .run⟩ := by
    decide +kernel
  obtain ⟨c, rest, h, -, hcptr, -⟩ := (backtrack_restores twice textB twice_fresh twice_run
    ⟨false, false⟩ hstep).1 (by simp)
  exact ⟨c, rest, h, hcptr⟩

/-- A register that nothing was stored in comes back cut to the bits of a short integer. -/
theorem backtrack_cuts_register : ¬ ∀ (prog : Program) (str : Subject) (capture : List ℕ)
    (s s' c : State) (rest : List State) (e : Events), Fresh prog.code capture →
    Run str prog.code capture s (c :: rest) → s.mode ≠ .run →
    step str.buf prog.code e s = .next s' → ∀ i, s'.get i = c.get i := by
  intro h
  have hget := h twice textB _ _ ⟨9, 0, [2 ^ 32 - 1, 2 ^ 32 - 1, 3 * 2 ^ 30], [], 0, .run⟩ _ _
    ⟨false, false⟩ twice_fresh twice_run (by simp) (by decide +kernel) 2
  revert hget
  decide

end Qjs.Regexp
