import Qjs.Proofs.RegexpRun

/-!
# Regular expressions: loops do not share registers

While a loop is live the last store of its register was its own (`live_owner`), so of two loops that
are live on a path at the same time each has its own register (`registers_of_loops`).
-/

namespace Qjs.Regexp

open Wtf8 UndoLog

variable {cbuf code capture : List ℕ} {c c' : Config} {o : Op} {pc q q' r : ℕ}

/-! ### Loops and their ends -/

theorem zip_functional {α β : Type*} {a : α} {b b' : β} : ∀ {l : List α} {m : List β}, l.Nodup →
    (a, b) ∈ l.zip m → (a, b') ∈ l.zip m → b = b'
  | [], _, _, h, _ => by simp at h
  | _ :: _, [], _, h, _ => by simp at h
  | x :: l, y :: m, hl, h, h' => by
    rw [List.nodup_cons] at hl
    rw [List.zip_cons_cons, List.mem_cons] at h h'
    rcases h with h | h
    · cases h
      rcases h' with h' | h'
      · cases h'
        rfl
      · exact absurd (List.of_mem_zip h').1 hl.1
    · rcases h' with h' | h'
      · cases h'
        exact absurd (List.of_mem_zip h).1 hl.1
      · exact zip_functional hl.2 h h'

theorem Op.registers_nodup (o : Op) : o.registers.Nodup := by
  cases o with
  | loopSplit checkAdv nextFirst r limit val => cases checkAdv <;> simp [Op.registers]
  | _ => simp [Op.registers]

theorem openLoops_opens {target : ℕ} : ∀ {fuel pos : ℕ} {loops : List ℕ},
    (∀ q ∈ loops, (Op.decode (code.drop q)).opens = true) →
    ∀ q ∈ openLoops code target fuel pos loops, (Op.decode (code.drop q)).opens = true
  | 0, _, _, h, q, hq => h q hq
  | fuel + 1, pos, loops, h, q, hq => by
    rw [openLoops] at hq
    split_ifs at hq
    · exact h q hq
    · refine openLoops_opens ?_ q hq
      split_ifs with hopens
      · intro x hx
        rcases List.mem_cons.1 hx with rfl | hx
        · exact hopens
        · exact h x hx
      · exact fun x hx => h x (List.mem_of_mem_drop hx)

/-- A loop starts with an instruction that opens it, which is the end of none. -/
theorem loopEnds_open (h : (r, q) ∈ loopEnds code pc) : loopEnds code q = [] := by
  have hq : q ∈ loopsAt code pc :=
    List.mem_of_mem_take (List.mem_reverse.1 (List.of_mem_zip h).2)
  have hopens := openLoops_opens (fun x hx => absurd hx List.not_mem_nil) q hq
  unfold loopEnds
  cases ho : Op.decode (code.drop q) with
  | setI32 | setCharPos => rfl
  | _ =>
    rw [ho] at hopens
    cases hopens

theorem loopEnds_functional (h : (r, q) ∈ loopEnds code pc) (h' : (r, q') ∈ loopEnds code pc) :
    q = q' := zip_functional (Op.registers_nodup _) h h'

theorem Live.exists_end (h : Live cbuf code q r c) : ∃ pc, (r, q) ∈ loopEnds code pc := by
  induction h with
  | here h => exact ⟨_, h⟩
  | step _ _ _ ih => exact ih

/-! ### The last store -/

theorem Config.resetGroups_owner : ∀ (m i : ℕ) (c : Config), (c.resetGroups m i).owner = c.owner
  | 0, _, _ => rfl
  | m + 1, i, c => by
    rw [Config.resetGroups, Config.resetGroups_owner]
    rfl

/-- A step leaves the last store of a register as it is, or is the last store itself. -/
theorem succs_owner (hc : c' ∈ succs cbuf code c) (r : ℕ) :
    c'.owner r = c.owner r ∨ c'.owner r = c.pc := by
  obtain ⟨o, ho⟩ : ∃ o, Op.decode (code.drop c.pc) = o := ⟨_, rfl⟩
  unfold succs at hc
  rw [ho] at hc
  have store {r' : ℕ} {owner : ℕ → ℕ} (h : owner = fun x => if x = r' then c.pc else c.owner x) :
      owner r = c.owner r ∨ owner r = c.pc := by
    rw [h]
    dsimp only
    split_ifs
    · exact .inr rfl
    · exact .inl rfl
  cases o with
  | goto val =>
    rw [List.mem_singleton.1 hc]
    exact .inl rfl
  | split nextFirst val =>
    left
    rcases List.mem_cons.1 hc with rfl | hc
    · rfl
    · rw [List.mem_singleton.1 hc]
      rfl
  | match_ | invalid => cases hc
  | lookaheadMatch neg =>
    cases neg with
    | true => cases hc
    | false =>
      rw [Op.succs] at hc
      split at hc
      · rw [List.mem_singleton.1 hc]
        exact .inl rfl
      · cases hc
  | save isEnd i =>
    rw [List.mem_singleton.1 hc]
    exact .inl rfl
  | saveReset i j =>
    rw [List.mem_singleton.1 hc]
    exact .inl (by rw [Config.resetGroups_owner]; rfl)
  | loop r' val =>
    rw [succs_loop (c := c.after (.loop r' val)) rfl] at hc
    split_ifs at hc <;>
    · rw [List.mem_singleton.1 hc]
      exact store rfl
  | loopSplit checkAdv nextFirst r' limit val =>
    rw [succs_loopSplit (c := c.after (.loopSplit checkAdv nextFirst r' limit val)) rfl] at hc
    dsimp only at hc
    split_ifs at hc
    · rw [List.mem_singleton.1 hc]
      exact store rfl
    · cases hc
    · rcases List.mem_cons.1 hc with rfl | hc
      · exact store rfl
      · rw [List.mem_singleton.1 hc]
        exact store rfl
    · rw [List.mem_singleton.1 hc]
      exact store rfl
  | setI32 r' v =>
    rw [List.mem_singleton.1 hc]
    exact store rfl
  | lookahead neg val =>
    left
    rcases List.mem_cons.1 hc with rfl | hc
    · rfl
    · cases neg with
      | false => cases hc
      | true =>
        rw [List.mem_singleton.1 hc]
        rfl
  | setCharPos r' =>
    rw [List.mem_singleton.1 hc]
    exact store rfl
  | checkAdvance r' =>
    change c' ∈ (if _ then [] else _) at hc
    split_ifs at hc
    · cases hc
    · rw [List.mem_singleton.1 hc]
      exact .inl rfl
  | _ =>
    obtain ⟨m, -, rfl⟩ := mem_succs_text hc (fun h => by simp [Op.succs, h])
      (fun m h => by simp [Op.succs, h])
    exact .inl rfl

/-- The last store of the register of a live loop was at the start or an end of it. -/
theorem live_owner (hlive : Live cbuf code q r c) :
    Good cbuf code c → c.owner r = q ∨ (r, q) ∈ loopEnds code (c.owner r) := by
  induction hlive with
  | @here c h =>
    intro hc
    refine (hc.sound.owner _ h).imp_right fun hpc => ?_
    change c.owner r = c.pc at hpc
    rw [hpc]
    exact h
  | @step c c' hq hsucc _ ih =>
    intro hc
    have hnext := ih (hc.succ hsucc)
    rcases succs_owner hsucc r with h | h
    · rwa [h] at hnext
    · rw [h] at hnext
      have hend := hnext.resolve_left hq
      refine (hc.sound.owner _ hend).imp_right fun hpc => ?_
      change c.owner r = c.pc at hpc
      rw [hpc]
      exact hend

theorem live_unique (hc : Good cbuf code c) (h : Live cbuf code q r c)
    (h' : Live cbuf code q' r c) : q = q' := by
  obtain ⟨pc, hpc⟩ := h.exists_end
  obtain ⟨pc', hpc'⟩ := h'.exists_end
  rcases live_owner h hc with h1 | h1
  · rcases live_owner h' hc with h2 | h2
    · exact h1.symm.trans h2
    · rw [h1, loopEnds_open hpc] at h2
      cases h2
  · rcases live_owner h' hc with h2 | h2
    · rw [h2, loopEnds_open hpc'] at h1
      cases h1
    · exact loopEnds_functional h1 h2

/-- A program has at most 255 registers, the interpreter comes only to instructions on those, and
two loops that are live at the same time on a path do not have the same register. -/
theorem registers_of_loops (prog : Program) (str : Subject) (hf : Fresh prog.code capture) :
    byteAt prog.code 3 ≤ registerCountMax ∧
    (∀ s pushed, Run str prog.code capture s pushed → s.mode = .run →
      ∀ r ∈ (Op.decode (prog.code.drop s.pc)).registers, r < byteAt prog.code 3) ∧
    (∀ c q q' r, Path str.buf prog.code capture c → Live str.buf prog.code q r c →
      Live str.buf prog.code q' r c → q = q') := by
  obtain ⟨cc, rc, top, h⟩ := jsParseRegexp_tree prog.compiled
  have halloc : lreGetAllocCount prog.code
      = lreGetCaptureCount prog.code * 2 + byteAt prog.code 3 := rfl
  refine ⟨?_, ?_, ?_⟩
  · have h1 := h.allocCount
    have h2 := h.captureCount
    have h3 := h.rc_le
    omega
  · intro s pushed hrun hm r hr
    obtain ⟨xs, -, hs⟩ := hrun.stands hf
    obtain ⟨c, hc, ha, -⟩ := hs.run hm
    have hreg := (prog.path_good str hf.length hc).sound.registers
    rw [ha.eq] at hr
    have := hreg r hr
    omega
  · intro c q q' r hc h1 h2
    exact live_unique (prog.path_good str hf.length hc) h1 h2

/-- Of `a{2}` on a string. -/
theorem registers_of_loops_twice : byteAt twice.code 3 ≤ registerCountMax :=
  (registers_of_loops twice textB twice_fresh).1

end Qjs.Regexp
