import Qjs.Proofs.RegexpGood

/-!
# Regular expressions: runs of the interpreter

The interpreter goes along the paths of the program, and what it pushes are other ways to go
(`Stands`). A step of it is one of a few kinds (`Ran`), which keep this.
-/

namespace Qjs.Regexp

open Wtf8 UndoLog

/-- The look-aheads that are open, innermost first. -/
def looksOf : List Choice → List (Bool × ℕ × ℕ)
  | [] => []
  | x :: xs =>
    match x.type with
    | .split => looksOf xs
    | .lookahead => (false, x.pushed.cptr, x.pc) :: looksOf xs
    | .negativeLookahead => (true, x.pushed.cptr, x.pc) :: looksOf xs

/-- The choice point of a positive look-ahead stands behind the instruction that opened it. -/
def Choice.Opens (code : List ℕ) (x : Choice) : Prop :=
  x.type = .lookahead → ∃ val, Op.decode (code.drop (x.pushed.pc - 5)) = .lookahead false val

/-- Each choice point was pushed on a path, and going back to it goes on on one. -/
def Pending (P : Config → Prop) (code : List ℕ) : List Choice → Prop
  | [] => True
  | x :: xs => (∃ c, P c ∧ c.capture = x.pushed.capture ∧
    (x.type ≠ .lookahead → c.pc = x.pc ∧ c.cptr = x.pushed.cptr ∧ c.looks = looksOf xs)) ∧
    x.Opens code ∧ Pending P code xs

/-- The state is at an instruction, where the configuration is. -/
def Config.At (c : Config) (s : State) : Prop := s = c.onStack s.stack s.bp

/-- A state of the interpreter on the stack of the choice points `xs`. -/
structure Stands (P : Config → Prop) (n : ℕ) (code : List ℕ) (xs : List Choice) (s : State) :
    Prop where
  logged : Logged n xs s.capture s.stack s.bp
  pending : Pending P code xs
  run : s.mode = .run → ∃ c : Config, P c ∧ c.At s ∧ c.looks = looksOf xs
  negative : s.mode = .negative → ∃ p looks, looksOf xs = (true, p) :: looks

/-- What a step at an instruction comes to, from the configuration `c`. -/
inductive Ran (cbuf code : List ℕ) (c : Config) (xs : List Choice) (s' : State) : List Choice → Prop
  /-- Nothing matches here. -/
  | fail (hm : s'.mode = .noMatch) : Ran cbuf code c xs s' xs
  /-- The text of a negative look-ahead matches. -/
  | negative (hm : s'.mode = .negative) (hl : ∃ p looks, looksOf xs = (true, p) :: looks) :
    Ran cbuf code c xs s' xs
  | move {c' : Config} (hc : c' ∈ succs cbuf code c) (ha : c'.At s') (hl : c'.looks = looksOf xs) :
    Ran cbuf code c xs s' xs
  | push {c' d : Config} {x : Choice} (hc : c' ∈ succs cbuf code c) (ha : c'.At s')
    (hl : c'.looks = looksOf (x :: xs)) (hx : x.pushed = s')
    (hr : x.type ≠ .lookahead → d ∈ succs cbuf code c ∧ d.pc = x.pc ∧ d.cptr = s'.cptr ∧
      d.capture = s'.capture ∧ d.looks = looksOf xs) (hk : x.Opens code) :
    Ran cbuf code c xs s' (x :: xs)
  /-- The text of a look-ahead matches. -/
  | look {c' : Config} {xs₁ xs₂ : List Choice} {x : Choice} (h : xs = xs₁ ++ x :: xs₂)
    (hx : x.type = .lookahead) (h₁ : ∀ y ∈ xs₁, y.type = .split) (hc : c' ∈ succs cbuf code c)
    (ha : c'.At s') (hl : c'.looks = looksOf xs₂) (hcapture : c'.capture = c.capture)
    (hcptr : c'.cptr = x.pushed.cptr) : Ran cbuf code c xs s' xs₂

variable {cbuf code : List ℕ} {n i v bp : ℕ} {c c' : Config} {s s' : State} {xs xs' : List Choice}
  {stack : List ℕ} {e : Events} {o : Op}

/-! ### Parts of a step -/

theorem Config.At.eq (h : c.At s) : s = c.onStack s.stack s.bp := h

theorem Config.ponStack (c : Config) (stack : List ℕ) (bp : ℕ) : c.At (c.onStack stack bp) := rfl

theorem withRoom_next (h : e.withRoom s = .next s') : s' = s := by
  unfold Events.withRoom at h
  split_ifs at h
  cases h
  rfl

theorem withPoll_next (h : e.withPoll s = .next s') : s' = s := by
  unfold Events.withPoll at h
  split_ifs at h
  cases h
  rfl

/-- `SAVE_CAPTURE_CHECK` changes the slot and the stack. -/
theorem saveCaptureCheck_some (h : e.saveCaptureCheck (c.onStack stack bp) i v = some s') :
    s' = (c.write i v).onStack s'.stack bp := by
  unfold Events.saveCaptureCheck at h
  split_ifs at h <;> cases h <;> rfl

theorem resetCaptures_eq : ∀ (m i : ℕ) (c : Config) (stack : List ℕ), ∃ stack',
    resetCaptures m i (c.onStack stack bp) = (c.resetGroups m i).onStack stack' bp
  | 0, _, _, stack => ⟨stack, rfl⟩
  | m + 1, i, c, _ => resetCaptures_eq m (i + 1) ((c.write (2 * i) 0).write (2 * i + 1) 0) _

theorem Config.resetGroups_looks : ∀ (m i : ℕ) (c : Config), (c.resetGroups m i).looks = c.looks
  | 0, _, _ => rfl
  | m + 1, i, c => by
    rw [Config.resetGroups, Config.resetGroups_looks]
    rfl

theorem Logged.resetCaptures : ∀ {m i : ℕ} {s : State}, (0 < m → 2 * (i + m) < 2 ^ 30) →
    Logged n xs s.capture s.stack s.bp →
    Logged n xs (resetCaptures m i s).capture (resetCaptures m i s).stack
      (Regexp.resetCaptures m i s).bp
  | 0, _, _, _, h => h
  | m + 1, i, s, hm, h => by
    refine Logged.resetCaptures (s := (s.saveCapture (2 * i) 0).saveCapture (2 * i + 1) 0)
      (by omega) ?_
    exact Logged.saveCapture (s := s.saveCapture (2 * i) 0) (by omega) (h.saveCapture (by omega))

/-- The choice points are the same after a step that keeps `bp`. -/
theorem Logged.track (h : Logged n xs s'.capture s'.stack s'.bp) (hbp : s'.bp = s.bp) :
    track s s' (xs.map Choice.pushed) = xs.map Choice.pushed := by
  unfold Regexp.track
  rw [if_neg (by omega)]
  exact h.dropWhile

theorem matchOp_onStack (o : Op) :
    matchOp cbuf (c.onStack stack bp) o = matchOp cbuf (c.onStack [] 0) o := by
  cases o <;> rfl

/-- The first look-ahead is the one that the loop of `lookahead_match` finds. -/
theorem looksOf_append : ∀ {xs₁ xs₂ : List Choice} {x : Choice} {cptr pc : ℕ}
    {looks : List (Bool × ℕ × ℕ)},
    (∀ y ∈ xs₁, y.type ≠ .lookahead) → x.type = .lookahead →
    looksOf (xs₁ ++ x :: xs₂) = (false, cptr, pc) :: looks →
    (∀ y ∈ xs₁, y.type = .split) ∧ cptr = x.pushed.cptr ∧ pc = x.pc ∧ looks = looksOf xs₂
  | [], xs₂, x, _, _, _, _, hx, h => by
    rw [List.nil_append, looksOf, hx] at h
    cases h
    exact ⟨fun y hy => absurd hy List.not_mem_nil, rfl, rfl, rfl⟩
  | y :: xs₁, xs₂, x, _, _, _, h₁, hx, h => by
    rw [List.cons_append, looksOf] at h
    cases hy : y.type with
    | split =>
      rw [hy] at h
      obtain ⟨h2, h3⟩ := looksOf_append (fun z hz => h₁ z (List.mem_cons_of_mem y hz)) hx h
      refine ⟨fun z hz => ?_, h3⟩
      rcases List.mem_cons.1 hz with rfl | hz
      · exact hy
      · exact h2 z hz
    | lookahead => exact absurd hy (h₁ y List.mem_cons_self)
    | negativeLookahead =>
      rw [hy] at h
      cases h

theorem exists_lookahead : ∀ {xs : List Choice} {p : ℕ × ℕ} {looks : List (Bool × ℕ × ℕ)},
    looksOf xs = (false, p) :: looks → ∃ x ∈ xs, x.type = .lookahead
  | [], _, _, h => by cases h
  | x :: xs, _, _, h => by
    rw [looksOf] at h
    cases hx : x.type with
    | split =>
      rw [hx] at h
      obtain ⟨y, hy, hyt⟩ := exists_lookahead h
      exact ⟨y, List.mem_cons_of_mem x hy, hyt⟩
    | lookahead => exact ⟨x, List.mem_cons_self, hx⟩
    | negativeLookahead =>
      rw [hx] at h
      cases h

/-! ### A step at an instruction -/

section Step

/-- What a step from `c` on a stack comes to. -/
def Comes (cbuf code : List ℕ) (c : Config) (stack : List ℕ) (bp : ℕ) (xs : List Choice)
    (s' : State) : Prop :=
  ∃ xs', Ran cbuf code c xs s' xs' ∧ Logged cbuf.length xs' s'.capture s'.stack s'.bp ∧
    track (c.onStack stack bp) s' (xs.map Choice.pushed) = xs'.map Choice.pushed

variable {stack' : List ℕ}

theorem comes_move (hc : c' ∈ succs cbuf code c) (hl : c'.looks = looksOf xs)
    (hlog : Logged cbuf.length xs c'.capture stack' bp) :
    Comes cbuf code c stack bp xs (c'.onStack stack' bp) :=
  ⟨xs, .move hc (c'.ponStack stack' bp) hl, hlog, Logged.track (s := c.onStack stack bp) hlog rfl⟩

theorem comes_fail (hm : s'.mode = .noMatch) (hbp : s'.bp = bp)
    (hlog : Logged cbuf.length xs s'.capture s'.stack s'.bp) :
    Comes cbuf code c stack bp xs s' :=
  ⟨xs, .fail hm, hlog, hlog.track hbp⟩

/-- A new choice point, with two ways to go. -/
theorem comes_choose {d₁ d₂ d : Config} {nextFirst : Bool} {val : ℤ} (hd₁ : d₁ ∈ succs cbuf code c)
    (hd₂ : d₂ ∈ succs cbuf code c) (h1 : d₁ = d) (h2 : d₂ = d.jump val)
    (hl : d.looks = looksOf xs) (hcptr : d.cptr ≤ cbuf.length)
    (hlog : Logged cbuf.length xs d.capture stack' bp) :
    Comes cbuf code c stack bp xs ((d.onStack stack' bp).choose nextFirst val) := by
  subst h1 h2
  have hle : bp ≤ stack'.length := hlog.bp_le
  have htrack (t : State) (ht : t.bp = stack'.length + 3) :
      track (c.onStack stack bp) t (xs.map Choice.pushed) = t :: xs.map Choice.pushed := by
    unfold track
    rw [if_pos]
    change bp < t.bp
    omega
  cases nextFirst with
  | true =>
    refine ⟨⟨.split, (d₁.jump val).pc, (d₁.onStack stack' bp).choose true val⟩ :: xs,
      .push hd₁ rfl hl rfl (fun _ => ⟨hd₂, rfl, rfl, rfl, hl⟩) (fun h => by cases h), ?_,
      htrack _ rfl⟩
    exact Logged.pushChoice (s := d₁.onStack stack' bp)
      (x := ⟨.split, (d₁.jump val).pc, (d₁.onStack stack' bp).choose true val⟩) hcptr hlog rfl rfl
      rfl
  | false =>
    refine ⟨⟨.split, d₁.pc, (d₁.onStack stack' bp).choose false val⟩ :: xs,
      .push hd₂ rfl hl rfl (fun _ => ⟨hd₁, rfl, rfl, rfl, hl⟩) (fun h => by cases h), ?_,
      htrack _ rfl⟩
    exact Logged.pushChoice (s := d₁.onStack stack' bp)
      (x := ⟨.split, d₁.pc, (d₁.onStack stack' bp).choose false val⟩) hcptr hlog rfl rfl rfl

/-- Of a positive look-ahead that matches, the captures are kept, with all it undoes. -/
theorem step_look (hn : cbuf.length < 2 ^ 30)
    (ho : Op.decode (code.drop c.pc) = .lookaheadMatch false)
    (hop : (Op.lookaheadMatch false).Sound code c) (hl : c.looks = looksOf xs)
    (hlog : Logged cbuf.length xs c.capture stack bp)
    (hstep : step cbuf code e (c.onStack stack bp) = .next s') :
    ∃ xs₁ x xs₂, xs = xs₁ ++ x :: xs₂ ∧ (∀ y ∈ xs₁, y.type = .split) ∧ x.type = .lookahead ∧
      c.looks = (false, x.pushed.cptr, x.pc) :: looksOf xs₂ ∧
      ({ c with pc := x.pc, cptr := x.pushed.cptr, looks := looksOf xs₂ } : Config).At s' ∧
      Logged cbuf.length xs₂ s'.capture s'.stack s'.bp ∧
      track (c.onStack stack bp) s' (xs.map Choice.pushed) = xs₂.map Choice.pushed := by
  obtain ⟨cptr, pc, looks, hlooks⟩ := hop
  change execOp cbuf code e ((c.after (Op.decode (code.drop c.pc))).onStack stack bp)
    (Op.decode (code.drop c.pc)) = .next s' at hstep
  rw [ho] at hstep
  have hstack : ((c.after (.lookaheadMatch false)).onStack stack bp).stack = stack := rfl
  cases hpop : popLookahead stack.length
      ((c.after (.lookaheadMatch false)).onStack stack bp) [] with
  | none =>
    rw [execOp, hstack, hpop] at hstep
    cases hstep
  | some p =>
    obtain ⟨s, kept⟩ := p
    rw [execOp, hstack, hpop] at hstep
    cases hstep
    obtain ⟨xs₁, x, xs₂, us, rfl, h₁, hx, hpc, hcptr, hcap, hmode, hkept, hus, hr, hlog₂, hbps⟩ :=
      Logged.popLookahead hn (s := (c.after (.lookaheadMatch false)).onStack stack bp) hlog hpop
    rw [hl] at hlooks
    obtain ⟨h₁', rfl, rfl, rfl⟩ := looksOf_append h₁ hx hlooks
    rw [List.nil_append] at hkept
    refine ⟨xs₁, x, xs₂, rfl, h₁', hx, hl.trans hlooks, ?_, ?_, ?_⟩
    · obtain ⟨spc, scptr, scapture, sstack, sbp, smode⟩ := s
      simp only at hpc hcptr hcap hmode
      rw [hpc, hcptr, hcap, hmode]
      rfl
    · change Logged cbuf.length xs₂ s.capture (if s.stack = [] then [] else kept ++ s.stack) s.bp
      rw [hcap]
      split_ifs with hnil
      · rw [hnil] at hlog₂
        rcases xs₂ with _ | ⟨y, xs₂⟩
        · exact hlog₂
        · have := hlog₂.length_le
          simp at this
      · rw [hkept]
        exact hlog₂.append hus hr
    · have hle : s.bp ≤ bp := by
        have hx' := hbps x (by simp)
        have := hlog.le_bp x (by simp)
        omega
      unfold track
      rw [if_neg (by simpa [Config.onStack] using hle), List.map_append, List.map_cons,
        List.append_cons, List.dropWhile_append_of_pos]
      · exact hlog₂.dropWhile
      · intro t ht
        simp only [List.mem_append, List.mem_map, List.mem_singleton] at ht
        rcases ht with ⟨d, hd, rfl⟩ | rfl
        · have := hbps d (by simp [hd])
          simpa using this
        · have := hbps x (by simp)
          simpa using this

theorem mem_succs (ho : Op.decode (code.drop c.pc) = o)
    (h : c' ∈ o.succs cbuf code c.pc (c.after o)) :
    c' ∈ succs cbuf code c := by
  rw [← ho] at h
  exact h

/-- An instruction that only looks at the text. -/
theorem comes_match (ho : Op.decode (code.drop c.pc) = o) (hl : c.looks = looksOf xs)
    (hlog : Logged cbuf.length xs c.capture stack bp)
    (hexec : execOp cbuf code e ((c.after o).onStack stack bp) o
      = match matchOp cbuf ((c.after o).onStack stack bp) o with
        | none => .next ((c.after o).onStack stack bp).fail
        | some cptr =>
          .next (({ c.after o with cptr := cptr } : Config).onStack stack bp))
    (hsucc : o.succs cbuf code c.pc (c.after o)
      = match matchOp cbuf ((c.after o).onStack [] 0) o with
        | none => []
        | some cptr => [{ c.after o with cptr := cptr }])
    (h : execOp cbuf code e ((c.after o).onStack stack bp) o
      = .next s') : Comes cbuf code c stack bp xs s' := by
  rw [hexec, matchOp_onStack] at h
  cases hm : matchOp cbuf ((c.after o).onStack [] 0) o with
  | none =>
    rw [hm] at h
    cases h
    exact comes_fail rfl rfl hlog
  | some m =>
    rw [hm] at h hsucc
    cases h
    refine comes_move (mem_succs ho ?_) hl hlog
    rw [hsucc]
    exact List.mem_singleton_self _

/-- A register that is stored. -/
theorem saveCaptureCheck_reg {d : Config} {pc r : ℕ} (hi : i < 2 ^ 30)
    (hlog : Logged n xs d.capture stack bp)
    (h : e.saveCaptureCheck (d.onStack stack bp) i v = some s) :
    ∃ stack', s = (d.writeReg pc r i v).onStack stack' bp ∧
      Logged n xs (d.writeReg pc r i v).capture stack' bp := by
  have hs := saveCaptureCheck_some h
  have hlog' := Logged.saveCaptureCheck (s := d.onStack stack bp) hi hlog h
  rw [hs] at hlog'
  exact ⟨s.stack, hs, hlog'⟩

/-- An instruction that only stores a register. -/
theorem comes_store {r : ℕ} (ho : Op.decode (code.drop c.pc) = o) (hl : c.looks = looksOf xs)
    (hlog : Logged cbuf.length xs c.capture stack bp) (hi : i < 2 ^ 30)
    (hsucc : o.succs cbuf code c.pc (c.after o)
      = [(c.after o).writeReg c.pc r i v])
    (h : Out.ofOption (e.saveCaptureCheck
      ((c.after o).onStack stack bp) i v) = .next s') :
    Comes cbuf code c stack bp xs s' := by
  cases hsave : e.saveCaptureCheck
      ((c.after o).onStack stack bp) i v with
  | none =>
    rw [hsave] at h
    cases h
  | some s₁ =>
    rw [hsave] at h
    cases h
    obtain ⟨stack', rfl, hlog'⟩ := @saveCaptureCheck_reg _ _ _ _ _ _ _ _ c.pc r hi
      (d := (c.after o)) hlog hsave
    refine comes_move (mem_succs ho ?_) hl hlog'
    rw [hsucc]
    exact List.mem_singleton_self _

/-- A step at an instruction. -/
theorem step_comes (hn : cbuf.length < 2 ^ 30) (hall : lreGetAllocCount code < 2 ^ 30)
    (hs : Sound cbuf.length code c) (hl : c.looks = looksOf xs)
    (hlog : Logged cbuf.length xs c.capture stack bp)
    (hstep : step cbuf code e (c.onStack stack bp) = .next s') :
    Comes cbuf code c stack bp xs s' := by
  obtain ⟨o, ho⟩ : ∃ o, Op.decode (code.drop c.pc) = o := ⟨_, rfl⟩
  have hstep' := hstep
  change execOp cbuf code e ((c.after (Op.decode (code.drop c.pc))).onStack stack bp)
    (Op.decode (code.drop c.pc)) = .next s' at hstep
  have hop := hs.op
  have hreg := hs.registers
  have hcc : 2 * lreGetCaptureCount code ≤ lreGetAllocCount code := by
    unfold lreGetCaptureCount lreGetAllocCount
    omega
  rw [ho] at hstep hop hreg
  cases o with
  | goto val =>
    rw [withPoll_next hstep]
    exact comes_move (mem_succs ho (List.mem_singleton_self _)) hl hlog
  | split nextFirst val =>
    rw [withRoom_next hstep]
    exact comes_choose (mem_succs ho List.mem_cons_self)
      (mem_succs ho (List.mem_cons_of_mem _ List.mem_cons_self)) rfl rfl hl hs.cptr_le hlog
  | match_ => cases hstep
  | invalid => exact absurd hop id
  | lookaheadMatch neg =>
    cases neg with
    | true =>
      obtain ⟨cptr, pc, looks, hlooks⟩ := hop
      cases hstep
      exact ⟨xs, .negative rfl ⟨_, _, hl.symm.trans hlooks⟩, hlog, Logged.track hlog rfl⟩
    | false =>
      obtain ⟨xs₁, x, xs₂, hxs, h₁, hx, hlooks, ha, hlog₂, htrack⟩ :=
        step_look hn ho hop hl hlog hstep'
      refine ⟨xs₂, .look hxs hx h₁ (mem_succs ho ?_) ha rfl rfl rfl, hlog₂, htrack⟩
      rw [succs_lookaheadMatch (c := c.after (.lookaheadMatch false)) hlooks]
      exact List.mem_singleton_self _
  | save isEnd i =>
    rw [execOp] at hstep
    have hi : i < lreGetCaptureCount code := hop
    rw [if_neg (by omega)] at hstep
    rw [withRoom_next hstep]
    refine comes_move (mem_succs ho (List.mem_singleton_self _)) hl ?_
    refine Logged.saveCapture (s := ({ c with pc := _ } : Config).onStack stack bp) ?_ hlog
    have := Bool.toNat_le isEnd
    omega
  | saveReset i j =>
    rw [execOp] at hstep
    have hj : j < lreGetCaptureCount code := hop
    rw [if_neg (by omega)] at hstep
    rw [withRoom_next hstep]
    obtain ⟨stack', hreset⟩ := @resetCaptures_eq bp (j + 1 - i) i
      (c.after (.saveReset i j)) stack
    have hlog' : Logged cbuf.length xs _ _ _ := Logged.resetCaptures (m := j + 1 - i) (i := i)
      (s := (c.after (.saveReset i j)).onStack stack bp) ?_ hlog
    · rw [hreset] at hlog' ⊢
      refine comes_move (mem_succs ho (List.mem_singleton_self _)) ?_ hlog'
      rw [Config.resetGroups_looks]
      exact hl
    · intro hpos
      omega
  | loop r val =>
    have hi : 2 * lreGetCaptureCount code + r < 2 ^ 30 := (hreg r List.mem_cons_self).trans hall
    rw [execOp] at hstep
    generalize hval : toU32 (((c.after (.loop r val)).onStack stack
      bp).get (2 * lreGetCaptureCount code + r) - 1) = v at hstep
    cases hsave : e.saveCaptureCheck ((c.after (.loop r val)).onStack stack bp)
      (2 * lreGetCaptureCount code + r) v with
    | none =>
      rw [hsave] at hstep
      cases hstep
    | some s₁ =>
      rw [hsave] at hstep
      obtain ⟨stack', rfl, hlog'⟩ := @saveCaptureCheck_reg _ _ _ _ _ _ _ _ c.pc r hi
        (d := c.after (.loop r val)) hlog hsave
      have hsucc := @succs_loop cbuf code c.pc _ r val
        (c := c.after (.loop r val)) hval
      dsimp only at hstep
      split_ifs at hstep with hv
      · rw [withPoll_next hstep]
        refine @comes_move _ _ _ _ (Config.jump _ val) _ _ _ (mem_succs ho ?_) hl hlog'
        rw [hsucc, if_pos hv]
        exact List.mem_singleton_self _
      · cases hstep
        refine comes_move (mem_succs ho ?_) hl hlog'
        rw [hsucc, if_neg hv]
        exact List.mem_singleton_self _
  | loopSplit checkAdv nextFirst r limit val =>
    have hi : 2 * lreGetCaptureCount code + r < 2 ^ 30 := by
      refine (hreg r ?_).trans hall
      cases checkAdv <;> exact List.mem_cons_self
    rw [execOp] at hstep
    generalize hval : toU32 (((c.after (.loopSplit checkAdv nextFirst r limit val)).onStack stack
      bp).get (2 * lreGetCaptureCount code + r) - 1) = v at hstep
    cases hsave : e.saveCaptureCheck ((c.after (.loopSplit checkAdv nextFirst r limit val)).onStack
      stack bp) (2 * lreGetCaptureCount code + r) v with
    | none =>
      rw [hsave] at hstep
      cases hstep
    | some s₁ =>
      rw [hsave] at hstep
      obtain ⟨stack', rfl, hlog'⟩ := @saveCaptureCheck_reg _ _ _ _ _ _ _ _ c.pc r hi
        (d := c.after (.loopSplit checkAdv nextFirst r limit val)) hlog hsave
      have hsucc := @succs_loopSplit cbuf code c.pc _ r checkAdv nextFirst
        limit val
        (c := c.after (.loopSplit checkAdv nextFirst r limit val)) hval
      have hdl : ((c.after (.loopSplit checkAdv nextFirst r limit val)).writeReg c.pc r
        (2 * lreGetCaptureCount code + r) v).looks = looksOf xs := hl
      have hdc : ((c.after (.loopSplit checkAdv nextFirst r limit val)).writeReg c.pc r
        (2 * lreGetCaptureCount code + r) v).cptr ≤ cbuf.length := hs.cptr_le
      generalize (c.after (.loopSplit checkAdv nextFirst r limit val)).writeReg c.pc r
        (2 * lreGetCaptureCount code + r) v = d at hsucc hlog' hstep hdl hdc
      dsimp only at hstep hsucc
      split_ifs at hstep with h1 h2 h3
      · rw [withPoll_next hstep]
        refine @comes_move _ _ _ _ (d.jump val) _ _ _ (mem_succs ho ?_) hdl hlog'
        rw [hsucc, if_pos h1]
        exact List.mem_singleton_self _
      · cases hstep
        exact comes_fail rfl rfl hlog'
      · rw [withRoom_next hstep]
        have hboth : (Op.loopSplit checkAdv nextFirst r limit val).succs cbuf code c.pc
            (c.after (.loopSplit checkAdv nextFirst r limit val)) = [d, d.jump val] := by
          rw [hsucc, if_neg h1]
          exact (if_neg h2).trans (if_pos h3)
        refine comes_choose (mem_succs ho ?_) (mem_succs ho ?_) rfl rfl hdl hdc hlog'
        · rw [hboth]
          exact List.mem_cons_self
        · rw [hboth]
          exact List.mem_cons_of_mem _ List.mem_cons_self
      · cases hstep
        have hone : (Op.loopSplit checkAdv nextFirst r limit val).succs cbuf code c.pc
            (c.after (.loopSplit checkAdv nextFirst r limit val)) = [d] := by
          rw [hsucc, if_neg h1]
          exact (if_neg h2).trans (if_neg h3)
        refine comes_move (mem_succs ho ?_) hdl hlog'
        rw [hone]
        exact List.mem_singleton_self _
  | setI32 r v =>
    exact comes_store ho hl hlog ((hreg r List.mem_cons_self).trans hall) rfl hstep
  | lookahead neg val =>
    have hle : bp ≤ stack.length := hlog.bp_le
    obtain ⟨x, hx, hpc, htype⟩ : ∃ x : Choice, x.pushed = s'
        ∧ x.pc = ((c.after (.lookahead neg val)).jump val).pc
        ∧ x.type = if neg then .negativeLookahead else .lookahead := ⟨⟨_, _, _⟩, rfl, rfl, rfl⟩
    have hs' := withRoom_next hstep
    have hcptr : x.pushed.cptr = c.cptr := by
      rw [hx, hs']
      rfl
    refine ⟨x :: xs, ?_, ?_, ?_⟩
    · refine .push (mem_succs ho List.mem_cons_self) (d := (c.after (.lookahead neg val)).jump val)
        ?_ ?_ hx ?_ ?_
      · rw [hs']
        rfl
      · rw [looksOf, htype, hcptr, hpc, ← hl]
        cases neg <;> rfl
      · intro hne
        cases neg with
        | false => exact absurd htype hne
        | true =>
          refine ⟨mem_succs ho (List.mem_cons_of_mem _ List.mem_cons_self), hpc.symm, ?_, ?_, hl⟩
          · rw [hs']
            rfl
          · rw [hs']
            rfl
      · intro h
        cases neg with
        | true =>
          rw [htype] at h
          cases h
        | false =>
          have hxpc : x.pushed.pc - 5 = c.pc := by
            rw [hx, hs']
            exact Nat.add_sub_cancel c.pc 5
          rw [hxpc]
          exact ⟨val, ho⟩
    · have hcap : x.pushed.capture = c.capture := by
        rw [hx, hs']
        rfl
      have hbp : x.pushed.bp = stack.length + 3 := by
        rw [hx, hs']
        rfl
      have hlog' := Logged.pushChoice (s := (c.after (.lookahead neg val)).onStack stack bp)
        hs.cptr_le hlog hcap hcptr hbp
      rw [hpc, htype] at hlog'
      rw [hs']
      exact hlog'
    · unfold track
      rw [List.map_cons, hx, if_pos]
      rw [hs']
      change bp < stack.length + 3
      omega
  | setCharPos r =>
    exact comes_store ho hl hlog ((hreg r List.mem_cons_self).trans hall) rfl hstep
  | checkAdvance r =>
    rw [execOp] at hstep
    cases hstep
    split_ifs with h
    · exact comes_fail rfl rfl hlog
    · refine comes_move (mem_succs ho ?_) hl hlog
      have hsucc : (Op.checkAdvance r).succs cbuf code c.pc (c.after (.checkAdvance r))
          = [c.after (.checkAdvance r)] := if_neg h
      rw [hsucc]
      exact List.mem_singleton_self _
  | _ => exact comes_match ho hl hlog rfl rfl hstep

/-- No instruction of a sound configuration goes wrong. -/
theorem step_ne_abort (hn : cbuf.length < 2 ^ 30) (hs : Sound cbuf.length code c)
    (hl : c.looks = looksOf xs) (hlog : Logged cbuf.length xs c.capture stack bp) :
    step cbuf code e (c.onStack stack bp) ≠ .abort := by
  obtain ⟨o, ho⟩ : ∃ o, Op.decode (code.drop c.pc) = o := ⟨_, rfl⟩
  change execOp cbuf code e ((c.after (Op.decode (code.drop c.pc))).onStack stack bp)
    (Op.decode (code.drop c.pc)) ≠ .abort
  have hop := hs.op
  rw [ho] at hop ⊢
  have hroom (t : State) : e.withRoom t ≠ .abort := by
    unfold Events.withRoom
    split_ifs <;> simp
  have hpoll (t : State) : e.withPoll t ≠ .abort := by
    unfold Events.withPoll
    split_ifs <;> simp
  have hoption (t : Option State) : Out.ofOption t ≠ .abort := by
    cases t <;> simp [Out.ofOption]
  cases o with
  | goto val => exact hpoll _
  | split nextFirst val => exact hroom _
  | match_ => simp [execOp]
  | invalid => exact absurd hop id
  | lookaheadMatch neg =>
    obtain ⟨cptr, pc, looks, hlooks⟩ := hop
    cases neg with
    | true => simp [execOp]
    | false =>
      obtain ⟨⟨s₁, kept⟩, hpop⟩ := @Logged.popLookahead_isSome _ hn _ _
        ((c.after (.lookaheadMatch false)).onStack stack bp) _ [] hlog hlog.length_le
        (exists_lookahead (hl ▸ hlooks))
      have hstack : ((c.after (.lookaheadMatch false)).onStack stack bp).stack = stack := rfl
      rw [execOp, hstack, hpop]
      simp
  | save isEnd i =>
    have hi : i < lreGetCaptureCount code := hop
    rw [execOp, if_neg (by omega)]
    exact hroom _
  | saveReset i j =>
    have hj : j < lreGetCaptureCount code := hop
    rw [execOp, if_neg (by omega)]
    exact hroom _
  | loop r val =>
    rw [execOp]
    cases e.saveCaptureCheck _ _ _ with
    | none => simp
    | some s₁ =>
      dsimp only
      split_ifs
      · exact hpoll _
      · simp
  | loopSplit checkAdv nextFirst r limit val =>
    rw [execOp]
    cases e.saveCaptureCheck _ _ _ with
    | none => simp
    | some s₁ =>
      dsimp only
      split_ifs
      · exact hpoll _
      · simp
      · exact hroom _
      · simp
  | setI32 r v => exact hoption _
  | lookahead neg val => exact hroom _
  | setCharPos r => exact hoption _
  | checkAdvance r => simp [execOp]
  | _ =>
    simp only [execOp]
    cases matchOp cbuf _ _ <;> simp

end Step

/-! ### Going back -/

/-- A step that goes back to a choice point: its captures are back up to the undo log, and what was
stored before it is still known. -/
theorem step_back (hn : n < 2 ^ 30) {x : Choice} (hm : s.mode ≠ .run)
    (hlog : Logged n (x :: xs) s.capture s.stack s.bp) (hstep : step cbuf code e s = .next s') :
    List.Forall₂ Cut s'.capture x.pushed.capture ∧ s'.pc = x.pc ∧ s'.cptr = x.pushed.cptr
      ∧ Logged n xs s'.capture s'.stack s'.bp ∧ s'.bp < x.pushed.bp ∧ s'.bp < s.bp
      ∧ (s'.mode = .run → s.mode = .noMatch ∧ x.type ≠ .lookahead)
      ∧ (s'.mode = .negative → s.mode = .negative ∧ x.type ≠ .negativeLookahead) := by
  obtain ⟨s₁, hback, hcap, hpc, hcptr, hbp, hmode, hlog₁⟩ := hlog.back hn
  have hbps : s₁.bp < s.bp := by
    have := hlog.le_bp x List.mem_cons_self
    omega
  unfold step at hstep
  cases hsm : s.mode with
  | run => exact absurd hsm hm
  | noMatch =>
    rw [hsm] at hstep
    dsimp only at hstep
    unfold noMatchStep at hstep
    rw [if_neg (by omega), hback] at hstep
    dsimp only at hstep
    rw [valueToType_pcTypeToValue] at hstep
    split_ifs at hstep with htype
    · cases hstep
      refine ⟨hcap, hpc, hcptr, hlog₁, hbp, hbps, fun h => ?_, fun h => ?_⟩ <;>
      · rw [hmode, hsm] at h
        cases h
    · rw [withPoll_next hstep]
      refine ⟨hcap, hpc, hcptr, hlog₁, hbp, hbps, fun _ => ⟨rfl, fun h => htype ?_⟩,
        fun h => by cases h⟩
      rw [h]
  | negative =>
    rw [hsm] at hstep
    dsimp only at hstep
    unfold negativeStep at hstep
    rw [hback] at hstep
    dsimp only at hstep
    rw [valueToType_pcTypeToValue] at hstep
    split_ifs at hstep with htype
    · cases hstep
      exact ⟨hcap, hpc, hcptr, hlog₁, hbp, hbps, (fun h => by cases h), (fun h => by cases h)⟩
    · cases hstep
      refine ⟨hcap, hpc, hcptr, hlog₁, hbp, hbps, fun h => ?_, fun _ => ⟨rfl, fun h => htype ?_⟩⟩
      · rw [hmode, hsm] at h
        cases h
      · rw [h]

/-- The negative look-ahead whose text was found is further down. -/
theorem looksOf_negative {x : Choice} (h : ∃ p looks, looksOf (x :: xs) = (true, p) :: looks)
    (hx : x.type ≠ .negativeLookahead) : ∃ p looks, looksOf xs = (true, p) :: looks := by
  obtain ⟨p, looks, h⟩ := h
  rw [looksOf] at h
  cases hxt : x.type with
  | split =>
    rw [hxt] at h
    exact ⟨p, looks, h⟩
  | lookahead =>
    rw [hxt] at h
    cases h
  | negativeLookahead => exact absurd hxt hx

/-- A state that goes back to the choice points `xs`. -/
structure GoesBack (n : ℕ) (xs : List Choice) (s : State) : Prop where
  mode : s.mode ≠ .run
  logged : Logged n xs s.capture s.stack s.bp
  negative : s.mode = .negative → ∃ p looks, looksOf xs = (true, p) :: looks

/-- Without a choice point there is nothing to go back to. -/
theorem GoesBack.done_nil (h : GoesBack n [] s) : step cbuf code e s = .done 0 := by
  have hbp : s.bp = 0 := h.logged
  cases hm : s.mode with
  | run => exact absurd hm h.mode
  | noMatch =>
    unfold step
    rw [hm]
    exact if_pos hbp
  | negative =>
    obtain ⟨p, looks, h⟩ := h.negative hm
    cases h

theorem GoesBack.ne_abort (hn : n < 2 ^ 30) (h : GoesBack n xs s) :
    step cbuf code e s ≠ .abort := by
  rcases xs with _ | ⟨x, xs⟩
  · rw [h.done_nil]
    simp
  · obtain ⟨s₁, hback, -, -, -, hbp, -, -⟩ := h.logged.back hn
    have hbps := h.logged.le_bp x List.mem_cons_self
    unfold step
    cases hm : s.mode with
    | run => exact absurd hm h.mode
    | noMatch =>
      dsimp only
      unfold noMatchStep Events.withPoll
      rw [if_neg (by omega), hback]
      dsimp only
      split_ifs <;> simp
    | negative =>
      dsimp only
      unfold negativeStep
      rw [hback]
      dsimp only
      split_ifs <;> simp

/-! ### Runs -/

theorem Pending.suffix {P : Config → Prop} {ys : List Choice} (h : Pending P code xs)
    (hys : ys <:+ xs) : Pending P code ys := by
  induction xs with
  | nil => rwa [List.suffix_nil.1 hys]
  | cons x xs ih =>
    rcases List.suffix_cons_iff.1 hys with rfl | hys
    · exact h
    · exact ih h.2.2 hys

theorem Stands.goesBack {P : Config → Prop} (h : Stands P n code xs s) (hm : s.mode ≠ .run) :
    GoesBack n xs s := ⟨hm, h.logged, h.negative⟩

section Runs

variable {prog : Program} {str : Subject} {capture : List ℕ}

/-- The slots are few. -/
theorem Program.allocCount_lt (prog : Program) : lreGetAllocCount prog.code < 2 ^ 30 := by
  obtain ⟨cc, rc, top, h⟩ := jsParseRegexp_tree prog.compiled
  have h1 := h.cc_le
  have h2 := h.rc_le
  rw [h.allocCount]
  unfold captureCountMax at h1
  unfold registerCountMax at h2
  omega

theorem Stands.ne_abort (hlen : capture.length = lreGetAllocCount prog.code)
    (h : Stands (Path str.buf prog.code capture) str.buf.length prog.code xs s) (e : Events) :
    step str.buf prog.code e s ≠ .abort := by
  by_cases hm : s.mode = .run
  · obtain ⟨c, hc, ha, hl⟩ := h.run hm
    have hlog := h.logged
    rw [ha.eq] at hlog ⊢
    exact step_ne_abort str.short (prog.path_good str hlen hc).sound hl hlog
  · exact (h.goesBack hm).ne_abort str.short

/-- A step goes on along a path, or goes back to where one branched off. -/
theorem Stands.step (hlen : capture.length = lreGetAllocCount prog.code)
    (h : Stands (Path str.buf prog.code capture) str.buf.length prog.code xs s)
    (hstep : step str.buf prog.code e s = .next s') :
    ∃ xs', Stands (Path str.buf prog.code capture) str.buf.length prog.code xs' s'
      ∧ track s s' (xs.map Choice.pushed) = xs'.map Choice.pushed := by
  by_cases hm : s.mode = .run
  · obtain ⟨c, hc, ha, hl⟩ := h.run hm
    have hlog := h.logged
    rw [ha.eq] at hlog hstep ⊢
    obtain ⟨xs', hran, hlog', htrack⟩ := step_comes str.short prog.allocCount_lt
      (prog.path_good str hlen hc).sound hl hlog hstep
    refine ⟨xs', ?_, htrack⟩
    have running {c' : Config} (hc' : c' ∈ succs str.buf prog.code c) (ha' : c'.At s')
        (hl' : c'.looks = looksOf xs')
        (hp : Pending (Path str.buf prog.code capture) prog.code xs') :
        Stands (Path str.buf prog.code capture) str.buf.length prog.code xs' s' := by
      refine ⟨hlog', hp, fun _ => ⟨c', hc.step hc', ha', hl'⟩, fun hm' => ?_⟩
      rw [ha'.eq] at hm'
      cases hm'
    cases hran with
    | fail hm' =>
      refine ⟨hlog', h.pending, fun h => ?_, fun h => ?_⟩ <;>
      · rw [hm'] at h
        cases h
    | negative hm' hl' =>
      refine ⟨hlog', h.pending, fun h => ?_, fun _ => hl'⟩
      rw [hm'] at h
      cases h
    | move hc' ha' hl' => exact running hc' ha' hl' h.pending
    | look hxs _ _ hc' ha' hl' _ _ =>
      refine running hc' ha' hl' (h.pending.suffix ?_)
      rw [hxs]
      exact (List.suffix_cons _ _).trans (List.suffix_append _ _)
    | @push c' d x hc' ha' hl' hx hr hk =>
      refine running hc' ha' hl' ⟨?_, hk, h.pending⟩
      by_cases hxt : x.type = .lookahead
      · refine ⟨c', hc.step hc', ?_, fun h => absurd hxt h⟩
        rw [hx, ha'.eq]
        rfl
      · obtain ⟨hd, hdpc, hdcptr, hdcap, hdl⟩ := hr hxt
        rw [← hx] at hdcptr hdcap
        exact ⟨d, hc.step hd, hdcap, fun _ => ⟨hdpc, hdcptr, hdl⟩⟩
  · have hg := h.goesBack hm
    rcases xs with _ | ⟨x, xs⟩
    · rw [hg.done_nil] at hstep
      cases hstep
    · obtain ⟨hcap, hpc, hcptr, hlog', hbp, hbps, hrun, hneg⟩ :=
        step_back str.short hm h.logged hstep
      obtain ⟨c, hc, hccap, hcr⟩ := h.pending.1
      refine ⟨xs, ⟨hlog', h.pending.2.2, fun hm' => ?_, fun hm' => ?_⟩, ?_⟩
      · obtain ⟨hcpc, hccptr, hcl⟩ := hcr (hrun hm').2
        rw [← hccap] at hcap
        refine ⟨{ c with capture := s'.capture }, hc.cut hcap, ?_, hcl⟩
        obtain ⟨pc, cptr, capture, stack, bp, mode⟩ := s'
        simp only at hm' hpc hcptr
        rw [hm', hpc, hcptr, ← hcpc, ← hccptr]
        rfl
      · obtain ⟨hsm, hne⟩ := hneg hm'
        exact looksOf_negative (hg.negative hsm) hne
      · unfold track
        rw [if_neg (by omega), List.map_cons, List.dropWhile_cons_of_pos (by simpa using hbp)]
        exact hlog'.dropWhile

/-- Every run goes along the paths of the program. -/
theorem Run.stands (hf : Fresh prog.code capture) {pushed : List State}
    (h : Run str prog.code capture s pushed) : ∃ xs, pushed = xs.map Choice.pushed ∧
      Stands (Path str.buf prog.code capture) str.buf.length prog.code xs s := by
  induction h with
  | start cindex hc =>
    refine ⟨[], rfl, rfl, trivial, fun _ => ⟨_, .start cindex hc, rfl, rfl⟩, fun h => by cases h⟩
  | step e _ hstep ih =>
    obtain ⟨xs, rfl, hs⟩ := ih
    obtain ⟨xs', hs', htrack⟩ := hs.step hf.length hstep
    exact ⟨xs', htrack, hs'⟩

end Runs

/-! ### A run -/

/-- The program of `a{2}`. -/
def twice : Program where
  src := ⟨[0x61, 0x7b, 0x32, 0x7d], 0, 4, 0⟩
  code := [0, 0, 1, 1, 14, 6, 0, 0, 0, 6, 13, 245, 255, 255, 255, 19, 0, 27, 0, 2, 0, 0, 0, 1, 97,
    22,
    0, 248, 255, 255, 255, 20, 0, 16]
  compiled := rfl
  short := by decide

/-- The string `b`. -/
def textB : Subject where
  buf := [0x62]
  valid := ⟨[0x62], CodePoints.singleton (by norm_num), rfl⟩
  short := by norm_num

/-- Its register holds no short integer at first. -/
theorem twice_fresh : Fresh twice.code [2 ^ 32 - 1, 2 ^ 32 - 1, 2 ^ 30] := ⟨rfl, by decide⟩

/-- The character does not match after the counter was set. -/
theorem twice_run : Run textB twice.code [2 ^ 32 - 1, 2 ^ 32 - 1, 2 ^ 30]
    ⟨25, 0, [0, 2 ^ 32 - 1, 2], [4, 2 ^ 31, 0, 4294967294, 72, 0, 0], 3, .noMatch⟩
    [⟨15, 0, [2 ^ 32 - 1, 2 ^ 32 - 1, 2 ^ 30], [72, 0, 0], 3, .run⟩] := by
  have h1 : Run textB twice.code [2 ^ 32 - 1, 2 ^ 32 - 1, 2 ^ 30]
      ⟨15, 0, [2 ^ 32 - 1, 2 ^ 32 - 1, 2 ^ 30], [72, 0, 0], 3, .run⟩ _ :=
    (Run.start 0 (Nat.zero_le _)).step ⟨false, false⟩ (by decide +kernel)
  have h2 : Run textB twice.code [2 ^ 32 - 1, 2 ^ 32 - 1, 2 ^ 30]
      ⟨17, 0, [0, 2 ^ 32 - 1, 2 ^ 30], [0, 4294967294, 72, 0, 0], 3, .run⟩ _ :=
    h1.step ⟨false, false⟩ (by decide +kernel)
  have h3 : Run textB twice.code [2 ^ 32 - 1, 2 ^ 32 - 1, 2 ^ 30]
      ⟨23, 0, [0, 2 ^ 32 - 1, 2], [4, 2 ^ 31, 0, 4294967294, 72, 0, 0], 3, .run⟩ _ :=
    h2.step ⟨false, false⟩ (by decide +kernel)
  exact h3.step ⟨false, false⟩ (by decide +kernel)

end Qjs.Regexp
