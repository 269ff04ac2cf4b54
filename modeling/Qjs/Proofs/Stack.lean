import Qjs.Proofs.Alloc
import Qjs.Stack

/-!
# The stack stays above the heap

As long as no frame is resumed with `stack_bottom` above the slots it may still use
(`Event.Covered`), the heap ends below `stack_bottom` and the stack ends above it, in every state
of every run (`Machine.Separated`, `separated_of_coveredRun`). A frame that calls a smaller one is
resumed with the bottom the smaller one left: `deepFrame_overwritten` is a run in which the heap
grows over values that such a frame has pushed.
-/

namespace Qjs

variable {a : Arch}

/-- The heap ends at or below `stack_bottom`, the stack at or above it. -/
def Machine.Separated (m : Machine) : Prop :=
  m.ctx.heapFree ≤ m.ctx.stackBottom ∧ m.ctx.stackBottom ≤ m.ctx.sp

/-- The request of an event is free of the wrap-arounds of `check_free_mem`, and a return resumes
a frame whose slots are all above `stack_bottom`. -/
def Event.Covered (a : Arch) (m : Machine) : Event → Prop
  | .malloc _ size => SizeExact a m.ctx size
  | .stackCheck _ len => LenExact a m.ctx len
  | .callClosure _ tail argc argCount nVars stackSize =>
    ∀ sp frames, callSite a tail argc m = some (sp, frames) →
      LenExact a { m.ctx with sp := sp - 2 * a.jsw }
        (missingArgs argc argCount + 2 + nVars + stackSize)
  | .callC _ tail argc argCount =>
    ∀ sp frames, callSite a tail argc m = some (sp, frames) →
      LenExact a { m.ctx with sp := sp - 2 * a.jsw } (missingArgs argc argCount)
  | .ret _ =>
    match m.frames with
    | _ :: g :: _ => m.ctx.stackBottom ≤ g.limit
    | _ => True
  | _ => True

/-- The states of the runs that start at `m₀` and whose events are all covered. -/
inductive CoveredRun (a : Arch) (m₀ : Machine) : Machine → Prop
  | start : CoveredRun a m₀ m₀
  | next {m m' : Machine} {e : Event} : CoveredRun a m₀ m → e.Covered a m → step a m e = some m' →
      CoveredRun a m₀ m'

/-! ### The frames -/

/-- Every frame lies below the place its return goes back to, which its caller may use. -/
def FramesOk (a : Arch) : List Frame → Prop
  | [] => True
  | [f] => f.limit ≤ f.base ∧ f.base < addrLimit a
  | f :: g :: rest => f.limit ≤ f.base ∧ f.base ≤ f.retSp
    ∧ (f.kind = .cFunction → f.base + 2 * a.jsw ≤ f.retSp)
    ∧ f.retSp ≤ g.base ∧ g.limit ≤ f.retSp ∧ FramesOk a (g :: rest)

/-- The invariant: the allocator's state is valid and the active frame is covered. -/
structure Machine.Inv (a : Arch) (m : Machine) (f : Frame) (rest : List Frame) : Prop where
  frames_eq : m.frames = f :: rest
  valid : m.ctx.Valid a
  bottom_le : m.ctx.stackBottom ≤ f.limit
  limit_le : f.limit ≤ m.ctx.sp
  sp_le : m.ctx.sp ≤ f.base
  frames_ok : FramesOk a (f :: rest)

theorem FramesOk.base_lt : ∀ {f : Frame} {rest : List Frame}, FramesOk a (f :: rest) →
    f.base < addrLimit a
  | _, [], h => h.2
  | _, _ :: _, h => (h.2.1.trans h.2.2.2.1).trans_lt (FramesOk.base_lt h.2.2.2.2.2)

theorem Machine.Inv.separated {m : Machine} {f : Frame} {rest : List Frame} (h : m.Inv a f rest) :
    m.Separated :=
  ⟨h.valid.heapFree_le, h.bottom_le.trans h.limit_le⟩

/-! ### One event -/

section Steps

variable {m m' : Machine} {f : Frame} {rest : List Frame}

/-- A stack pointer between the bottom of the stack and the base of a frame. -/
theorem JSContext.Valid.with_sp {c : JSContext} (h : c.Valid a) {sp : ℤ} (h0 : 0 ≤ sp)
    (h1 : sp < addrLimit a) : ({ c with sp := sp } : JSContext).Valid a :=
  { h with sp_nonneg := h0, sp_lt := h1 }

theorem Machine.Inv.nonneg (h : m.Inv a f rest) : 0 ≤ m.ctx.stackBottom :=
  h.valid.heapFree_nonneg.trans h.valid.heapFree_le

/-- A request that failed keeps the frames covered. -/
theorem Machine.Inv.failed (h : m.Inv a f rest) {c : JSContext} (hc : Failed m.ctx c) :
    Machine.Inv a { m with ctx := c } f rest where
  frames_eq := h.frames_eq
  valid := hc.valid h.valid
  bottom_le := hc.stackBottom_eq ▸ h.bottom_le
  limit_le := hc.sp_eq ▸ h.limit_le
  sp_le := hc.sp_eq ▸ h.sp_le
  frames_ok := h.frames_ok

theorem Machine.Inv.malloc (h : m.Inv a f rest) {rt : Runtime} {size : ℤ}
    (hs : SizeExact a m.ctx size) : Machine.Inv a { m with ctx := (jsMalloc a rt m.ctx size).2 } f rest := by
  rcases hr : jsMalloc a rt m.ctx size with ⟨_ | q, c⟩
  · exact h.failed (jsMalloc_none h.valid hr)
  · obtain ⟨hc, hn, hfree, -⟩ := jsMallocWith_some h.valid hs hr
    have hm := minFreeSize_bounds h.valid
    rw [hc]
    refine ⟨h.frames_eq, { h.valid with heapFree_nonneg := hn, heapFree_le := ?_ }, h.bottom_le,
      h.limit_le, h.sp_le, h.frames_ok⟩
    simp only
    omega

/-- The active frame may move `sp` between its limit and its base. -/
theorem Machine.Inv.move (h : m.Inv a f rest) {sp : ℤ} (h1 : f.limit ≤ sp) (h2 : sp ≤ f.base) :
    Machine.Inv a { m with ctx := { m.ctx with sp := sp } } f rest where
  frames_eq := h.frames_eq
  valid := h.valid.with_sp (h.nonneg.trans (h.bottom_le.trans h1)) (h2.trans_lt h.frames_ok.base_lt)
  bottom_le := h.bottom_le
  limit_le := h1
  sp_le := h2
  frames_ok := h.frames_ok

theorem Machine.Inv.enterHelper (h : m.Inv a f rest) :
    Machine.Inv a { m with frames := ⟨.helper, m.ctx.sp, m.ctx.sp, m.ctx.sp⟩ :: m.frames }
      ⟨.helper, m.ctx.sp, m.ctx.sp, m.ctx.sp⟩ m.frames where
  frames_eq := rfl
  valid := h.valid
  bottom_le := h.separated.2
  limit_le := le_rfl
  sp_le := le_rfl
  frames_ok := by
    rw [h.frames_eq]
    exact ⟨le_rfl, le_rfl, by simp, h.sp_le, h.limit_le, h.frames_ok⟩

/-- The bottom that a check leaves is below what it was asked for. -/
theorem bottom_le_of_check {c c' : JSContext} {rt : Runtime} {len words : ℤ} (h : c.Valid a)
    (hs : LenExact a c len) (hr : jsStackCheck a rt c len = (true, c')) (hw : words ≤ callWords) :
    c'.Valid a ∧ c'.sp = c.sp ∧ c'.stackBottom ≤ c.sp - (len + words) * a.jsw := by
  obtain ⟨hc, hn, hfree⟩ := jsStackCheck_true h hs hr
  have hm := minFreeSize_bounds h
  have hl := hs.1
  have hsp := h.sp_lt
  rw [callWords] at hw
  rw [jsStackSlack] at hc hfree
  have hmul : (len + words) * a.jsw ≤ (len + 16) * a.jsw := by
    gcongr
    omega
  have hmul0 : 0 ≤ (len + 16) * a.jsw := by positivity
  rw [hc]
  refine ⟨⟨hn, ?_, ?_, h.sp_nonneg, h.sp_lt, h.minFreeSize_eq⟩, rfl, ?_⟩ <;> simp only <;> omega

theorem FramesOk.set_limit {l : ℤ} : ∀ {rest : List Frame}, FramesOk a (f :: rest) → l ≤ f.base →
    FramesOk a ({ f with limit := l } :: rest)
  | [], h, hl => ⟨hl, h.2⟩
  | _ :: _, h, hl => ⟨hl, h.2⟩

theorem Machine.Inv.stackCheck (h : m.Inv a f rest) {rt : Runtime} {len : ℕ} {c : JSContext}
    (hs : LenExact a m.ctx len) (hr : jsStackCheck a rt m.ctx len = (true, c)) :
    Machine.Inv a ⟨c, { f with limit := c.sp - (len + callWords) * a.jsw } :: rest⟩
      { f with limit := c.sp - (len + callWords) * a.jsw } rest := by
  obtain ⟨hv, hsp, hb⟩ := bottom_le_of_check h.valid hs hr le_rfl
  have hmul : 0 ≤ (len + callWords) * (a.jsw : ℤ) := by
    rw [callWords]
    positivity
  have hle := h.sp_le
  have hl : c.sp - (len + callWords) * a.jsw ≤ c.sp := by omega
  exact ⟨rfl, hv, hsp ▸ hb, hl, hsp ▸ hle, h.frames_ok.set_limit (hl.trans (hsp ▸ hle))⟩

/-- Where a call is made: below, the flags and the saved frame pointer are still covered. -/
theorem Machine.Inv.callSite (h : m.Inv a f rest) {tail : Bool} {argc : ℕ} {sp : ℤ}
    {frames : List Frame} (hc : Qjs.callSite a tail argc m = some (sp, frames)) :
    m.ctx.stackBottom ≤ sp - 2 * a.jsw ∧ ∃ g rest', frames = g :: rest' ∧ FramesOk a (g :: rest')
      ∧ sp + (argc + 2) * a.jsw ≤ g.base ∧ g.limit ≤ sp + (argc + 2) * a.jsw := by
  have hb := h.bottom_le
  have hl := h.limit_le
  have hn : 0 ≤ ((argc : ℤ) + 2) * a.jsw := by positivity
  simp only [Qjs.callSite, h.frames_eq] at hc
  split_ifs at hc with h1 h2 h3 h4
  · obtain ⟨hsp, hfr⟩ := Prod.mk.inj (Option.some.inj hc)
    obtain ⟨g, rest', rfl⟩ := List.exists_cons_of_ne_nil h3.2
    have hok := h.frames_ok
    have hret := hok.2.2.1 h3.1
    refine ⟨by omega, g, rest', hfr.symm, hok.2.2.2.2.2, ?_, ?_⟩
    · have := hok.2.2.2.1
      omega
    · have := hok.2.2.2.2.1
      omega
  · obtain ⟨hsp, hfr⟩ := Prod.mk.inj (Option.some.inj hc)
    exact ⟨by omega, f, rest, hfr.symm, h.frames_ok, by omega, by omega⟩

theorem Machine.Inv.enterFrame (h : m.Inv a f rest) {rt : Runtime} {tail : Bool} {argc : ℕ}
    {kind : FrameKind} {words : ℤ} {declared : ℕ} (hw : 0 ≤ words)
    (hs : ∀ sp frames, Qjs.callSite a tail argc m = some (sp, frames) →
      LenExact a { m.ctx with sp := sp - 2 * a.jsw } (words + declared))
    (hstep : Qjs.enterFrame a rt tail argc kind words declared m = some m') :
    ∃ f' rest', m'.Inv a f' rest' := by
  rcases hsite : Qjs.callSite a tail argc m with _ | ⟨sp, frames⟩
  · simp only [Qjs.enterFrame, hsite] at hstep
    cases hstep
  obtain ⟨hb, g, rest', rfl, hok, hbase, hlim⟩ := h.callSite hsite
  have hj : (0 : ℤ) ≤ a.jsw := by positivity
  have hn : 0 ≤ ((argc : ℤ) + 2) * a.jsw := by positivity
  have hwj : 0 ≤ words * a.jsw := by positivity
  have hv : ({ m.ctx with sp := sp - 2 * a.jsw } : JSContext).Valid a :=
    h.valid.with_sp (h.nonneg.trans hb) (by have := hok.base_lt; omega)
  simp only [Qjs.enterFrame, hsite] at hstep
  split at hstep
  · next c hr =>
    have hf := jsStackCheck_false hv hr
    obtain rfl := (Option.some.inj hstep).symm
    exact ⟨f, rest, h.frames_eq, (hf.valid hv).with_sp h.valid.sp_nonneg h.valid.sp_lt,
      hf.stackBottom_eq ▸ h.bottom_le, h.limit_le, h.sp_le, h.frames_ok⟩
  · next c hr =>
    obtain ⟨hv', -, hbot⟩ := bottom_le_of_check hv (hs _ _ hsite) hr le_rfl
    obtain rfl := (Option.some.inj hstep).symm
    have hd : 0 ≤ (declared + callWords) * (a.jsw : ℤ) := by
      rw [callWords]
      positivity
    have hsum : (words + declared + callWords) * (a.jsw : ℤ)
        = words * a.jsw + (declared + callWords) * a.jsw := by ring
    simp only at hbot
    refine ⟨_, _, rfl, hv'.with_sp ?_ ?_, ?_, ?_, le_rfl, ?_⟩
    · have := hv'.heapFree_nonneg
      have := hv'.heapFree_le
      omega
    · have := hok.base_lt
      omega
    · split_ifs <;> simp only <;> omega
    · split_ifs <;> simp only <;> omega
    · refine ⟨?_, ?_, ?_, hbase, hlim, hok⟩
      · split_ifs <;> simp only <;> omega
      · simp only
        omega
      · simp only
        omega

/-- What a covered event keeps. -/
theorem Machine.Inv.step (h : m.Inv a f rest) {e : Event} (hcov : e.Covered a m)
    (hstep : Qjs.step a m e = some m') : ∃ f' rest', m'.Inv a f' rest' := by
  obtain ⟨c, frames⟩ := m
  obtain rfl : frames = f :: rest := h.frames_eq
  cases e with
  | malloc rt size =>
    obtain rfl := (Option.some.inj hstep).symm
    exact ⟨f, rest, h.malloc hcov⟩
  | push n =>
    simp only [Qjs.step] at hstep
    split_ifs at hstep with hl
    obtain rfl := (Option.some.inj hstep).symm
    have hn : 0 ≤ (n : ℤ) * a.jsw := by positivity
    have hle : c.sp ≤ f.base := h.sp_le
    exact ⟨f, rest, h.move hl (by omega)⟩
  | pop n =>
    simp only [Qjs.step] at hstep
    split_ifs at hstep with hl
    obtain rfl := (Option.some.inj hstep).symm
    have hn : 0 ≤ (n : ℤ) * a.jsw := by positivity
    have hle : f.limit ≤ c.sp := h.limit_le
    exact ⟨f, rest, h.move (by omega) hl⟩
  | enterHelper =>
    obtain rfl := (Option.some.inj hstep).symm
    exact ⟨_, _, h.enterHelper⟩
  | stackCheck rt len =>
    simp only [Qjs.step] at hstep
    split_ifs at hstep with hk
    split at hstep
    · next c hr =>
      obtain rfl := (Option.some.inj hstep).symm
      exact ⟨f, rest, h.failed (jsStackCheck_false h.valid hr)⟩
    · next c hr =>
      obtain rfl := (Option.some.inj hstep).symm
      exact ⟨_, _, h.stackCheck hcov hr⟩
  | callClosure rt tail argc argCount nVars stackSize =>
    exact h.enterFrame (by rw [missingArgs]; positivity) hcov hstep
  | callC rt tail argc argCount =>
    refine h.enterFrame (by rw [missingArgs]; positivity) (fun sp frames hsite => ?_) hstep
    have := hcov sp frames hsite
    simpa using this
  | ret pushVal =>
    cases rest with
    | nil =>
      simp only [Qjs.step] at hstep
      cases hstep
    | cons g rest =>
      have hok := h.frames_ok
      have hbot : c.stackBottom ≤ g.limit := hcov
      have hret := hok.2.2.2.1
      have hj : (0 : ℤ) ≤ a.jsw := by positivity
      simp only [Qjs.step] at hstep
      split_ifs at hstep with hp hl hl <;> obtain rfl := (Option.some.inj hstep).symm
      · exact ⟨g, rest, rfl, h.valid.with_sp (h.nonneg.trans (hbot.trans hl))
          (by have := hok.2.2.2.2.2.base_lt; omega), hbot, hl, by simp only; omega, hok.2.2.2.2.2⟩
      · exact ⟨g, rest, rfl, h.valid.with_sp (h.nonneg.trans (hbot.trans hl))
          (by have := hok.2.2.2.2.2.base_lt; omega), hbot, hl, by simp only; omega, hok.2.2.2.2.2⟩

end Steps

/-! ### Whole runs -/

theorem Machine.Inv.init {heapBase stackTop : ℤ} (h0 : 0 ≤ heapBase) (h1 : heapBase ≤ stackTop)
    (h2 : stackTop < addrLimit a) :
    (Machine.init heapBase stackTop).Inv a ⟨.helper, stackTop, stackTop, stackTop⟩ [] where
  frames_eq := rfl
  valid := ⟨h0, h1, h2, h0.trans h1, h2, rfl⟩
  bottom_le := le_rfl
  limit_le := le_rfl
  sp_le := le_rfl
  frames_ok := ⟨le_rfl, h2⟩

theorem CoveredRun.inv {m₀ m : Machine} {f : Frame} {rest : List Frame} (h₀ : m₀.Inv a f rest)
    (h : CoveredRun a m₀ m) : ∃ f' rest', m.Inv a f' rest' := by
  induction h with
  | start => exact ⟨f, rest, h₀⟩
  | next _ hcov hstep ih =>
    obtain ⟨f', rest', hinv⟩ := ih
    exact hinv.step hcov hstep

/-- In every run from a new context whose events are covered, the heap stays below the stack in
every state reached. -/
theorem separated_of_coveredRun {heapBase stackTop : ℤ} {m : Machine} (h0 : 0 ≤ heapBase)
    (h1 : heapBase ≤ stackTop) (h2 : stackTop < addrLimit a)
    (h : CoveredRun a (Machine.init heapBase stackTop) m) : m.Separated := by
  obtain ⟨f, rest, hinv⟩ := h.inv (Machine.Inv.init h0 h1 h2)
  exact hinv.separated

/-- The host calls a C function. -/
theorem separated_of_coveredRun_callC :
    CoveredRun .jsw8 (Machine.init 4096 10000)
      ⟨⟨4096, 9840, 9992, 512, false⟩, [⟨.helper, 9960, 10000, 10000⟩]⟩
    ∧ Machine.Separated ⟨⟨4096, 9840, 9992, 512, false⟩, [⟨.helper, 9960, 10000, 10000⟩]⟩ := by
  have h1 : CoveredRun .jsw8 (Machine.init 4096 10000)
      ⟨⟨4096, 9856, 10000, 512, false⟩, [⟨.helper, 9960, 10000, 10000⟩]⟩ :=
    .next (e := .stackCheck fullRuntime 2) .start ⟨by decide, by decide, fun h => by cases h⟩
      (by decide)
  have h2 : CoveredRun .jsw8 (Machine.init 4096 10000)
      ⟨⟨4096, 9856, 9984, 512, false⟩, [⟨.helper, 9960, 10000, 10000⟩]⟩ :=
    .next (e := .push 2) h1 trivial (by decide)
  have h3 : CoveredRun .jsw8 (Machine.init 4096 10000)
      ⟨⟨4096, 9840, 9968, 512, false⟩,
        [⟨.cFunction, 9968, 9968, 10000⟩, ⟨.helper, 9960, 10000, 10000⟩]⟩ := by
    refine .next (e := .callC fullRuntime false 0 0) h2 ?_ (by decide)
    intro sp frames hsite
    cases hsite
    exact ⟨by decide, by decide, fun h => by cases h⟩
  have h4 : CoveredRun .jsw8 (Machine.init 4096 10000)
      ⟨⟨4096, 9840, 9992, 512, false⟩, [⟨.helper, 9960, 10000, 10000⟩]⟩ := by
    refine .next (e := .ret true) h3 ?_ (by decide)
    change (9840 : ℤ) ≤ 9960
    decide
  exact ⟨h4, separated_of_coveredRun (by decide) (by decide) (by decide) h4⟩

/-- A closure that declares 300 values calls a C function that declares none while it has pushed
only that function and `this`, then pushes 250 values, and a block is allocated. -/
def deepFrameEvents : List Event :=
  [.stackCheck fullRuntime 2, .push 2, .callClosure fullRuntime false 0 0 0 300, .push 2,
    .callC fullRuntime false 0 0, .ret true, .push 250, .malloc fullRuntime 4500]

/-- The heap ends above the last 82 values of the closure. -/
theorem deepFrame_overwritten :
    run .jsw8 (Machine.init 4096 10000) deepFrameEvents
      = some ⟨⟨8600, 9792, 7944, 512, false⟩,
        [⟨.closure, 7528, 9952, 10000⟩, ⟨.helper, 9960, 10000, 10000⟩]⟩
    ∧ ¬Machine.Separated ⟨⟨8600, 9792, 7944, 512, false⟩,
        [⟨.closure, 7528, 9952, 10000⟩, ⟨.helper, 9960, 10000, 10000⟩]⟩ := by
  refine ⟨by decide, ?_⟩
  intro h
  exact absurd h.2 (by decide)

end Qjs
