import Qjs.Call

/-!
# Exceptions in calls

The stack of `JS_Call` is a list of frames on top of what its caller had there (`layout`), at every
step of a run (`reachable_ok`). Where an instruction or a C function reports an exception, the step
goes to the first catch offset of these frames or gives back the caller's stack and frame
(`Handled`), except that a failed conversion of the argument of an `f_f` function is overwritten by
a number (`report_handled_iff`).
-/

namespace Qjs

namespace Call

variable {W X D : Type} {E : Engine W X D}

/-! ### Words of a stack -/

theorem word_append (l r : List (Word X)) (w : Word X) {h : ℕ} (hh : h = r.length + 1) :
    word E (l ++ w :: r) h = w := by
  have hidx : (l ++ w :: r).length - h = l.length := by
    simp only [List.length_append, List.length_cons]
    omega
  rw [word, hidx, List.getD_append_right _ _ _ _ le_rfl, Nat.sub_self, List.getD_cons_zero]

theorem dropTo_append (l r : List (Word X)) {h : ℕ} (hh : h = r.length) : dropTo (l ++ r) h = r := by
  rw [dropTo, show (l ++ r).length - h = l.length by rw [List.length_append]; omega,
    List.drop_left]

theorem take_append_height (l r : List (Word X)) {h : ℕ} (hh : h = r.length) :
    (l ++ r).take ((l ++ r).length - h) = l := by
  rw [show (l ++ r).length - h = l.length by rw [List.length_append]; omega, List.take_left]

theorem setWord_append (l r : List (Word X)) (w v : Word X) {h : ℕ} (hh : h = r.length + 1) :
    setWord (l ++ w :: r) h v = l ++ v :: r := by
  have hidx : (l ++ w :: r).length - h = l.length := by
    simp only [List.length_append, List.length_cons]
    omega
  rw [setWord, hidx, List.set_append_right _ _ le_rfl, Nat.sub_self, List.set_cons_zero]

/-- The words of a frame that a call has pushed, wherever they are. -/
theorem header_words (pre r : List (Word X)) (sfp : ℕ) (fl : CallFlags) (th fn : X) {fp : ℕ}
    (hfp : fp = r.length + 4) {stack : List (Word X)}
    (hs : stack = pre ++ .sp sfp :: .callFlags fl :: .val th :: .val fn :: r) :
    savedFp E stack fp = sfp ∧ frameFlags E stack fp = fl ∧ frameThis E stack fp = th
      ∧ frameFunc E stack fp = fn := by
  have h0 : word E stack fp = .sp sfp := by
    rw [hs]
    exact word_append pre _ _ (by simp [hfp])
  have h1 : word E stack (fp - 1) = .callFlags fl := by
    rw [hs, show pre ++ .sp sfp :: .callFlags fl :: .val th :: .val fn :: r
      = (pre ++ [.sp sfp]) ++ .callFlags fl :: .val th :: .val fn :: r by simp]
    exact word_append _ _ _ (by simp [hfp])
  have h2 : word E stack (fp - 2) = .val th := by
    rw [hs, show pre ++ .sp sfp :: .callFlags fl :: .val th :: .val fn :: r
      = (pre ++ [.sp sfp, .callFlags fl]) ++ .val th :: .val fn :: r by simp]
    exact word_append _ _ _ (by simp [hfp])
  have h3 : word E stack (fp - 3) = .val fn := by
    rw [hs, show pre ++ .sp sfp :: .callFlags fl :: .val th :: .val fn :: r
      = (pre ++ [.sp sfp, .callFlags fl, .val th]) ++ .val fn :: r by simp]
    exact word_append _ _ _ (by simp [hfp])
  simp only [savedFp, frameFlags, frameThis, frameFunc, h0, h1, h2, h3, valueOf, and_self]

/-! ### Frames -/

/-- A frame of a closure, with its words in the order of the stack. -/
structure Frame (X : Type) where
  operands : List (Word X)
  vars : List (Word X)
  varRef : X
  curPc : ℕ
  flags : CallFlags
  this : X
  func : X
  args : List X

/-- The words that a call has pushed. -/
def Frame.header (f : Frame X) (fp : ℕ) (rest : List (Word X)) : List (Word X) :=
  .sp fp :: .callFlags f.flags :: .val f.this :: .val f.func :: (f.args.map .val ++ rest)

/-- What is below the operands. -/
def Frame.locals (f : Frame X) (fp : ℕ) (rest : List (Word X)) : List (Word X) :=
  f.vars ++ .val f.varRef :: .pc f.curPc :: f.header fp rest

/-- The stack with the frames on it, and the frame pointer. -/
def layout (initialFp : ℕ) (base : List (Word X)) : List (Frame X) → List (Word X) × ℕ
  | [] => (base, initialFp)
  | f :: fs =>
    let (rest, fp) := layout initialFp base fs
    (f.operands ++ f.locals fp rest, (f.header fp rest).length)

def FrameOk (E : Engine W X D) (f : Frame X) : Prop :=
  ∃ b, E.callee f.func = .closure b ∧ f.vars.length = b.nVars
    ∧ f.args.length = max f.flags.argc b.argCount

section Layout

variable {initialFp : ℕ} {base : List (Word X)}

theorem layout_cons (f : Frame X) (fs : List (Frame X)) :
    layout initialFp base (f :: fs)
      = (f.operands ++ f.locals (layout initialFp base fs).2 (layout initialFp base fs).1,
        (f.header (layout initialFp base fs).2 (layout initialFp base fs).1).length) := rfl

theorem Frame.header_length (f : Frame X) (fp : ℕ) (rest : List (Word X)) :
    (f.header fp rest).length = rest.length + f.args.length + 4 := by
  simp only [Frame.header, List.length_cons, List.length_append, List.length_map]
  omega

theorem Frame.locals_length (f : Frame X) (fp : ℕ) (rest : List (Word X)) :
    (f.locals fp rest).length = (f.header fp rest).length + 2 + f.vars.length := by
  simp only [Frame.locals, List.length_append, List.length_cons]
  omega

variable (initialFp base) in
theorem base_length_le (fs : List (Frame X)) :
    base.length ≤ (layout initialFp base fs).1.length := by
  induction fs with
  | nil => exact le_rfl
  | cons f fs ih =>
    rw [layout_cons, List.length_append, f.locals_length, f.header_length]
    omega

/-- A frame of this call is not that of its caller. -/
theorem layout_fp_ne (h : initialFp ≤ base.length) (f : Frame X) (fs : List (Frame X)) :
    (layout initialFp base (f :: fs)).2 ≠ initialFp := by
  have := base_length_le initialFp base fs
  rw [layout_cons]
  simp only [f.header_length]
  omega

/-- What is read from the last frame, below its operands. -/
structure Fields (E : Engine W X D) (stack : List (Word X)) (fp : ℕ) (f : Frame X) (fp' : ℕ)
    (rest : List (Word X)) : Prop where
  savedFp_eq : savedFp E stack fp = fp'
  flags_eq : frameFlags E stack fp = f.flags
  this_eq : frameThis E stack fp = f.this
  func_eq : frameFunc E stack fp = f.func
  curPc_eq : frameCurPc E stack fp = f.curPc
  varRef_eq : frameFirstVarRef E stack fp = f.varRef
  return_eq : dropTo stack (fp - 4 - f.args.length) = rest

theorem fields (E : Engine W X D) (ops : List (Word X)) (f : Frame X) (fp' : ℕ)
    (rest : List (Word X)) :
    Fields E (ops ++ f.locals fp' rest) (f.header fp' rest).length f fp' rest := by
  obtain ⟨h0, h1, h2, h3⟩ := header_words (E := E)
    (ops ++ (f.vars ++ [.val f.varRef, .pc f.curPc])) (f.args.map .val ++ rest) fp' f.flags f.this
    f.func (show (f.header fp' rest).length = _ by rfl)
    (show ops ++ f.locals fp' rest = _ by simp [Frame.locals, Frame.header])
  have hpc : word E (ops ++ f.locals fp' rest) ((f.header fp' rest).length + 1) = .pc f.curPc := by
    rw [show ops ++ f.locals fp' rest
      = (ops ++ (f.vars ++ [.val f.varRef])) ++ .pc f.curPc :: f.header fp' rest by
        simp [Frame.locals]]
    exact word_append _ _ _ rfl
  have hvr : word E (ops ++ f.locals fp' rest) ((f.header fp' rest).length + 2)
      = .val f.varRef := by
    rw [show ops ++ f.locals fp' rest
      = (ops ++ f.vars) ++ .val f.varRef :: .pc f.curPc :: f.header fp' rest by
        simp [Frame.locals]]
    exact word_append _ _ _ rfl
  refine ⟨h0, h1, h2, h3, by rw [frameCurPc, hpc], by rw [frameFirstVarRef, hvr]; rfl, ?_⟩
  rw [show ops ++ f.locals fp' rest = (ops ++ (f.vars ++ [.val f.varRef, .pc f.curPc, .sp fp',
    .callFlags f.flags, .val f.this, .val f.func] ++ f.args.map .val)) ++ rest by
      simp [Frame.locals, Frame.header]]
  exact dropTo_append _ _ (by rw [f.header_length]; omega)

theorem FrameOk.info {f : Frame X} (h : FrameOk E f) (ops : List (Word X)) (fp' : ℕ)
    (rest : List (Word X)) :
    operandBase E (ops ++ f.locals fp' rest) (f.header fp' rest).length = (f.locals fp' rest).length
      ∧ max (frameFlags E (ops ++ f.locals fp' rest) (f.header fp' rest).length).argc
          (frameInfo E (ops ++ f.locals fp' rest) (f.header fp' rest).length).argCount
        = f.args.length := by
  obtain ⟨b, hb, hvars, hargs⟩ := h
  have hf := fields E ops f fp' rest
  have hinfo : frameInfo E (ops ++ f.locals fp' rest) (f.header fp' rest).length = b := by
    rw [frameInfo, hf.func_eq, hb]
  rw [operandBase, hinfo, f.locals_length, hvars, hf.flags_eq, hargs]
  exact ⟨rfl, rfl⟩

/-! ### Handlers -/

/-- Where an exception is caught: the first frame with a catch offset. -/
def handle (exc : X) : List (Frame X) → Option (ℕ × List (Frame X))
  | [] => none
  | f :: fs =>
    match findCatch f.operands with
    | some (pos, below) => some (pos, { f with operands := .val exc :: below } :: fs)
    | none => handle exc fs

/-- An exception was dealt with: control is at the handler, or the call has ended with the stack and
the frame of its caller. -/
def Handled (initialFp : ℕ) (base : List (Word X)) (ctx : Ctx W X) (fs : List (Frame X))
    (t : State W X) : Prop :=
  match if ctx.uncatchable then none else handle ctx.currentException fs with
  | some (pos, fs') =>
    t.phase = .run ∧ t.pc = some pos ∧ (t.stack, t.fp) = layout initialFp base fs'
  | none => t.phase = .done none ∧ (t.stack, t.fp) = (base, initialFp)

theorem unwind_handled (hfp : initialFp ≤ base.length) : ∀ {fs : List (Frame X)} {fuel : ℕ}
    (ctx : Ctx W X), fs ≠ [] → (∀ f ∈ fs, FrameOk E f) → fs.length ≤ fuel →
    Handled initialFp base ctx fs
      (unwind E initialFp fuel ctx (layout initialFp base fs).1 (layout initialFp base fs).2)
  | [], _, _, hne, _, _ => absurd rfl hne
  | f :: fs, 0, _, _, _, hf => by simp at hf
  | f :: fs, fuel + 1, ctx, _, hok, hf => by
    obtain ⟨hbase, hargc⟩ := (hok f List.mem_cons_self).info f.operands (layout initialFp base fs).2
      (layout initialFp base fs).1
    have hfld := fields E f.operands f (layout initialFp base fs).2 (layout initialFp base fs).1
    have htake : (f.operands ++ f.locals (layout initialFp base fs).2 (layout initialFp base fs).1).take
        ((f.operands ++ f.locals (layout initialFp base fs).2 (layout initialFp base fs).1).length
          - (f.locals (layout initialFp base fs).2 (layout initialFp base fs).1).length)
        = f.operands := take_append_height _ _ rfl
    rw [layout_cons, unwind]
    simp only [hbase, htake, hargc, hfld.savedFp_eq, hfld.return_eq, hfld.varRef_eq]
    -- the frame has a handler, or the frames below are asked
    have hnone : ∀ ctx' : Ctx W X, ctx'.uncatchable = ctx.uncatchable →
        ctx'.currentException = ctx.currentException →
        (if ctx.uncatchable then none else findCatch f.operands) = none →
        Handled initialFp base ctx (f :: fs)
          (if (layout initialFp base fs).2 = initialFp then
            ⟨ctx', (layout initialFp base fs).1, (layout initialFp base fs).2, some 0, .done none⟩
          else unwind E initialFp fuel ctx' (layout initialFp base fs).1
            (layout initialFp base fs).2) := by
      intro ctx' h1 h2 hn
      have hsame : ∀ t, Handled initialFp base ctx' fs t → Handled initialFp base ctx (f :: fs) t := by
        intro t ht
        unfold Handled at ht ⊢
        rw [h1, h2] at ht
        by_cases hu : ctx.uncatchable
        · simpa [hu] using ht
        · simp only [hu, Bool.false_eq_true, if_false] at hn ht ⊢
          rwa [handle, hn]
      apply hsame
      cases fs with
      | nil =>
        rw [if_pos (show (layout initialFp base []).2 = initialFp from rfl)]
        unfold Handled
        simp [handle, layout]
      | cons g fs =>
        rw [if_neg (layout_fp_ne hfp g fs)]
        exact unwind_handled hfp ctx' (by simp) (fun x hx => hok x (List.mem_cons_of_mem _ hx))
          (by simpa using hf)
    by_cases hu : ctx.uncatchable
    · simp only [hu, if_true]
      exact hnone _ hu.symm rfl (by simp [hu])
    · simp only [hu, Bool.false_eq_true, if_false]
      cases hc : findCatch f.operands with
      | none => exact hnone _ (by simp [hu]) rfl (by simp [hu, hc])
      | some r =>
        obtain ⟨pos, below⟩ := r
        unfold Handled
        simp only [hu, Bool.false_eq_true, if_false, handle, hc]
        refine ⟨trivial, trivial, ?_⟩
        rw [dropTo_append _ _ rfl, layout_cons]
        simp [Frame.locals, Frame.header]

/-! ### States -/

/-- The frames of a state, and for a call what is on the stack above them. -/
inductive StateOk (E : Engine W X D) (initialFp : ℕ) (base : List (Word X)) :
    State W X → List (Frame X) → Prop
  | run {ctx : Ctx W X} {stack : List (Word X)} {fp pc : ℕ} {fs : List (Frame X)} (hne : fs ≠ [])
      (hl : (stack, fp) = layout initialFp base fs) (hok : ∀ f ∈ fs, FrameOk E f) :
      StateOk E initialFp base ⟨ctx, stack, fp, some pc, .run⟩ fs
  | call {ctx : Ctx W X} {pc : Option ℕ} {ctor popRet pcAdd1 : Bool} {this func : X}
      {args : List X} {fs : List (Frame X)} (hpc : pc = none ↔ fs = [])
      (hok : ∀ f ∈ fs, FrameOk E f) :
      StateOk E initialFp base
        ⟨ctx, .val this :: .val func :: (args.map .val ++ (layout initialFp base fs).1),
          (layout initialFp base fs).2, pc, .functionCall ⟨args.length, ctor, popRet, pcAdd1⟩⟩ fs
  | done {ctx : Ctx W X} {stack : List (Word X)} {fp : ℕ} {pc : Option ℕ} {val : Option X} :
      StateOk E initialFp base ⟨ctx, stack, fp, pc, .done val⟩ []

theorem handle_ok {exc : X} : ∀ {fs : List (Frame X)} {pos : ℕ} {fs' : List (Frame X)},
    (∀ f ∈ fs, FrameOk E f) → handle exc fs = some (pos, fs') →
    fs' ≠ [] ∧ ∀ f ∈ fs', FrameOk E f
  | [], _, _, _, h => by cases h
  | f :: fs, pos, fs', hok, h => by
    rw [handle] at h
    cases hc : findCatch f.operands with
    | none =>
      rw [hc] at h
      exact handle_ok (fun g hg => hok g (List.mem_cons_of_mem _ hg)) h
    | some r =>
      rw [hc] at h
      cases h
      refine ⟨by simp, ?_⟩
      intro g hg
      rcases List.mem_cons.1 hg with rfl | hg
      · exact hok f List.mem_cons_self
      · exact hok g (List.mem_cons_of_mem _ hg)

theorem Handled.stateOk {ctx : Ctx W X} {fs : List (Frame X)} {t : State W X}
    (h : Handled initialFp base ctx fs t) (hok : ∀ f ∈ fs, FrameOk E f) :
    ∃ fs', StateOk E initialFp base t fs' := by
  obtain ⟨ctx', stack, fp, pc, phase⟩ := t
  unfold Handled at h
  split at h
  · rename_i pos fs' hh
    obtain ⟨rfl, rfl, hl⟩ := h
    have hhandle : handle ctx.currentException fs = some (pos, fs') := by
      split_ifs at hh
      exact hh
    obtain ⟨hne, hok'⟩ := handle_ok hok hhandle
    exact ⟨fs', .run hne hl hok'⟩
  · obtain ⟨rfl, -⟩ := h
    exact ⟨[], .done⟩

/-- Words above the operands are operands too. -/
theorem layout_push (ops : List (Word X)) (f : Frame X) (fs : List (Frame X)) :
    layout initialFp base ({ f with operands := ops ++ f.operands } :: fs)
      = (ops ++ (layout initialFp base (f :: fs)).1, (layout initialFp base (f :: fs)).2) := by
  simp [layout_cons, Frame.locals, Frame.header]

variable (initialFp base) in
theorem length_le_layout (fs : List (Frame X)) :
    fs.length ≤ (layout initialFp base fs).1.length := by
  induction fs with
  | nil => simp
  | cons f fs ih =>
    rw [layout_cons, List.length_append, f.locals_length, f.header_length, List.length_cons]
    omega

/-- An exception with something above the operands of the last frame. -/
theorem unwind_push (hfp : initialFp ≤ base.length) (ctx : Ctx W X) (ops : List (Word X))
    {f : Frame X} {fs : List (Frame X)} (hok : ∀ g ∈ f :: fs, FrameOk E g) {fuel : ℕ}
    (hfuel : (ops ++ (layout initialFp base (f :: fs)).1).length < fuel) :
    Handled initialFp base ctx ({ f with operands := ops ++ f.operands } :: fs)
      (unwind E initialFp fuel ctx (ops ++ (layout initialFp base (f :: fs)).1)
        (layout initialFp base (f :: fs)).2) := by
  have hlen := length_le_layout initialFp base (f :: fs)
  rw [List.length_append] at hfuel
  rw [List.length_cons] at hlen
  have hok' : ∀ g ∈ { f with operands := ops ++ f.operands } :: fs, FrameOk E g := by
    intro g hg
    rcases List.mem_cons.1 hg with rfl | hg
    · exact hok f List.mem_cons_self
    · exact hok g (List.mem_cons_of_mem _ hg)
  have h := unwind_handled hfp ctx (by simp) hok' (show _ ≤ fuel by rw [List.length_cons]; omega)
  rwa [layout_push] at h

/-! ### Returns -/

/-- Below the frame that ends are the frames `fs`. -/
structure Returns (E : Engine W X D) (initialFp : ℕ) (base : List (Word X)) (s : State W X) (h : ℕ)
    (fs : List (Frame X)) (fl : CallFlags) : Prop where
  savedFp_eq : savedFp E s.stack s.fp = (layout initialFp base fs).2
  flags_eq : frameFlags E s.stack s.fp = fl
  drop_eq : dropTo s.stack h = (layout initialFp base fs).1

variable {s : State W X} {h : ℕ} {fs : List (Frame X)} {fl : CallFlags}

theorem Returns.exception (hr : Returns E initialFp base s h fs fl) (hfp : initialFp ≤ base.length)
    (hok : ∀ f ∈ fs, FrameOk E f) :
    Handled initialFp base s.ctx fs (returnCall E initialFp s h none) := by
  simp only [returnCall, hr.savedFp_eq, hr.drop_eq]
  cases fs with
  | nil =>
    rw [if_pos (show (layout initialFp base []).2 = initialFp from rfl)]
    simp [Handled, handle, layout]
  | cons f fs =>
    rw [if_neg (layout_fp_ne hfp f fs)]
    have := length_le_layout initialFp base (f :: fs)
    exact unwind_handled hfp s.ctx (by simp) hok (by omega)

/-- The value is the answer of the call, or is pushed for the frame below. -/
theorem Returns.value (hr : Returns E initialFp base s h fs fl) (hfp : initialFp ≤ base.length)
    (v : X) :
    (fs = [] ∧ returnCall E initialFp s h (some v) = ⟨s.ctx, base, initialFp, s.pc, .done (some v)⟩)
      ∨ ∃ f fs', fs = f :: fs' ∧ returnCall E initialFp s h (some v)
        = ⟨s.ctx, (if fl.popRet then [] else [.val v]) ++ (layout initialFp base fs).1,
          (layout initialFp base fs).2, some (if fl.pcAdd1 then f.curPc else f.curPc + 2), .run⟩ := by
  simp only [returnCall, hr.savedFp_eq, hr.drop_eq]
  cases fs with
  | nil =>
    rw [if_pos (show (layout initialFp base []).2 = initialFp from rfl)]
    exact .inl ⟨rfl, rfl⟩
  | cons f fs =>
    rw [if_neg (layout_fp_ne hfp f fs)]
    have hcur : frameCurPc E (layout initialFp base (f :: fs)).1
        (layout initialFp base (f :: fs)).2 = f.curPc := (fields E f.operands f _ _).curPc_eq
    refine .inr ⟨f, fs, rfl, ?_⟩
    rw [hcur, hr.flags_eq]
    split_ifs <;> rfl

theorem Returns.stateOk (hr : Returns E initialFp base s h fs fl) (hfp : initialFp ≤ base.length)
    (hok : ∀ f ∈ fs, FrameOk E f) (val : Option X) :
    ∃ fs', StateOk E initialFp base (returnCall E initialFp s h val) fs' := by
  cases val with
  | none => exact (hr.exception hfp hok).stateOk hok
  | some v =>
    rcases hr.value hfp v with ⟨-, he⟩ | ⟨f, fs', rfl, he⟩
    · rw [he]
      exact ⟨[], .done⟩
    · rw [he]
      refine ⟨{ f with operands := (if fl.popRet then [] else [.val v]) ++ f.operands } :: fs',
        .run (by simp) (layout_push _ _ _).symm ?_⟩
      intro g hg
      rcases List.mem_cons.1 hg with rfl | hg
      · exact hok f List.mem_cons_self
      · exact hok g (List.mem_cons_of_mem _ hg)

/-- The stack when a C function has been entered. -/
def cFrame (initialFp : ℕ) (base : List (Word X)) (fs : List (Frame X)) (fl : CallFlags) (th fn : X)
    (args : List X) : List (Word X) :=
  .sp (layout initialFp base fs).2 :: .callFlags fl :: .val th :: .val fn
    :: (args.map .val ++ (layout initialFp base fs).1)

theorem returns_cFrame (fs : List (Frame X)) (fl : CallFlags) (th fn : X) (args : List X)
    (ctx : Ctx W X) (pc : Option ℕ) (ph : Phase X) :
    Returns E initialFp base ⟨ctx, cFrame initialFp base fs fl th fn args,
      (cFrame initialFp base fs fl th fn args).length, pc, ph⟩
      ((cFrame initialFp base fs fl th fn args).length - 4 - args.length) fs fl := by
  have hlen : (cFrame initialFp base fs fl th fn args).length
      = (args.map Word.val ++ (layout initialFp base fs).1).length + 4 := rfl
  obtain ⟨hsaved, hflags, -, -⟩ := header_words (E := E) [] _ _ fl th fn hlen rfl
  refine ⟨hsaved, hflags, ?_⟩
  have hsplit : cFrame initialFp base fs fl th fn args
      = (.sp (layout initialFp base fs).2 :: .callFlags fl :: .val th :: .val fn :: args.map .val)
        ++ (layout initialFp base fs).1 := by
    simp [cFrame]
  rw [hlen, hsplit]
  refine dropTo_append _ _ ?_
  simp only [List.length_append, List.length_map]
  omega

theorem returns_frame (ops : List (Word X)) {f : Frame X} (hf : FrameOk E f) (fs : List (Frame X))
    (ctx : Ctx W X) (pc : Option ℕ) (ph : Phase X) {s : State W X}
    (hs : s = ⟨ctx, ops ++ f.locals (layout initialFp base fs).2 (layout initialFp base fs).1,
      (layout initialFp base (f :: fs)).2, pc, ph⟩) :
    Returns E initialFp base s
      (s.fp - 4 - max (frameFlags E s.stack s.fp).argc (frameInfo E s.stack s.fp).argCount) fs
      f.flags := by
  subst hs
  have hfld := fields E ops f (layout initialFp base fs).2 (layout initialFp base fs).1
  obtain ⟨-, hargc⟩ := hf.info ops (layout initialFp base fs).2 (layout initialFp base fs).1
  refine ⟨hfld.savedFp_eq, hfld.flags_eq, ?_⟩
  rw [layout_cons]
  simp only [hargc]
  exact hfld.return_eq

/-! ### Entering a function -/

/-- The arguments with those that are missing. -/
def pad (E : Engine W X D) (args : List X) (n : ℕ) : List X :=
  args ++ List.replicate (n - args.length) E.undefined

theorem pad_length (args : List X) (n : ℕ) : (pad E args n).length = max args.length n := by
  rw [pad, List.length_append, List.length_replicate]
  omega

theorem padArgs_cFrame (fs : List (Frame X)) (fl : CallFlags) (th fn : X) (args : List X) (n : ℕ) :
    padArgs E (cFrame initialFp base fs fl th fn args) args.length n
      = cFrame initialFp base fs fl th fn (pad E args n) := by
  have hsplit : cFrame initialFp base fs fl th fn args
      = (.sp (layout initialFp base fs).2 :: .callFlags fl :: .val th :: .val fn :: args.map .val)
        ++ (layout initialFp base fs).1 := by
    simp [cFrame]
  have hlen : (.sp (layout initialFp base fs).2 :: .callFlags fl :: .val th :: .val fn
      :: args.map Word.val).length = 4 + args.length := by
    simp only [List.length_cons, List.length_map]
    omega
  unfold padArgs
  split_ifs with hn
  · rw [hsplit, List.take_left' hlen, List.drop_left' hlen]
    simp [cFrame, pad]
  · rw [pad, show n - args.length = 0 by omega]
    simp

variable (E initialFp base) in
/-- What a C function is given. -/
theorem cFrame_args (fs : List (Frame X)) (fl : CallFlags) (th fn : X) (args : List X) :
    frameThis E (cFrame initialFp base fs fl th fn args)
        (cFrame initialFp base fs fl th fn args).length = th
      ∧ frameFunc E (cFrame initialFp base fs fl th fn args)
        (cFrame initialFp base fs fl th fn args).length = fn
      ∧ (((cFrame initialFp base fs fl th fn args).drop 4).take args.length).map (valueOf E)
        = args := by
  have hlen : (cFrame initialFp base fs fl th fn args).length
      = (args.map Word.val ++ (layout initialFp base fs).1).length + 4 := rfl
  obtain ⟨-, -, hthis, hfunc⟩ := header_words (E := E) [] _ _ fl th fn hlen rfl
  refine ⟨hthis, hfunc, ?_⟩
  have hdrop : (cFrame initialFp base fs fl th fn args).drop 4
      = args.map .val ++ (layout initialFp base fs).1 := rfl
  rw [hdrop, List.take_left' (by simp), List.map_map]
  exact List.map_id' _

theorem callException_ok (hfp : initialFp ≤ base.length) (ctx : Ctx W X) (ops : List (Word X))
    (ph : Phase X) {pc : Option ℕ} {fs : List (Frame X)} (hpc : pc = none ↔ fs = [])
    (hok : ∀ f ∈ fs, FrameOk E f) :
    ∃ fs', StateOk E initialFp base (callException E initialFp
      ⟨ctx, ops ++ (layout initialFp base fs).1, (layout initialFp base fs).2, pc, ph⟩) fs' := by
  cases pc with
  | none => exact ⟨[], .done⟩
  | some pc =>
    cases fs with
    | nil => simp at hpc
    | cons f fs =>
      refine (unwind_push hfp ctx ops hok ?_).stateOk ?_
      · exact Nat.lt_succ_self _
      · intro g hg
        rcases List.mem_cons.1 hg with rfl | hg
        · exact hok f List.mem_cons_self
        · exact hok g (List.mem_cons_of_mem _ hg)

/-- The state in which a function is called. -/
def callState (initialFp : ℕ) (base : List (Word X)) (ctx : Ctx W X) (pc : Option ℕ)
    (fl : CallFlags) (th fn : X) (args : List X) (fs : List (Frame X)) : State W X :=
  ⟨ctx, .val th :: .val fn :: (args.map .val ++ (layout initialFp base fs).1),
    (layout initialFp base fs).2, pc, .functionCall fl⟩

/-- The call of a C function, up to its answer. -/
theorem callCFunction_eq (ctx : Ctx W X) (pc : Option ℕ) (fl : CallFlags) (th fn : X)
    (args : List X) (hargc : fl.argc = args.length) (fs : List (Frame X)) (idx : ℕ)
    (params : Option X) :
    callCFunction E initialFp (callState initialFp base ctx pc fl th fn args fs) fl idx params
      = if fl.ctor && !(E.table idx).isConstructor then
          callException E initialFp
            (callState initialFp base (E.throwTypeError ctx "not a constructor") pc fl th fn args fs)
        else if (E.stackCheck ctx ((E.table idx).argCount - args.length)).2 then
          callException E initialFp (callState initialFp base
            (E.stackCheck ctx ((E.table idx).argCount - args.length)).1 pc fl th fn args fs)
        else
          let as := pad E args (E.table idx).argCount
          let r := callBody E (E.table idx) idx params
            (E.stackCheck ctx ((E.table idx).argCount - args.length)).1 th
            { fl with popRet := false, pcAdd1 := false } as
          afterBody E initialFp ⟨r.1, cFrame initialFp base fs fl th fn as,
            (cFrame initialFp base fs fl th fn as).length, pc, .functionCall fl⟩ as.length r.2 := by
  have hheader : .sp (layout initialFp base fs).2 :: .callFlags fl :: .val th :: .val fn
      :: (args.map .val ++ (layout initialFp base fs).1) = cFrame initialFp base fs fl th fn args := rfl
  obtain ⟨hthis, -, hargs⟩ :=
    cFrame_args E initialFp base fs fl th fn (pad E args (E.table idx).argCount)
  unfold callCFunction callState
  simp only [hheader, hargc, padArgs_cFrame, ← pad_length (E := E), hthis, hargs]

theorem afterBody_ok (hfp : initialFp ≤ base.length) {fs : List (Frame X)}
    (hok : ∀ f ∈ fs, FrameOk E f) (ctx : Ctx W X) {pc : Option ℕ} (hpc : pc = none ↔ fs = [])
    (ph : Phase X) (fl : CallFlags) (th fn : X) (args : List X) (r : CResult X) :
    ∃ fs', StateOk E initialFp base (afterBody E initialFp
      ⟨ctx, cFrame initialFp base fs fl th fn args, (cFrame initialFp base fs fl th fn args).length,
        pc, ph⟩ args.length r) fs' := by
  have hr : Returns E initialFp base _ _ fs fl := returns_cFrame fs fl th fn args ctx pc ph
  cases r with
  | val v => exact hr.stateOk hfp hok (some v)
  | exception => exact hr.stateOk hfp hok none
  | tailCall ctor popRet pcAdd1 this func as =>
    have hdrop := hr.drop_eq
    have hsaved := hr.savedFp_eq
    simp only at hdrop hsaved
    simp only [afterBody, hdrop, hsaved]
    exact ⟨fs, .call hpc hok⟩

theorem callClosure_ok (hfp : initialFp ≤ base.length) {fs : List (Frame X)}
    (hok : ∀ f ∈ fs, FrameOk E f) (ctx : Ctx W X) {pc : Option ℕ} (hpc : pc = none ↔ fs = [])
    (fl : CallFlags) (th fn : X) (args : List X) (hargc : fl.argc = args.length) {b : FuncInfo}
    (hb : E.callee fn = .closure b) :
    ∃ fs', StateOk E initialFp base (callClosure E initialFp
      (callState initialFp base ctx pc fl th fn args fs) fl b) fs' := by
  have hheader : .sp (layout initialFp base fs).2 :: .callFlags fl :: .val th :: .val fn
      :: (args.map .val ++ (layout initialFp base fs).1) = cFrame initialFp base fs fl th fn args := rfl
  have hset : ∀ this, (cFrame initialFp base fs fl th fn args).set 2 (.val this)
      = cFrame initialFp base fs fl this fn args := fun _ => rfl
  have hops : ∀ this, cFrame initialFp base fs fl this fn args
      = (.sp (layout initialFp base fs).2 :: .callFlags fl :: .val this :: .val fn :: args.map .val)
        ++ (layout initialFp base fs).1 := by
    intro this
    simp [cFrame]
  unfold callClosure callState
  simp only [hheader]
  generalize (if fl.ctor then E.callConstructorStart ctx
    (frameFunc E (cFrame initialFp base fs fl th fn args)
      (cFrame initialFp base fs fl th fn args).length)
    else (ctx, some (frameThis E (cFrame initialFp base fs fl th fn args)
      (cFrame initialFp base fs fl th fn args).length))) = r
  obtain ⟨ctx', this⟩ := r
  cases this with
  | none =>
    simp only [hops]
    exact callException_ok hfp ctx' _ _ hpc hok
  | some this =>
    simp only [hset]
    split_ifs
    · simp only [hops]
      exact callException_ok hfp _ _ _ hpc hok
    · rw [hargc, padArgs_cFrame]
      refine ⟨⟨[], List.replicate b.nVars (.val E.undefined), E.null, 0, fl, this, fn,
        pad E args b.argCount⟩ :: fs, .run (by simp) rfl ?_⟩
      intro f hf
      rcases List.mem_cons.1 hf with rfl | hf
      · exact ⟨b, hb, by simp, by rw [pad_length, hargc]⟩
      · exact hok f hf

theorem functionCall_ok (hfp : initialFp ≤ base.length) {fs : List (Frame X)}
    (hok : ∀ f ∈ fs, FrameOk E f) (ctx : Ctx W X) {pc : Option ℕ} (hpc : pc = none ↔ fs = [])
    (fl : CallFlags) (th fn : X) (args : List X) (hargc : fl.argc = args.length) :
    ∃ fs', StateOk E initialFp base (functionCall E initialFp
      (callState initialFp base ctx pc fl th fn args fs) fl) fs' := by
  have hstack : ∀ ctx : Ctx W X, callState initialFp base ctx pc fl th fn args fs
      = ⟨ctx, (.val th :: .val fn :: args.map .val) ++ (layout initialFp base fs).1,
        (layout initialFp base fs).2, pc, .functionCall fl⟩ := by
    intro ctx
    simp [callState]
  have hcallee : valueOf E ((callState initialFp base ctx pc fl th fn args fs).stack.getD 1
      (.val E.undefined)) = fn := rfl
  unfold functionCall
  rw [hcallee]
  cases hc : E.callee fn with
  | notAFunction =>
    simp only
    rw [hstack]
    exact callException_ok hfp _ _ _ hpc hok
  | cFunction idx params =>
    simp only
    rw [callCFunction_eq ctx pc fl th fn args hargc]
    split_ifs
    · rw [hstack]
      exact callException_ok hfp _ _ _ hpc hok
    · rw [hstack]
      exact callException_ok hfp _ _ _ hpc hok
    · exact afterBody_ok hfp hok _ hpc _ fl th fn _ _
  | closure b => exact callClosure_ok hfp hok ctx hpc fl th fn args hargc hc

/-! ### Instructions -/

/-- What an instruction of the frame `f` does to the frames. -/
theorem runInstr_eq {f : Frame X} (hf : FrameOk E f) (fs : List (Frame X)) (ctx : Ctx W X)
    (pc : ℕ) :
    runInstr E initialFp ⟨ctx, (layout initialFp base (f :: fs)).1,
        (layout initialFp base (f :: fs)).2, some pc, .run⟩ pc
      = match E.instr ctx f.func pc f.operands with
        | (ctx, .next pc ops) =>
          let l := layout initialFp base ({ f with operands := ops } :: fs)
          ⟨ctx, l.1, l.2, some pc, .run⟩
        | (ctx, .call pc ctor popRet pcAdd1 this func args ops) =>
          callState initialFp base ctx (some pc) ⟨args.length, ctor, popRet, pcAdd1⟩ this func args
            ({ f with operands := ops, curPc := pc } :: fs)
        | (ctx, .raise ops) =>
          let l := layout initialFp base ({ f with operands := ops } :: fs)
          unwind E initialFp (l.1.length + 1) ctx l.1 l.2
        | (ctx, .ret v) =>
          let l := layout initialFp base (f :: fs)
          genericReturn E initialFp ⟨ctx, l.1, l.2, some pc, .run⟩ v := by
  obtain ⟨hbase, -⟩ := hf.info f.operands (layout initialFp base fs).2 (layout initialFp base fs).1
  have hfld := fields E f.operands f (layout initialFp base fs).2 (layout initialFp base fs).1
  simp only [runInstr, layout_cons, hbase, hfld.func_eq, take_append_height _ _ rfl,
    dropTo_append _ _ rfl]
  cases E.instr ctx f.func pc f.operands with
  | mk ctx' out =>
    cases out with
    | next pc' ops => rfl
    | raise ops => rfl
    | ret v => rfl
    | call pc' ctor popRet pcAdd1 this func args ops =>
      have hset : setWord (f.locals (layout initialFp base fs).2 (layout initialFp base fs).1)
          ((f.header (layout initialFp base fs).2 (layout initialFp base fs).1).length + 1) (.pc pc')
          = { f with operands := ops, curPc := pc' }.locals (layout initialFp base fs).2
            (layout initialFp base fs).1 := by
        rw [Frame.locals, show f.vars ++ .val f.varRef :: .pc f.curPc
          :: f.header (layout initialFp base fs).2 (layout initialFp base fs).1
          = (f.vars ++ [.val f.varRef]) ++ .pc f.curPc
            :: f.header (layout initialFp base fs).2 (layout initialFp base fs).1 by simp,
          setWord_append _ _ _ _ rfl]
        simp [Frame.locals, Frame.header]
      simp only [hset, callState, layout_cons, List.cons_append, List.append_assoc]
      rfl

theorem runInstr_ok (hfp : initialFp ≤ base.length) {f : Frame X} {fs : List (Frame X)}
    (hok : ∀ g ∈ f :: fs, FrameOk E g) (ctx : Ctx W X) (pc : ℕ) :
    ∃ fs', StateOk E initialFp base (runInstr E initialFp ⟨ctx, (layout initialFp base (f :: fs)).1,
      (layout initialFp base (f :: fs)).2, some pc, .run⟩ pc) fs' := by
  have hf := hok f List.mem_cons_self
  have hcons : ∀ g, FrameOk E g → ∀ h ∈ g :: fs, FrameOk E h := by
    intro g hg h hh
    rcases List.mem_cons.1 hh with rfl | hh
    · exact hg
    · exact hok h (List.mem_cons_of_mem _ hh)
  rw [runInstr_eq hf]
  obtain ⟨ctx', out⟩ := E.instr ctx f.func pc f.operands
  cases out with
  | next pc' ops => exact ⟨_, .run (by simp) rfl (hcons _ hf)⟩
  | call pc' ctor popRet pcAdd1 this func args ops => exact ⟨_, .call (by simp) (hcons _ hf)⟩
  | raise ops =>
    have hlen := length_le_layout initialFp base ({ f with operands := ops } :: fs)
    have hok' := hcons { f with operands := ops } hf
    exact (unwind_handled hfp ctx' (by simp) hok' (Nat.le_succ_of_le hlen)).stateOk hok'
  | ret v =>
    have hr : Returns E initialFp base _ _ fs f.flags := returns_frame f.operands hf fs
      { ctx' with world := E.detach ctx'.world (frameFirstVarRef E
        (layout initialFp base (f :: fs)).1 (layout initialFp base (f :: fs)).2) } (some pc) .run rfl
    simp only [genericReturn]
    exact hr.stateOk hfp (fun g hg => hok g (List.mem_cons_of_mem _ hg)) _

/-! ### Runs -/

variable (E initialFp base) in
/-- The states of a `JS_Call` whose caller has the stack `base` and the frame `initialFp`. -/
inductive Reachable : State W X → Prop
  | init (hfp : initialFp ≤ base.length) (ctx : Ctx W X) (this func : X) (args : List X)
      (ctor : Bool) : Reachable (State.init ctx initialFp this func args base ctor)
  | step {s : State W X} (h : Reachable s) : Reachable (step E initialFp s)

theorem Reachable.fp_le {s : State W X} (h : Reachable E initialFp base s) :
    initialFp ≤ base.length := by
  induction h with
  | init hfp => exact hfp
  | step _ ih => exact ih

theorem step_ok (hfp : initialFp ≤ base.length) {s : State W X} {fs : List (Frame X)}
    (h : StateOk E initialFp base s fs) : ∃ fs', StateOk E initialFp base (step E initialFp s) fs' := by
  cases h with
  | done => exact ⟨[], .done⟩
  | call hpc hok => exact functionCall_ok hfp hok _ hpc _ _ _ _ rfl
  | @run ctx stack fp pc fs hne hl hok =>
    cases fs with
    | nil => exact absurd rfl hne
    | cons f fs =>
      cases hl
      exact runInstr_ok hfp hok ctx pc

theorem reachable_ok {s : State W X} (h : Reachable E initialFp base s) :
    ∃ fs, StateOk E initialFp base s fs := by
  induction h with
  | init _ ctx this func args ctor => 
    exact ⟨[], .call (iff_of_true rfl rfl) (fun f hf => absurd hf List.not_mem_nil)⟩
  | step h ih =>
    obtain ⟨fs, hs⟩ := ih
    exact step_ok h.fp_le hs

/-! ### Reports of exceptions -/

variable (E) in
/-- The call of a C function of the state gets as far as its body, with these arguments. -/
structure Enters (s : State W X) (fl : CallFlags) (idx : ℕ) (params : Option X) (args : List X)
    (ctx : Ctx W X) : Prop where
  phase_eq : s.phase = .functionCall fl
  callee_eq : E.callee (valueOf E (s.stack.getD 1 (.val E.undefined))) = .cFunction idx params
  ctor_eq : (fl.ctor && !(E.table idx).isConstructor) = false
  args_eq : args = pad E (((s.stack.drop 2).take fl.argc).map (valueOf E)) (E.table idx).argCount
  check_eq : E.stackCheck s.ctx ((E.table idx).argCount - fl.argc) = (ctx, false)

variable (E) in
/-- `Report s fs ctx fs'`: in the step from `s`, where the frames are `fs`, an exception is reported
to `JS_Call`, which then has the context `ctx` and the frames `fs'`. -/
inductive Report : State W X → List (Frame X) → Ctx W X → List (Frame X) → Prop
  /-- By an instruction of a closure. -/
  | instr {s : State W X} {f : Frame X} {fs : List (Frame X)} {pc : ℕ} {ctx : Ctx W X}
      {ops : List (Word X)} (hp : s.phase = .run) (hpc : s.pc = some pc)
      (h : E.instr s.ctx f.func pc f.operands = (ctx, .raise ops)) :
      Report s (f :: fs) ctx ({ f with operands := ops } :: fs)
  /-- By the conversion of the argument of an `f_f` function; `JS_NewFloat64` is called after it. -/
  | argument {s : State W X} {fs : List (Frame X)} {fl : CallFlags} {idx : ℕ} {params : Option X}
      {args : List X} {ctx ctx' : Ctx W X} (he : Enters E s fl idx params args ctx)
      (ht : (E.table idx).defType = .f_f)
      (h : E.toNumber ctx (args.headD E.undefined) = (ctx', none)) :
      Report s fs (E.newFloat64 ctx' (E.leftover ctx')).1 fs
  /-- By the body of a C function. -/
  | body {s : State W X} {fs : List (Frame X)} {fl : CallFlags} {idx : ℕ} {params : Option X}
      {args : List X} {ctx ctx' : Ctx W X} (he : Enters E s fl idx params args ctx)
      (hn : (E.table idx).defType = .f_f → (E.toNumber ctx (args.headD E.undefined)).2 ≠ none)
      (h : callBody E (E.table idx) idx params ctx (valueOf E (s.stack.getD 0 (.val E.undefined)))
        { fl with popRet := false, pcAdd1 := false } args = (ctx', .exception)) :
      Report s fs ctx' fs

variable (E) in
/-- The state calls an `f_f` function, its argument has no conversion to a number and a number is
made of what the variable for it holds. -/
def Swallows (s : State W X) : Prop :=
  ∃ fl idx params args ctx ctx', Enters E s fl idx params args ctx
    ∧ (E.table idx).defType = .f_f
    ∧ E.toNumber ctx (args.headD E.undefined) = (ctx', none)
    ∧ (E.newFloat64 ctx' (E.leftover ctx')).2 ≠ none

theorem findCatch_length : ∀ {ops : List (Word X)} {pos : ℕ} {below : List (Word X)},
    findCatch ops = some (pos, below) → below.length < ops.length
  | [], _, _, h => by cases h
  | w :: ops, pos, below, h => by
    cases w with
    | catchOffset p =>
      cases h
      exact Nat.lt_succ_self _
    | callFlags _ | sp _ | pc _ | val _ => exact Nat.lt_succ_of_lt (findCatch_length h)

/-- At a handler the stack is not what it was. -/
theorem layout_handle_ne {exc : X} : ∀ {fs : List (Frame X)} {pos : ℕ} {fs' : List (Frame X)},
    handle exc fs = some (pos, fs') → ∀ pushed : List (Word X),
    (layout initialFp base fs').1 ≠ pushed ++ (layout initialFp base fs).1
  | [], _, _, h, _ => by cases h
  | f :: fs, pos, fs', h, pushed => by
    rw [handle] at h
    rw [layout_cons]
    cases hc : findCatch f.operands with
    | none =>
      rw [hc] at h
      have ih := layout_handle_ne h (pushed ++ (f.operands ++ (f.vars ++ [.val f.varRef,
        .pc f.curPc, .sp (layout initialFp base fs).2, .callFlags f.flags, .val f.this,
        .val f.func] ++ f.args.map .val)))
      simpa [Frame.locals, Frame.header] using ih
    | some r =>
      obtain ⟨p, below⟩ := r
      rw [hc] at h
      cases h
      intro heq
      have heq' : (.val exc :: below) ++ f.locals (layout initialFp base fs).2
          (layout initialFp base fs).1 = (pushed ++ f.operands) ++ f.locals
            (layout initialFp base fs).2 (layout initialFp base fs).1 := by
        rw [List.append_assoc]
        exact heq
      have hops := List.append_cancel_right heq'
      have hlen := findCatch_length hc
      have hlen' := congrArg List.length hops
      rw [List.length_append, List.length_cons] at hlen'
      obtain rfl : pushed = [] := List.eq_nil_of_length_eq_zero (by omega)
      rw [List.nil_append] at hops
      rw [← hops] at hc
      exact absurd (findCatch_length (show findCatch below = some (pos, below) from hc)) (by omega)

/-- The call of a C function in a state with the frames `fs`. -/
theorem step_enters {s : State W X} {fs : List (Frame X)} (hs : StateOk E initialFp base s fs)
    {fl : CallFlags} {idx : ℕ} {params : Option X} {args : List X} {ctx : Ctx W X}
    (he : Enters E s fl idx params args ctx) :
    (∀ f ∈ fs, FrameOk E f) ∧ ∃ fn : X,
      let th := valueOf E (s.stack.getD 0 (.val E.undefined))
      let r := callBody E (E.table idx) idx params ctx th
        { fl with popRet := false, pcAdd1 := false } args
      step E initialFp s = afterBody E initialFp ⟨r.1, cFrame initialFp base fs fl th fn args,
        (cFrame initialFp base fs fl th fn args).length, s.pc, s.phase⟩ args.length r.2 := by
  obtain ⟨hphase, hcallee, hctor, rfl, hcheck⟩ := he
  cases hs with
  | run => cases hphase
  | done => cases hphase
  | @call ctx₀ pc ctor popRet pcAdd1 this func args₀ fs hpc hok =>
    cases hphase
    have hargs : (((args₀.map Word.val ++ (layout initialFp base fs).1).take args₀.length).map
        (valueOf E)) = args₀ := by
      rw [List.take_left' (by simp), List.map_map]
      exact List.map_id' _
    refine ⟨hok, func, ?_⟩
    simp only [List.getD_cons_zero, List.getD_cons_succ, List.drop_succ_cons, List.drop_zero,
      valueOf, hargs] at hcallee hcheck ⊢
    have hstep : step E initialFp (callState initialFp base ctx₀ pc
          ⟨args₀.length, ctor, popRet, pcAdd1⟩ this func args₀ fs)
        = callCFunction E initialFp (callState initialFp base ctx₀ pc
          ⟨args₀.length, ctor, popRet, pcAdd1⟩ this func args₀ fs)
          ⟨args₀.length, ctor, popRet, pcAdd1⟩ idx params := by
      have hfunc : valueOf E ((callState initialFp base ctx₀ pc ⟨args₀.length, ctor, popRet, pcAdd1⟩
          this func args₀ fs).stack.getD 1 (.val E.undefined)) = func := rfl
      simp only [step, callState, functionCall] at hfunc ⊢
      rw [hfunc, hcallee]
    have heq := hstep.trans (callCFunction_eq ctx₀ pc _ this func args₀ rfl fs idx params)
    rw [hctor, hcheck] at heq
    exact heq

/-- The answer of an `f_f` function whose argument is not converted. -/
theorem callBody_unconverted {idx : ℕ} (ht : (E.table idx).defType = .f_f) {ctx ctx' : Ctx W X}
    {args : List X} (h : E.toNumber ctx (args.headD E.undefined) = (ctx', none))
    (params : Option X) (th : X) (fl : CallFlags) :
    callBody E (E.table idx) idx params ctx th fl args
      = ((E.newFloat64 ctx' (E.leftover ctx')).1,
        ((E.newFloat64 ctx' (E.leftover ctx')).2.map CResult.val).getD .exception) := by
  unfold callBody
  rw [ht, h]
  simp only
  rcases E.newFloat64 ctx' (E.leftover ctx') with ⟨c, v⟩
  cases v with
  | none => rfl
  | some v => rfl

/-- A value that was returned is no exception that was dealt with. -/
theorem Returns.value_not_handled {s : State W X} {h : ℕ} {fs : List (Frame X)} {fl : CallFlags}
    (hr : Returns E initialFp base s h fs fl) (hfp : initialFp ≤ base.length) (v : X)
    (ctx : Ctx W X) :
    ¬ Handled initialFp base ctx fs (returnCall E initialFp s h (some v)) := by
  intro hh
  unfold Handled at hh
  rcases hr.value hfp v with ⟨-, he⟩ | ⟨f, fs', rfl, he⟩
  · rw [he] at hh
    split at hh
    · cases hh.1
    · cases hh.1
  · rw [he] at hh
    split at hh
    · rename_i pos fs'' heq
      have hhandle : handle ctx.currentException (f :: fs') = some (pos, fs'') := by
        split_ifs at heq
        exact heq
      exact layout_handle_ne hhandle _ (congrArg Prod.fst hh.2.2).symm
    · cases hh.1

theorem runInstr_raise (hfp : initialFp ≤ base.length) {f : Frame X} {fs : List (Frame X)}
    (hok : ∀ g ∈ f :: fs, FrameOk E g) {ctx ctx' : Ctx W X} {pc : ℕ} {ops : List (Word X)}
    (h : E.instr ctx f.func pc f.operands = (ctx', .raise ops)) :
    Handled initialFp base ctx' ({ f with operands := ops } :: fs)
      (runInstr E initialFp ⟨ctx, (layout initialFp base (f :: fs)).1,
        (layout initialFp base (f :: fs)).2, some pc, .run⟩ pc) := by
  rw [runInstr_eq (hok f List.mem_cons_self), h]
  have hlen := length_le_layout initialFp base ({ f with operands := ops } :: fs)
  refine unwind_handled hfp ctx' (by simp) ?_ (Nat.le_succ_of_le hlen)
  intro g hg
  rcases List.mem_cons.1 hg with rfl | hg
  · exact hok f List.mem_cons_self
  · exact hok g (List.mem_cons_of_mem _ hg)

theorem Enters.unique {s : State W X} {fl fl' : CallFlags} {idx idx' : ℕ} {params params' : Option X}
    {args args' : List X} {ctx ctx' : Ctx W X} (h : Enters E s fl idx params args ctx)
    (h' : Enters E s fl' idx' params' args' ctx') : idx = idx' ∧ args = args' ∧ ctx = ctx' := by
  obtain ⟨hp, hc, -, ha, hk⟩ := h
  obtain ⟨hp', hc', -, ha', hk'⟩ := h'
  rw [hp] at hp'
  cases hp'
  rw [hc] at hc'
  cases hc'
  rw [hk] at hk'
  cases hk'
  exact ⟨rfl, ha.trans ha'.symm, rfl⟩

/-- Where a C function is entered, the exception is swallowed exactly in the case of its argument. -/
theorem Enters.swallows_iff {s : State W X} {fl : CallFlags} {idx : ℕ} {params : Option X}
    {args : List X} {ctx : Ctx W X} (h : Enters E s fl idx params args ctx) :
    Swallows E s ↔ (E.table idx).defType = .f_f ∧ ∃ ctx',
      E.toNumber ctx (args.headD E.undefined) = (ctx', none)
        ∧ (E.newFloat64 ctx' (E.leftover ctx')).2 ≠ none := by
  constructor
  · rintro ⟨fl', idx', params', args', ctx₁, ctx', he, ht, hnum, hv⟩
    obtain ⟨rfl, rfl, rfl⟩ := h.unique he
    exact ⟨ht, ctx', hnum, hv⟩
  · rintro ⟨ht, ctx', hnum, hv⟩
    exact ⟨fl, idx, params, args, ctx, ctx', h, ht, hnum, hv⟩

variable (E initialFp base) in
/-- An exception that is reported in a step of a `JS_Call` is dealt with, unless it is that of the
argument of an `f_f` function and a number is returned in its place. -/
theorem report_handled_iff (s : State W X) (hs : Reachable E initialFp base s) :
    ∃ fs, StateOk E initialFp base s fs ∧ ∀ ctx fs', Report E s fs ctx fs' →
      (Handled initialFp base ctx fs' (step E initialFp s) ↔ ¬ Swallows E s) := by
  have hfp := hs.fp_le
  obtain ⟨fs, hok⟩ := reachable_ok hs
  refine ⟨fs, hok, ?_⟩
  intro ctx fs' hrep
  cases hrep with
  | @instr f fs pc _ ops hp hpc hraise =>
    refine iff_of_true ?_ ?_
    · cases hok with
      | call => cases hp
      | run hne hl hfok =>
        cases hpc
        cases hl
        exact runInstr_raise hfp hfok hraise
    · rintro ⟨fl, idx, params, args, ctx', ctx'', he, -⟩
      rw [he.phase_eq] at hp
      cases hp
  | @argument _ fl idx params args ctx₁ ctx' he ht hnum =>
    obtain ⟨hfok, fn, hstep⟩ := step_enters hok he
    rw [hstep, he.swallows_iff]
    simp only [callBody_unconverted ht hnum]
    cases hv : (E.newFloat64 ctx' (E.leftover ctx')).2 with
    | none =>
      refine iff_of_true ((returns_cFrame fs fl _ fn args _ s.pc s.phase).exception hfp hfok) ?_
      rintro ⟨-, ctx'', hnum', hv'⟩
      rw [hnum] at hnum'
      cases hnum'
      exact hv' hv
    | some v =>
      refine iff_of_false
        ((returns_cFrame fs fl _ fn args _ s.pc s.phase).value_not_handled hfp v _) ?_
      rw [not_not]
      exact ⟨ht, ctx', hnum, by simp [hv]⟩
  | @body _ fl idx params args ctx₁ ctx' he hn hexc =>
    obtain ⟨hfok, fn, hstep⟩ := step_enters hok he
    rw [hstep, he.swallows_iff]
    simp only [hexc]
    refine iff_of_true ((returns_cFrame fs fl _ fn args _ s.pc s.phase).exception hfp hfok) ?_
    rintro ⟨ht, ctx'', hnum, -⟩
    exact hn ht (by rw [hnum])

end Layout

/-! ### The failing call -/

/-- `Math.sin` is value 1, and values from 100 on are objects whose `valueOf` throws 9. Value 2 is a
closure that calls `Math.sin` with the object 100 in a `try`. -/
def sinEngine : Engine Unit ℕ ℕ where
  undefined := 0
  null := 0
  callee x := if x = 1 then .cFunction 0 none else if x = 2 then .closure ⟨0, 0, 4⟩ else .notAFunction
  isObject x := 100 ≤ x
  table _ := ⟨.f_f, 1, 0⟩
  stackCheck ctx _ := (ctx, false)
  throwTypeError ctx _ := { ctx with currentException := 8 }
  callConstructorStart ctx _ := (ctx, some 100)
  cFunction _ ctx _ _ _ _ _ := (ctx, .val 0)
  toNumber ctx x := if 100 ≤ x then ({ ctx with currentException := 9 }, none) else (ctx, some x)
  fF _ d := d
  newFloat64 ctx d := (ctx, some d)
  leftover _ := 0
  detach w _ := w
  instr ctx _ pc ops :=
    match pc with
    | 0 => (ctx, .next 1 [.catchOffset 7])
    | 1 => (ctx, .call 1 false false false 0 1 [100] ops)
    | 3 => (ctx, .raise ops)
    | _ => (ctx, .ret 5)

/-- The run of the closure, up to the call of `Math.sin`. -/
def sinCall : State Unit ℕ :=
  ⟨⟨(), 0, false⟩, [.val 0, .val 1, .val 100, .catchOffset 7, .val 0, .pc 1, .sp 0,
    .callFlags ⟨0, false, false, false⟩, .val 0, .val 2], 4, some 1,
    .functionCall ⟨1, false, false, false⟩⟩

/-- Its frame at that time. -/
def sinFrame : Frame ℕ :=
  ⟨[.catchOffset 7], [], 0, 1, ⟨0, false, false, false⟩, 0, 2, []⟩

theorem reachable_sinCall : Reachable sinEngine 0 [] sinCall := by
  have hinit : Reachable sinEngine 0 [] (State.init ⟨(), 0, false⟩ 0 0 2 [] [] false) :=
    .init (Nat.zero_le _) _ _ _ _ _
  exact hinit.step.step.step

theorem report_handled_iff_sinCall : Reachable sinEngine 0 [] sinCall
    ∧ ∃ fs, StateOk sinEngine 0 [] sinCall fs ∧ ∀ ctx fs', Report sinEngine sinCall fs ctx fs' →
      (Handled 0 [] ctx fs' (step sinEngine 0 sinCall) ↔ ¬ Swallows sinEngine sinCall) :=
  ⟨reachable_sinCall, report_handled_iff sinEngine 0 [] sinCall reachable_sinCall⟩

/-- The exception of the argument of `Math.sin` is reported, and the closure goes on with the number
0 after the call and not at its handler. -/
theorem sinCall_swallows :
    Reachable sinEngine 0 [] sinCall ∧ StateOk sinEngine 0 [] sinCall [sinFrame]
      ∧ Report sinEngine sinCall [sinFrame] ⟨(), 9, false⟩ [sinFrame]
      ∧ (step sinEngine 0 sinCall).pc = some 3
      ∧ (step sinEngine 0 sinCall).stack.head? = some (.val 0)
      ∧ ¬ Handled 0 [] ⟨(), 9, false⟩ [sinFrame] (step sinEngine 0 sinCall) := by
  have henters : Enters sinEngine sinCall ⟨1, false, false, false⟩ 0 none [100] ⟨(), 0, false⟩ :=
    ⟨rfl, rfl, rfl, rfl, rfl⟩
  have hpc : (step sinEngine 0 sinCall).pc = some 3 := rfl
  have hframe : ∀ f ∈ [sinFrame], FrameOk sinEngine f := by
    intro f hf
    obtain rfl := List.mem_singleton.1 hf
    exact ⟨⟨0, 0, 4⟩, rfl, rfl, rfl⟩
  refine ⟨reachable_sinCall, ?_, .argument henters rfl rfl, hpc, rfl, ?_⟩
  · exact @StateOk.call _ _ _ sinEngine 0 [] ⟨(), 0, false⟩ (some 1) false false false 0 1 [100]
      [sinFrame] (by simp) hframe
  · intro h
    have hhandler : (step sinEngine 0 sinCall).pc = some 7 := h.2.1
    rw [hpc] at hhandler
    cases hhandler

end Call

end Qjs
