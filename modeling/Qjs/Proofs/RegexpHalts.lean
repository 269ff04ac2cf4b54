import Qjs.Proofs.RegexpRun

/-!
# Regular expressions: the interpreter stops

From a configuration from which all paths end the interpreter stops, if it stops whenever it goes
back to a choice point that was there before (`halts_of_good`): it goes through the paths depth
first. So it stops for each program (`lreExec_terminates`).
-/

namespace Qjs.Regexp

variable {cbuf code : List ℕ} {c : Config} {s s' : State} {xs : List Choice} {e : Events}

/-- All runs from the state are finite. -/
def Halts (cbuf code : List ℕ) : State → Prop :=
  Acc fun s' s => ∃ e, step cbuf code e s = .next s'

/-- Depth first, by induction on the paths from `c`. -/
theorem halts_of_good (hn : cbuf.length < 2 ^ 30) (hall : lreGetAllocCount code < 2 ^ 30)
    (h : Good cbuf code c) : ∀ {xs : List Choice} {s : State}, s.mode = .run → s.pc = c.pc →
    s.cptr = c.cptr → List.Forall₂ Cut s.capture c.capture → c.looks = looksOf xs →
    Logged cbuf.length xs s.capture s.stack s.bp →
    (∀ ys, ys <:+ xs → ∀ t, GoesBack cbuf.length ys t → Halts cbuf code t) →
    Halts cbuf code s := by
  induction h with
  | @intro c hsound hnext ih =>
    intro xs s hm hpc hcptr hcap hl hlog hback
    refine .intro s ?_
    rintro s' ⟨e, hstep⟩
    have hs : s = ({ c with capture := s.capture } : Config).onStack s.stack s.bp := by
      obtain ⟨pc, cptr, capture, stack, bp, mode⟩ := s
      simp only at hm hpc hcptr
      rw [hm, hpc, hcptr]
      rfl
    have moves {c' : Config} (hc : c' ∈ succs cbuf code { c with capture := s.capture }) :
        Moves cbuf code c c' := ⟨s.capture, hcap, hc⟩
    rw [hs] at hstep
    obtain ⟨xs', hran, hlog', -⟩ :=
      @step_comes _ _ _ _ _ xs _ _ hn hall (hsound.cut hcap) hl hlog hstep
    have into {c' : Config} (hc : c' ∈ succs cbuf code { c with capture := s.capture })
        (ha : c'.At s') (hl' : c'.looks = looksOf xs')
        (hback' : ∀ ys, ys <:+ xs' → ∀ t, GoesBack cbuf.length ys t → Halts cbuf code t) :
        Halts cbuf code s' := by
      rw [ha.eq] at hlog' ⊢
      exact ih c' (moves hc) rfl rfl rfl (List.forall₂_same.2 fun x _ => Cut.refl x) hl' hlog'
        hback'
    cases hran with
    | fail hm' =>
      refine hback xs List.suffix_rfl s' ⟨by rw [hm']; simp, hlog', fun h => ?_⟩
      rw [hm'] at h
      cases h
    | negative hm' hl' => exact hback xs List.suffix_rfl s' ⟨by rw [hm']; simp, hlog', fun _ => hl'⟩
    | move hc ha hl' => exact into hc ha hl' hback
    | look hxs hx h₁ hc ha hl' _ _ =>
      refine into hc ha hl' fun ys hys => hback ys (hys.trans ?_)
      rw [hxs]
      exact (List.suffix_cons _ _).trans (List.suffix_append _ _)
    | @push c' d x hc ha hl' hx hr _ =>
      refine into hc ha hl' fun ys hys t ht => ?_
      rcases List.suffix_cons_iff.1 hys with rfl | hys
      · -- the choice point itself: what it goes back to is on a path too
        refine .intro t ?_
        rintro t' ⟨e', hstep'⟩
        obtain ⟨hcap', hpc', hcptr', hlogt, -, -, hrun, hneg⟩ :=
          step_back hn ht.mode ht.logged hstep'
        by_cases hm' : t'.mode = .run
        · obtain ⟨-, hne⟩ := hrun hm'
          obtain ⟨hd, hdpc, hdcptr, hdcap, hdl⟩ := hr hne
          refine ih d (moves hd) hm' (hpc'.trans hdpc.symm) ?_ ?_ hdl hlogt hback
          · rw [hcptr', hdcptr, hx]
          · rw [hdcap, ← hx]
            exact hcap'
        · refine hback xs List.suffix_rfl t' ⟨hm', hlogt, fun h => ?_⟩
          obtain ⟨htm, hne⟩ := hneg h
          exact looksOf_negative (ht.negative htm) hne
      · exact hback ys hys t ht

/-- No run is infinite, whatever happens outside: from each state `lre_exec` returns. -/
theorem lreExec_of_halts {prog : Program} {str : Subject} {capture : List ℕ}
    (hf : Fresh prog.code capture) (h : Halts str.buf prog.code s) :
    ∀ {pushed : List State}, Run str prog.code capture s pushed → ∀ e : ℕ → Events,
    ∃ fuel out, lreExec str.buf prog.code fuel e s = some out := by
  induction h with
  | intro s _ ih =>
    intro pushed hrun e
    obtain ⟨xs, -, hs⟩ := hrun.stands hf
    cases hstep : step str.buf prog.code (e 0) s with
    | next s' =>
      obtain ⟨fuel, out, hout⟩ := ih s' ⟨e 0, hstep⟩ (hrun.step (e 0) hstep) fun i => e (i + 1)
      refine ⟨fuel + 1, out, ?_⟩
      rw [lreExec, hstep]
      exact hout
    | done ret =>
      refine ⟨1, (ret, s.capture), ?_⟩
      rw [lreExec, hstep]
    | abort => exact absurd hstep (hs.ne_abort hf.length (e 0))

/-- A compiled pattern runs for finitely many steps on every string from every position, with memory
for the stack or without, interrupted or not. -/
theorem lreExec_terminates (prog : Program) (str : Subject) {capture : List ℕ}
    (hf : Fresh prog.code capture) {cindex : ℕ} (hc : cindex ≤ str.buf.length)
    (e : ℕ → Events) :
    ∃ fuel ret capture', lreExec str.buf prog.code fuel e (start capture cindex)
      = some (ret, capture') := by
  have hhalts : Halts str.buf prog.code (start capture cindex) := by
    refine @halts_of_good _ _ _ str.short prog.allocCount_lt (prog.good str hf.length hc) [] _
      rfl rfl
      rfl (List.forall₂_same.2 fun x _ => Cut.refl x) rfl rfl ?_
    intro ys hys t ht
    rw [List.suffix_nil.1 hys] at ht
    refine .intro t ?_
    rintro t' ⟨e', hstep⟩
    rw [ht.done_nil] at hstep
    cases hstep
  obtain ⟨fuel, ⟨ret, capture'⟩, h⟩ := lreExec_of_halts hf hhalts (.start cindex hc) e
  exact ⟨fuel, ret, capture', h⟩

theorem lreExec_terminates_twice : ∃ fuel ret capture',
    lreExec textB.buf twice.code fuel (fun _ => ⟨false, false⟩)
      (start [2 ^ 32 - 1, 2 ^ 32 - 1, 2 ^ 30] 0) = some (ret, capture') :=
  lreExec_terminates twice textB twice_fresh (Nat.zero_le _) _

end Qjs.Regexp
