import Qjs.Lib.Ends
import Qjs.Proofs.RegexpLoops
import Qjs.Proofs.RegexpText
import Qjs.Proofs.RegexpUndo

/-!
# Regular expressions: every path of a program is finite and sound

On the paths from an instruction a loop finds in its registers what it stored itself and counters do
not run out of their bounds (`Sound`). The code of a tree keeps the registers in use around it and
does not go back in the text (`Leaves`); if all is well from where the code ends, it is well from
where it starts (`good_node`).
-/

namespace Qjs.Regexp

open Wtf8 UndoLog

variable {cbuf code : List ℕ} {n k p v i r val : ℕ} {c c' d : Config} {o : Op} {a b : Node}
  {loops : List ℕ}

/-! ### Sound configurations -/

/-- The instruction can be executed: its operands are in their bounds. -/
def Op.Sound (code : List ℕ) (c : Config) : Op → Prop
  | .save _ i => i < lreGetCaptureCount code
  | .saveReset _ j => j < lreGetCaptureCount code
  | .lookaheadMatch neg => ∃ cptr pc looks, c.looks = (neg, cptr, pc) :: looks
  | .loop r _ | .loopSplit _ _ r _ _ =>
    1 ≤ c.get (2 * lreGetCaptureCount code + r) ∧ c.get (2 * lreGetCaptureCount code + r) < 2 ^ 30
  | .setI32 _ v => v < 2 ^ 30
  | .invalid => False
  | _ => True

structure Sound (n : ℕ) (code : List ℕ) (c : Config) : Prop where
  cptr_le : c.cptr ≤ n
  length : c.capture.length = lreGetAllocCount code
  op : (Op.decode (code.drop c.pc)).Sound code c
  registers : ∀ r ∈ (Op.decode (code.drop c.pc)).registers,
    2 * lreGetCaptureCount code + r < lreGetAllocCount code
  owner : ∀ x ∈ loopEnds code c.pc, c.owner x.1 = x.2 ∨ c.owner x.1 = c.pc

/-- What can come next, from captures that may have gone through the undo log. -/
def Moves (cbuf code : List ℕ) (c c' : Config) : Prop :=
  ∃ capture, List.Forall₂ Cut capture c.capture ∧
    c' ∈ succs cbuf code { c with capture := capture }

/-- From here on all is well. -/
abbrev Good (cbuf code : List ℕ) : Config → Prop :=
  Ends (Moves cbuf code) (Sound cbuf.length code)

theorem Cut.eq_of_lt {x y : ℕ} (h : Cut x y) (hy : y < 2 ^ 30) : x = y := by
  rcases h with h | h
  · exact h
  · rw [h, short_of_lt hy]

theorem forall₂_getD {l l' : List ℕ} (h : List.Forall₂ Cut l l') (i : ℕ) :
    Cut (l.getD i 0) (l'.getD i 0) := by
  induction h generalizing i with
  | nil => exact Cut.refl 0
  | cons hx _ ih =>
    cases i with
    | zero => exact hx
    | succ i => exact ih i

/-! ### What a piece of code leaves alone -/

/-- The `k` registers in use hold short integers. -/
structure Scope (n : ℕ) (code : List ℕ) (k : ℕ) (c : Config) : Prop where
  cptr_le : c.cptr ≤ n
  length : c.capture.length = lreGetAllocCount code
  regs : ∀ r < k, c.get (2 * lreGetCaptureCount code + r) < 2 ^ 30

/-- The position did not go back, the `k` registers in use are as they were. -/
structure Leaves (n : ℕ) (code : List ℕ) (k : ℕ) (c c' : Config) : Prop where
  le_cptr : c.cptr ≤ c'.cptr
  cptr_le : c'.cptr ≤ n
  looks : c'.looks = c.looks
  length : c'.capture.length = c.capture.length
  regs : ∀ r < k, c'.get (2 * lreGetCaptureCount code + r)
    = c.get (2 * lreGetCaptureCount code + r)
  owner : ∀ r < k, c'.owner r = c.owner r

theorem Leaves.scope (h : Leaves n code k c c') (hs : Scope n code k c) : Scope n code k c' :=
  ⟨h.cptr_le, h.length.trans hs.length, fun r hr => by
    rw [h.regs r hr]
    exact hs.regs r hr⟩

theorem Leaves.trans {c'' : Config} (h : Leaves n code k c c') (h' : Leaves n code k c' c'') :
    Leaves n code k c c'' :=
  ⟨h.le_cptr.trans h'.le_cptr, h'.cptr_le, h'.looks.trans h.looks, h'.length.trans h.length,
    fun r hr => (h'.regs r hr).trans (h.regs r hr),
    fun r hr => (h'.owner r hr).trans (h.owner r hr)⟩

theorem Leaves.refl (hs : Scope n code k c) : Leaves n code k c c :=
  ⟨le_rfl, hs.cptr_le, rfl, rfl, fun _ _ => rfl, fun _ _ => rfl⟩

theorem Leaves.mono {k' : ℕ} (h : Leaves n code k c c') (hk : k' ≤ k) : Leaves n code k' c c' :=
  ⟨h.le_cptr, h.cptr_le, h.looks, h.length, fun r hr => h.regs r (hr.trans_le hk),
    fun r hr => h.owner r (hr.trans_le hk)⟩

theorem Leaves.to (h : Leaves n code k c c') (pc : ℕ) : Leaves n code k c { c' with pc := pc } :=
  ⟨h.le_cptr, h.cptr_le, h.looks, h.length, h.regs, h.owner⟩

theorem Leaves.from (h : Leaves n code k { c with pc := p } c') : Leaves n code k c c' :=
  ⟨h.le_cptr, h.cptr_le, h.looks, h.length, h.regs, h.owner⟩

theorem Leaves.forward (h : Leaves n code k c c') (hp : c'.cptr ≤ p) (hn : p ≤ n) :
    Leaves n code k c { c' with cptr := p } :=
  ⟨h.le_cptr.trans hp, hn, h.looks, h.length, h.regs, h.owner⟩

/-- The undo log keeps the registers in use. -/
theorem Leaves.cut {capture : List ℕ} (hs : Scope n code k c)
    (hc : List.Forall₂ Cut capture c.capture) : Leaves n code k c { c with capture := capture } :=
  ⟨le_rfl, hs.cptr_le, rfl, hc.length_eq, fun r hr => (forall₂_getD hc _).eq_of_lt (hs.regs r hr),
    fun _ _ => rfl⟩

theorem Config.get_write_of_ne {j : ℕ} (h : i ≠ j) : (c.write i v).get j = c.get j := by
  simp [Config.get, Config.write, List.getD_eq_getElem?_getD, List.getElem?_set_ne h]

theorem Config.get_write (h : i < c.capture.length) : (c.write i v).get i = v := by
  simp [Config.get, Config.write, List.getD_eq_getElem?_getD, h]

theorem Leaves.write (h : Leaves n code k c c')
    (hi : ∀ r < k, i ≠ 2 * lreGetCaptureCount code + r) : Leaves n code k c (c'.write i v) :=
  ⟨h.le_cptr, h.cptr_le, h.looks, (List.length_set ..).trans h.length, fun r hr => by
    rw [Config.get_write_of_ne (hi r hr)]
    exact h.regs r hr, h.owner⟩

/-- A register that is not in use is stored. -/
theorem Leaves.writeReg (h : Leaves n code k c c') (hr : k ≤ r) (pc : ℕ) :
    Leaves n code k c (c'.writeReg pc r (2 * lreGetCaptureCount code + r) v) := by
  have hw : Leaves n code k c (c'.write (2 * lreGetCaptureCount code + r) v) :=
    h.write fun r' hr' => by omega
  refine ⟨hw.le_cptr, hw.cptr_le, hw.looks, hw.length, hw.regs, fun r' hr' => ?_⟩
  change (if r' = r then pc else c'.owner r') = _
  rw [if_neg (by omega)]
  exact h.owner r' hr'

theorem Leaves.resetGroups : ∀ {m i : ℕ} {c' : Config}, Leaves n code k c c' →
    i + m ≤ lreGetCaptureCount code → Leaves n code k c (c'.resetGroups m i)
  | 0, _, _, h, _ => h
  | m + 1, i, c', h, hm => by
    have h1 : Leaves n code k c ((c'.write (2 * i) 0).write (2 * i + 1) 0) :=
      (h.write fun r hr => by omega).write fun r hr => by omega
    exact h1.resetGroups (by omega)

theorem Config.resetGroups_pc : ∀ (m i : ℕ) (c : Config), (c.resetGroups m i).pc = c.pc
  | 0, _, _ => rfl
  | m + 1, i, c => by
    rw [Config.resetGroups, Config.resetGroups_pc]
    rfl

/-! ### One instruction -/

/-- From an instruction of which all ways are well. -/
theorem good_op (ho : Op.decode (code.drop c.pc) = o) (hs : Sound cbuf.length code c)
    (hscope : Scope cbuf.length code k c)
    (hnext : ∀ d, Leaves cbuf.length code k c d → d.pc = c.pc → d.cptr = c.cptr →
      ∀ c' ∈ o.succs cbuf code d.pc (d.after o), Good cbuf code c') : Good cbuf code c := by
  refine .intro hs ?_
  rintro c' ⟨capture, hc, hsucc⟩
  unfold succs at hsucc
  rw [show ({ c with capture := capture } : Config).pc = c.pc from rfl, ho] at hsucc
  exact hnext { c with capture := capture } (.cut hscope hc) rfl rfl c' hsucc

theorem loopEnds_eq (ho : Op.decode (code.drop p) = o) :
    loopEnds code p = o.registers.zip ((loopsAt code p).take o.closes).reverse := by
  rw [← ho]
  rfl

/-- An instruction that ends no loop. -/
theorem sound_of_scope (hs : Scope n code k c) (ho : Op.decode (code.drop c.pc) = o)
    (hcloses : o.closes = 0) (hop : o.Sound code c)
    (hr : ∀ r ∈ o.registers, 2 * lreGetCaptureCount code + r < lreGetAllocCount code) :
    Sound n code c := by
  refine ⟨hs.cptr_le, hs.length, ho ▸ hop, ho ▸ hr, ?_⟩
  rw [loopEnds_eq ho, hcloses]
  intro x hx
  simp at hx

/-- The end of the loops `opened`. -/
theorem sound_close {opened : List ℕ} (hs : Scope n code k c)
    (ho : Op.decode (code.drop c.pc) = o) (hl : AtLoops code c.pc (opened ++ loops))
    (hpc : c.pc ≤ code.length) (hcloses : o.closes = opened.length) (hop : o.Sound code c)
    (hr : ∀ r ∈ o.registers, 2 * lreGetCaptureCount code + r < lreGetAllocCount code)
    (howner : ∀ x ∈ o.registers.zip opened.reverse, c.owner x.1 = x.2 ∨ c.owner x.1 = c.pc) :
    Sound n code c := by
  refine ⟨hs.cptr_le, hs.length, ho ▸ hop, ho ▸ hr, ?_⟩
  rw [loopEnds_eq ho, hcloses, hl.self hpc, List.take_left]
  exact howner

theorem sound_plain (hs : Scope n code k c) (hplain : o.Plain (lreGetCaptureCount code))
    (ho : Op.decode (code.drop c.pc) = o) : Sound n code c := by
  obtain ⟨-, h2, h3⟩ := hplain.no_loop
  refine sound_of_scope hs ho h2 ?_ fun r hr => by
    rw [h3] at hr
    cases hr
  cases o with
  | save isEnd i => exact hplain
  | saveReset i j => exact hplain.2
  | goto | split | match_ | lookaheadMatch | loop | loopSplit | setI32 | lookahead | setCharPos
  | checkAdvance | invalid => exact absurd hplain id
  | _ => trivial

/-- A way out of a piece of code that ends at `p` is well. -/
def Exits (cbuf code : List ℕ) (k p : ℕ) (adv : Bool) (c : Config) : Prop :=
  ∀ c', c'.pc = p → Leaves cbuf.length code k c c' → (adv = true → c.cptr < c'.cptr) →
    Good cbuf code c'

/-- After an instruction that looks at the text. -/
theorem mem_succs_text {pc : ℕ} {d : Config} (hc : c' ∈ o.succs cbuf code pc d)
    (hnone : matchOp cbuf (d.onStack [] 0) o = none → o.succs cbuf code pc d = [])
    (hsome : ∀ m, matchOp cbuf (d.onStack [] 0) o = some m →
      o.succs cbuf code pc d = [{ d with cptr := m }]) :
    ∃ m, matchOp cbuf (d.onStack [] 0) o = some m ∧ c' = { d with cptr := m } := by
  cases hmatch : matchOp cbuf (d.onStack [] 0) o with
  | none =>
    rw [hnone hmatch] at hc
    cases hc
  | some m =>
    rw [hsome m hmatch] at hc
    exact ⟨m, rfl, List.mem_singleton.1 hc⟩

/-- An instruction that stands alone leads to the next. -/
theorem good_plain (hv : Valid cbuf) (hplain : o.Plain (lreGetCaptureCount code))
    (ho : Op.decode (code.drop p) = o) (hpc : c.pc = p)
    (hs : Scope cbuf.length code k c)
    (hexit : Exits cbuf code k (p + o.size) (o.scan = some true) c) : Good cbuf code c := by
  rw [← hpc] at ho
  refine good_op ho (sound_plain hs hplain ho) hs ?_
  intro d hd hdpc hdcptr c' hc'
  have hsize : d.pc + o.size = p + o.size := by rw [hdpc, hpc]
  have text (hm : ∃ m, matchOp cbuf ((d.after o).onStack [] 0) o = some m ∧
      c' = { d.after o with cptr := m }) : Good cbuf code c' := by
    obtain ⟨m, hmatch, rfl⟩ := hm
    obtain ⟨h1, h2, h3⟩ := matchOp_le hv hplain hd.cptr_le hmatch
    refine hexit _ hsize (((hd.to _).forward h1 h2)) ?_
    intro hadv
    rw [← hdcptr]
    exact h3 (of_decide_eq_true hadv)
  cases o with
  | save isEnd i =>
    obtain rfl := List.mem_singleton.1 hc'
    have hi : i < lreGetCaptureCount code := hplain
    refine hexit _ hsize ((hd.to _).write ?_) (fun h => by simp [Op.scan] at h)
    intro r hr
    cases isEnd <;> simp <;> omega
  | saveReset i j =>
    obtain rfl := List.mem_singleton.1 hc'
    have hi : i ≤ j ∧ j < lreGetCaptureCount code := hplain
    refine hexit _ ?_ ((hd.to _).resetGroups (by omega)) (fun h => by simp [Op.scan] at h)
    rw [Config.resetGroups_pc]
    exact hsize
  | goto | split | match_ | lookaheadMatch | loop | loopSplit | setI32 | lookahead | setCharPos
  | checkAdvance | invalid => exact absurd hplain id
  | _ =>
    exact text (mem_succs_text hc' (fun h => by simp [Op.succs, h])
      (fun m h => by simp [Op.succs, h]))

/-! ### Jumps -/

theorem Leaves.jump (h : Leaves n code k c c') (val : ℤ) : Leaves n code k c (c'.jump val) :=
  h.to _

/-- A way out is one from where the code was entered. -/
theorem Exits.of_leaves {k' : ℕ} {adv adv' : Bool} (h : Exits cbuf code k p adv c)
    (hd : Leaves cbuf.length code k c d) (hk : k ≤ k')
    (hadv : adv = true → adv' = true ∨ c.cptr < d.cptr) : Exits cbuf code k' p adv' d := by
  intro c' hpc hl hlt
  refine h c' hpc (hd.trans (hl.mono hk)) fun ha => ?_
  have h1 := hd.le_cptr
  have h2 := hl.le_cptr
  rcases hadv ha with h3 | h3
  · have := hlt h3
    omega
  · omega

/-- An instruction that goes on at one or two places, and changes nothing. -/
theorem good_split {nextFirst : Bool} {val : ℤ} {q : ℕ}
    (ho : Op.decode (code.drop p) = .split nextFirst val) (hpc : c.pc = p)
    (hs : Scope cbuf.length code k c) (hq : (p + 5 + val : ℤ).toNat = q)
    (hnext : ∀ d, d.pc = p + 5 → Leaves cbuf.length code k c d → d.cptr = c.cptr →
      Good cbuf code d)
    (hjump : ∀ d, d.pc = q → Leaves cbuf.length code k c d → d.cptr = c.cptr →
      Good cbuf code d) : Good cbuf code c := by
  rw [← hpc] at ho
  refine good_op ho (sound_of_scope hs ho rfl trivial fun r hr => by cases hr) hs ?_
  intro d hd hdpc hdcptr c' hc'
  rcases List.mem_cons.1 hc' with rfl | hc'
  · exact hnext _ (by rw [← hpc, ← hdpc]; rfl) (hd.to _) hdcptr
  · obtain rfl := List.mem_singleton.1 hc'
    refine hjump _ ?_ (hd.to _) hdcptr
    rw [← hq, ← hpc, ← hdpc]
    rfl

theorem good_goto {val : ℤ} {q : ℕ} (ho : Op.decode (code.drop p) = .goto val) (hpc : c.pc = p)
    (hs : Scope cbuf.length code k c) (hq : (p + 5 + val : ℤ).toNat = q)
    (hjump : ∀ d, d.pc = q → Leaves cbuf.length code k c d → d.cptr = c.cptr →
      Good cbuf code d) : Good cbuf code c := by
  rw [← hpc] at ho
  refine good_op ho (sound_of_scope hs ho rfl trivial fun r hr => by cases hr) hs ?_
  intro d hd hdpc hdcptr c' hc'
  obtain rfl := List.mem_singleton.1 hc'
  refine hjump _ ?_ (hd.to _) hdcptr
  rw [← hq, ← hpc, ← hdpc]
  rfl

/-! ### Trees -/

/-- Where a node stands, and that its registers are there. -/
structure Place (code : List ℕ) (k p : ℕ) (loops : List ℕ) (a : Node) : Prop where
  ok : a.Ok (lreGetCaptureCount code)
  listing : Listing code p (a.ops id k)
  loops : AtLoops code p loops
  depth : 2 * lreGetCaptureCount code + k + a.depth ≤ lreGetAllocCount code
  stop : p + a.size ≤ code.length

/-- From the start of a node, if from its end all is well. -/
def Carries (cbuf code : List ℕ) (a : Node) : Prop :=
  ∀ {k p : ℕ} {loops : List ℕ} {c : Config}, Place code k p loops a → c.pc = p →
    Scope cbuf.length code k c → Exits cbuf code k (p + a.size) a.advances c → Good cbuf code c

theorem carries_cat (iha : Carries cbuf code a) (ihb : Carries cbuf code b) :
    Carries cbuf code (.cat a b) := by
  intro k p loops c hp hpc hs hexit
  have hl := hp.listing
  have hd := hp.depth
  have hstop := hp.stop
  rw [Node.ops, listing_append, length_bytes_ops] at hl
  rw [Node.depth] at hd
  rw [Node.size] at hstop hexit
  refine iha ⟨hp.ok.1, hl.1, hp.loops, by omega, by omega⟩ hpc hs ?_
  intro d hdpc hd hadv
  refine ihb ⟨hp.ok.2, hl.2, hp.loops.node hp.ok.1 hl.1, by omega, by omega⟩ hdpc (hd.scope hs) ?_
  rw [Nat.add_assoc]
  refine hexit.of_leaves hd le_rfl fun h => ?_
  rw [Node.advances, Bool.or_eq_true] at h
  exact h.symm.imp_right hadv

theorem carries_alt (iha : Carries cbuf code a) (ihb : Carries cbuf code b) :
    Carries cbuf code (.alt a b) := by
  intro k p loops c hp hpc hs hexit
  obtain ⟨h1, h2, h3, h4⟩ := listing_alt hp.listing
  have hd := hp.depth
  have hstop := hp.stop
  rw [Node.depth] at hd
  rw [Node.size] at hstop hexit
  have hla : AtLoops code (p + 5) loops := hp.loops.plain h1 rfl rfl
  have hlb : AtLoops code (p + 5 + a.size + 5) loops := (hla.node hp.ok.1 h2).plain h3 rfl rfl
  refine good_split h1 hpc hs (q := p + 5 + a.size + 5) (by omega) ?_ ?_
  · intro d hdpc hdl hdcptr
    refine iha ⟨hp.ok.1, h2, hla, by omega, by omega⟩ hdpc (hdl.scope hs) ?_
    intro e hepc hel _
    refine good_goto h3 hepc (hel.scope (hdl.scope hs)) (q := p + 5 + a.size + 5 + b.size)
      (by omega) ?_
    intro f hfpc hfl _
    exact hexit f (by omega) ((hdl.trans hel).trans hfl) (fun h => by cases h)
  · intro d hdpc hdl hdcptr
    refine ihb ⟨hp.ok.2, h4, hlb, by omega, by omega⟩ hdpc (hdl.scope hs) ?_
    intro e hepc hel _
    exact hexit e (by omega) (hdl.trans hel) (fun h => by cases h)

theorem carries_skip {greedy : Bool} (iha : Carries cbuf code a) :
    Carries cbuf code (.skip greedy a) := by
  intro k p loops c hp hpc hs hexit
  obtain ⟨h1, h2⟩ := listing_skip hp.listing
  have hd := hp.depth
  have hstop := hp.stop
  rw [Node.depth] at hd
  rw [Node.size] at hstop hexit
  refine good_split h1 hpc hs (q := p + 5 + a.size) (by omega) ?_ ?_
  · intro d hdpc hdl hdcptr
    refine iha ⟨hp.ok, h2, hp.loops.plain h1 rfl rfl, by omega, by omega⟩ hdpc (hdl.scope hs) ?_
    intro e hepc hel _
    exact hexit e (by omega) (hdl.trans hel) (fun h => by cases h)
  · intro d hdpc hdl hdcptr
    exact hexit d (by omega) hdl (fun h => by cases h)

/-- A loop without a counter: each turn goes forward. -/
theorem carries_star {greedy : Bool} (iha : Carries cbuf code a) :
    Carries cbuf code (.star greedy a) := by
  intro k p loops c hp
  obtain ⟨h1, h2, h3⟩ := listing_star hp.listing
  have hd := hp.depth
  have hstop := hp.stop
  rw [Node.depth] at hd
  rw [Node.size] at hstop
  rw [Node.size]
  obtain ⟨m, hm⟩ : ∃ m, cbuf.length - c.cptr ≤ m := ⟨_, le_rfl⟩
  induction m using Nat.strong_induction_on generalizing c with
  | _ m ih =>
    intro hpc hs hexit
    refine good_split h1 hpc hs (q := p + 5 + a.size + 5) (by omega) ?_ ?_
    · intro d hdpc hdl hdcptr
      refine iha ⟨hp.ok.1, h2, hp.loops.plain h1 rfl rfl, by omega, by omega⟩ hdpc (hdl.scope hs) ?_
      intro e hepc hel hadv
      refine good_goto h3 hepc (hel.scope (hdl.scope hs)) (q := p) (by omega) ?_
      intro f hfpc hfl hfcptr
      have hlt := hadv hp.ok.2
      have hfle := hfl.cptr_le
      have hcf : Leaves cbuf.length code k c f := (hdl.trans hel).trans hfl
      exact ih (cbuf.length - f.cptr) (by omega) le_rfl hfpc (hcf.scope hs)
        (hexit.of_leaves hcf le_rfl fun h => by cases h)
    · intro d hdpc hdl hdcptr
      exact hexit d (by omega) hdl (fun h => by cases h)

theorem carries_plus {greedy : Bool} (iha : Carries cbuf code a) :
    Carries cbuf code (.plus greedy a) := by
  intro k p loops c hp
  obtain ⟨h1, h2⟩ := listing_plus hp.listing
  have hd := hp.depth
  have hstop := hp.stop
  rw [Node.depth] at hd
  rw [Node.size] at hstop
  rw [Node.size]
  obtain ⟨m, hm⟩ : ∃ m, cbuf.length - c.cptr ≤ m := ⟨_, le_rfl⟩
  induction m using Nat.strong_induction_on generalizing c with
  | _ m ih =>
    intro hpc hs hexit
    refine iha ⟨hp.ok.1, h1, hp.loops, by omega, by omega⟩ hpc hs ?_
    intro d hdpc hdl hadv
    have hlt := hadv hp.ok.2
    refine good_split h2 hdpc (hdl.scope hs) (q := p) (by omega) ?_ ?_
    · intro e hepc hel hecptr
      exact hexit e (by omega) (hdl.trans hel) fun _ => by omega
    · intro e hepc hel hecptr
      have hce : Leaves cbuf.length code k c e := hdl.trans hel
      have hele := hce.cptr_le
      exact ih (cbuf.length - e.cptr) (by omega) le_rfl hepc (hce.scope hs)
        (hexit.of_leaves hce le_rfl fun _ => .inr (by omega))

/-! ### Loops with registers -/

/-- A short integer is stored in the register after those in use. -/
theorem Leaves.store {q s : ℕ} (hs : Scope n code k c) (hd : Leaves n code k c d)
    (hr : 2 * lreGetCaptureCount code + k < lreGetAllocCount code) (hv : v < 2 ^ 30)
    (hc' : c' = { d.writeReg q k (2 * lreGetCaptureCount code + k) v with pc := s }) :
    Leaves n code k c c' ∧ Scope n code (k + 1) c' ∧ c'.owner k = q
      ∧ c'.get (2 * lreGetCaptureCount code + k) = v := by
  subst hc'
  have hl := (hd.writeReg le_rfl q (v := v)).to s
  have hget : (d.write (2 * lreGetCaptureCount code + k) v).get (2 * lreGetCaptureCount code + k)
      = v := by
    refine Config.get_write ?_
    rw [hd.length, hs.length]
    exact hr
  refine ⟨hl, ⟨hl.cptr_le, hl.length.trans hs.length, ?_⟩, if_pos rfl, hget⟩
  intro r hrk
  rcases Nat.lt_succ_iff_lt_or_eq.1 hrk with h | rfl
  · rw [hl.regs r h]
    exact hs.regs r h
  · exact hget.trans_lt hv

/-- Without the last register. -/
theorem Scope.pred (hs : Scope n code (k + 1) c) : Scope n code k c :=
  ⟨hs.cptr_le, hs.length, fun r hr => hs.regs r (by omega)⟩

/-- The instruction that opens a loop stores a short integer in the next register. -/
theorem good_store (ho : Op.decode (code.drop p) = o) (hpc : c.pc = p)
    (hs : Scope cbuf.length code k c) (hcloses : o.closes = 0) (hreg : o.registers = [k])
    (hr : 2 * lreGetCaptureCount code + k < lreGetAllocCount code) (hop : o.Sound code c)
    (hv : v < 2 ^ 30)
    (hsucc : ∀ d : Config, d.cptr = c.cptr →
      o.succs cbuf code p d = [d.writeReg p k (2 * lreGetCaptureCount code + k) v])
    (hnext : ∀ d, d.pc = p + o.size → Leaves cbuf.length code k c d → d.cptr = c.cptr →
      Scope cbuf.length code (k + 1) d → d.get (2 * lreGetCaptureCount code + k) = v →
      d.owner k = p → Good cbuf code d) : Good cbuf code c := by
  have ho' := ho
  rw [← hpc] at ho'
  refine good_op ho' (sound_of_scope hs ho' hcloses hop fun r h => ?_) hs ?_
  · rw [hreg, List.mem_singleton] at h
    rw [h]
    exact hr
  · intro d hd hdpc hdcptr c' hc'
    have hafter : (d.after o).pc = p + o.size := by
      rw [← hpc, ← hdpc]
      rfl
    rw [hdpc, hpc, hsucc (d.after o) hdcptr] at hc'
    obtain rfl := List.mem_singleton.1 hc'
    obtain ⟨hl, hs', hown, hget⟩ := Leaves.store hs (hd.to (d.after o).pc) hr hv rfl
    exact hnext _ hafter hl hdcptr hs' hget hown

/-- What the end of a loop with a counter does: one less in the counter, then out of the loop or
back to its body at `s`, unless the counter is zero. -/
def Counts (cbuf code : List ℕ) (k q s : ℕ) (o : Op) : Prop :=
  ∀ (d : Config) (v : ℕ), d.pc = q + o.size →
    d.get (2 * lreGetCaptureCount code + k) = v + 1 → v + 1 < 2 ^ 30 →
    ∀ c' ∈ o.succs cbuf code q d, ∃ pc,
      c' = { d.writeReg q k (2 * lreGetCaptureCount code + k) v with pc := pc } ∧
      (pc = q + o.size ∨ pc = s ∧ v ≠ 0)

theorem succs_loop {val : ℤ} (h : toU32 (c.get (2 * lreGetCaptureCount code + r) - 1) = v) :
    (Op.loop r val).succs cbuf code p c
      = if v ≠ 0 then [(c.writeReg p r (2 * lreGetCaptureCount code + r) v).jump val]
        else [c.writeReg p r (2 * lreGetCaptureCount code + r) v] := by
  rw [← h]
  rfl

theorem succs_loopSplit {checkAdv nextFirst : Bool} {limit : ℕ} {val : ℤ}
    (h : toU32 (c.get (2 * lreGetCaptureCount code + r) - 1) = v) :
    (Op.loopSplit checkAdv nextFirst r limit val).succs cbuf code p c
      = let d := c.writeReg p r (2 * lreGetCaptureCount code + r) v
        if limit < v then [d.jump val]
        else if checkAdv ∧ d.get (2 * lreGetCaptureCount code + r + 1) = d.cptr ∧ v ≠ limit then []
        else if v ≠ 0 then [d, d.jump val]
        else [d] := by
  rw [← h]
  rfl

theorem toU32_pred (h : i = v + 1) (h' : v + 1 < 2 ^ 30) : toU32 (i - 1) = v := by
  unfold toU32
  omega

theorem Config.jump_eq {val : ℤ} {s : ℕ} (h : (c.pc + val).toNat = s) :
    c.jump val = { c with pc := s } := by
  rw [← h]
  rfl

theorem counts_loop {val : ℤ} {q s : ℕ} (hs : (q + 6 + val : ℤ).toNat = s) :
    Counts cbuf code k q s (.loop k val) := by
  intro d v hpc hget hlt c' hc'
  rw [succs_loop (toU32_pred hget hlt)] at hc'
  split_ifs at hc' with h <;> obtain rfl := List.mem_singleton.1 hc'
  · refine ⟨s, Config.jump_eq ?_, .inr ⟨rfl, h⟩⟩
    have hpc' : d.pc = q + 6 := hpc
    change ((d.pc : ℤ) + val).toNat = s
    omega
  · exact ⟨d.pc, rfl, .inl hpc⟩

theorem counts_loopSplit {checkAdv nextFirst : Bool} {limit : ℕ} {val : ℤ} {q s : ℕ}
    (hs : (q + 10 + val : ℤ).toNat = s) :
    Counts cbuf code k q s (.loopSplit checkAdv nextFirst k limit val) := by
  intro d v hpc hget hlt c' hc'
  have hjump : (d.writeReg q k (2 * lreGetCaptureCount code + k) v).jump val
      = { d.writeReg q k (2 * lreGetCaptureCount code + k) v with pc := s } := by
    have hpc' : d.pc = q + 10 := hpc
    refine Config.jump_eq ?_
    change ((d.pc : ℤ) + val).toNat = s
    omega
  rw [succs_loopSplit (toU32_pred hget hlt)] at hc'
  dsimp only at hc'
  split_ifs at hc' with h3 h4 h5
  · obtain rfl := List.mem_singleton.1 hc'
    exact ⟨s, hjump, .inr ⟨rfl, by omega⟩⟩
  · cases hc'
  · rcases List.mem_cons.1 hc' with rfl | hc'
    · exact ⟨d.pc, rfl, .inl hpc⟩
    · obtain rfl := List.mem_singleton.1 hc'
      exact ⟨s, hjump, .inr ⟨rfl, h5⟩⟩
  · obtain rfl := List.mem_singleton.1 hc'
    exact ⟨d.pc, rfl, .inl hpc⟩

/-- A loop with a counter in register `k`, by induction on the counter. -/
theorem good_counter {q s : ℕ} {adv : Bool} (ho : Op.decode (code.drop q) = o)
    (hr : 2 * lreGetCaptureCount code + k < lreGetAllocCount code)
    (hcounts : Counts cbuf code k q s o)
    (hbody : ∀ e, e.pc = s → Scope cbuf.length code (k + 1) e → e.owner k = p ∨ e.owner k = q →
      1 ≤ e.get (2 * lreGetCaptureCount code + k) →
      (∀ f, f.pc = q → Leaves cbuf.length code (k + 1) e f → (adv = true → e.cptr < f.cptr) →
        Sound cbuf.length code f → Good cbuf code f) → Good cbuf code e) :
    ∀ {v : ℕ} {e : Config}, e.pc = s → Scope cbuf.length code (k + 1) e →
      e.owner k = p ∨ e.owner k = q → e.get (2 * lreGetCaptureCount code + k) = v + 1 →
      Exits cbuf code k (q + o.size) adv e → Good cbuf code e := by
  intro v
  induction v using Nat.strong_induction_on with
  | _ v ih =>
    intro e hepc hes heo hev hexit
    refine hbody e hepc hes heo (by omega) ?_
    intro f hfpc hfl hadv hf
    have ho' := ho
    rw [← hfpc] at ho'
    refine good_op ho' hf (hfl.scope hes) ?_
    intro d hdl hdpc hdcptr c' hc'
    have hed : Leaves cbuf.length code (k + 1) e d := hfl.trans hdl
    have hget := (hed.regs k (Nat.lt_succ_self k)).trans hev
    have hlt := (hed.scope hes).regs k (Nat.lt_succ_self k)
    rw [hget] at hlt
    have hafter : (d.after o).pc = q + o.size := by
      rw [← hfpc, ← hdpc]
      rfl
    rw [hdpc, hfpc] at hc'
    obtain ⟨pc, hc', hpc⟩ := hcounts (d.after o) _ hafter hget hlt c' hc'
    obtain ⟨hel, hs', ho', hget'⟩ := Leaves.store hes.pred
      ((hed.mono (Nat.le_succ k)).to (d.after o).pc) hr (by omega) hc'
    have hecptr : adv = true → e.cptr < c'.cptr := fun h => by
      have h1 := hadv h
      have h2 : c'.cptr = d.cptr := by rw [hc']; rfl
      omega
    have hcpc : c'.pc = pc := by rw [hc']
    rcases hpc with rfl | ⟨rfl, hv⟩
    · exact hexit _ hcpc hel hecptr
    · obtain ⟨w, rfl⟩ := Nat.exists_eq_succ_of_ne_zero hv
      exact ih w (Nat.lt_succ_self w) hcpc hs' (.inr ho') hget'
        (hexit.of_leaves hel le_rfl fun h => .inl h)

theorem carries_guard (hn : cbuf.length < 2 ^ 30) (iha : Carries cbuf code a) :
    Carries cbuf code (.guard a) := by
  intro k p loops c hp hpc hs hexit
  obtain ⟨h1, h2, h3⟩ := listing_guard hp.listing
  have hd := hp.depth
  have hstop := hp.stop
  rw [Node.depth] at hd
  rw [Node.size] at hstop hexit
  refine good_store h1 hpc hs rfl rfl (by omega) trivial (hs.cptr_le.trans_lt hn)
    (fun d hd => by rw [← hd]; rfl) ?_
  intro d hdpc hdl hdcptr hds hdget hdown
  have hloops : AtLoops code (p + 2) (p :: loops) := hp.loops.opens h1 rfl
  refine iha ⟨hp.ok, h2, hloops, by omega, by omega⟩ hdpc hds ?_
  intro e hepc hel _
  have hes := hel.scope hds
  have heown : e.owner k = p := (hel.owner k (Nat.lt_succ_self k)).trans hdown
  have hl : AtLoops code e.pc ([p] ++ loops) := by
    rw [hepc]
    exact hloops.node hp.ok h2
  rw [← hepc] at h3
  refine good_op h3 (sound_close hes h3 hl (by omega) rfl trivial ?_ ?_) hes ?_
  · intro r hr
    rw [List.mem_singleton.1 hr]
    omega
  · intro x hx
    obtain rfl := List.mem_singleton.1 hx
    exact .inl heown
  · intro f hfl hfpc hfcptr c' hc'
    have hdf := (hel.trans hfl)
    have hget := (hdf.regs k (Nat.lt_succ_self k)).trans hdget
    have hcf := hdl.trans (hdf.mono (Nat.le_succ k))
    change c' ∈ (if f.get (2 * lreGetCaptureCount code + k) = f.cptr then [] else _) at hc'
    rw [hget] at hc'
    split_ifs at hc' with hne
    · cases hc'
    · obtain rfl := List.mem_singleton.1 hc'
      refine hexit _ ?_ (hcf.to _) fun _ => ?_
      · change f.pc + 2 = _
        omega
      · have := hcf.le_cptr
        change c.cptr < f.cptr
        omega

/-- A loop that counts the turns of its body down from `m`. -/
theorem good_turns {m : ℕ} (iha : Carries cbuf code a) (hok : a.Ok (lreGetCaptureCount code))
    (hm : 1 ≤ m) (hmax : m ≤ shortIntMax) (h1 : Op.decode (code.drop p) = .setI32 k m)
    (h2 : Listing code (p + 6) (a.ops id (k + 1)))
    (h3 : Op.decode (code.drop (p + 6 + a.size)) = o) (hl : AtLoops code p loops)
    (hd : 2 * lreGetCaptureCount code + k + (1 + a.depth) ≤ lreGetAllocCount code)
    (hstop : p + 6 + a.size ≤ code.length) (hcloses : o.closes = 1) (hreg : o.registers = [k])
    (hsound : ∀ f : Config, 1 ≤ f.get (2 * lreGetCaptureCount code + k) →
      f.get (2 * lreGetCaptureCount code + k) < 2 ^ 30 → o.Sound code f)
    (hcounts : Counts cbuf code k (p + 6 + a.size) (p + 6) o) (hpc : c.pc = p)
    (hs : Scope cbuf.length code k c)
    (hexit : Exits cbuf code k (p + 6 + a.size + o.size) a.advances c) : Good cbuf code c := by
  have hlt : m < 2 ^ 30 := lt_of_le_of_lt hmax (by norm_num [shortIntMax])
  refine good_store h1 hpc hs rfl rfl (by omega) hlt hlt (fun d _ => rfl) ?_
  intro d hdpc hdl hdcptr hds hdget hdown
  have hloops : AtLoops code (p + 6) (p :: loops) := hl.opens h1 rfl
  refine @good_counter _ _ _ p _ _ _ a.advances h3 (by omega) hcounts ?_ (m - 1) _ hdpc hds
    (.inl hdown) (by omega) (hexit.of_leaves hdl le_rfl fun h => .inl h)
  intro e hepc hes heown hepos hend
  refine iha ⟨hok, h2, hloops, by omega, by omega⟩ hepc hes ?_
  intro f hfpc hfl hadv
  have hfs := hfl.scope hes
  have hget := hfl.regs k (Nat.lt_succ_self k)
  have hl : AtLoops code f.pc ([p] ++ loops) := by
    rw [hfpc]
    exact hloops.node hok h2
  rw [← hfpc] at h3
  refine hend f hfpc hfl hadv (sound_close hfs h3 hl (by omega) hcloses ?_ ?_ ?_)
  · exact hsound f (hget.symm ▸ hepos) (hfs.regs k (Nat.lt_succ_self k))
  · intro r hr
    rw [hreg] at hr
    rw [List.mem_singleton.1 hr]
    omega
  · intro x hx
    rw [hreg] at hx
    obtain rfl := List.mem_singleton.1 hx
    rw [hfl.owner k (Nat.lt_succ_self k), hfpc]
    exact heown

theorem carries_times {m : ℕ} (iha : Carries cbuf code a) : Carries cbuf code (.times m a) := by
  intro k p loops c hp hpc hs hexit
  obtain ⟨h1, h2, h3⟩ := listing_times hp.listing
  have hstop := hp.stop
  obtain ⟨hok, hm, hmax⟩ := hp.ok
  rw [Node.size] at hstop hexit
  refine good_turns iha hok hm hmax h1 h2 h3 hp.loops hp.depth (by omega) rfl rfl
    (fun f h h' => ⟨h, h'⟩) (counts_loop (by omega)) hpc hs ?_
  have hend : p + (6 + a.size + 6) = p + 6 + a.size + 6 := by omega
  rw [hend] at hexit
  exact hexit

theorem carries_counted_false {greedy : Bool} {max limit : ℕ} (iha : Carries cbuf code a) :
    Carries cbuf code (.counted false greedy max limit a) := by
  intro k p loops c hp hpc hs hexit
  obtain ⟨h1, h2, h3⟩ := listing_counted_false hp.listing
  have hstop := hp.stop
  obtain ⟨hok, hm, hmax, -⟩ := hp.ok
  rw [Node.size, Bool.toNat_false] at hstop hexit
  refine good_turns iha hok hm hmax h1 h2 h3 hp.loops hp.depth (by omega) rfl rfl
    (fun f h h' => ⟨h, h'⟩) (counts_loopSplit (by omega)) hpc hs ?_
  have hend : p + (6 + 2 * 0 + a.size + 10) = p + 6 + a.size + 10 := by omega
  rw [hend] at hexit
  exact hexit

/-- With a check that each turn goes forward the position at its start is in a second register. -/
theorem carries_counted_true (hn : cbuf.length < 2 ^ 30) {greedy : Bool} {max limit : ℕ}
    (iha : Carries cbuf code a) : Carries cbuf code (.counted true greedy max limit a) := by
  intro k p loops c hp hpc hs hexit
  obtain ⟨h1, h2, h3, h4⟩ := listing_counted_true hp.listing
  have hd := hp.depth
  have hstop := hp.stop
  obtain ⟨hok, hm, hmax, -⟩ := hp.ok
  have hlt : max < 2 ^ 30 := lt_of_le_of_lt hmax (by norm_num [shortIntMax])
  rw [Node.depth, Bool.toNat_true] at hd
  rw [Node.size, Bool.toNat_true] at hstop hexit
  refine good_store h1 hpc hs rfl rfl (by omega) hlt hlt (fun d _ => rfl) ?_
  intro d hdpc hdl hdcptr hds hdget hdown
  have hloops : AtLoops code (p + 6) (p :: loops) := hp.loops.opens h1 rfl
  have hloops' : AtLoops code (p + 6 + 2) ((p + 6) :: p :: loops) := hloops.opens h2 rfl
  refine @good_counter _ _ _ p _ _ _ a.advances h4 (by omega)
    (counts_loopSplit (s := p + 6) (by omega)) ?_ (max - 1) _ hdpc hds (.inl hdown) (by omega) ?_
  · intro e hepc hes heown hepos hend
    refine good_store h2 hepc hes rfl rfl (by omega) trivial (hes.cptr_le.trans_lt hn)
      (fun f hf => by rw [← hf]; rfl) ?_
    intro f hfpc hfl hfcptr hfs hfget hfown
    refine iha ⟨hok, h3, hloops', by omega, by omega⟩ hfpc hfs ?_
    intro g hgpc hgl hadv
    have hgs := hgl.scope hfs
    have heg : Leaves cbuf.length code (k + 1) e g := hfl.trans (hgl.mono (Nat.le_succ _))
    have hget := heg.regs k (Nat.lt_succ_self k)
    have hl : AtLoops code g.pc ([p + 6, p] ++ loops) := by
      rw [hgpc]
      exact hloops'.node hok h3
    rw [← hgpc] at h4
    refine hend g hgpc heg (fun h => ?_) (sound_close hgs h4 hl (by omega) rfl ?_ ?_ ?_)
    · have := hadv h
      omega
    · exact ⟨hget.symm ▸ hepos, hgs.regs k (by omega)⟩
    · intro r hr
      simp only [Op.registers, List.mem_cons, List.not_mem_nil, or_false] at hr
      omega
    · intro x hx
      rcases List.mem_cons.1 hx with rfl | hx
      · rw [heg.owner k (Nat.lt_succ_self k), hgpc]
        exact heown
      · obtain rfl := List.mem_singleton.1 hx
        exact .inl ((hgl.owner (k + 1) (Nat.lt_succ_self _)).trans hfown)
  · refine (fun c' hc' hl hadv => hexit c' ?_ (hdl.trans hl) fun h => ?_)
    · rw [hc']
      change p + 6 + 2 + a.size + 10 = _
      omega
    · have := hadv h
      omega

theorem succs_lookahead {neg : Bool} {val : ℤ} {q : ℕ} (h : (c.pc + val).toNat = q) :
    (Op.lookahead neg val).succs cbuf code p c
      = { c with looks := (neg, c.cptr, q) :: c.looks }
        :: if neg then [{ c with pc := q }] else [] := by
  rw [← h]
  rfl

theorem succs_lookaheadMatch {cptr pc : ℕ} {looks : List (Bool × ℕ × ℕ)}
    (h : c.looks = (false, cptr, pc) :: looks) :
    (Op.lookaheadMatch false).succs cbuf code p c
      = [{ c with pc := pc, cptr := cptr, looks := looks }] := by
  simp only [Op.succs, h]

theorem carries_look {neg : Bool} (iha : Carries cbuf code a) :
    Carries cbuf code (.look neg a) := by
  intro k p loops c hp hpc hs hexit
  obtain ⟨h1, h2, h3⟩ := listing_look hp.listing
  have hd := hp.depth
  have hstop := hp.stop
  rw [Node.depth] at hd
  rw [Node.size] at hstop hexit
  rw [← hpc] at h1
  refine good_op h1 (sound_of_scope hs h1 rfl trivial fun r hr => by cases hr) hs ?_
  intro d hdl hdpc hdcptr c' hc'
  have hafter : (d.after (.lookahead neg (a.size + 1))).pc = p + 5 := by
    rw [← hpc, ← hdpc]
    rfl
  have htarget : (((d.after (.lookahead neg (a.size + 1))).pc : ℤ) + (a.size + 1)).toNat
      = p + (5 + a.size + 1) := by
    rw [hafter]
    omega
  rw [succs_lookahead htarget] at hc'
  rcases List.mem_cons.1 hc' with rfl | hc'
  · have hds : Scope cbuf.length code k
        { d.after (.lookahead neg (a.size + 1)) with
          looks := (neg, d.cptr, p + (5 + a.size + 1)) :: d.looks } :=
      ⟨(hdl.scope hs).cptr_le, (hdl.scope hs).length, (hdl.scope hs).regs⟩
    have hloops : AtLoops code (p + 5) loops := by
      rw [hpc] at h1
      exact hp.loops.plain h1 rfl rfl
    refine iha ⟨hp.ok, h2, hloops, by omega, by omega⟩ hafter hds ?_
    intro e hepc hel _
    have hes := hel.scope hds
    rw [← hepc] at h3
    refine good_op h3 (sound_of_scope hes h3 (by cases neg <;> rfl) ⟨d.cptr, _, d.looks, hel.looks⟩
      fun r hr => by cases neg <;> cases hr) hes ?_
    intro f hfl hfpc hfcptr c' hc'
    cases neg with
    | true => cases hc'
    | false =>
      have hlooks : f.looks = (false, d.cptr, p + (5 + a.size + 1)) :: d.looks :=
        hfl.looks.trans hel.looks
      rw [succs_lookaheadMatch (c := f.after (.lookaheadMatch false)) hlooks] at hc'
      obtain rfl := List.mem_singleton.1 hc'
      refine hexit _ rfl ?_ (fun h => by cases h)
      · have hdf := hel.trans hfl
        exact ⟨hdl.le_cptr, hdl.cptr_le, hdl.looks, hdf.length.trans hdl.length,
          fun r hr => (hdf.regs r hr).trans (hdl.regs r hr),
          fun r hr => (hdf.owner r hr).trans (hdl.owner r hr)⟩
  · cases neg with
    | false => cases hc'
    | true =>
      obtain rfl := List.mem_singleton.1 hc'
      exact hexit _ rfl (hdl.to _) (fun h => by cases h)

/-- If all is well from where the code of a tree ends, it is well from where it starts. -/
theorem good_node (hv : Valid cbuf) (hn : cbuf.length < 2 ^ 30) : ∀ a : Node, Carries cbuf code a
  | .nil => fun _ hpc hs hexit => hexit _ hpc (.refl hs) (fun h => by cases h)
  | .op _ => fun hp hpc hs hexit =>
    good_plain hv hp.ok (listing_singleton.1 hp.listing) hpc hs hexit
  | .cat a b => carries_cat (good_node hv hn a) (good_node hv hn b)
  | .alt a b => carries_alt (good_node hv hn a) (good_node hv hn b)
  | .skip _ a => carries_skip (good_node hv hn a)
  | .guard a => carries_guard hn (good_node hv hn a)
  | .star _ a => carries_star (good_node hv hn a)
  | .plus _ a => carries_plus (good_node hv hn a)
  | .times _ a => carries_times (good_node hv hn a)
  | .counted false _ _ _ a => carries_counted_false (good_node hv hn a)
  | .counted true _ _ _ a => carries_counted_true hn (good_node hv hn a)
  | .look _ a => carries_look (good_node hv hn a)

/-! ### Programs -/

theorem Sound.cut {capture : List ℕ} (h : Sound n code c)
    (hc : List.Forall₂ Cut capture c.capture) : Sound n code { c with capture := capture } := by
  refine ⟨h.cptr_le, hc.length_eq.trans h.length, ?_, h.registers, h.owner⟩
  have hop := h.op
  change (Op.decode (code.drop c.pc)).Sound code _
  cases hdec : Op.decode (code.drop c.pc) with
  | loop r val | loopSplit checkAdv nextFirst r limit val =>
    rw [hdec] at hop
    have hget := (forall₂_getD hc (2 * lreGetCaptureCount code + r)).eq_of_lt hop.2
    change 1 ≤ capture.getD _ 0 ∧ capture.getD _ 0 < 2 ^ 30
    rw [hget]
    exact hop
  | _ =>
    rw [hdec] at hop
    exact hop

/-- The undo log does no harm. -/
theorem Good.cut {capture : List ℕ} (h : Good cbuf code c)
    (hc : List.Forall₂ Cut capture c.capture) :
    Good cbuf code { c with capture := capture } := by
  refine h.congr (h.sound.cut hc) ?_
  rintro x ⟨capture', hc', hx⟩
  exact ⟨capture', forall₂_trans Cut.trans hc' hc, hx⟩

theorem Good.succ (h : Good cbuf code c) (hc : c' ∈ succs cbuf code c) : Good cbuf code c' :=
  h.next ⟨c.capture, List.forall₂_same.2 fun x _ => Cut.refl x, hc⟩

/-- Every program starts well. -/
theorem Program.good (prog : Program) (str : Subject) {capture : List ℕ}
    (hlen : capture.length = lreGetAllocCount prog.code) {cindex : ℕ}
    (hc : cindex ≤ str.buf.length) :
    Good str.buf prog.code ⟨headerLen, cindex, capture, [], fun _ => 0⟩ := by
  obtain ⟨cc, rc, top, h⟩ := jsParseRegexp_tree prog.compiled
  have hcc := h.captureCount
  have hdrop : (prog.code.drop headerLen).length = top.size + 1 := by
    rw [h.body, List.length_append, length_bytes_ops]
    rfl
  have hsize : headerLen + top.size < prog.code.length := by
    rw [List.length_drop] at hdrop
    omega
  have hshort := prog.short
  have hfits : ∀ o ∈ top.ops id 0 ++ [Op.match_], o.Fits ∧ o.Near := by
    intro o ho
    rcases List.mem_append.1 ho with ho | ho
    · refine Node.ops_fit id h.ok ?_ o ho
      unfold jsByteArraySizeMax at hshort
      omega
    · rw [List.mem_singleton.1 ho]
      exact ⟨trivial, trivial⟩
  have hbody : prog.code.drop headerLen = bytes (top.ops id 0 ++ [Op.match_]) ++ [] := by
    rw [h.body, bytes_append, bytes_singleton, List.append_nil]
  have hlist := listing_append.1 (listing_of_code hfits hbody)
  rw [length_bytes_ops, listing_singleton] at hlist
  have hstart : Scope str.buf.length prog.code 0 ⟨headerLen, cindex, capture, [], fun _ => 0⟩ :=
    ⟨hc, hlen, fun r hr => absurd hr (Nat.not_lt_zero r)⟩
  have hdepth := h.depth_le
  have halloc := h.allocCount
  rw [← hcc] at halloc
  refine @good_node _ _ str.valid str.short top _ _ [] _ ⟨hcc ▸ h.ok, hlist.1, ?_, by omega,
    hsize.le⟩ rfl hstart ?_
  · intro target _ _
    rfl
  · intro c hpc hl _
    have hmatch := hlist.2
    rw [← hpc] at hmatch
    refine good_op hmatch (sound_of_scope (hl.scope hstart) hmatch rfl trivial fun r hr => by
      cases hr) (hl.scope hstart) ?_
    intro d _ _ _ c' hc'
    cases hc'

/-- Every path of a program is sound. -/
theorem Program.path_good (prog : Program) (str : Subject) {capture : List ℕ}
    (hlen : capture.length = lreGetAllocCount prog.code)
    (h : Path str.buf prog.code capture c) : Good str.buf prog.code c := by
  induction h with
  | start cindex hc => exact prog.good str hlen hc
  | cut _ hcut ih => exact ih.cut hcut
  | step _ hc ih => exact ih.succ hc

end Qjs.Regexp
