import Qjs.StackSize
import Qjs.Proofs.Pc2line

/-!
# What the walk over the bytecode knows

A walk that ends without an error has visited places with a number of values each, and has noted the
places after them (`Walked`). Where no two paths come to one place with numbers that differ by a
multiple of 255, it has visited all that the paths of the walk reach (`Flow.visited`). A run that
stays on these paths keeps to the computed size (`computeStackSize_covers`); the walk does not follow
a caught exception, and does not count the return address of `gosub`.
-/

namespace Qjs

theorem bind_eq_ok {ε α β : Type} {x : Except ε α} {f : α → Except ε β} {r : β}
    (h : x >>= f = .ok r) : ∃ y, x = .ok y ∧ f y = .ok r := by
  cases x with
  | error e => cases h
  | ok y => exact ⟨y, rfl, h⟩

variable {code : List ℕ}

/-! ### Paths of the walk -/

/-- The places that the walk comes to, with the number of values. -/
inductive Flow (code : List ℕ) : ℕ → ℕ → Prop
  | start : Flow code 0 0
  | next {pos d len pos' d' : ℕ} {succs : List (ℕ × ℕ)} (h : Flow code pos d)
      (hw : walkInstr code pos d = .ok (len, succs)) (hs : (pos', d') ∈ succs) : Flow code pos' d'

/-- No two paths come to one place with numbers of values that the table does not tell apart. -/
def FlowDistinct (code : List ℕ) : Prop :=
  ∀ pos d d', Flow code pos d → Flow code pos d' → d % 255 = d' % 255 → d = d'

/-- What is left when the walk has ended. -/
structure Walked (code : List ℕ) (n : ℕ) (tab : List ℕ) (visited : List (ℕ × ℕ)) : Prop where
  start : getU8 tab 0 = 1
  mark : ∀ pos, getU8 tab pos ≠ 0 → ∃ d, (pos, d) ∈ visited
  marked : ∀ pos d, (pos, d) ∈ visited → getU8 tab pos = 1 + d % 255
  flow : ∀ pos d, (pos, d) ∈ visited → Flow code pos d
  closed : ∀ pos d, (pos, d) ∈ visited → ∃ len succs, walkInstr code pos d = .ok (len, succs)
    ∧ len ≤ n ∧ ∀ pos' d', (pos', d') ∈ succs → pos' < code.length ∧ getU8 tab pos' = 1 + d' % 255

/-- Everything on the paths has been visited. -/
theorem Flow.visited {n pos d : ℕ} {tab : List ℕ} {visited : List (ℕ × ℕ)}
    (hw : Walked code n tab visited) (hd : FlowDistinct code) (h : Flow code pos d) :
    (pos, d) ∈ visited := by
  have key : ∀ {pos d}, Flow code pos d → getU8 tab pos = 1 + d % 255 → (pos, d) ∈ visited := by
    intro pos d hf hm
    obtain ⟨d', hd'⟩ := hw.mark pos (by omega)
    have hm' := hw.marked pos d' hd'
    rwa [hd pos d d' hf (hw.flow pos d' hd') (by omega)]
  induction h with
  | start => exact key .start hw.start
  | next h hwalk hs ih =>
    obtain ⟨len', succs', hwalk', -, hall⟩ := hw.closed _ _ ih
    rw [hwalk] at hwalk'
    cases hwalk'
    exact key (.next h hwalk hs) (hall _ _ hs).2

/-! ### One instruction of the walk -/

theorem walkInstr_ok {pos d len : ℕ} {succs : List (ℕ × ℕ)}
    (h : walkInstr code pos d = .ok (len, succs)) :
    ∃ op, opcodeOf (getU8 code pos) = some op ∧ instrPop code op pos ≤ d
      ∧ pos + op.size ≤ code.length
      ∧ len = d + (opcodeInfo op).nPush - instrPop code op pos
      ∧ succs = walkNext code op pos len := by
  unfold walkInstr at h
  split at h
  · cases h
  · cases h
  · rename_i op hne hop
    split_ifs at h with h1 h2
    cases h
    exact ⟨op, hop, by omega, by omega, rfl, rfl⟩

/-! ### The loop without collections -/

theorem computeStackSizePush_none (s : Explore) (pos d : ℕ) :
    computeStackSizePush code none s pos d
      = if pos ≥ code.length then .error (.bytecodeOverflow pos)
        else if getU8 s.tab pos ≠ 0 then
          if getU8 s.tab pos ≠ 1 + d % 255 then
            .error (.inconsistent (getU8 s.tab pos - 1) (1 + d % 255 - 1) pos)
          else .ok (s, false)
        else .ok (⟨s.tab.set pos (1 + d % 255), (pos, d) :: s.work, s.stackSize⟩, true) := rfl

/-- What a push does when the pointers are good. -/
theorem computeStackSizePush_ok {s s' : Explore} {pos d : ℕ} {b : Bool}
    (h : computeStackSizePush code none s pos d = .ok (s', b)) :
    pos < code.length ∧ s'.stackSize = s.stackSize
      ∧ ((getU8 s.tab pos = 1 + d % 255 ∧ s' = s)
        ∨ (getU8 s.tab pos = 0 ∧ s'.tab = s.tab.set pos (1 + d % 255)
          ∧ s'.work = (pos, d) :: s.work)) := by
  rw [computeStackSizePush_none] at h
  by_cases h1 : pos ≥ code.length
  · rw [if_pos h1] at h
    cases h
  rw [if_neg h1] at h
  by_cases h2 : getU8 s.tab pos = 0
  · rw [if_neg (not_not.2 h2)] at h
    cases h
    exact ⟨by omega, rfl, .inr ⟨h2, rfl, rfl⟩⟩
  rw [if_pos h2] at h
  by_cases h3 : getU8 s.tab pos = 1 + d % 255
  · rw [if_neg (not_not.2 h3)] at h
    cases h
    exact ⟨by omega, rfl, .inl ⟨h3, rfl⟩⟩
  · rw [if_pos h3] at h
    cases h

/-- Marks are only added. -/
def MarksLe (tab tab' : List ℕ) : Prop := ∀ pos, getU8 tab pos ≠ 0 → getU8 tab' pos = getU8 tab pos

theorem MarksLe.refl (tab : List ℕ) : MarksLe tab tab := fun _ _ => rfl

theorem MarksLe.trans {tab tab' tab'' : List ℕ} (h1 : MarksLe tab tab') (h2 : MarksLe tab' tab'') :
    MarksLe tab tab'' := by
  intro pos hpos
  have := h1 pos hpos
  rw [h2 pos (by rwa [this]), this]

/-- The part of the invariant that a push keeps, whatever has been visited. -/
structure PushInv (code : List ℕ) (s : Explore) (visited : List (ℕ × ℕ)) : Prop where
  length_eq : s.tab.length = code.length
  mark : ∀ pos, getU8 s.tab pos ≠ 0 → ∃ d, (pos, d) ∈ visited ++ s.work
  marked : ∀ pos d, (pos, d) ∈ visited ++ s.work → getU8 s.tab pos = 1 + d % 255
  flow : ∀ pos d, (pos, d) ∈ visited ++ s.work → Flow code pos d

theorem PushInv.push {s s' : Explore} {visited : List (ℕ × ℕ)} {pos d : ℕ} {b : Bool}
    (h : PushInv code s visited) (hf : Flow code pos d)
    (hp : computeStackSizePush code none s pos d = .ok (s', b)) :
    PushInv code s' visited ∧ MarksLe s.tab s'.tab ∧ s'.stackSize = s.stackSize
      ∧ pos < code.length ∧ getU8 s'.tab pos = 1 + d % 255 := by
  obtain ⟨hlt, hsize, ⟨hm, rfl⟩ | ⟨hz, htab, hwork⟩⟩ := computeStackSizePush_ok hp
  · exact ⟨h, .refl _, rfl, hlt, hm⟩
  have hget : ∀ k, getU8 s'.tab k = if k = pos then 1 + d % 255 else getU8 s.tab k := by
    intro k
    rw [htab, getU8_set (by rw [h.length_eq]; exact hlt)]
  have hmem : ∀ x, x ∈ visited ++ s'.work ↔ x = (pos, d) ∨ x ∈ visited ++ s.work := by
    intro x
    simp only [hwork, List.mem_append, List.mem_cons]
    tauto
  refine ⟨⟨?_, ?_, ?_, ?_⟩, ?_, hsize, hlt, by rw [hget, if_pos rfl]⟩
  · rw [htab, List.length_set, h.length_eq]
  · intro k hk
    rw [hget] at hk
    split_ifs at hk with hkp
    · exact ⟨d, (hmem _).2 (.inl (by rw [hkp]))⟩
    · obtain ⟨d', hd'⟩ := h.mark k hk
      exact ⟨d', (hmem _).2 (.inr hd')⟩
  · intro k d' hd'
    rw [hget]
    rcases (hmem _).1 hd' with he | hd'
    · cases he
      rw [if_pos rfl]
    · have := h.marked k d' hd'
      rw [if_neg (by rintro rfl; omega), this]
  · intro k d' hd'
    rcases (hmem _).1 hd' with he | hd'
    · cases he
      exact hf
    · exact h.flow k d' hd'
  · intro k hk
    rw [hget, if_neg (by rintro rfl; exact hk hz)]

/-- No collection makes the pointers stale between two pushes. -/
def NoBranchGc (gc : ℕ → Bool → Option Stale) : Prop := ∀ i, gc i true = none

variable {gc : ℕ → Bool → Option Stale}

theorem PushInv.pushes {s s' : Explore} {visited : List (ℕ × ℕ)} {i : ℕ} {v : Option Stale}
    (hgc : NoBranchGc gc) {succs : List (ℕ × ℕ)} (hlen : succs.length ≤ 2)
    (h : PushInv code s visited) (hf : ∀ pos d, (pos, d) ∈ succs → Flow code pos d)
    (hp : computeStackSizePushes code gc i s succs = .ok (s', v)) :
    PushInv code s' visited ∧ MarksLe s.tab s'.tab ∧ s'.stackSize = s.stackSize
      ∧ ∀ pos d, (pos, d) ∈ succs → pos < code.length ∧ getU8 s'.tab pos = 1 + d % 255 := by
  match succs, hlen with
  | [], _ =>
    cases hp
    exact ⟨h, .refl _, rfl, by simp⟩
  | [(pos, d)], _ =>
    simp only [computeStackSizePushes] at hp
    obtain ⟨⟨s₁, b₁⟩, h₁, hp⟩ := bind_eq_ok hp
    cases hp
    obtain ⟨hi, hle, hsz, hlt, hm⟩ := h.push (hf pos d (by simp)) h₁
    refine ⟨hi, hle, hsz, ?_⟩
    intro pos' d' hmem
    rw [List.mem_singleton] at hmem
    cases hmem
    exact ⟨hlt, hm⟩
  | [(pos₁, d₁), (pos₂, d₂)], _ =>
    simp only [computeStackSizePushes] at hp
    obtain ⟨⟨s₁, b₁⟩, h₁, hp⟩ := bind_eq_ok hp
    simp only [hgc i, ite_self] at hp
    obtain ⟨⟨s₂, b₂⟩, h₂, hp⟩ := bind_eq_ok hp
    cases hp
    obtain ⟨hi₁, hle₁, hsz₁, hlt₁, hm₁⟩ := h.push (hf pos₁ d₁ (by simp)) h₁
    obtain ⟨hi₂, hle₂, hsz₂, hlt₂, hm₂⟩ := hi₁.push (hf pos₂ d₂ (by simp)) h₂
    refine ⟨hi₂, hle₁.trans hle₂, hsz₂.trans hsz₁, ?_⟩
    intro pos' d' hmem
    simp only [List.mem_cons, List.not_mem_nil, or_false] at hmem
    rcases hmem with he | he
    · cases he
      exact ⟨hlt₁, by rw [hle₂ _ (by omega), hm₁]⟩
    · cases he
      exact ⟨hlt₂, hm₂⟩

/-- The state of the walk: what has been visited and what is still to be done. -/
structure WalkInv (code : List ℕ) (s : Explore) (visited : List (ℕ × ℕ)) : Prop extends
    PushInv code s visited where
  start : getU8 s.tab 0 = 1
  closed : ∀ pos d, (pos, d) ∈ visited → ∃ len succs, walkInstr code pos d = .ok (len, succs)
    ∧ len ≤ s.stackSize
    ∧ ∀ pos' d', (pos', d') ∈ succs → pos' < code.length ∧ getU8 s.tab pos' = 1 + d' % 255

theorem walkNext_length_le (op : OPCodeEnum) (pos len : ℕ) :
    (walkNext code op pos len).length ≤ 2 := by
  unfold walkNext
  split <;> simp

/-- A turn of the loop: the instruction, with the size as it is after it, and the pushes. -/
theorem computeStackSizeTurn_ok {i pos d : ℕ} {s s' : Explore} {v : Option Stale}
    (h : computeStackSizeTurn code gc i s pos d = .ok (s', v)) :
    ∃ len succs, walkInstr code pos d = .ok (len, succs)
      ∧ computeStackSizePushes code gc i ⟨s.tab, s.work, max s.stackSize len⟩ succs
        = .ok (s', v) := by
  unfold computeStackSizeTurn at h
  obtain ⟨⟨len, succs⟩, hw, h⟩ := bind_eq_ok h
  refine ⟨len, succs, hw, ?_⟩
  simp only at h
  by_cases hlen : len > s.stackSize
  · rw [if_pos hlen] at h
    by_cases hmax : len > jsMaxFuncStackSize
    · rw [if_pos hmax] at h
      cases h
    · rw [if_neg hmax] at h
      rwa [max_eq_right hlen.le]
  · rw [if_neg hlen] at h
    rwa [max_eq_left (not_lt.1 hlen)]

theorem WalkInv.turn {i pos d : ℕ} {s s' : Explore} {v : Option Stale} {work visited : List (ℕ × ℕ)}
    (hgc : NoBranchGc gc) (h : WalkInv code s visited) (hs : s.work = (pos, d) :: work)
    (ht : computeStackSizeTurn code gc i { s with work := work } pos d = .ok (s', v)) :
    WalkInv code s' ((pos, d) :: visited) := by
  obtain ⟨len, succs, hw, hp⟩ := computeStackSizeTurn_ok ht
  obtain ⟨op, -, -, -, -, hsuccs⟩ := walkInstr_ok hw
  have hmem : ∀ x, x ∈ (pos, d) :: visited ++ work ↔ x ∈ visited ++ s.work := by
    intro x
    simp only [hs, List.mem_append, List.mem_cons]
    tauto
  have hflow := h.flow pos d ((hmem _).1 List.mem_cons_self)
  have hpush : PushInv code ⟨s.tab, work, max s.stackSize len⟩ ((pos, d) :: visited) := by
    refine ⟨h.length_eq, ?_, ?_, ?_⟩
    · intro k hk
      obtain ⟨d', hd'⟩ := h.mark k hk
      exact ⟨d', (hmem _).2 hd'⟩
    · exact fun k d' hd' => h.marked k d' ((hmem _).1 hd')
    · exact fun k d' hd' => h.flow k d' ((hmem _).1 hd')
  obtain ⟨hinv, hle, hsize, hall⟩ := hpush.pushes hgc (by rw [hsuccs]; exact walkNext_length_le ..)
    (fun pos' d' hs' => .next hflow hw hs') hp
  simp only at hle hsize
  refine ⟨hinv, ?_, ?_⟩
  · rw [hle 0 (by rw [h.start]; norm_num), h.start]
  · intro k d' hd'
    rcases List.mem_cons.1 hd' with he | hd'
    · cases he
      exact ⟨len, succs, hw, by omega, hall⟩
    · obtain ⟨len', succs', hw', hlen', hall'⟩ := h.closed k d' hd'
      refine ⟨len', succs', hw', by omega, ?_⟩
      intro k' d'' hs'
      obtain ⟨hlt, hm⟩ := hall' k' d'' hs'
      exact ⟨hlt, by rw [hle k' (by omega), hm]⟩

theorem walked_of_loop (hgc : NoBranchGc gc) {n : ℕ} : ∀ {fuel i : ℕ} {s : Explore}
    {visited : List (ℕ × ℕ)}, WalkInv code s visited →
    computeStackSizeLoop code gc fuel i s = some (.ok n) →
    ∃ tab visited', Walked code n tab visited'
  | 0, _, _, _, _, hl => by cases hl
  | fuel + 1, i, s, visited, h, hl => by
    rw [computeStackSizeLoop] at hl
    split at hl
    · rename_i hwork
      cases hl
      refine ⟨s.tab, visited, h.start, ?_, ?_, ?_, h.closed⟩
      · intro pos hpos
        obtain ⟨d, hd⟩ := h.mark pos hpos
        rw [hwork, List.append_nil] at hd
        exact ⟨d, hd⟩
      · exact fun pos d hd => h.marked pos d (List.mem_append_left _ hd)
      · exact fun pos d hd => h.flow pos d (List.mem_append_left _ hd)
    · rename_i pos d work hwork
      split at hl
      · cases hl
      · rename_i s' v hturn
        exact walked_of_loop hgc (h.turn hgc hwork hturn) hl

theorem walked_of_accepted (hgc : NoBranchGc gc) {fuel n : ℕ}
    (h : computeStackSize code gc fuel = some (.ok n)) :
    ∃ tab visited, Walked code n tab visited := by
  unfold computeStackSize at h
  split at h
  · cases h
  · rename_i s b hpush
    have hinit : PushInv code ⟨List.replicate code.length 0, [], 0⟩ [] := by
      have hzero : ∀ k, getU8 (List.replicate code.length 0) k = 0 := by
        intro k
        simp [getU8]
      exact ⟨by simp, fun k hk => absurd (hzero k) hk, by simp, by simp⟩
    obtain ⟨hinv, -, -, -, hstart⟩ := hinit.push .start hpush
    exact walked_of_loop hgc ⟨hinv, hstart, by simp⟩ h

/-! ### Collections -/

theorem computeStackSizePushes_gc (hgc : NoBranchGc gc) (i : ℕ) (s : Explore)
    (succs : List (ℕ × ℕ)) :
    (computeStackSizePushes code gc i s succs).map Prod.fst
      = (computeStackSizePushes code (fun _ _ => none) i s succs).map Prod.fst := by
  match succs with
  | [] => rfl
  | [(pos, d)] =>
    simp only [computeStackSizePushes]
    cases computeStackSizePush code none s pos d <;> rfl
  | (pos₁, d₁) :: (pos₂, d₂) :: _ =>
    simp only [computeStackSizePushes]
    cases computeStackSizePush code none s pos₁ d₁ with
    | error e => rfl
    | ok r =>
      simp only [hgc i, ite_self, Except.bind, bind]
      cases computeStackSizePush code none r.1 pos₂ d₂ <;> rfl

theorem computeStackSizeTurn_gc (hgc : NoBranchGc gc) (i : ℕ) (s : Explore) (pos d : ℕ) :
    (computeStackSizeTurn code gc i s pos d).map Prod.fst
      = (computeStackSizeTurn code (fun _ _ => none) i s pos d).map Prod.fst := by
  unfold computeStackSizeTurn
  cases walkInstr code pos d with
  | error e => rfl
  | ok r =>
    simp only [Except.bind, bind]
    split_ifs
    · rfl
    · exact computeStackSizePushes_gc hgc i _ _
    · exact computeStackSizePushes_gc hgc i _ _

/-- What a turn leaves, without the pointers. -/
theorem computeStackSizeLoop_succ (fuel i : ℕ) (s : Explore) :
    computeStackSizeLoop code gc (fuel + 1) i s
      = match s.work with
        | [] => some (.ok s.stackSize)
        | (pos, d) :: work =>
          match (computeStackSizeTurn code gc i { s with work := work } pos d).map Prod.fst with
          | .error e => some (.error e)
          | .ok s => computeStackSizeLoop code gc fuel (i + 1) s := by
  rw [computeStackSizeLoop]
  cases s.work with
  | nil => rfl
  | cons w work =>
    obtain ⟨pos, d⟩ := w
    simp only
    cases computeStackSizeTurn code gc i { s with work := work } pos d <;> rfl

theorem computeStackSizeLoop_gc (hgc : NoBranchGc gc) : ∀ (fuel i : ℕ) (s : Explore),
    computeStackSizeLoop code gc fuel i s = computeStackSizeLoop code (fun _ _ => none) fuel i s
  | 0, _, _ => rfl
  | fuel + 1, i, s => by
    rw [computeStackSizeLoop_succ, computeStackSizeLoop_succ]
    cases s.work with
    | nil => rfl
    | cons w work =>
      obtain ⟨pos, d⟩ := w
      simp only [computeStackSizeTurn_gc hgc]
      split
      · rfl
      · exact computeStackSizeLoop_gc hgc fuel (i + 1) _

theorem computeStackSize_gc (hgc : NoBranchGc gc) (fuel : ℕ) :
    computeStackSize code gc fuel = computeStackSize code (fun _ _ => none) fuel := by
  unfold computeStackSize
  split
  · rfl
  · exact computeStackSizeLoop_gc hgc fuel 0 _

/-! ### The walk ends -/

/-- Places not yet seen and places still to be done. -/
def walkLeft (s : Explore) : ℕ := s.tab.countP (· = 0) + s.work.length

theorem computeStackSizePush_left {s s' : Explore} {pos d : ℕ} {b : Bool}
    (hlen : s.tab.length = code.length)
    (h : computeStackSizePush code none s pos d = .ok (s', b)) :
    s'.tab.length = code.length ∧ walkLeft s' = walkLeft s := by
  obtain ⟨hlt, -, ⟨-, rfl⟩ | ⟨hz, htab, hwork⟩⟩ := computeStackSizePush_ok h
  · exact ⟨hlen, rfl⟩
  have hpos : pos < s.tab.length := by rwa [hlen]
  have hget : s.tab[pos] = 0 := by
    rw [← hz]
    exact (List.getD_eq_getElem _ _ hpos).symm
  refine ⟨by rw [htab, List.length_set, hlen], ?_⟩
  have hcount : 0 < s.tab.countP (· = 0) :=
    List.countP_pos_iff.2 ⟨0, by rw [← hget]; exact List.getElem_mem hpos, by simp⟩
  unfold walkLeft
  rw [htab, hwork, List.countP_set hpos, List.length_cons]
  simp [hget]
  omega

theorem computeStackSizePushes_left (hgc : NoBranchGc gc) {i : ℕ} {s s' : Explore}
    {v : Option Stale} {succs : List (ℕ × ℕ)} (hlen : s.tab.length = code.length)
    (h : computeStackSizePushes code gc i s succs = .ok (s', v)) :
    s'.tab.length = code.length ∧ walkLeft s' = walkLeft s := by
  match succs with
  | [] =>
    cases h
    exact ⟨hlen, rfl⟩
  | [(pos, d)] =>
    simp only [computeStackSizePushes] at h
    obtain ⟨⟨s₁, b₁⟩, h₁, h⟩ := bind_eq_ok h
    cases h
    exact computeStackSizePush_left hlen h₁
  | (pos₁, d₁) :: (pos₂, d₂) :: _ =>
    simp only [computeStackSizePushes] at h
    obtain ⟨⟨s₁, b₁⟩, h₁, h⟩ := bind_eq_ok h
    simp only [hgc i, ite_self] at h
    obtain ⟨⟨s₂, b₂⟩, h₂, h⟩ := bind_eq_ok h
    cases h
    obtain ⟨hl₁, he₁⟩ := computeStackSizePush_left hlen h₁
    obtain ⟨hl₂, he₂⟩ := computeStackSizePush_left hl₁ h₂
    exact ⟨hl₂, he₂.trans he₁⟩

theorem computeStackSizeLoop_isSome (hgc : NoBranchGc gc) : ∀ {fuel i : ℕ} {s : Explore},
    s.tab.length = code.length → walkLeft s < fuel →
    (computeStackSizeLoop code gc fuel i s).isSome
  | 0, _, _, _, hf => by omega
  | fuel + 1, i, s, hlen, hf => by
    rw [computeStackSizeLoop]
    split
    · rfl
    · rename_i pos d work hwork
      split
      · rfl
      · rename_i s' v hturn
        obtain ⟨len, succs, -, hp⟩ := computeStackSizeTurn_ok hturn
        have hlen₀ : (⟨s.tab, work, max s.stackSize len⟩ : Explore).tab.length = code.length := hlen
        obtain ⟨hlen', hleft⟩ := computeStackSizePushes_left hgc hlen₀ hp
        refine computeStackSizeLoop_isSome hgc hlen' ?_
        unfold walkLeft at hf hleft ⊢
        rw [hwork, List.length_cons] at hf
        simp only at hleft
        omega

/-- One turn for each byte is enough. -/
theorem computeStackSize_isSome (hgc : NoBranchGc gc) {fuel : ℕ} (hf : code.length < fuel) :
    (computeStackSize code gc fuel).isSome := by
  unfold computeStackSize
  split
  · rfl
  · rename_i s b hpush
    obtain ⟨hlen, hleft⟩ := computeStackSizePush_left (by simp) hpush
    refine computeStackSizeLoop_isSome hgc hlen ?_
    rw [hleft]
    simpa [walkLeft, List.countP_replicate] using hf

/-! ### Steps of a frame -/

attribute [simp] opcodeInfo

/-- The table has the effect of the interpreter. -/
theorem plainEffect_eq {pos need pop push : ℕ} {op : OPCodeEnum}
    (h : plainEffect (getU16 code (pos + 1)) op = some (need, pop, push)) :
    need = instrPop code op pos ∧ pop ≤ need ∧ push + (need - pop) = (opcodeInfo op).nPush := by
  unfold instrPop
  generalize getU16 code (pos + 1) = arg at *
  cases op <;> cases h <;>
    first
    | exact ⟨rfl, by decide, rfl⟩
    | exact ⟨by simp [opcodeInfo, Nat.add_comm], le_rfl, by rw [Nat.sub_self]; rfl⟩

theorem shuffle_length {pos : ℕ} {op : OPCodeEnum} {stack stack' : List Slot}
    (h : shuffle op stack = some stack') :
    instrPop code op pos ≤ stack.length
      ∧ stack'.length = stack.length + (opcodeInfo op).nPush - instrPop code op pos := by
  unfold shuffle at h
  split at h <;> cases h <;> simp [instrPop, opcodeInfo]

theorem plainEffect_next {arg pos len : ℕ} {op : OPCodeEnum} (h : plainEffect arg op ≠ none) :
    walkNext code op pos len = [(pos + op.size, len)] := by
  cases op <;> first | rfl | exact absurd rfl h

theorem shuffle_next {pos len : ℕ} {op : OPCodeEnum} {stack : List Slot}
    (h : shuffle op stack ≠ none) :
    walkNext code op pos len = [(pos + op.size, len)] := by
  cases op <;> first | rfl | exact absurd (by simp [shuffle]) h

/-- Where the interpreter and the walk agree on the target of a jump. -/
theorem jumpTarget_eq {pos : ℕ} (hcode : code.length ≤ jsByteArraySizeMax) (hpos : pos ≤ code.length)
    (hbytes : ∀ b ∈ code, b < 2 ^ 8) (ht : labelTarget code pos < code.length) :
    jumpTarget code pos = labelTarget code pos := by
  have h0 := getU8_lt hbytes pos
  have h1 := getU8_lt hbytes (pos + 1)
  have h2 := getU8_lt hbytes (pos + 2)
  have h3 := getU8_lt hbytes (pos + 2 + 1)
  have hword : getU32 code pos < 2 ^ 32 := by
    unfold getU32 getU16
    omega
  unfold jumpTarget labelTarget at *
  unfold jsByteArraySizeMax at hcode
  simp only
  split_ifs <;> omega

/-- A step that the walk follows. -/
theorem FrameStep.flow_mem (hcode : code.length ≤ jsByteArraySizeMax)
    (hbytes : ∀ b ∈ code, b < 2 ^ 8) {s s' : FrameState} {len : ℕ} {succs : List (ℕ × ℕ)}
    (h : FrameStep code .flow s s') (hw : walkInstr code s.pc s.stack.length = .ok (len, succs))
    (hlt : ∀ pos d, (pos, d) ∈ succs → pos < code.length) :
    s'.stack.length = len ∧ (s'.pc, len) ∈ succs := by
  obtain ⟨op', hop', hpop, hsize, hlen, rfl⟩ := walkInstr_ok hw
  cases h with
  | plain hop heff hneed hvals hcatch =>
    cases hop.symm.trans hop'
    dsimp only at hpop hlen hneed
    obtain ⟨rfl, hle, hpush⟩ := plainEffect_eq heff
    rw [plainEffect_next (by rw [heff]; simp)]
    refine ⟨?_, List.mem_singleton.2 rfl⟩
    simp only [List.length_append, List.length_drop, hvals]
    omega
  | shuffle hop hsh =>
    cases hop.symm.trans hop'
    obtain ⟨-, hlen'⟩ := shuffle_length hsh
    rw [shuffle_next (by rw [hsh]; simp)]
    exact ⟨hlen'.trans hlen.symm, List.mem_singleton.2 rfl⟩
  | goto hop =>
    cases hop.symm.trans hop'
    have ht := hlt _ _ (List.mem_singleton.2 rfl)
    simp only [OPCodeEnum.size, opcodeInfo] at hsize
    refine ⟨?_, ?_⟩
    · rw [hlen]
      simp [instrPop, opcodeInfo]
    · dsimp only at ht ⊢
      rw [jumpTarget_eq hcode (by omega) hbytes ht]
      exact List.mem_singleton.2 rfl
  | branch hop hif taken =>
    rename_i pc v stack op
    have hlen' : stack.length = len := by
      rw [hlen]
      rcases hif with rfl | rfl <;> cases hop.symm.trans hop' <;> simp [instrPop, opcodeInfo]
    have hnext : walkNext code op' pc len = [(labelTarget code (pc + 1), len), (pc + 5, len)]
        ∧ op'.size = 5 := by
      rcases hif with rfl | rfl <;> cases hop.symm.trans hop' <;> exact ⟨rfl, rfl⟩
    obtain ⟨hnext, hfive⟩ := hnext
    dsimp only at hsize
    simp only [hnext] at hlt ⊢
    refine ⟨hlen', ?_⟩
    cases taken with
    | true =>
      have ht := hlt _ _ List.mem_cons_self
      simp only [if_true]
      rw [jumpTarget_eq hcode (by omega) hbytes ht]
      exact List.mem_cons_self
    | false => simp
  | catch_ hop =>
    cases hop.symm.trans hop'
    refine ⟨?_, List.mem_singleton.2 rfl⟩
    rw [hlen]
    simp [instrPop, opcodeInfo]

/-- `gosub` goes where the walk goes. -/
theorem FrameStep.gosub_mem (hcode : code.length ≤ jsByteArraySizeMax)
    (hbytes : ∀ b ∈ code, b < 2 ^ 8) {s s' : FrameState} {len : ℕ} {succs : List (ℕ × ℕ)}
    (h : FrameStep code .gosub s s') (hw : walkInstr code s.pc s.stack.length = .ok (len, succs))
    (hlt : ∀ pos d, (pos, d) ∈ succs → pos < code.length) :
    s'.stack.length = s.stack.length + 1 ∧ (s'.pc, s'.stack.length) ∈ succs := by
  obtain ⟨op', hop', hpop, hsize, hlen, rfl⟩ := walkInstr_ok hw
  cases h with
  | gosub hop =>
    cases hop.symm.trans hop'
    have ht := hlt _ _ List.mem_cons_self
    simp only [instrPop, opcodeInfo] at hlen
    simp only [OPCodeEnum.size, opcodeInfo] at hsize
    subst hlen
    dsimp only [List.length_cons] at ht ⊢
    rw [jumpTarget_eq hcode (by omega) hbytes ht]
    exact ⟨rfl, List.mem_cons_self⟩

/-! ### Runs -/

/-- What the walk does not see in a step: whether a caught exception and `ret` go to a place that
it comes to with the same number of values, and the return address of `gosub`, for which there is
room if some instruction on its paths leaves as many values. -/
def StepOk (code : List ℕ) (k : StepKind) (s s' : FrameState) : Prop :=
  match k with
  | .flow => True
  | .gosub => ∃ pos d len succs, Flow code pos d ∧ walkInstr code pos d = .ok (len, succs)
    ∧ s.stack.length + 1 ≤ len
  | .ret | .caught => Flow code s'.pc s'.stack.length

/-- Runs of a frame from its start, with the steps that are allowed. -/
inductive FrameRun (code : List ℕ) (ok : StepKind → FrameState → FrameState → Prop) :
    FrameState → Prop
  | start : FrameRun code ok ⟨0, []⟩
  | step {s s' : FrameState} {k : StepKind} (h : FrameRun code ok s) (hs : FrameStep code k s s')
      (hok : ok k s s') : FrameRun code ok s'

/-- A run stays on the paths of the walk and within the size. -/
theorem FrameRun.flow_le {n : ℕ} {tab : List ℕ} {visited : List (ℕ × ℕ)}
    (hcode : code.length ≤ jsByteArraySizeMax) (hbytes : ∀ b ∈ code, b < 2 ^ 8)
    (hw : Walked code n tab visited) (hd : FlowDistinct code) {s : FrameState}
    (h : FrameRun code (StepOk code) s) :
    Flow code s.pc s.stack.length ∧ s.stack.length ≤ n := by
  induction h with
  | start => exact ⟨.start, Nat.zero_le _⟩
  | step h hs hok ih =>
    rename_i s s' k
    obtain ⟨hflow, hle⟩ := ih
    obtain ⟨len, succs, hwalk, hlen, hall⟩ := hw.closed _ _ (hflow.visited hw hd)
    have hlt : ∀ pos d, (pos, d) ∈ succs → pos < code.length := fun pos d hm => (hall pos d hm).1
    cases k with
    | flow =>
      obtain ⟨heq, hmem⟩ := hs.flow_mem hcode hbytes hwalk hlt
      rw [heq]
      exact ⟨.next hflow hwalk hmem, hlen⟩
    | gosub =>
      obtain ⟨heq, hmem⟩ := hs.gosub_mem hcode hbytes hwalk hlt
      refine ⟨.next hflow hwalk hmem, ?_⟩
      obtain ⟨pos, d, len', succs', hf', hwalk', hroom⟩ := hok
      obtain ⟨len'', succs'', hwalk'', hlen'', -⟩ := hw.closed _ _ (hf'.visited hw hd)
      rw [hwalk'] at hwalk''
      cases hwalk''
      omega
    | ret =>
      refine ⟨hok, ?_⟩
      cases hs with
      | ret hop hpos =>
        simp only [List.length_cons] at hle
        simp only
        omega
    | caught =>
      refine ⟨hok, ?_⟩
      cases hs with
      | caught hop hk hstack hfirst hexc =>
        rename_i stack above below op
        have := congrArg List.length hstack
        simp only [List.length_drop, List.length_append, List.length_cons] at this
        simp only [List.length_cons] at hle ⊢
        omega

/-- A list of places that has all that follow them has all that the walk comes to. -/
theorem Flow.mem_of_closed {places : List (ℕ × ℕ)} (h0 : (0, 0) ∈ places)
    (hcl : ∀ x ∈ places, ∀ r, walkInstr code x.1 x.2 = .ok r → ∀ y ∈ r.2, y ∈ places) {pos d : ℕ}
    (h : Flow code pos d) : (pos, d) ∈ places := by
  induction h with
  | start => exact h0
  | next h hw hs ih => exact hcl _ ih _ hw _ hs

/-- The code of `function f() { try { } finally { 1; } }`. -/
def finallyCode : List ℕ :=
  [.opCatch].map OPCodeEnum.code ++ u32Bytes 17
    ++ [.opDrop, .opUndefined, .opGosub].map OPCodeEnum.code ++ u32Bytes 16
    ++ [.opDrop, .opGoto].map OPCodeEnum.code ++ u32Bytes 13
    ++ [.opGosub].map OPCodeEnum.code ++ u32Bytes 5
    ++ [.opThrow, .opPush1, .opDrop, .opRet, .opReturnUndef].map OPCodeEnum.code

def finallyPlaces : List (ℕ × ℕ) :=
  [(0, 0), (5, 1), (6, 0), (7, 1), (24, 2), (12, 1), (13, 0), (27, 0), (25, 3), (26, 2)]

theorem finallyCode_places {pos d : ℕ} (h : Flow finallyCode pos d) : (pos, d) ∈ finallyPlaces := by
  have hcheck : finallyPlaces.all fun x => match walkInstr finallyCode x.1 x.2 with
      | .ok r => r.2.all (· ∈ finallyPlaces)
      | .error _ => true := by
    decide +kernel
  refine h.mem_of_closed (by decide) ?_
  intro x hx r hr y hy
  have := List.all_eq_true.1 hcheck x hx
  rw [hr] at this
  simpa using List.all_eq_true.1 this y hy

theorem finallyCode_distinct : FlowDistinct finallyCode := by
  intro pos d d' h h' hmod
  have hcheck : ∀ x ∈ finallyPlaces, ∀ y ∈ finallyPlaces, x.1 = y.1 → x.2 = y.2 := by decide
  exact hcheck _ (finallyCode_places h) _ (finallyCode_places h') rfl

theorem finallyCode_flow : Flow finallyCode 24 2 ∧ Flow finallyCode 12 1 := by
  have h0 : Flow finallyCode 5 1 :=
    .next .start (show walkInstr finallyCode 0 0 = .ok (1, [(5, 1)]) by decide +kernel) (by simp)
  have h1 : Flow finallyCode 6 0 :=
    .next h0 (show walkInstr finallyCode 5 1 = .ok (0, [(6, 0)]) by decide +kernel) (by simp)
  have h2 : Flow finallyCode 7 1 :=
    .next h1 (show walkInstr finallyCode 6 0 = .ok (1, [(7, 1)]) by decide +kernel) (by simp)
  have hw : walkInstr finallyCode 7 1 = .ok (1, [(24, 2), (12, 1)]) := by decide +kernel
  exact ⟨.next h2 hw (by simp), .next h2 hw (by simp)⟩

theorem finallyCode_run : FrameRun finallyCode (StepOk finallyCode) ⟨12, [.other]⟩ := by
  obtain ⟨hsub, hback⟩ := finallyCode_flow
  have h1 : FrameRun finallyCode (StepOk finallyCode) ⟨5, [.catchOffset 18]⟩ :=
    .step .start (.catch_ (by decide)) trivial
  have h2 : FrameRun finallyCode (StepOk finallyCode) ⟨6, []⟩ :=
    .step h1 (.shuffle (show opcodeOf (getU8 finallyCode 5) = some .opDrop by decide) rfl) trivial
  have h3 : FrameRun finallyCode (StepOk finallyCode) ⟨7, [.other]⟩ :=
    .step h2 (@FrameStep.plain _ 6 [] [.other] .opUndefined 0 0 1 (by decide) rfl (by decide) rfl
      (by decide)) trivial
  have h4 : FrameRun finallyCode (StepOk finallyCode) ⟨24, [.int 12, .other]⟩ :=
    .step h3 (.gosub (by decide))
      ⟨24, 2, 3, [(25, 3)], hsub, by decide +kernel, by decide⟩
  have h5 : FrameRun finallyCode (StepOk finallyCode) ⟨25, [.int 1, .int 12, .other]⟩ :=
    .step h4 (@FrameStep.plain _ 24 _ [.int 1] .opPush1 0 0 1 (by decide) rfl (by decide) rfl
      (by decide)) trivial
  have h6 : FrameRun finallyCode (StepOk finallyCode) ⟨26, [.int 12, .other]⟩ :=
    .step h5 (.shuffle (show opcodeOf (getU8 finallyCode 25) = some .opDrop by decide) rfl) trivial
  exact .step h6 (.ret (by decide) (by decide)) hback

/-- With good pointers the walk gives one answer. In runs of an accepted function that keep to the
paths of the walk, the number of values at a place is always the same, is enough for the
instruction there, and is at most the size. -/
theorem computeStackSize_covers (hcode : code.length ≤ jsByteArraySizeMax)
    (hbytes : ∀ b ∈ code, b < 2 ^ 8) (hgc : NoBranchGc gc) (hd : FlowDistinct code) (fuel : ℕ) :
    computeStackSize code gc fuel = computeStackSize code (fun _ _ => none) fuel
      ∧ (code.length < fuel → (computeStackSize code gc fuel).isSome)
      ∧ ∀ n, computeStackSize code gc fuel = some (.ok n) →
        ∀ s, FrameRun code (StepOk code) s →
          s.stack.length ≤ n
          ∧ (∃ op, opcodeOf (getU8 code s.pc) = some op ∧ instrPop code op s.pc ≤ s.stack.length)
          ∧ ∀ s', FrameRun code (StepOk code) s' → s'.pc = s.pc →
            s'.stack.length = s.stack.length := by
  refine ⟨computeStackSize_gc hgc fuel, computeStackSize_isSome hgc, ?_⟩
  intro n hn s hs
  obtain ⟨tab, visited, hw⟩ := walked_of_accepted hgc hn
  obtain ⟨hflow, hle⟩ := hs.flow_le hcode hbytes hw hd
  have hv := hflow.visited hw hd
  obtain ⟨len, succs, hwalk, -, -⟩ := hw.closed _ _ hv
  obtain ⟨op, hop, hpop, -, -, -⟩ := walkInstr_ok hwalk
  refine ⟨hle, ⟨op, hop, hpop⟩, ?_⟩
  intro s' hs' hpc
  have hflow' := (hs'.flow_le hcode hbytes hw hd).1
  rw [hpc] at hflow'
  refine hd s.pc _ _ hflow' hflow ?_
  have h1 := hw.marked _ _ hv
  have h2 := hw.marked _ _ (hflow'.visited hw hd)
  omega

theorem computeStackSize_covers_finally :
    computeStackSize finallyCode (fun _ _ => none) 29 = some (.ok 3)
      ∧ FrameRun finallyCode (StepOk finallyCode) ⟨12, [.other]⟩
      ∧ ∀ s', FrameRun finallyCode (StepOk finallyCode) s' → s'.pc = 12 → s'.stack.length = 1 := by
  have hacc : computeStackSize finallyCode (fun _ _ => none) 29 = some (.ok 3) := by decide +kernel
  have hgc : NoBranchGc fun _ _ => none := fun _ => rfl
  obtain ⟨-, -, h⟩ := computeStackSize_covers (by decide) (by decide) hgc finallyCode_distinct 29
  exact ⟨hacc, finallyCode_run, (h 3 hacc _ finallyCode_run).2.2⟩

/-- The code of `function f() { try { } catch (e) { } }`. -/
def tryCode : List ℕ :=
  [.opCatch].map OPCodeEnum.code ++ u32Bytes 17
    ++ [.opDrop, .opUndefined, .opGosub].map OPCodeEnum.code ++ u32Bytes 35
    ++ [.opDrop, .opGoto].map OPCodeEnum.code ++ u32Bytes 30
    ++ [.opPutLoc0, .opCatch].map OPCodeEnum.code ++ u32Bytes 17
    ++ [.opDrop, .opUndefined, .opGosub].map OPCodeEnum.code ++ u32Bytes 16
    ++ [.opDrop, .opGoto].map OPCodeEnum.code ++ u32Bytes 11
    ++ [.opGosub].map OPCodeEnum.code ++ u32Bytes 5
    ++ [.opThrow, .opRet, .opReturnUndef].map OPCodeEnum.code

/-- The subroutine of an empty `finally` block runs with two values on the stack, and room for one
was computed; and a collection between the two pushes for `gosub` can change the answer. -/
theorem tryCode_exceeds :
    (¬∀ (code : List ℕ) (fuel n : ℕ) (s : FrameState),
      computeStackSize code (fun _ _ => none) fuel = some (.ok n) →
      FrameRun code (fun _ _ _ => True) s → s.stack.length ≤ n)
    ∧ computeStackSize tryCode (fun _ b => if b then some ⟨0, []⟩ else none) 46
      ≠ computeStackSize tryCode (fun _ _ => none) 46 := by
  refine ⟨?_, by decide +kernel⟩
  intro h
  have h0 : FrameRun tryCode (fun _ _ _ => True) ⟨0, []⟩ := .start
  have h1 : FrameRun tryCode (fun _ _ _ => True) ⟨5, [.catchOffset 18]⟩ :=
    .step h0 (.catch_ (by decide)) trivial
  have h2 : FrameRun tryCode (fun _ _ _ => True) ⟨6, []⟩ :=
    .step h1 (.shuffle (show opcodeOf (getU8 tryCode 5) = some .opDrop by decide) rfl) trivial
  have h3 : FrameRun tryCode (fun _ _ _ => True) ⟨7, [.other]⟩ :=
    .step h2 (@FrameStep.plain _ 6 [] [.other] .opUndefined 0 0 1 (by decide) rfl (by decide) rfl
      (by decide)) trivial
  have h4 : FrameRun tryCode (fun _ _ _ => True) ⟨43, [.int 12, .other]⟩ :=
    .step h3 (.gosub (by decide)) trivial
  have hacc : computeStackSize tryCode (fun _ _ => none) 46 = some (.ok 1) := by decide +kernel
  have := h tryCode 46 1 _ hacc h4
  simp at this

end Qjs
