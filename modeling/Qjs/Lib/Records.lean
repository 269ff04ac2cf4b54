import Qjs.Lib.Linked

/-!
# Records on an intrusive stack

A context has a stack of records, linked through a field of theirs, and a stack pointer. The records
lie in the frames of the functions that push them, so what a frame has left behind is still in the
field of a record that has not been pushed. `Leaves F k m` says that `m` puts back the record on top,
leaves `k` words on the stack and touches the records of `F` only; it goes through sequences
(`Leaves.bind`), a record pushed around a part (`Leaves.bracket`) and a jump out of it
(`leaves_catching`).
-/

namespace Qjs

namespace Records

variable {ρ : Type} {α β : Type}

structure Ctx (ρ : Type) where
  top : Option ρ
  prev : ρ → Option ρ
  sp : ℤ

/-- A program: what it returns, and what it does to the context. What it returns does not depend on
the context. -/
structure Prog (ρ α : Type) where
  val : α
  act : Ctx ρ → Ctx ρ

namespace Prog

instance : Monad (Prog ρ) where
  pure a := ⟨a, id⟩
  bind m f := ⟨(f m.val).val, (f m.val).act ∘ m.act⟩

theorem bind_val (m : Prog ρ α) (f : α → Prog ρ β) : (m >>= f).val = (f m.val).val := rfl

theorem bind_act (m : Prog ρ α) (f : α → Prog ρ β) (c : Ctx ρ) :
    (m >>= f).act c = (f m.val).act (m.act c) := rfl

/-- What is done after a part that does not fail. -/
theorem bind_of_val_false {m : Prog ρ Bool} (hv : m.val = false) (m₁ m₂ : Prog ρ α) :
    (m >>= fun b => if b then m₁ else m₂) = m >>= fun _ => m₂ := by
  show Prog.mk _ _ = Prog.mk _ _
  rw [hv]
  rfl

end Prog

/-! ### Actions -/

def push [DecidableEq ρ] (r : ρ) : Prog ρ Unit :=
  ⟨(), fun c => { c with top := some r, prev := Function.update c.prev r c.top }⟩

def pop (r : ρ) : Prog ρ Unit := ⟨(), fun c => { c with top := c.prev r }⟩

/-- The stack pointer moves; it goes down when words are pushed. -/
def move (k : ℤ) : Prog ρ Unit := ⟨(), fun c => { c with sp := c.sp + k }⟩

/-- A jump out of `m` puts back the record on top and the stack pointer. -/
def catching (m : Prog ρ Bool) : Prog ρ Bool :=
  ⟨m.val, fun c => if m.val then { m.act c with top := c.top, sp := c.sp } else m.act c⟩

/-- When `m` fails the stack pointer is put back. -/
def resetting (m : Prog ρ Bool) : Prog ρ Bool :=
  ⟨m.val, fun c => if m.val then { m.act c with sp := c.sp } else m.act c⟩

/-- The parts of a list one after another, until one fails. -/
def untilFail (f : α → Prog ρ Bool) : List α → Prog ρ Bool
  | [] => pure false
  | a :: as => do
    let failed ← f a
    if failed then pure true else untilFail f as

/-! ### What is left -/

/-- `m` puts back the record on top, leaves `k` words and touches the records of `F` only. -/
structure Leaves (F : Set ρ) (k : ℤ) (m : Prog ρ α) : Prop where
  top : ∀ c, (m.act c).top = c.top
  sp : ∀ c, (m.act c).sp = c.sp - k
  prev : ∀ c, ∀ r ∉ F, (m.act c).prev r = c.prev r

variable {F F' : Set ρ} {k k' : ℤ} {m : Prog ρ α} {f : α → Prog ρ β}

theorem leaves_pure (a : α) : Leaves F 0 (pure a : Prog ρ α) :=
  ⟨fun _ => rfl, fun c => (sub_zero c.sp).symm, fun _ _ _ => rfl⟩

theorem Leaves.bind (hm : Leaves F k m) (hf : Leaves F k' (f m.val)) :
    Leaves F (k + k') (m >>= f) := by
  refine ⟨?_, ?_, ?_⟩
  · intro c
    rw [Prog.bind_act, hf.top, hm.top]
  · intro c
    rw [Prog.bind_act, hf.sp, hm.sp]
    omega
  · intro c r hr
    rw [Prog.bind_act, hf.prev _ r hr, hm.prev _ r hr]

theorem Leaves.mono (hm : Leaves F k m) (hF : F ⊆ F') : Leaves F' k m :=
  ⟨hm.top, hm.sp, fun c r hr => hm.prev c r fun h => hr (hF h)⟩

theorem Leaves.of_eq (hm : Leaves F k m) (hk : k = k') : Leaves F k' m := hk ▸ hm

/-- The first part leaves nothing. -/
theorem Leaves.then (hm : Leaves F 0 m) (hf : Leaves F k (f m.val)) : Leaves F k (m >>= f) :=
  (hm.bind hf).of_eq (zero_add k)

theorem Leaves.bind_nat {k k' : ℕ} (hm : Leaves F k m) (hf : Leaves F k' (f m.val)) :
    Leaves F ((k + k' : ℕ) : ℤ) (m >>= f) :=
  (hm.bind hf).of_eq (Nat.cast_add k k').symm

theorem leaves_cond {b : Bool} {k₁ k₂ : ℕ} {m₁ m₂ : Prog ρ α} (h₁ : b = true → Leaves F k₁ m₁)
    (h₂ : b = false → Leaves F k₂ m₂) :
    Leaves F ((if b then k₁ else k₂ : ℕ) : ℤ) (if b then m₁ else m₂) := by
  cases b with
  | true => exact h₁ rfl
  | false => exact h₂ rfl

theorem leaves_move (k : ℤ) : Leaves F (-k) (move k : Prog ρ Unit) :=
  ⟨fun _ => rfl, fun c => (sub_neg_eq_add c.sp k).symm, fun _ _ _ => rfl⟩

/-- A record that is pushed, used and popped. -/
theorem Leaves.bracket [DecidableEq ρ] {r : ρ} (hm : Leaves F' k m) (hr : r ∉ F') (hF : F' ⊆ F) (hrF : r ∈ F)
    (hf : Leaves F k' (f m.val)) :
    Leaves F (k + k') (do push r; let a ← m; pop r; f a) := by
  have hprev : ∀ c, (m.act ((push r).act c)).prev r = c.top := by
    intro c
    rw [hm.prev _ r hr]
    exact Function.update_self ..
  refine ⟨?_, ?_, ?_⟩
  · intro c
    refine (hf.top _).trans ?_
    exact hprev c
  · intro c
    refine (hf.sp _).trans ?_
    have : (m.act ((push r).act c)).sp = c.sp - k := hm.sp _
    rw [show ((pop r).act (m.act ((push r).act c))).sp = (m.act ((push r).act c)).sp from rfl,
      this]
    omega
  · intro c s hs
    refine (hf.prev _ s hs).trans ?_
    refine (hm.prev _ s fun h => hs (hF h)).trans ?_
    refine Function.update_of_ne ?_ _ _
    rintro rfl
    exact hs hrF

theorem Leaves.push_pop [DecidableEq ρ] {r : ρ} (hm : Leaves F k m) (hr : r ∈ F) :
    Leaves F k (do push r; pop r; m) := by
  have h := (leaves_pure (F := (∅ : Set ρ)) ()).bracket (f := fun _ => m) (Set.notMem_empty r)
    (Set.empty_subset F) hr hm
  exact h.of_eq (zero_add k)

theorem Leaves.push_push_pop_pop [DecidableEq ρ] {r s : ρ} (hm : Leaves F k m) (hrs : r ≠ s)
    (hr : r ∈ F) (hs : s ∈ F) : Leaves F k (do push r; push s; pop s; pop r; m) := by
  have hinner : Leaves {s} 0 (do push s; pop s; pure ()) :=
    (leaves_pure ()).push_pop (Set.mem_singleton s)
  have h := hinner.bracket (f := fun _ => m) hrs (Set.singleton_subset_iff.2 hs) hr hm
  exact h.of_eq (zero_add k)

/-- After a jump out of it nothing is left; without one the program counts as it is. -/
theorem leaves_catching {m : Prog ρ Bool} (hprev : ∀ c, ∀ r ∉ F, (m.act c).prev r = c.prev r)
    (hm : m.val = false → Leaves F 0 m) : Leaves F 0 (catching m) := by
  unfold catching
  cases hv : m.val with
  | true =>
    refine ⟨fun _ => rfl, fun c => (sub_zero c.sp).symm, ?_⟩
    intro c r hr
    exact hprev c r hr
  | false => exact ⟨(hm hv).top, (hm hv).sp, (hm hv).prev⟩

theorem Leaves.resetting {m : Prog ρ Bool} (hm : Leaves F k m) (hk : m.val = false → k = 0) :
    Leaves F 0 (resetting m) := by
  unfold Records.resetting
  cases hv : m.val with
  | true => exact ⟨hm.top, fun c => (sub_zero c.sp).symm, hm.prev⟩
  | false => exact hk hv ▸ ⟨hm.top, hm.sp, hm.prev⟩

/-- The words left by the parts that are run. -/
def leftUntilFail (failed : α → Bool) (left : α → ℕ) : List α → ℕ
  | [] => 0
  | a :: as => left a + if failed a then 0 else leftUntilFail failed left as

/-- When no part fails, each of them counts. -/
theorem leftUntilFail_eq {failed : α → Bool} {left : α → ℕ} {n : ℕ}
    (hn : ∀ a, failed a = false → left a = n) :
    ∀ as : List α, as.any failed = false → leftUntilFail failed left as = n * as.length
  | [], _ => rfl
  | a :: as, h => by
    rw [List.any_cons, Bool.or_eq_false_iff] at h
    rw [leftUntilFail, h.1, hn a h.1, if_neg Bool.false_ne_true, leftUntilFail_eq hn as h.2,
      List.length_cons, Nat.mul_succ, Nat.add_comm]

theorem leaves_untilFail_zero {g : α → Prog ρ Bool} (hl : ∀ a, Leaves F 0 (g a)) :
    ∀ as, Leaves F 0 (untilFail g as)
  | [] => leaves_pure false
  | a :: as => by
    rw [untilFail]
    refine (hl a).then ?_
    split_ifs
    · exact leaves_pure true
    · exact leaves_untilFail_zero hl as

section UntilFail

variable {g : α → Prog ρ Bool} {failed : α → Bool} (hg : ∀ a, (g a).val = failed a)

include hg

theorem untilFail_val : ∀ as, (untilFail g as).val = as.any failed
  | [] => rfl
  | a :: as => by
    rw [untilFail, Prog.bind_val, hg, List.any_cons]
    cases failed a with
    | true => rfl
    | false => exact untilFail_val as

theorem leaves_untilFail {left : α → ℕ} (hl : ∀ a, Leaves F (left a) (g a)) :
    ∀ as, Leaves F (leftUntilFail failed left as) (untilFail g as)
  | [] => leaves_pure false
  | a :: as => by
    rw [leftUntilFail, Nat.cast_add, untilFail]
    refine (hl a).bind ?_
    rw [hg]
    cases failed a with
    | true => exact leaves_pure true
    | false => exact leaves_untilFail hl as

end UntilFail

/-- What is walked from the record on top is unchanged. -/
theorem Leaves.isLinked (hm : Leaves F k m) {c : Ctx ρ} {l : List ρ}
    (hl : Linked.IsLinked c.prev c.top l) (hF : ∀ r ∈ l, r ∉ F) :
    Linked.IsLinked (m.act c).prev (m.act c).top l := by
  rw [hm.top]
  exact hl.congr fun r hr => hm.prev c r (hF r hr)

end Records

end Qjs
