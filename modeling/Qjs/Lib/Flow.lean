import Mathlib

/-!
# What statements mean

A statement over states `σ` is the relation between a state before it, the way it ends, what it has
deferred to the end of the block around it, latest first, and the state after it. A run that does not
end is in no relation. An expression is a statement that ends with its value.
-/

namespace Flow

universe u v

variable {σ : Type u} {V : Type v}

/-- How a statement ends. -/
inductive Exit (V : Type v)
  | normal
  | value (v : V)
  | brk
  | cont
  | ret
  | panic

/-- The end is followed by the next statement. -/
def Exit.GoesOn : Exit V → Prop
  | .normal | .value _ => True
  | _ => False

/-- The end of the body is followed by the next round of the loop. -/
def Exit.Loops : Exit V → Prop
  | .normal | .value _ | .cont => True
  | _ => False

def Exit.IsValue : Exit V → Prop
  | .value _ => True
  | _ => False

def Meaning (σ : Type u) (V : Type v) := σ → Exit V → List (σ → σ → Prop) → σ → Prop

def skip : Meaning σ V := fun s e ds s' => e = .normal ∧ ds = [] ∧ s' = s

def pure (v : V) : Meaning σ V := fun s e ds s' => e = .value v ∧ ds = [] ∧ s' = s

/-- `m` and then `n`. -/
def andThen (m n : Meaning σ V) : Meaning σ V := fun s e ds s' =>
  (∃ g d₁ s₁ d₂, m s g d₁ s₁ ∧ g.GoesOn ∧ n s₁ e d₂ s' ∧ ds = d₂ ++ d₁) ∨
    (m s e ds s' ∧ ¬ e.GoesOn)

def seq (ms : List (Meaning σ V)) : Meaning σ V := ms.foldr andThen skip

/-- The deferred statements run, latest first. -/
def runDefers : List (σ → σ → Prop) → σ → σ → Prop
  | [], s, s' => s' = s
  | d :: ds, s, s' => ∃ s₁, d s s₁ ∧ runDefers ds s₁ s'

/-- A block: what was deferred in it runs at its end, however it ends. -/
def block (ms : List (Meaning σ V)) : Meaning σ V := fun s e ds s' =>
  ∃ d s₁, seq ms s e d s₁ ∧ runDefers d s₁ s' ∧ ds = []

def defer (m : Meaning σ V) : Meaning σ V := fun s e ds s' =>
  e = .normal ∧ s' = s ∧ ds = [fun a b => ∃ f d a', m a f d a' ∧ runDefers d a' b]

section Conditions

variable (truth : V → Bool)

/-- The condition `c` comes out as `b`; one that is absent is true. -/
def Holds (c : Option (Meaning σ V)) (b : Bool) (s : σ) (ds : List (σ → σ → Prop)) (s' : σ) : Prop :=
  match c with
  | none => b = true ∧ ds = [] ∧ s' = s
  | some m => ∃ v, m s (.value v) ds s' ∧ truth v = b

/-- The condition `c` ends without a value. -/
def Jumps (c : Option (Meaning σ V)) (s : σ) (e : Exit V) (ds : List (σ → σ → Prop)) (s' : σ) : Prop :=
  match c with
  | none => False
  | some m => m s e ds s' ∧ ¬ e.IsValue

def ite (c : Option (Meaning σ V)) (a b : Meaning σ V) : Meaning σ V := fun s e ds s' =>
  (∃ t d₁ s₁ d₂, Holds truth c t s d₁ s₁ ∧ (if t then a else b) s₁ e d₂ s' ∧ ds = d₂ ++ d₁) ∨
    Jumps c s e ds s'

/-- The rounds of a loop with the condition `c`, the body `b` and the increment `n`. -/
inductive Loop (c : Option (Meaning σ V)) (n b : Meaning σ V) : Meaning σ V
  | stop {s ds s'} : Holds truth c false s ds s' → Loop c n b s .normal ds s'
  | jump {s e ds s'} : Jumps c s e ds s' → Loop c n b s e ds s'
  | next {s d₁ s₁ g d₂ s₂ h d₃ s₃ e d₄ s'} : Holds truth c true s d₁ s₁ → b s₁ g d₂ s₂ → g.Loops →
      n s₂ h d₃ s₃ → h.GoesOn → Loop c n b s₃ e d₄ s' → Loop c n b s e (d₄ ++ (d₃ ++ (d₂ ++ d₁))) s'
  | brk {s d₁ s₁ d₂ s'} : Holds truth c true s d₁ s₁ → b s₁ .brk d₂ s' →
      Loop c n b s .normal (d₂ ++ d₁) s'
  | leave {s d₁ s₁ e d₂ s'} : Holds truth c true s d₁ s₁ → b s₁ e d₂ s' → ¬ e.Loops → e ≠ .brk →
      Loop c n b s e (d₂ ++ d₁) s'
  | stray {s d₁ s₁ g d₂ s₂ e d₃ s'} : Holds truth c true s d₁ s₁ → b s₁ g d₂ s₂ → g.Loops →
      n s₂ e d₃ s' → ¬ e.GoesOn → Loop c n b s e (d₃ ++ (d₂ ++ d₁)) s'

end Conditions

/-! ### Rules -/

@[simp] theorem skip_andThen (m : Meaning σ V) : andThen skip m = m := by
  funext s e ds s'
  apply propext
  constructor
  · rintro (⟨g, d₁, s₁, d₂, ⟨rfl, rfl, rfl⟩, -, hm, rfl⟩ | ⟨⟨rfl, -, -⟩, h⟩)
    · simpa using hm
    · exact absurd trivial h
  · intro hm
    exact .inl ⟨.normal, [], s, ds, ⟨rfl, rfl, rfl⟩, trivial, hm, by simp⟩

theorem seq_cons (m : Meaning σ V) (ms : List (Meaning σ V)) :
    seq (m :: ms) = andThen m (seq ms) := rfl

theorem ite_pure {truth : V → Bool} {v : V} {b : Bool} (h : truth v = b) (m n : Meaning σ V) :
    ite truth (some (pure v)) m n = if b then m else n := by
  funext s e ds s'
  apply propext
  constructor
  · rintro (⟨t, d₁, s₁, d₂, ⟨w, ⟨hw, rfl, rfl⟩, ht⟩, hm, rfl⟩ | ⟨⟨rfl, -, -⟩, hv⟩)
    · obtain rfl : w = v := by simpa using hw
      rw [h] at ht
      simpa [ht] using hm
    · exact absurd trivial hv
  · intro hm
    exact .inl ⟨b, [], s, ds, ⟨v, ⟨rfl, rfl, rfl⟩, h⟩, hm, by simp⟩

theorem loop_pure_false {truth : V → Bool} {v : V} (h : truth v = false) (n b : Meaning σ V) :
    Loop truth (some (pure v)) n b = skip := by
  have never : ∀ {s s' : σ} {ds}, ¬ Holds truth (some (pure v)) true s ds s' := by
    rintro s s' ds ⟨w, ⟨hw, -, -⟩, ht⟩
    obtain rfl : w = v := by simpa using hw
    rw [h] at ht
    cases ht
  funext s e ds s'
  apply propext
  constructor
  · intro hl
    cases hl with
    | stop hc => obtain ⟨-, ⟨-, rfl, rfl⟩, -⟩ := hc; exact ⟨rfl, rfl, rfl⟩
    | jump hc => obtain ⟨⟨rfl, -, -⟩, hv⟩ := hc; exact absurd trivial hv
    | next hc => exact absurd hc never
    | brk hc => exact absurd hc never
    | leave hc => exact absurd hc never
    | stray hc => exact absurd hc never
  · rintro ⟨rfl, rfl, rfl⟩
    exact .stop ⟨v, ⟨rfl, rfl, rfl⟩, h⟩

end Flow
