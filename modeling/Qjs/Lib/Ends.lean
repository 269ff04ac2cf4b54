import Mathlib.Logic.Relation

/-!
# Runs that end and stay sound

A state ends soundly if every run from it is finite and comes to sound states only. A proof goes
backwards: from the states a piece of a program can leave in to the states it can be entered in.
-/

variable {α : Type*} {r : α → α → Prop} {Q : α → Prop} {a b : α}

/-- From `a` on every run by `r` is finite, and `Q` holds all along. -/
inductive Ends (r : α → α → Prop) (Q : α → Prop) : α → Prop
  | intro {a : α} (sound : Q a) (next : ∀ b, r a b → Ends r Q b) : Ends r Q a

namespace Ends

theorem sound (h : Ends r Q a) : Q a := by
  cases h
  assumption

theorem next (h : Ends r Q a) (hab : r a b) : Ends r Q b := by
  cases h with
  | intro _ hn => exact hn b hab

/-- A state that goes where another goes. -/
theorem congr (h : Ends r Q a) (hb : Q b) (hr : ∀ x, r b x → r a x) : Ends r Q b :=
  .intro hb fun x hx => h.next (hr x hx)

end Ends
