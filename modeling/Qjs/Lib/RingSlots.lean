import Mathlib

/-!
# Slots of a ring

A list lies in a ring of `N` slots from position `base` on when its items are in the slots with these
numbers, taken modulo `N` (`Holds`). Positions less than `N` apart have different slots
(`mod_ne_mod`), so an item put behind a short list leaves the list as it is.
-/

namespace Qjs

namespace RingSlots

variable {α : Type*} {N : ℕ} {slots : ℕ → α} {base : ℕ} {xs ys : List α}

theorem mod_ne_mod {a b : ℕ} (hab : a < b) (hb : b < a + N) : a % N ≠ b % N := by
  intro h
  have hmod : (b - a) % N = 0 := Nat.sub_mod_eq_zero_of_mod_eq h.symm
  rw [Nat.mod_eq_of_lt (by omega)] at hmod
  omega

/-- How far a position is from another one less than `N` before it. -/
theorem sub_mod_of_le {a b : ℕ} (hab : a ≤ b) (hb : b < a + N) :
    (b % N + N - a % N) % N = b - a := by
  have ha := Nat.mod_add_div a N
  have hlt := Nat.mod_lt a (show 0 < N by omega)
  have hb' : b % N = (a % N + (b - a)) % N := by
    rw [Nat.mod_add_mod]
    congr 1
    omega
  by_cases hwrap : a % N + (b - a) < N
  · rw [hb', Nat.mod_eq_of_lt hwrap, show a % N + (b - a) + N - a % N = b - a + N by omega,
      Nat.add_mod_right, Nat.mod_eq_of_lt (by omega)]
  · have hlow : b % N = a % N + (b - a) - N := by
      rw [hb', Nat.mod_eq_sub_mod (by omega), Nat.mod_eq_of_lt (by omega)]
    rw [hlow, show a % N + (b - a) - N + N - a % N = b - a by omega, Nat.mod_eq_of_lt (by omega)]

/-- The list is in the slots from `base` on. -/
def Holds (N : ℕ) (slots : ℕ → α) (base : ℕ) (xs : List α) : Prop :=
  ∀ i (hi : i < xs.length), slots ((base + i) % N) = xs[i]

theorem holds_nil : Holds N slots base ([] : List α) := by
  intro i hi
  simp at hi

theorem Holds.append (hx : Holds N slots base xs) (hy : Holds N slots (base + xs.length) ys) :
    Holds N slots base (xs ++ ys) := by
  intro i hi
  by_cases h : i < xs.length
  · rw [List.getElem_append_left h]
    exact hx i h
  · rw [List.length_append] at hi
    rw [List.getElem_append_right (by omega), ← hy (i - xs.length) (by omega)]
    congr 2
    omega

theorem Holds.snoc {y : α} (hx : Holds N slots base xs)
    (hy : slots ((base + xs.length) % N) = y) : Holds N slots base (xs ++ [y]) := by
  refine hx.append ?_
  intro i hi
  obtain rfl : i = 0 := by
    rw [List.length_singleton] at hi
    omega
  exact hy

theorem Holds.drop (hx : Holds N slots base xs) (k : ℕ) :
    Holds N slots (base + k) (xs.drop k) := by
  intro i hi
  rw [List.length_drop] at hi
  rw [List.getElem_drop, ← hx (k + i) (by omega), Nat.add_assoc]

/-- A slot behind the list is written. -/
theorem Holds.update (hx : Holds N slots base xs) {p : ℕ} (y : α) (hp : base + xs.length ≤ p)
    (hN : p < base + N) : Holds N (Function.update slots (p % N) y) base xs := by
  intro i hi
  rw [Function.update_of_ne (mod_ne_mod (by omega) (by omega)), hx i hi]

end RingSlots

end Qjs
