import Qjs.Lib.RingSlots

/-!
# Ranks along a ring

A rank of the slots of a ring is gentle when it goes up by at most one from a slot to the next one. Then a
slot of rank `n + d` has at every distance up to `d` before it a rank of at least `n` (`Gentle.le_add`),
and no rank reaches the length of the ring when one of them is 0 (`Gentle.lt`).
-/

namespace Qjs

namespace ProbeRank

variable {c : ℕ} {rank : ℕ → ℕ}

/-- From a slot to the next one the rank goes up by at most one. -/
def Gentle (c : ℕ) (rank : ℕ → ℕ) : Prop := ∀ x, rank ((x + 1) % c) ≤ rank (x % c) + 1

theorem gentle_zero : Gentle c fun _ => 0 :=
  fun _ => Nat.zero_le _

theorem Gentle.le_add (h : Gentle c rank) (x : ℕ) : ∀ d, rank ((x + d) % c) ≤ rank (x % c) + d
  | 0 => by simp
  | d + 1 => by
    have hd := h.le_add x d
    have hstep := h (x + d)
    rw [← Nat.add_assoc]
    omega

/-- Every slot is less than `c` after a given one. -/
theorem exists_add_mod (hc : 0 < c) (x y : ℕ) : ∃ d < c, (x + d) % c = y % c := by
  refine ⟨(y % c + (c - x % c)) % c, Nat.mod_lt _ hc, ?_⟩
  have hx := Nat.mod_lt x hc
  rw [Nat.add_mod_mod, ← Nat.mod_add_mod, show x % c + (y % c + (c - x % c)) = y % c + c by omega,
    Nat.add_mod_right, Nat.mod_mod]

theorem Gentle.lt (h : Gentle c rank) (hc : 0 < c) {z : ℕ} (hz : rank (z % c) = 0) (x : ℕ) :
    rank (x % c) < c := by
  obtain ⟨d, hd, hdx⟩ := exists_add_mod hc z x
  have := h.le_add z d
  rw [hdx, hz] at this
  omega

/-- A new rank that fits between its neighbours. -/
theorem Gentle.update (h : Gentle c rank) {y v : ℕ} (hpred : v ≤ rank (y % c) + 1)
    (hsucc : rank ((y + 2) % c) ≤ v + 1) : Gentle c (Function.update rank ((y + 1) % c) v) := by
  intro x
  by_cases hx : x % c = (y + 1) % c
  · have hnext : (x + 1) % c = (y + 2) % c := by
      rw [← Nat.mod_add_mod, hx, Nat.mod_add_mod]
    rw [hx, Function.update_self]
    by_cases hself : (x + 1) % c = (y + 1) % c
    · rw [hself, Function.update_self]
      omega
    · rw [Function.update_of_ne hself, hnext]
      exact hsucc
  · rw [Function.update_of_ne hx]
    by_cases hself : (x + 1) % c = (y + 1) % c
    · have hxy : x % c = y % c := Nat.ModEq.add_right_cancel' 1 hself
      rw [hself, Function.update_self, hxy]
      exact hpred
    · rw [Function.update_of_ne hself]
      exact h x

end ProbeRank

end Qjs
