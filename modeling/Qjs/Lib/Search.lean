import Mathlib

/-!
# Binary search

`bsearch cmp` looks for an index where the three-way comparison `cmp` gives `.eq`; `.gt` says that
what is looked for is beyond the index. In a sorted range it finds the index or else the place to
insert at (`bsearch_spec`).
-/

namespace Qjs

namespace Search

/-- The search between `a` and `b`, the end not included: the index and whether it was found. -/
def bsearch (cmp : ℕ → Ordering) : ℕ → ℕ → ℕ → ℕ × Bool
  | 0, a, _ => (a, false)
  | fuel + 1, a, b =>
    if a < b then
      let m := (a + (b - 1)) / 2
      match cmp m with
      | .eq => (m, true)
      | .lt => bsearch cmp fuel a m
      | .gt => bsearch cmp fuel (m + 1) b
    else (a, false)

/-- Below an index that is not too far everything is too near. -/
def Ascending (cmp : ℕ → Ordering) (n : ℕ) : Prop :=
  ∀ i j, i < j → j < n → cmp j ≠ .lt → cmp i = .gt

/-- What a search of the first `n` indices answers. -/
def Answer (cmp : ℕ → Ordering) (n : ℕ) (r : ℕ × Bool) : Prop :=
  (r.2 = true ∧ r.1 < n ∧ cmp r.1 = .eq)
    ∨ (r.2 = false ∧ r.1 ≤ n ∧ (∀ i, i < r.1 → cmp i = .gt) ∧ ∀ i, r.1 ≤ i → i < n → cmp i = .lt)

variable {cmp : ℕ → Ordering} {n : ℕ}

theorem Ascending.gt_of_gt (h : Ascending cmp n) {i j : ℕ} (hij : i ≤ j) (hj : j < n)
    (hc : cmp j = .gt) : cmp i = .gt := by
  rcases hij.lt_or_eq with hlt | rfl
  · exact h i j hlt hj (by simp [hc])
  · exact hc

theorem Ascending.lt_of_lt (h : Ascending cmp n) {i j : ℕ} (hij : i ≤ j) (hj : j < n)
    (hc : cmp i = .lt) : cmp j = .lt := by
  rcases hij.lt_or_eq with hlt | rfl
  · by_contra hne
    have := h i j hlt hj hne
    simp [hc] at this
  · exact hc

theorem bsearch_answer (h : Ascending cmp n) : ∀ (fuel a b : ℕ), b - a ≤ fuel → a ≤ b → b ≤ n →
    (∀ i, i < a → cmp i = .gt) → (∀ i, b ≤ i → i < n → cmp i = .lt) →
    Answer cmp n (bsearch cmp fuel a b)
  | 0, a, b, hf, hab, hb, hlo, hhi => by
    obtain rfl : a = b := by omega
    exact .inr ⟨rfl, hb, hlo, hhi⟩
  | fuel + 1, a, b, hf, hab, hb, hlo, hhi => by
    rw [bsearch]
    by_cases hlt : a < b
    · rw [if_pos hlt]
      have hm1 : a ≤ (a + (b - 1)) / 2 := by omega
      have hm2 : (a + (b - 1)) / 2 < b := by omega
      generalize (a + (b - 1)) / 2 = m at hm1 hm2
      simp only
      cases hc : cmp m with
      | eq => exact .inl ⟨rfl, lt_of_lt_of_le hm2 hb, hc⟩
      | lt =>
        refine bsearch_answer h fuel a m (by omega) hm1 (by omega) hlo ?_
        intro i hi hn
        exact h.lt_of_lt hi hn hc
      | gt =>
        refine bsearch_answer h fuel (m + 1) b (by omega) (by omega) hb ?_ hhi
        intro i hi
        exact h.gt_of_gt (Nat.lt_succ_iff.1 hi) (by omega) hc
    · rw [if_neg hlt]
      obtain rfl : a = b := by omega
      exact .inr ⟨rfl, hb, hlo, hhi⟩

theorem bsearch_spec (h : Ascending cmp n) : Answer cmp n (bsearch cmp n 0 n) :=
  bsearch_answer h n 0 n (by omega) (by omega) le_rfl (by simp) (fun i hi hn => by omega)

/-- Only the comparisons inside the range count. -/
theorem bsearch_congr {cmp' : ℕ → Ordering} : ∀ (fuel a b : ℕ), (∀ m, m < b → cmp m = cmp' m) →
    bsearch cmp fuel a b = bsearch cmp' fuel a b
  | 0, _, _, _ => rfl
  | fuel + 1, a, b, h => by
    rw [bsearch, bsearch]
    split_ifs with hlt
    · have hm : (a + (b - 1)) / 2 < b := by omega
      simp only [← h _ hm]
      rw [bsearch_congr fuel a _ fun m hm' => h m (hm'.trans hm), bsearch_congr fuel _ b h]
    · rfl

/-- Whatever the order of the range, an index that is answered compares equal. -/
theorem bsearch_found : ∀ (fuel a b : ℕ) {m : ℕ}, bsearch cmp fuel a b = (m, true) →
    m < b ∧ cmp m = .eq
  | 0, a, b, m, h => by cases h
  | fuel + 1, a, b, m, h => by
    rw [bsearch] at h
    split_ifs at h with hlt
    · simp only at h
      cases hc : cmp ((a + (b - 1)) / 2) with
      | eq =>
        rw [hc] at h
        obtain rfl := (Prod.mk.inj h).1
        exact ⟨by omega, hc⟩
      | lt =>
        rw [hc] at h
        obtain ⟨h1, h2⟩ := bsearch_found fuel _ _ h
        exact ⟨by omega, h2⟩
      | gt =>
        rw [hc] at h
        exact bsearch_found fuel _ _ h
    · cases h

end Search

end Qjs
