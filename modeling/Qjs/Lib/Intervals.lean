import Mathlib.Data.List.GetD
import Mathlib.Order.Basic
import Mathlib.Tactic.Linarith

/-!
# Lists of half-open intervals

An interval is a pair of its start and its end, which is not in it. A list of intervals is normal if
they are not empty and each ends before the next one starts; the list is then determined by its
elements. Between the intervals of a list, up to a bound, are its gaps (`mem_gaps`).
-/

namespace Intervals

variable {l : List (ℕ × ℕ)} {lo hi top c : ℕ}

/-- The elements of the intervals. -/
def Mem (l : List (ℕ × ℕ)) (c : ℕ) : Prop := ∃ x ∈ l, x.1 ≤ c ∧ c < x.2

/-- No interval ends before it starts. -/
def Valid (l : List (ℕ × ℕ)) : Prop := ∀ x ∈ l, x.1 ≤ x.2

def Sorted (l : List (ℕ × ℕ)) : Prop := l.Pairwise fun x y => x.1 ≤ y.1

/-- The intervals are not empty, and neither overlap nor touch. -/
structure Normal (l : List (ℕ × ℕ)) : Prop where
  nonempty : ∀ x ∈ l, x.1 < x.2
  apart : l.Pairwise fun x y => x.2 < y.1

@[simp] theorem mem_nil : Mem [] c ↔ False := by simp [Mem]

@[simp] theorem mem_cons : Mem ((lo, hi) :: l) c ↔ (lo ≤ c ∧ c < hi) ∨ Mem l c := by simp [Mem]

@[simp] theorem mem_append {l' : List (ℕ × ℕ)} : Mem (l ++ l') c ↔ Mem l c ∨ Mem l' c := by
  simp only [Mem, List.mem_append]
  constructor
  · rintro ⟨x, hx | hx, h⟩
    · exact .inl ⟨x, hx, h⟩
    · exact .inr ⟨x, hx, h⟩
  · rintro (⟨x, hx, h⟩ | ⟨x, hx, h⟩)
    · exact ⟨x, .inl hx, h⟩
    · exact ⟨x, .inr hx, h⟩

theorem mem_of_perm {l' : List (ℕ × ℕ)} (h : l.Perm l') : Mem l c ↔ Mem l' c := by
  simp only [Mem, h.mem_iff]

theorem Normal.nil : Normal [] := ⟨by simp, .nil⟩

theorem Normal.tail (h : Normal ((lo, hi) :: l)) : Normal l :=
  ⟨fun x hx => h.nonempty x (List.mem_cons_of_mem _ hx), (List.pairwise_cons.1 h.apart).2⟩

theorem Normal.head (h : Normal ((lo, hi) :: l)) : lo < hi := h.nonempty _ List.mem_cons_self

theorem Normal.lt_start (h : Normal ((lo, hi) :: l)) : ∀ x ∈ l, hi < x.1 :=
  fun x hx => (List.pairwise_cons.1 h.apart).1 x hx

/-- What is between the intervals, from `lo` up to `top`. -/
def gaps (top : ℕ) : ℕ → List (ℕ × ℕ) → List (ℕ × ℕ)
  | lo, [] => [(lo, top)]
  | lo, (a, b) :: l => (lo, a) :: gaps top b l

/-- From `lo` up to `top` a number is in the gaps or in the intervals. -/
theorem mem_gaps : ∀ {l : List (ℕ × ℕ)} {lo : ℕ}, Normal l → (∀ x ∈ l, lo ≤ x.1 ∧ x.2 ≤ top) →
    (Mem (gaps top lo l) c ↔ lo ≤ c ∧ c < top ∧ ¬ Mem l c)
  | [], lo, _, _ => by simp [gaps]
  | (a, b) :: l, lo, h, hb => by
    have hab := h.head
    have hbound := hb (a, b) List.mem_cons_self
    have hlt := h.lt_start
    simp only at hbound
    have ih := @mem_gaps l b h.tail fun x hx =>
      ⟨(hlt x hx).le, (hb x (List.mem_cons_of_mem _ hx)).2⟩
    rw [gaps, mem_cons, mem_cons, ih]
    have hl : Mem l c → b < c := by
      rintro ⟨x, hx, h1, _⟩
      exact (hlt x hx).trans_le h1
    constructor
    · rintro (⟨h1, h2⟩ | ⟨h1, h2, h3⟩)
      · refine ⟨h1, by omega, ?_⟩
        rintro (h3 | h3)
        · omega
        · have := hl h3
          omega
      · refine ⟨by omega, h2, ?_⟩
        rintro (h4 | h4)
        · omega
        · exact h3 h4
    · rintro ⟨h1, h2, h3⟩
      by_cases hc : c < a
      · exact .inl ⟨h1, hc⟩
      · refine .inr ⟨?_, h2, fun h4 => h3 (.inr h4)⟩
        by_contra hcb
        exact h3 (.inl ⟨by omega, by omega⟩)

theorem gaps_start : ∀ {l : List (ℕ × ℕ)} {lo : ℕ}, Normal l → (∀ x ∈ l, lo ≤ x.1) →
    ∀ x ∈ gaps top lo l, lo ≤ x.1
  | [], lo, _, _, x, hx => by
    rw [gaps, List.mem_singleton] at hx
    rw [hx]
  | (a, b) :: l, lo, h, hb, x, hx => by
    rw [gaps, List.mem_cons] at hx
    rcases hx with rfl | hx
    · exact le_rfl
    · have hab := h.head
      have hlo := hb (a, b) List.mem_cons_self
      have hx' := gaps_start h.tail (fun y hy => (h.lt_start y hy).le) x hx
      simp only at hlo
      omega

theorem gaps_sorted : ∀ {l : List (ℕ × ℕ)} {lo : ℕ}, Normal l → (∀ x ∈ l, lo ≤ x.1) →
    Sorted (gaps top lo l)
  | [], _, _, _ => List.pairwise_singleton _ _
  | (a, b) :: l, lo, h, hb => by
    have hab := h.head
    have hlo := hb (a, b) List.mem_cons_self
    simp only at hlo
    refine List.pairwise_cons.2 ⟨fun x hx => ?_,
      gaps_sorted h.tail fun x hx => (h.lt_start x hx).le⟩
    have hx' := gaps_start h.tail (fun y hy => (h.lt_start y hy).le) x hx
    simp only
    omega

theorem gaps_valid : ∀ {l : List (ℕ × ℕ)} {lo : ℕ}, Normal l → lo ≤ top →
    (∀ x ∈ l, lo ≤ x.1 ∧ x.2 ≤ top) → Valid (gaps top lo l)
  | [], lo, _, hlo, _, x, hx => by
    rw [gaps, List.mem_singleton] at hx
    rw [hx]
    exact hlo
  | (a, b) :: l, lo, h, _, hb, x, hx => by
    have hbound := hb (a, b) List.mem_cons_self
    rw [gaps, List.mem_cons] at hx
    rcases hx with rfl | hx
    · exact hbound.1
    · exact gaps_valid h.tail hbound.2
        (fun y hy => ⟨(h.lt_start y hy).le, (hb y (List.mem_cons_of_mem _ hy)).2⟩) x hx

/-- In a normal list, an element is in the last interval that starts before it or in none. -/
theorem Normal.end_lt_of_idx (h : Normal l) {i j : ℕ} (hij : i < j) (hj : j < l.length) :
    (l.getD i (0, 0)).2 < (l.getD j (0, 0)).1 := by
  rw [List.getD_eq_getElem _ _ (by omega), List.getD_eq_getElem _ _ hj]
  exact List.pairwise_iff_getElem.1 h.apart i j (by omega) hj hij

theorem mem_iff_idx : Mem l c ↔
    ∃ i < l.length, (l.getD i (0, 0)).1 ≤ c ∧ c < (l.getD i (0, 0)).2 := by
  constructor
  · rintro ⟨x, hx, h⟩
    obtain ⟨i, hi, rfl⟩ := List.getElem_of_mem hx
    exact ⟨i, hi, by rwa [List.getD_eq_getElem _ _ hi]⟩
  · rintro ⟨i, hi, h⟩
    rw [List.getD_eq_getElem _ _ hi] at h
    exact ⟨l[i], List.getElem_mem hi, h⟩

end Intervals
