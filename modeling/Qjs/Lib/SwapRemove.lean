import Mathlib

/-!
# Removal by the last element

An array loses the element at an index by writing its last element over it and getting one shorter.
Apart from the order this erases the index (`swapRemoveAt_perm`), so from an array without repetitions it
takes one element and leaves the others (`mem_swapRemoveAt`, `nodup_swapRemoveAt`).
-/

namespace Qjs

variable {α : Type*}

/-- `a[i] = a[--n]`. -/
def swapRemoveAt (l : List α) (i : ℕ) : List α :=
  match l.getLast? with
  | none => l
  | some last => (l.set i last).dropLast

theorem swapRemoveAt_perm {l : List α} {i : ℕ} (hi : i < l.length) :
    (swapRemoveAt l i).Perm (l.eraseIdx i) := by
  rcases List.eq_nil_or_concat l with rfl | ⟨front, last, rfl⟩
  · simp at hi
  · rw [List.concat_eq_append] at hi ⊢
    rw [List.length_append, List.length_singleton] at hi
    have hlast : swapRemoveAt (front ++ [last]) i = ((front ++ [last]).set i last).dropLast := by
      simp [swapRemoveAt]
    rw [hlast]
    by_cases hfront : i < front.length
    · rw [List.set_append_left _ _ hfront, List.dropLast_concat, List.eraseIdx_append_of_lt_length hfront,
        List.set_eq_take_append_cons_drop, if_pos hfront, List.eraseIdx_eq_take_drop_succ]
      exact List.perm_middle.trans (List.perm_append_singleton _ _).symm
    · obtain rfl : i = front.length := by omega
      rw [List.set_append_right _ _ le_rfl, List.eraseIdx_append_of_length_le le_rfl]
      simp

theorem nodup_swapRemoveAt {l : List α} (h : l.Nodup) {i : ℕ} (hi : i < l.length) :
    (swapRemoveAt l i).Nodup :=
  (swapRemoveAt_perm hi).nodup_iff.mpr (h.sublist (List.eraseIdx_sublist _ _))

theorem mem_swapRemoveAt {l : List α} (h : l.Nodup) {i : ℕ} (hi : i < l.length) {x : α} :
    x ∈ swapRemoveAt l i ↔ x ∈ l ∧ x ≠ l[i] := by
  rw [(swapRemoveAt_perm hi).mem_iff, List.mem_eraseIdx_iff_getElem]
  constructor
  · rintro ⟨j, hj, hji, rfl⟩
    refine ⟨List.getElem_mem hj, ?_⟩
    intro heq
    exact hji ((List.Nodup.getElem_inj_iff h).mp heq)
  · rintro ⟨hx, hne⟩
    obtain ⟨j, hj, rfl⟩ := List.getElem_of_mem hx
    refine ⟨j, hj, ?_, rfl⟩
    rintro rfl
    exact hne rfl

end Qjs
