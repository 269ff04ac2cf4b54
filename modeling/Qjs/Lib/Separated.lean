import Mathlib

/-!
# Lists with separators between them

Pieces, with one list between each two. The separator occurs at an index if it is what stands there.
-/

namespace Qjs

namespace Separated

variable {α : Type*}

def OccursAt (sep s : List α) (i : ℕ) : Prop := (s.drop i).take sep.length = sep

instance [DecidableEq α] (sep s : List α) (i : ℕ) : Decidable (OccursAt sep s i) :=
  inferInstanceAs (Decidable (_ = _))

theorem OccursAt.le {sep s : List α} {i : ℕ} (h : OccursAt sep s i) (hsep : sep ≠ []) :
    i + sep.length ≤ s.length := by
  have hlen := congrArg List.length h
  have hpos := List.length_pos_iff.2 hsep
  rw [List.length_take, List.length_drop] at hlen
  omega

theorem infix_iff {sep s : List α} : sep <:+: s ↔ ∃ i, OccursAt sep s i := by
  constructor
  · rintro ⟨front, back, rfl⟩
    refine ⟨front.length, ?_⟩
    rw [OccursAt, List.append_assoc, List.drop_left, List.take_left]
  · rintro ⟨i, h⟩
    rw [← h]
    exact (List.take_prefix _ _).isInfix.trans (List.drop_suffix _ _).isInfix

/-- What occurs in a part of a list occurs in the list, and within that part. -/
theorem OccursAt.of_part {sep s : List α} {start n i : ℕ} (hsep : sep ≠ [])
    (h : OccursAt sep ((s.drop start).take n) i) :
    OccursAt sep s (start + i) ∧ i + sep.length ≤ n := by
  have hle := h.le hsep
  have hpos := List.length_pos_iff.2 hsep
  rw [List.length_take] at hle
  refine ⟨?_, by omega⟩
  rw [OccursAt, List.drop_take, List.drop_drop, List.take_take, min_eq_left (by omega)] at h
  exact h

theorem drop_of_occursAt {sep s : List α} {i : ℕ} (h : OccursAt sep s i) :
    s.drop i = sep ++ s.drop (i + sep.length) := by
  rw [← List.drop_drop]
  nth_rw 1 [← List.take_append_drop sep.length (s.drop i)]
  rw [OccursAt] at h
  rw [h]

theorem intercalate_concat (sep : List α) (pieces : List (List α)) (last : List α) :
    sep.intercalate (pieces ++ [last]) = pieces.flatMap (· ++ sep) ++ last := by
  induction pieces with
  | nil => exact List.intercalate_singleton
  | cons piece pieces ih =>
    rw [List.cons_append, List.intercalate_cons_of_ne_nil (by simp), ih, List.flatMap_cons,
      List.append_assoc, List.append_assoc, List.append_assoc]

theorem length_intercalate (sep : List α) (piece : List α) (pieces : List (List α)) :
    (sep.intercalate (piece :: pieces)).length =
      ((piece :: pieces).map List.length).sum + pieces.length * sep.length := by
  induction pieces generalizing piece with
  | nil => simp
  | cons next pieces ih =>
    rw [List.intercalate_cons_cons, List.length_append, List.length_append, ih, List.length_cons,
      Nat.succ_mul]
    simp only [List.map_cons, List.sum_cons]
    omega

/-- Two pieces or more have one separator at most that gives the same list. -/
theorem sep_unique {sep sep' : List α} {first second : List α} {pieces : List (List α)}
    (h : sep.intercalate (first :: second :: pieces) =
      sep'.intercalate (first :: second :: pieces)) : sep = sep' := by
  have hlen := congrArg List.length h
  rw [length_intercalate, length_intercalate, Nat.add_left_cancel_iff] at hlen
  have heq : sep.length = sep'.length := Nat.eq_of_mul_eq_mul_left (Nat.succ_pos _) hlen
  rw [List.intercalate_cons_cons, List.intercalate_cons_cons, List.append_assoc,
    List.append_assoc] at h
  exact (List.append_inj (List.append_cancel_left h) heq).1

end Separated

end Qjs
