import Mathlib.Data.List.Basic
import Mathlib.Data.List.DropRight
import Mathlib.Algebra.BigOperators.Group.List.Basic

/-!
# Lines and sections

A text is lines with a separator between them (`List.splitOn`), or lines that each end with one
(`endl`). A list of lines falls into sections, each a heading with the lines up to the next
heading (`groups`).
-/

namespace Sections

variable {α : Type*}

/-! ### Lines -/

section Lines

variable (sep : α)

/-- The lines, each with its end. -/
def endl (ls : List (List α)) : List α := ls.flatMap (· ++ [sep])

@[simp] theorem endl_nil : endl sep [] = [] := rfl

@[simp] theorem endl_cons (l : List α) (ls : List (List α)) :
    endl sep (l :: ls) = l ++ sep :: endl sep ls := by
  simp [endl]

@[simp] theorem endl_append (ls ms : List (List α)) :
    endl sep (ls ++ ms) = endl sep ls ++ endl sep ms := List.flatMap_append

theorem intercalate_concat (l : List α) : ∀ ls : List (List α),
    [sep].intercalate (ls ++ [l]) = endl sep ls ++ l
  | [] => by simp
  | [m] => by simp
  | m :: n :: ls => by
    rw [List.cons_append, List.intercalate_cons_of_ne_nil (by simp), intercalate_concat l (n :: ls),
      endl_cons]
    simp

theorem length_endl_le_of_sublist {ls ms : List (List α)} (h : ls.Sublist ms) :
    (endl sep ls).length ≤ (endl sep ms).length := by
  induction h with
  | slnil => exact le_rfl
  | cons a _ ih =>
    rw [endl_cons, List.length_append, List.length_cons]
    omega
  | cons_cons a _ ih =>
    simp only [endl_cons, List.length_append, List.length_cons]
    omega

/-- The lines that a loop over the text finds: no empty one after the last separator. -/
def visited : List (List α) → List (List α)
  | [] => []
  | [l] => if l.isEmpty then [] else [l]
  | l :: m :: ls => l :: visited (m :: ls)

variable [BEq α] [LawfulBEq α] {sep}

theorem splitOn_endl : ∀ {ls : List (List α)} (s : List α), (∀ l ∈ ls, sep ∉ l) →
    (endl sep ls ++ s).splitOn sep = ls ++ s.splitOn sep
  | [], s, _ => rfl
  | l :: ls, s, h => by
    rw [endl_cons, List.append_assoc, List.cons_append,
      List.splitOn_append_cons_self_of_not_mem (h l List.mem_cons_self),
      splitOn_endl s fun m hm => h m (List.mem_cons_of_mem l hm), List.cons_append]

theorem not_mem_of_mem_splitOn : ∀ {s l : List α}, l ∈ s.splitOn sep → sep ∉ l
  | [], l, h => by
    rw [List.splitOn_nil, List.mem_singleton] at h
    simp [h]
  | c :: s, l, h => by
    rw [List.splitOn_cons_eq_if_modifyHead] at h
    obtain ⟨m, ms, hm⟩ := List.exists_cons_of_ne_nil (List.splitOn_ne_nil sep s)
    have ih : ∀ l ∈ m :: ms, sep ∉ l := fun l hl => not_mem_of_mem_splitOn (hm ▸ hl)
    rw [hm] at h
    split_ifs at h with hc
    · rcases List.mem_cons.1 h with rfl | h
      · exact List.not_mem_nil
      · exact ih l h
    · rw [List.modifyHead_cons] at h
      rcases List.mem_cons.1 h with rfl | h
      · rw [List.mem_cons, not_or]
        refine ⟨?_, ih m List.mem_cons_self⟩
        rintro rfl
        exact hc (beq_self_eq_true _)
      · exact ih l (List.mem_cons_of_mem m h)

end Lines

/-! ### Sections -/

variable (p : α → Bool)

/-- The elements before the first heading, and each heading with the elements after it. -/
def groups : List α → List α × List (α × List α)
  | [] => ([], [])
  | x :: xs =>
    if p x then ([], (x, (groups xs).1) :: (groups xs).2) else (x :: (groups xs).1, (groups xs).2)

variable {p}

theorem groups_cons_pos {x : α} (h : p x = true) (xs : List α) :
    groups p (x :: xs) = ([], (x, (groups p xs).1) :: (groups p xs).2) := by
  rw [groups, if_pos h]

theorem groups_append : ∀ {xs : List α} (ys : List α), (∀ x ∈ xs, p x = false) →
    groups p (xs ++ ys) = (xs ++ (groups p ys).1, (groups p ys).2)
  | [], _, _ => rfl
  | x :: xs, ys, h => by
    rw [List.cons_append, groups, if_neg (by rw [h x List.mem_cons_self]; simp),
      groups_append ys fun y hy => h y (List.mem_cons_of_mem x hy), List.cons_append]

theorem groups_of_none {xs : List α} (h : ∀ x ∈ xs, p x = false) : groups p xs = (xs, []) := by
  have := groups_append [] h
  rwa [List.append_nil, groups, List.append_nil] at this

/-- A heading in the middle begins a section. -/
theorem groups_append_cons {y : α} (hy : p y = true) : ∀ (xs ys : List α),
    groups p (xs ++ y :: ys)
      = ((groups p xs).1, (groups p xs).2 ++ (groups p (y :: ys)).2)
  | [], ys => by rw [List.nil_append, groups_cons_pos hy]; rfl
  | x :: xs, ys => by
    rw [List.cons_append, groups, groups, groups_append_cons hy xs ys]
    split_ifs <;> rfl

theorem groups_cons_append_cons {y z : α} (hy : p y = true) (hz : p z = true) (b rest : List α) :
    (groups p (y :: b ++ z :: rest)).2
      = (y, (groups p b).1) :: (groups p b).2 ++ (groups p (z :: rest)).2 := by
  rw [groups_append_cons hz, groups_cons_pos hy]

theorem length_groups : ∀ xs : List α, (groups p xs).2.length = xs.countP p
  | [] => rfl
  | x :: xs => by
    rw [groups, List.countP_cons]
    split_ifs with h
    · rw [List.length_cons, length_groups xs]
    · exact length_groups xs

theorem groups_eq_nil_iff {xs : List α} :
    (groups p xs).2 = [] ↔ ∀ x ∈ xs, p x = false := by
  rw [← List.length_eq_zero_iff, length_groups, List.countP_eq_zero]
  simp

/-- An element at the end that is no heading is part of the last section. -/
theorem snd_ne_nil_of_getLast?_groups {y : α} (hy : p y = false) : ∀ (xs : List α) {g : α × List α},
    (groups p (xs ++ [y])).2.getLast? = some g → g.2 ≠ []
  | [], g, h => by
    rw [List.nil_append, groups_of_none (by simpa using hy)] at h
    cases h
  | x :: xs, g, h => by
    rw [List.cons_append, groups] at h
    split_ifs at h with hx
    · rcases hg : (groups p (xs ++ [y])).2 with _ | ⟨g', gs⟩
      · rw [hg] at h
        cases h
        rw [groups_of_none (groups_eq_nil_iff.1 hg)]
        simp
      · rw [hg, List.getLast?_cons_cons, ← hg] at h
        exact snd_ne_nil_of_getLast?_groups hy xs h
    · exact snd_ne_nil_of_getLast?_groups hy xs h

theorem groups_fst : ∀ xs : List α, (groups p xs).1 = xs.takeWhile fun x => !p x
  | [] => rfl
  | x :: xs => by
    rw [groups, List.takeWhile_cons, ← groups_fst xs]
    cases p x <;> rfl

theorem groups_fst_sublist : ∀ xs : List α, (groups p xs).1.Sublist xs
  | [] => .slnil
  | x :: xs => by
    rw [groups]
    split_ifs
    · exact List.nil_sublist _
    · exact (groups_fst_sublist xs).cons_cons x

/-- A section is part of the list. -/
theorem sublist_of_mem_groups {g : α × List α} : ∀ {xs : List α}, g ∈ (groups p xs).2 →
    (g.1 :: g.2).Sublist xs
  | [], h => by cases h
  | x :: xs, h => by
    rw [groups] at h
    split_ifs at h with hx
    · rcases List.mem_cons.1 h with rfl | h
      · exact (groups_fst_sublist xs).cons_cons x
      · exact (sublist_of_mem_groups h).cons x
    · exact (sublist_of_mem_groups h).cons x

end Sections
