import Mathlib

/-!
# Stores into an array

A run of consecutive stores replaces a segment of a list (`store`), and moving a segment is storing
what was elsewhere in the list. Both are determined by their elements (`getElem?_store`).
-/

namespace Qjs

variable {α : Type*}

/-- `l` with `xs` from the index `i` on. -/
def store (l : List α) (i : ℕ) (xs : List α) : List α := l.take i ++ xs ++ l.drop (i + xs.length)

/-- `memmove` of `n` elements. -/
def moveWithin (l : List α) (dst src n : ℕ) : List α := store l dst ((l.drop src).take n)

/-- The first `n / 2` elements and their mirror images exchanged, from the index `i` on. -/
def reverseLoop (l : List α) (n : ℕ) : ℕ → ℕ → List α
  | 0, _ => l
  | k + 1, i =>
    match l[i]?, l[n - 1 - i]? with
    | some x, some y => reverseLoop ((l.set i y).set (n - 1 - i) x) n k (i + 1)
    | _, _ => l

variable {l xs : List α} {i k n dst src : ℕ}

theorem length_store (h : i + xs.length ≤ l.length) : (store l i xs).length = l.length := by
  simp only [store, List.length_append, List.length_take, List.length_drop]
  omega

theorem getElem?_store (h : i + xs.length ≤ l.length) :
    (store l i xs)[k]? = if i ≤ k ∧ k < i + xs.length then xs[k - i]? else l[k]? := by
  simp only [store, List.getElem?_append, List.length_append, List.length_take, List.getElem?_take,
    List.getElem?_drop]
  have hi : min i l.length = i := by omega
  rw [hi]
  split_ifs <;> first | omega | rfl | skip
  congr 1
  omega

theorem length_moveWithin (hdst : dst + n ≤ l.length) :
    (moveWithin l dst src n).length = l.length := by
  apply length_store
  simp only [List.length_take, List.length_drop]
  omega

theorem getElem?_moveWithin (hdst : dst + n ≤ l.length) (hsrc : src + n ≤ l.length) :
    (moveWithin l dst src n)[k]? =
      if dst ≤ k ∧ k < dst + n then l[src + (k - dst)]? else l[k]? := by
  have hlen : ((l.drop src).take n).length = n := by
    simp only [List.length_take, List.length_drop]
    omega
  rw [moveWithin, getElem?_store (by omega), hlen]
  split_ifs with hk
  · rw [List.getElem?_take, if_pos (by omega), List.getElem?_drop]
  · rfl

theorem length_reverseLoop (n : ℕ) : ∀ (m i : ℕ) (l : List α),
    (reverseLoop l n m i).length = l.length
  | 0, _, _ => rfl
  | m + 1, i, l => by
    rw [reverseLoop]
    split
    · rw [length_reverseLoop n m, List.length_set, List.length_set]
    · rfl

/-- The loop exchanges what is left between `i` and its mirror image. -/
theorem getElem?_reverseLoop {n : ℕ} : ∀ (m i : ℕ) (l : List α), n ≤ l.length → i + m = n / 2 →
    ∀ k, (reverseLoop l n m i)[k]? = if i ≤ k ∧ k < n - i then l[n - 1 - k]? else l[k]?
  | 0, i, l, hn, hi, k => by
    rw [reverseLoop]
    split_ifs
    · rw [show n - 1 - k = k by omega]
    · rfl
  | m + 1, i, l, hn, hi, k => by
    have hx : l[i]? = some l[i] := List.getElem?_eq_getElem (by omega)
    have hy : l[n - 1 - i]? = some l[n - 1 - i] := List.getElem?_eq_getElem (by omega)
    rw [reverseLoop, hx, hy]
    dsimp only
    rw [getElem?_reverseLoop m (i + 1) _ (by simpa using hn) (by omega)]
    simp only [List.getElem?_set, List.length_set]
    rcases lt_trichotomy k i with hlt | rfl | hgt
    · rw [if_neg (by omega), if_neg (by omega), if_neg (by omega), if_neg (by omega)]
    · rw [if_neg (by omega), if_neg (by omega), if_pos rfl, if_pos (by omega), if_pos (by omega),
        hy]
    · rcases lt_trichotomy k (n - 1 - i) with hlt' | rfl | hgt'
      · rw [if_pos (by omega), if_neg (by omega), if_neg (by omega), if_pos (by omega)]
      · rw [if_neg (by omega), if_pos rfl, if_pos (by omega), if_pos (by omega),
          show n - 1 - (n - 1 - i) = i by omega, hx]
      · rw [if_neg (by omega), if_neg (by omega), if_neg (by omega), if_neg (by omega)]

theorem take_reverseLoop {n : ℕ} (h : n ≤ l.length) :
    (reverseLoop l n (n / 2) 0).take n = (l.take n).reverse := by
  apply List.ext_getElem?
  intro k
  rw [List.getElem?_take, getElem?_reverseLoop _ _ _ h (by omega)]
  have hlen : (l.take n).length = n := by
    rw [List.length_take]
    omega
  by_cases hk : k < n
  · rw [if_pos hk, if_pos (by omega), List.getElem?_reverse (by omega), hlen, List.getElem?_take,
      if_pos (by omega)]
  · rw [if_neg hk, List.getElem?_eq_none (by rw [List.length_reverse]; omega)]

end Qjs
