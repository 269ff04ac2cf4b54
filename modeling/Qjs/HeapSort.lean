import Mathlib.Data.Int.Notation
import Mathlib.Data.Nat.Notation

/-!
# Heap sort

`rqsort_idx` sorts by the indexes of the elements: it compares and swaps through two functions,
which may keep a state of their own.
-/

namespace Qjs.HeapSort

variable {σ : Type*} (cmp : ℕ → ℕ → σ → ℤ × σ) (swap : ℕ → ℕ → σ → σ)

/-- The greater child of `r` among the first `n` elements, if `c` is the first one. -/
def greaterChild (n c : ℕ) (s : σ) : ℕ × σ :=
  if c < n - 1 then
    let (v, s) := cmp c (c + 1) s
    (if v ≤ 0 then c + 1 else c, s)
  else (c, s)

/-- The inner loop: the element at `r` sinks among the first `n`. It moves to a greater index at
each turn. -/
def sink (n : ℕ) : ℕ → ℕ → σ → σ
  | 0, _, s => s
  | fuel + 1, r, s =>
    if 2 * r + 1 < n then
      let (c, s) := greaterChild cmp n (2 * r + 1) s
      let (v, s) := cmp r c s
      if v > 0 then s else sink n fuel c (swap r c s)
    else s

/-- The first loop, down from the last element that has a child. -/
def heapify (n : ℕ) : ℕ → σ → σ
  | 0, s => s
  | i + 1, s => heapify n i (sink cmp swap n n i s)

/-- The second loop: the greatest element of the first `i + 1` goes to the end of them. -/
def extract : ℕ → σ → σ
  | 0, s => s
  | i + 1, s => extract i (sink cmp swap (i + 1) (i + 1) 0 (swap 0 (i + 1) s))

def rqsortIdx (nmemb : ℕ) (s : σ) : σ :=
  if nmemb > 1 then extract cmp swap (nmemb - 1) (heapify cmp swap nmemb (nmemb / 2) s) else s

end Qjs.HeapSort
