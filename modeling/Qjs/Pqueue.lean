import Mathlib

/-!
# The priority queue

`aether_pqueue.c`. What is stored is seen as a function of the index, arbitrary where nothing has
been stored yet. A block of memory of `2 ^ 63` bytes or more is never given, and a call is told
whether memory it asks for is given otherwise; a function without a result writes outside its block.
The comparison, which may not be NULL, is a function of two elements; freeing elements is left out.
-/

namespace Qjs

namespace Pqueue

variable {α : Type*}

structure PriorityQueue (α : Type*) where
  data : ℕ → α
  size : ℕ
  capacity : ℕ
  /-- The elements that the block holds. -/
  slots : ℕ

def defaultCapacity : ℕ := 16

def growthFactor : ℕ := 2

/-- The elements that `malloc(n * sizeof(void*))` gives room for. -/
def alloc (ok : Bool) (n : ℕ) : Option ℕ :=
  if ok ∧ n * 8 % 2 ^ 64 < 2 ^ 63 then some (n * 8 % 2 ^ 64 / 8) else none

/-- `aether_pqueue_create`; `junk` is what the block holds at first. -/
def create (ok : Bool) (junk : ℕ → α) (initialCapacity : ℕ) : Option (PriorityQueue α) :=
  let capacity := if initialCapacity < defaultCapacity then defaultCapacity else initialCapacity
  (alloc ok capacity).map fun slots =>
    { data := junk
      size := 0
      capacity := capacity
      slots := slots }

/-- `aether_pqueue_ensure_capacity`, without a result where it is false. -/
def ensureCapacity (ok : Bool) (pq : PriorityQueue α) (minCapacity : ℕ) :
    Option (PriorityQueue α) :=
  if pq.capacity ≥ minCapacity then some pq
  else
    let newCapacity := pq.capacity * growthFactor % 2 ^ 64
    let newCapacity := if newCapacity < minCapacity then minCapacity else newCapacity
    (alloc ok newCapacity).map fun slots => { pq with capacity := newCapacity, slots := slots }

def swap (data : ℕ → α) (i j : ℕ) : ℕ → α :=
  Function.update (Function.update data i (data j)) j (data i)

section Heapify

variable (compare : α → α → ℤ)

/-- The index moves to a smaller one at each turn. -/
def heapifyUp : ℕ → ℕ → (ℕ → α) → ℕ → α
  | 0, _, data => data
  | fuel + 1, index, data =>
    if index > 0 then
      let parent := (index - 1) / 2
      if compare (data index) (data parent) < 0 then
        heapifyUp fuel parent (swap data index parent)
      else data
    else data

/-- The index moves to a greater one at each turn, below the size. -/
def heapifyDown (size : ℕ) : ℕ → ℕ → (ℕ → α) → ℕ → α
  | 0, _, data => data
  | fuel + 1, index, data =>
    let left := 2 * index + 1
    let right := 2 * index + 2
    let smallest :=
      if left < size ∧ compare (data left) (data index) < 0 then left else index
    let smallest :=
      if right < size ∧ compare (data right) (data smallest) < 0 then right else smallest
    if smallest = index then data
    else heapifyDown size fuel smallest (swap data index smallest)

/-- `aether_pqueue_insert`: the outer option is a write outside the block. -/
def insert (ok : Bool) (pq : PriorityQueue α) (element : α) : Option (Bool × PriorityQueue α) :=
  match ensureCapacity ok pq (pq.size + 1) with
  | none => some (false, pq)
  | some pq =>
    if pq.size < pq.slots then
      let data := Function.update pq.data pq.size element
      some (true, { pq with data := heapifyUp compare pq.size pq.size data, size := pq.size + 1 })
    else none

/-- `aether_pqueue_extract`, NULL where the queue is empty. -/
def extract (pq : PriorityQueue α) : Option α × PriorityQueue α :=
  if pq.size = 0 then (none, pq)
  else
    let result := pq.data 0
    let data := Function.update pq.data 0 (pq.data (pq.size - 1))
    let size := pq.size - 1
    let data := if size > 0 then heapifyDown compare size size 0 data else data
    (some result, { pq with data := data, size := size })

def clear (pq : PriorityQueue α) : PriorityQueue α := { pq with size := 0 }

/-- The loop of `aether_pqueue_from_array` that makes a heap: over `i` and the indices below it. -/
def buildHeap (size : ℕ) : ℕ → (ℕ → α) → ℕ → α
  | 0, data => data
  | i + 1, data => buildHeap size i (heapifyDown compare size size i data)

/-- `(int)count`. -/
def intOf (count : ℕ) : ℤ := (BitVec.ofNat 32 count).toInt

/-- `aether_pqueue_from_array`; the elements are cloned where there is a function for it. The outer
option is a write outside the block. -/
def fromArray (ok : Bool) (junk elements : ℕ → α) (count : ℕ) (elementClone : Option (α → α)) :
    Option (Option (PriorityQueue α)) :=
  match create ok junk count with
  | none => some none
  | some pq =>
    if count ≤ pq.slots then
      let data i := if i < count then elementClone.getD id (elements i) else pq.data i
      let start := (intOf count).tdiv 2 - 1
      some (some { pq with data := buildHeap compare count (start + 1).toNat data, size := count })
    else none

/-! ### Runs -/

/-- The calls; `insert` is told whether memory is given. -/
inductive Op (α : Type*)
  | insert (element : α) (ok : Bool)
  | extract
  | clear

inductive Out (α : Type*)
  | inserted (ok : Bool)
  | extracted (element : Option α)
  | cleared

def step (pq : PriorityQueue α) : Op α → Option (Out α × PriorityQueue α)
  | .insert element ok => (insert compare ok pq element).map fun r => (.inserted r.1, r.2)
  | .extract => some (.extracted (extract compare pq).1, (extract compare pq).2)
  | .clear => some (.cleared, clear pq)

/-- What the calls return, and the queue after them. -/
def run : PriorityQueue α → List (Op α) → Option (List (Out α) × PriorityQueue α)
  | pq, [] => some ([], pq)
  | pq, op :: ops =>
    (step compare pq op).bind fun r => (run r.2 ops).map fun p => (r.1 :: p.1, p.2)

end Heapify

/-! ### A queue as a multiset -/

/-- The comparison is that of a total preorder. -/
structure TotalPreorder (compare : α → α → ℤ) : Prop where
  swap_iff : ∀ a b, compare a b < 0 ↔ 0 < compare b a
  trans : ∀ a b c, compare a b ≤ 0 → compare b c ≤ 0 → compare a c ≤ 0

/-- What is stored. -/
def PriorityQueue.contents (pq : PriorityQueue α) : Multiset α :=
  (Multiset.range pq.size).map pq.data

/-- No element comes before the one at its parent. -/
def PriorityQueue.Ordered (compare : α → α → ℤ) (pq : PriorityQueue α) : Prop :=
  ∀ i, 0 < i → i < pq.size → compare (pq.data ((i - 1) / 2)) (pq.data i) ≤ 0

/-- What a call may return and leave of the multiset. -/
inductive Serves (compare : α → α → ℤ) : Multiset α → Op α → Out α → Multiset α → Prop
  | inserted (m : Multiset α) (x : α) (ok : Bool) :
    Serves compare m (.insert x ok) (.inserted true) (x ::ₘ m)
  | refused (m : Multiset α) (x : α) (ok : Bool) :
    Serves compare m (.insert x ok) (.inserted false) m
  | extracted (m : Multiset α) (x : α) (hleast : ∀ y ∈ m, compare x y ≤ 0) :
    Serves compare (x ::ₘ m) .extract (.extracted (some x)) m
  | empty : Serves compare 0 .extract (.extracted none) 0
  | cleared (m : Multiset α) : Serves compare m .clear .cleared 0

/-- The same of a run of calls. -/
inductive ServesAll (compare : α → α → ℤ) :
    Multiset α → List (Op α) → List (Out α) → Multiset α → Prop
  | nil (m : Multiset α) : ServesAll compare m [] [] m
  | cons {m m' m'' : Multiset α} {op : Op α} {out : Out α} {ops : List (Op α)} {outs : List (Out α)}
    (h : Serves compare m op out m') (hs : ServesAll compare m' ops outs m'') :
    ServesAll compare m (op :: ops) (out :: outs) m''

end Pqueue

end Qjs
