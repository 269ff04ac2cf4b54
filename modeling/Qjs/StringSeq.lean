import Mathlib

/-!
# String sequences

`aether_stringseq.c`: cells on an explicit heap. A cell that is freed is not used again for another,
so that a use of it shows; memory does not run out. The counters are `int`: an overflow ends the
run, as a use of a freed cell would. The strings are kept as values, their own reference counts are
left out.
-/

namespace Qjs

namespace StringSeq

variable {σ : Type}

/-- How a run may end: the overflow of an `int`, an access to what is not allocated, or never. -/
inductive Fault
  | overflow
  | badAccess
  | endless
  deriving DecidableEq

/-- `StringSeq`. -/
structure Cell (σ : Type) where
  refCount : ℤ
  length : ℤ
  head : σ
  tail : Option ℕ

/-- The cells that are allocated, by their addresses, and the next address. -/
structure Heap (σ : Type) where
  cells : ℕ → Option (Cell σ)
  next : ℕ

def intMax : ℤ := 2 ^ 31 - 1

def Heap.empty : Heap σ := ⟨fun _ => none, 0⟩

def Heap.read (h : Heap σ) (a : ℕ) : Except Fault (Cell σ) :=
  match h.cells a with
  | some c => .ok c
  | none => .error .badAccess

def Heap.write (h : Heap σ) (a : ℕ) (c : Option (Cell σ)) : Heap σ :=
  { h with cells := Function.update h.cells a c }

/-- An allocated cell. -/
def Heap.push (h : Heap σ) (c : Cell σ) : Heap σ :=
  ⟨Function.update h.cells h.next (some c), h.next + 1⟩

def stringSeqHead (default : σ) (s : Option ℕ) (h : Heap σ) : Except Fault σ :=
  match s with
  | none => .ok default
  | some a => (h.read a).map Cell.head

def stringSeqTail (s : Option ℕ) (h : Heap σ) : Except Fault (Option ℕ) :=
  match s with
  | none => .ok none
  | some a => (h.read a).map Cell.tail

def stringSeqLength (s : Option ℕ) (h : Heap σ) : Except Fault ℤ :=
  match s with
  | none => .ok 0
  | some a => (h.read a).map Cell.length

def stringSeqRetain (s : Option ℕ) (h : Heap σ) : Except Fault (Heap σ) :=
  match s with
  | none => .ok h
  | some a => do
    let c ← h.read a
    if c.refCount < intMax then .ok (h.write a (some { c with refCount := c.refCount + 1 }))
    else .error .overflow

def stringSeqCons (head : σ) (tail : Option ℕ) (h : Heap σ) : Except Fault (ℕ × Heap σ) := do
  let n ← stringSeqLength tail h
  if n < intMax then
    let h' ← stringSeqRetain tail (h.push ⟨1, n + 1, head, tail⟩)
    .ok (h.next, h')
  else .error .overflow

/-- The loop of `string_seq_free`. -/
def freeLoop : ℕ → Option ℕ → Heap σ → Except Fault (Heap σ)
  | _, none, h => .ok h
  | 0, some _, _ => .error .endless
  | fuel + 1, some a, h => do
    let c ← h.read a
    if c.refCount - 1 > 0 then .ok (h.write a (some { c with refCount := c.refCount - 1 }))
    else freeLoop fuel c.tail (h.write a none)

def stringSeqFree (s : Option ℕ) (h : Heap σ) : Except Fault (Heap σ) := freeLoop h.next s h

/-- A turn of the loops that build: `cons`, and the free of the sequence that was built so far. -/
def consFree (x : σ) (result : Option ℕ) (h : Heap σ) : Except Fault (ℕ × Heap σ) := do
  let (cell, h) ← stringSeqCons x result h
  let h ← stringSeqFree result h
  .ok (cell, h)

/-- The loop of `string_seq_from_array`, over the first `n` strings from the last on. -/
def fromArrayLoop (strings : List σ) : ℕ → Option ℕ → Heap σ → Except Fault (Option ℕ × Heap σ)
  | 0, head, h => .ok (head, h)
  | i + 1, head, h =>
    match strings[i]? with
    | none => .error .badAccess
    | some elem => do
      let (cell, h) ← consFree elem head h
      fromArrayLoop strings i (some cell) h

def stringSeqFromArray (arr : Option (List σ)) (count : ℤ) (h : Heap σ) :
    Except Fault (Option ℕ × Heap σ) :=
  match arr with
  | none => .ok (none, h)
  | some strings =>
    if count ≤ 0 then .ok (none, h) else fromArrayLoop strings count.toNat none h

/-- The loops that cons the elements of `cur` onto `result`, `limit` of them at most. -/
def prependLoop : ℕ → Option ℕ → Option ℕ → Option ℕ → Heap σ → Except Fault (Option ℕ × Heap σ)
  | _, _, none, result, h => .ok (result, h)
  | 0, _, some _, _, _ => .error .endless
  | fuel + 1, limit, some a, result, h =>
    if limit = some 0 then .ok (result, h)
    else do
      let c ← h.read a
      let (cell, h) ← consFree c.head result h
      prependLoop fuel (limit.map Nat.pred) c.tail (some cell) h

def stringSeqReverse (s : Option ℕ) (h : Heap σ) : Except Fault (Option ℕ × Heap σ) :=
  prependLoop h.next none s none h

def stringSeqConcat (a b : Option ℕ) (h : Heap σ) : Except Fault (Option ℕ × Heap σ) :=
  match a with
  | none => do
    let h ← stringSeqRetain b h
    .ok (b, h)
  | some _ => do
    let (reversed, h) ← stringSeqReverse a h
    let h ← stringSeqRetain b h
    let (result, h) ← prependLoop h.next none reversed b h
    let h ← stringSeqFree reversed h
    .ok (result, h)

def stringSeqTake (s : Option ℕ) (n : ℤ) (h : Heap σ) : Except Fault (Option ℕ × Heap σ) :=
  if n ≤ 0 ∨ s = none then .ok (none, h)
  else do
    let (reversedPrefix, h) ← prependLoop h.next (some n.toNat) s none h
    let (result, h) ← stringSeqReverse reversedPrefix h
    let h ← stringSeqFree reversedPrefix h
    .ok (result, h)

/-- The loop of `string_seq_drop`. -/
def dropLoop : ℕ → Option ℕ → Heap σ → Except Fault (Option ℕ)
  | 0, cur, _ => .ok cur
  | _ + 1, none, _ => .ok none
  | n + 1, some a, h => do
    let c ← h.read a
    dropLoop n c.tail h

def stringSeqDrop (s : Option ℕ) (n : ℤ) (h : Heap σ) : Except Fault (Option ℕ × Heap σ) :=
  if n ≤ 0 then do
    let h ← stringSeqRetain s h
    .ok (s, h)
  else do
    let cur ← dropLoop n.toNat s h
    let h ← stringSeqRetain cur h
    .ok (cur, h)

/-- The loop of `string_seq_to_array`. -/
def toArrayLoop : ℕ → Option ℕ → Heap σ → Except Fault (List σ)
  | 0, _, _ => .ok []
  | _ + 1, none, _ => .ok []
  | n + 1, some a, h => do
    let c ← h.read a
    let rest ← toArrayLoop n c.tail h
    .ok (c.head :: rest)

/-- The array's count and its strings; NULL of the empty sequence. -/
def stringSeqToArray (s : Option ℕ) (h : Heap σ) : Except Fault (Option (ℤ × List σ)) :=
  match s with
  | none => .ok none
  | some a => do
    let c ← h.read a
    let strings ← toArrayLoop c.length.toNat s h
    .ok (some (c.length, strings))

/-! ### Clients -/

/-- The heap and the handles that the client owns. -/
structure State (σ : Type) where
  heap : Heap σ
  owned : Multiset ℕ

inductive Op (σ : Type)
  | cons (head : σ) (tail : Option ℕ)
  | tail (s : Option ℕ)
  | retain (s : Option ℕ)
  | free (s : Option ℕ)
  | reverse (s : Option ℕ)
  | concat (a b : Option ℕ)
  | take (s : Option ℕ) (n : ℤ)
  | drop (s : Option ℕ) (n : ℤ)
  | fromArray (arr : Option (List σ)) (count : ℤ)
  | toArray (s : Option ℕ)

inductive Ret (σ : Type)
  | done
  | seq (s : Option ℕ)
  | array (arr : Option (ℤ × List σ))

/-- A handle as the multiset that its owner has of it. -/
def own (s : Option ℕ) : Multiset ℕ := s.elim 0 fun a => {a}

/-- The call returns a sequence that the client owns. -/
def State.give (s : State σ) (r : Except Fault (Option ℕ × Heap σ)) :
    Except Fault (State σ × Ret σ) :=
  r.map fun p => (⟨p.2, own p.1 + s.owned⟩, .seq p.1)

def step (s : State σ) : Op σ → Except Fault (State σ × Ret σ)
  | .cons head tail => s.give ((stringSeqCons head tail s.heap).map fun p => (some p.1, p.2))
  | .tail t => (stringSeqTail t s.heap).map fun r => (s, .seq r)
  | .retain t => s.give ((stringSeqRetain t s.heap).map fun h => (t, h))
  | .free t => (stringSeqFree t s.heap).map fun h => (⟨h, s.owned - own t⟩, .done)
  | .reverse t => s.give (stringSeqReverse t s.heap)
  | .concat a b => s.give (stringSeqConcat a b s.heap)
  | .take t n => s.give (stringSeqTake t n s.heap)
  | .drop t n => s.give (stringSeqDrop t n s.heap)
  | .fromArray arr count => s.give (stringSeqFromArray arr count s.heap)
  | .toArray t => (stringSeqToArray t s.heap).map fun r => (s, .array r)

/-- The cell that a cell or its tails lead to. -/
inductive Reaches (h : Heap σ) : ℕ → ℕ → Prop
  | refl (a : ℕ) : Reaches h a a
  | tail {a t b : ℕ} {c : Cell σ} (hc : h.cells a = some c) (ht : c.tail = some t)
    (hb : Reaches h t b) : Reaches h a b

/-- What the client may name: NULL, or what a handle leads to that it owns. -/
def State.Names (s : State σ) (t : Option ℕ) : Prop :=
  ∀ a, t = some a → ∃ o ∈ s.owned, Reaches s.heap o a

/-- The client names what it may name, frees what it owns and counts what is in its array. -/
def State.Allows (s : State σ) : Op σ → Prop
  | .cons _ t | .tail t | .retain t | .reverse t | .take t _ | .drop t _ | .toArray t => s.Names t
  | .free t => own t ≤ s.owned
  | .concat a b => s.Names a ∧ s.Names b
  | .fromArray arr count => count ≤ intMax ∧ ∀ strings ∈ arr, count ≤ strings.length

/-- `k` more owners of the sequence can be counted. -/
def Heap.Room (h : Heap σ) (k : ℤ) (t : Option ℕ) : Prop :=
  ∀ a c, t = some a → h.cells a = some c → c.refCount + k ≤ intMax

/-- The length that a cell has in its field, 0 of NULL. -/
def Heap.lengthAt (h : Heap σ) (t : Option ℕ) : ℤ :=
  ((t.bind h.cells).map Cell.length).getD 0

/-- The sequence after `n` elements. -/
def Heap.nthTail (h : Heap σ) : ℕ → Option ℕ → Option ℕ
  | 0, t => t
  | n + 1, t => h.nthTail n ((t.bind h.cells).bind Cell.tail)

/-- No cell gets more owners, and no list more elements, than an `int` counts. -/
def State.Fits (s : State σ) : Op σ → Prop
  | .cons _ t => s.heap.lengthAt t < intMax ∧ s.heap.Room 1 t
  | .retain t => s.heap.Room 1 t
  | .concat none b => s.heap.Room 1 b
  | .concat (some a) b =>
    s.heap.Room 2 b ∧ s.heap.lengthAt (some a) + s.heap.lengthAt b ≤ intMax
  | .drop t n => s.heap.Room 1 (s.heap.nthTail n.toNat t)
  | _ => True

/-- What a client program gets to. -/
inductive Reached : State σ → Prop
  | start : Reached ⟨.empty, 0⟩
  | step {s s' : State σ} {op : Op σ} {r : Ret σ} (h : Reached s) (ha : s.Allows op)
    (hs : step s op = .ok (s', r)) : Reached s'

/-- The number of allocated cells that have `a` as their tail. -/
def Heap.tailsTo (h : Heap σ) (a : ℕ) : ℕ :=
  ((Finset.range h.next).filter fun b => (h.cells b).bind Cell.tail = some a).card

/-- The list that a sequence is. -/
inductive Spells (h : Heap σ) : Option ℕ → List σ → Prop
  | nil : Spells h none []
  | cons {a : ℕ} {c : Cell σ} {xs : List σ} (hc : h.cells a = some c) (ht : Spells h c.tail xs) :
    Spells h (some a) (c.head :: xs)

/-- A call returns what the list function of its name does. -/
def Computes (s : State σ) (op : Op σ) (s' : State σ) (r : Ret σ) : Prop :=
  match op with
  | .cons x t => ∀ xs, Spells s.heap t xs → ∃ p, r = .seq p ∧ Spells s'.heap p (x :: xs)
  | .tail t => ∀ xs, Spells s.heap t xs → ∃ p, r = .seq p ∧ Spells s'.heap p xs.tail
  | .retain t => r = .seq t
  | .free _ => r = .done
  | .reverse t => ∀ xs, Spells s.heap t xs → ∃ p, r = .seq p ∧ Spells s'.heap p xs.reverse
  | .concat a b => ∀ xs ys, Spells s.heap a xs → Spells s.heap b ys →
    ∃ p, r = .seq p ∧ Spells s'.heap p (xs ++ ys)
  | .take t n => ∀ xs, Spells s.heap t xs → ∃ p, r = .seq p ∧ Spells s'.heap p (xs.take n.toNat)
  | .drop t n => ∀ xs, Spells s.heap t xs → ∃ p, r = .seq p ∧ Spells s'.heap p (xs.drop n.toNat)
  | .fromArray arr count => ∃ p, r = .seq p ∧ Spells s'.heap p ((arr.getD []).take count.toNat)
  | .toArray t => ∀ xs, Spells s.heap t xs →
    r = .array (if t = none then none else some ((xs.length : ℤ), xs))

/-- The sequences that can still be named are what they were. -/
def State.Keeps (s s' : State σ) : Prop :=
  ∀ t xs, Spells s.heap t xs → s'.Names t → Spells s'.heap t xs

/-- Each cell counts its owners and the cells before it, what is owned is there, and nothing is left
of what nobody owns. -/
structure State.Exact (s : State σ) : Prop where
  fresh : ∀ a, s.heap.next ≤ a → s.heap.cells a = none
  count : ∀ a c, s.heap.cells a = some c → c.refCount = s.owned.count a + s.heap.tailsTo a
  live : ∀ o ∈ s.owned, ∀ a, Reaches s.heap o a → ∃ c, s.heap.cells a = some c
  list : ∀ t, s.Names t → ∃ xs, Spells s.heap t xs ∧ stringSeqLength t s.heap = .ok (xs.length : ℤ)
  freed : s.owned = 0 → ∀ a, s.heap.cells a = none

/-- A list of one element that has `n` owners. -/
def manyOwners (n : ℕ) : State Unit :=
  ⟨⟨Function.update (fun _ => none) 0 (some ⟨n, 1, (), none⟩), 1⟩, Multiset.replicate n 0⟩

end StringSeq

end Qjs
