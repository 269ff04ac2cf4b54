import Qjs.Lib.ListStore
import Qjs.Value

/-!
# The methods that change an array

An array is a table and a length: the slots from the length on may hold anything. A method reads
its receiver again after it has converted an argument, because the conversion can run code that
changes the same array (`Engine`).

`alloc k` says whether the allocation number `k` of a call finds memory.
-/

namespace Qjs

namespace Arrays

variable {β U : Type}

inductive Val (β : Type)
  | undefined
  | int (z : ℤ)
  | obj (id : ℕ)
  | other (x : β)
  deriving DecidableEq

/-- `JSArrayData`; no table is `JS_NULL`. -/
structure JSArrayData (β : Type) where
  tab : Option (List (Val β))
  len : ℕ

def JSArrayData.arr (p : JSArrayData β) : List (Val β) := p.tab.getD []

/-- The elements of an array. -/
def JSArrayData.visible (p : JSArrayData β) : List (Val β) := p.arr.take p.len

/-- Consecutive stores from the slot `i` on. -/
def JSArrayData.storeAt (p : JSArrayData β) (i : ℕ) (xs : List (Val β)) : JSArrayData β :=
  { p with tab := p.tab.map fun arr => store arr i xs }

/-- `memmove` of `n` slots. -/
def JSArrayData.move (p : JSArrayData β) (dst src n : ℕ) : JSArrayData β :=
  { p with tab := p.tab.map fun arr => moveWithin arr dst src n }

structure Heap (β U : Type) where
  /-- The objects of the class `JS_CLASS_ARRAY`. -/
  arrays : ℕ → Option (JSArrayData β)
  /-- No object has this reference or a larger one. -/
  next : ℕ
  /-- Everything else. -/
  user : U

def Heap.visible (h : Heap β U) (id : ℕ) : Option (List (Val β)) :=
  (h.arrays id).map JSArrayData.visible

def Heap.put (h : Heap β U) (id : ℕ) (p : JSArrayData β) : Heap β U :=
  { h with arrays := Function.update h.arrays id (some p) }

def Heap.modify (h : Heap β U) (id : ℕ) (f : JSArrayData β → JSArrayData β) : Heap β U :=
  { h with arrays := Function.update h.arrays id ((h.arrays id).map f) }

/-! ### Tables -/

def jsValueArraySizeMax : ℕ := 2 ^ 28 - 1

/-- `js_alloc_value_array` succeeds. -/
def allocates (ok : Bool) (size : ℕ) : Bool := decide (size ≤ jsValueArraySizeMax) && ok

/-- The size of a table that has to grow. -/
def grownSize (oldSize newSize : ℕ) : ℕ := max newSize (oldSize + oldSize / 2)

def jsResizeValueArray (ok : Bool) (tab : Option (List (Val β))) (newSize : ℕ) :
    Option (Option (List (Val β))) :=
  let slots := tab.getD []
  if slots.length < newSize then
    let size := grownSize slots.length newSize
    if allocates ok size then
      some (some (slots ++ List.replicate (size - slots.length) .undefined))
    else none
  else some tab

def jsShrinkValueArray (tab : Option (List (Val β))) (newSize : ℕ) : Option (List (Val β)) :=
  tab.bind fun arr => if newSize = 0 then none else some (arr.take newSize)

/-- The slots from `i` up to `j` set to undefined. -/
def clearSlots (tab : Option (List (Val β))) (i j : ℕ) : Option (List (Val β)) :=
  tab.map fun arr => store arr i (List.replicate (j - i) .undefined)

def jsArrayResize (ok : Bool) (p : JSArrayData β) (newLen : ℤ) : Option (JSArrayData β) :=
  if newLen < 0 ∨ jsShortIntMax < newLen then none
  else
    let n := newLen.toNat
    if n < p.len then
      -- shrink the array if the new size is small enough
      if n < p.arr.length / 2 ∧ 4 ≤ p.arr.length then some ⟨jsShrinkValueArray p.tab n, n⟩
      else some ⟨clearSlots p.tab n p.len, n⟩
    else if p.len < n then
      (jsResizeValueArray ok p.tab n).map fun tab => ⟨clearSlots tab p.len n, n⟩
    else some ⟨p.tab, n⟩

/-- `JS_NewArray`: an object and, unless it is empty, a table. -/
def jsNewArray (ok₁ ok₂ : Bool) (h : Heap β U) (initialLen : ℕ) : Option (ℕ × Heap β U) :=
  let alloc (tab : Option (List (Val β))) : Option (ℕ × Heap β U) :=
    some (h.next,
      { h with
        arrays := Function.update h.arrays h.next (some ⟨tab, initialLen⟩)
        next := h.next + 1 })
  if ok₁ then
    if initialLen = 0 then alloc none
    else if allocates ok₂ initialLen then alloc (some (List.replicate initialLen .undefined))
    else none
  else none

/-! ### Conversions -/

/-- The size of a table is a field of 28 bits. -/
structure JSArrayData.Valid (p : JSArrayData β) : Prop where
  len_le : p.len ≤ p.arr.length
  size_le : p.arr.length ≤ jsValueArraySizeMax

structure Heap.Valid (h : Heap β U) : Prop where
  array : ∀ id p, h.arrays id = some p → p.Valid
  fresh : ∀ id, h.next ≤ id → h.arrays id = none

/-- Every array is still one. -/
def Keeps (h h' : Heap β U) : Prop := ∀ id, (h.arrays id).isSome → (h'.arrays id).isSome

/-- The conversions to integers, with the code they run; no integer stands for an exception. -/
structure Engine (β U : Type) where
  toInt32 : Val β → Heap β U → Option ℤ × Heap β U
  toInt32Sat : Val β → Heap β U → Option ℤ × Heap β U
  toInt32_valid : ∀ v {h}, h.Valid → (toInt32 v h).2.Valid ∧ Keeps h (toInt32 v h).2
  toInt32Sat_valid : ∀ v {h}, h.Valid → (toInt32Sat v h).2.Valid ∧ Keeps h (toInt32Sat v h).2

def clamp (n min max minOffset : ℤ) : ℤ :=
  if n < min then if n + minOffset < min then min else n + minOffset
  else if max < n then max else n

/-! ### Methods

No value is an exception. -/

section Methods

variable (eng : Engine β U) (alloc : ℕ → Bool) (this : ℕ) (argv : List (Val β)) (h : Heap β U)

/-- `argv[i]`; the missing arguments are undefined. -/
def arg (i : ℕ) : Val β := argv.getD i .undefined

def jsArraySetLength (v : Val β) : Option (Val β) × Heap β U :=
  match h.arrays this with
  | none => (none, h)
  | some _ =>
    match eng.toInt32 v h with
    | (none, h) => (none, h)
    | (some newLen, h) =>
      match (h.arrays this).bind fun p => jsArrayResize (alloc 0) p newLen with
      | none => (none, h)
      | some p => (some .undefined, h.put this p)

def jsArrayPush (isUnshift : Bool) : Option (Val β) × Heap β U :=
  match h.arrays this with
  | none => (none, h)
  | some p =>
    let newLen := p.len + argv.length
    if jsShortIntMax < newLen then (none, h)
    else
      match jsResizeValueArray (alloc 0) p.tab newLen with
      | none => (none, h)
      | some tab =>
        let front := isUnshift ∧ 0 < argv.length
        let q : JSArrayData β := ⟨tab, newLen⟩
        let q := if front then q.move argv.length 0 p.len else q
        (some (.int newLen), h.put this (q.storeAt (if front then 0 else p.len) argv))

def jsArrayPop : Option (Val β) × Heap β U :=
  match h.arrays this with
  | none => (none, h)
  | some p =>
    if 0 < p.len then
      (some (p.arr.getD (p.len - 1) .undefined), h.put this { p with len := p.len - 1 })
    else (some .undefined, h)

def jsArrayShift : Option (Val β) × Heap β U :=
  match h.arrays this with
  | none => (none, h)
  | some p =>
    if 0 < p.len then
      (some (p.arr.getD 0 .undefined),
        h.put this (JSArrayData.move { p with len := p.len - 1 } 0 1 (p.len - 1)))
    else (some .undefined, h)

def jsArrayReverse : Option (Val β) × Heap β U :=
  match h.arrays this with
  | none => (none, h)
  | some p =>
    let tab := p.tab.map fun arr => reverseLoop arr p.len (p.len / 2) 0
    (some (.obj this), h.put this { p with tab := tab })

/-- The part of `js_array_splice` after the arguments are converted. -/
def spliceAt (len start delCount : ℕ) (items : List (Val β)) : Option (Val β) × Heap β U :=
  match jsNewArray (alloc 0) (alloc 1) h delCount with
  | none => (none, h)
  | some (obj, h) =>
    match h.arrays this with
    | none => (none, h)
    | some p =>
      -- handling this case has no practical use
      if p.len ≠ len then (none, h)
      else
        let removed := (p.arr.drop start).take delCount
        let h := h.modify obj fun p1 => p1.storeAt 0 removed
        let itemCount := items.length
        let rest := len - (start + delCount)
        if itemCount = delCount then (some (.obj obj), h.put this (p.storeAt start items))
        else
          -- resize
          let p :=
            if itemCount < delCount then p.move (start + itemCount) (start + delCount) rest else p
          match jsArrayResize (alloc 2) p ((len : ℤ) + itemCount - delCount) with
          | none => (none, h.put this p)
          | some p =>
            let p :=
              if delCount < itemCount then p.move (start + itemCount) (start + delCount) rest
              else p
            (some (.obj obj), h.put this (p.storeAt start items))

def jsArraySplice : Option (Val β) × Heap β U :=
  match h.arrays this with
  | none => (none, h)
  | some p =>
    let len := p.len
    match eng.toInt32Sat (arg argv 0) h with
    | (none, h) => (none, h)
    | (some start, h) =>
      let start := (clamp start 0 len len).toNat
      if argv.length = 0 then spliceAt alloc this h len start 0 []
      else if argv.length = 1 then spliceAt alloc this h len start (len - start) []
      else
        match eng.toInt32Sat (arg argv 1) h with
        | (none, h) => (none, h)
        | (some delCount, h) =>
          spliceAt alloc this h len start (clamp delCount 0 (len - start : ℕ) 0).toNat (argv.drop 2)

end Methods

inductive Op (β : Type)
  | push (argv : List (Val β))
  | unshift (argv : List (Val β))
  | pop
  | shift
  | reverse
  | setLength (v : Val β)
  | splice (argv : List (Val β))

def Op.run (eng : Engine β U) (alloc : ℕ → Bool) (this : ℕ) (h : Heap β U) :
    Op β → Option (Val β) × Heap β U
  | .push argv => jsArrayPush alloc this argv h false
  | .unshift argv => jsArrayPush alloc this argv h true
  | .pop => jsArrayPop this h
  | .shift => jsArrayShift this h
  | .reverse => jsArrayReverse this h
  | .setLength v => jsArraySetLength eng alloc this h v
  | .splice argv => jsArraySplice eng alloc this argv h

/-- A call: its method, its receiver and the memory it finds. -/
structure Call (β : Type) where
  op : Op β
  this : ℕ
  alloc : ℕ → Bool

/-- The heap after some calls. -/
def runCalls (eng : Engine β U) (h : Heap β U) (cs : List (Call β)) : Heap β U :=
  cs.foldl (fun h c => (c.op.run eng c.alloc c.this h).2) h

/-! ### Lists

What the methods are for: operations on lists. -/

/-- An operation whose arguments have been converted; `splice` takes its positions as they are
given, and no number of elements means all of them. -/
inductive ListOp (β : Type)
  | push (xs : List (Val β))
  | unshift (xs : List (Val β))
  | pop
  | shift
  | reverse
  | setLength (n : ℤ)
  | splice (start : ℤ) (del : Option ℤ) (items : List (Val β))

/-- A position from the start, or from the end when it is negative. -/
def relIndex (start : ℤ) (len : ℕ) : ℕ :=
  if start < 0 then (len + start).toNat else min start.toNat len

/-- The number of elements that are there to be deleted. -/
def delAt (del : Option ℤ) (len s : ℕ) : ℕ :=
  match del with
  | none => len - s
  | some d => min d.toNat (len - s)

def ListOp.apply (l : List (Val β)) : ListOp β → List (Val β)
  | .push xs => l ++ xs
  | .unshift xs => xs ++ l
  | .pop => l.dropLast
  | .shift => l.tail
  | .reverse => l.reverse
  | .setLength n => l.take n.toNat ++ List.replicate (n.toNat - l.length) .undefined
  | .splice start del items =>
    let s := relIndex start l.length
    l.take s ++ items ++ l.drop (s + delAt del l.length s)

/-- What the operation returns; the elements that `splice` removes are in a new array. -/
def ListOp.Returns (this : ℕ) (l : List (Val β)) (h h' : Heap β U) (v : Val β) : ListOp β → Prop
  | .push xs => v = .int (l.length + xs.length : ℕ)
  | .unshift xs => v = .int (l.length + xs.length : ℕ)
  | .pop => v = l.getLast?.getD .undefined
  | .shift => v = l.head?.getD .undefined
  | .reverse => v = .obj this
  | .setLength _ => v = .undefined
  | .splice start del _ =>
    let s := relIndex start l.length
    ∃ id, v = .obj id ∧ h.arrays id = none ∧
      h'.visible id = some ((l.drop s).take (delAt del l.length s))

/-- The operation of a call, and the heap when its arguments have been converted. -/
def Op.convert (eng : Engine β U) (h : Heap β U) : Op β → Option (ListOp β) × Heap β U
  | .push argv => (some (.push argv), h)
  | .unshift argv => (some (.unshift argv), h)
  | .pop => (some .pop, h)
  | .shift => (some .shift, h)
  | .reverse => (some .reverse, h)
  | .setLength v => ((eng.toInt32 v h).1.map .setLength, (eng.toInt32 v h).2)
  | .splice argv =>
    match eng.toInt32Sat (arg argv 0) h with
    | (none, h) => (none, h)
    | (some start, h) =>
      if argv.length = 0 then (some (.splice start (some 0) []), h)
      else if argv.length = 1 then (some (.splice start none []), h)
      else
        ((eng.toInt32Sat (arg argv 1) h).1.map fun d => .splice start (some d) (argv.drop 2),
          (eng.toInt32Sat (arg argv 1) h).2)

/-- The new length is one, and the table that it needs is not too large; `size` is the size of the
table there is. -/
def ListOp.Fits (size : ℕ) (l : List (Val β)) (op : ListOp β) : Prop :=
  let n := (op.apply l).length
  (∀ m, op = .setLength m → 0 ≤ m) ∧ (size < n → grownSize size n ≤ jsValueArraySizeMax)

end Arrays

end Qjs
