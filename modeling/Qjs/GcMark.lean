import Qjs.Lib.Reach
import Mathlib

/-!
# The mark phase of the collector

The blocks of the heap are marked from the roots with an explicit stack in the free space between
the heap and the stack of the interpreter. The stack holds blocks whose fields are still to be
scanned; an array takes two words, for it is scanned one element at a time and the position stands
on the stack. A block for which there is no room is marked all the same and the overflow is noted:
then the whole heap is scanned again from the marked blocks, until no overflow occurs.
-/

namespace Qjs.GcMark

/-- A word as the collector sees it, in a heap of `n` blocks. Blocks are numbered by address. -/
inductive Word (n : ℕ)
  | other
  | rom
  | block (i : Fin n)
  deriving DecidableEq

variable {n : ℕ}

def jsIsPtr : Word n → Bool
  | .other => false
  | _ => true

/-- The part of an object that depends on its class, as far as it is scanned. -/
inductive ObjectData (n : ℕ)
  | closure (funcBytecode : Word n) (varRefs : List (Word n))
  | cFunction (params : Option (Word n))
  | array (tab : Word n)
  | error (message stack : Word n)
  | arrayBuffer (byteBuffer : Word n)
  | typedArray (buffer : Word n)
  | regexp (source byteCode : Word n)
  | other

/-- A block by its tag. -/
inductive Block (n : ℕ)
  | free
  | object (proto props : Word n) (u : ObjectData n)
  | float64
  | string
  | functionBytecode (funcName byteCode cpool vars extVars filename pc2line : Word n)
  | valueArray (arr : List (Word n))
  | byteArray
  | varRef (value : Word n)

/-- `mtag_has_references` -/
def Block.hasReferences : Block n → Bool
  | .object .. | .valueArray _ | .varRef _ | .functionBytecode .. => true
  | _ => false

def ObjectData.fields : ObjectData n → List (Word n)
  | closure funcBytecode varRefs => funcBytecode :: varRefs
  | cFunction params => params.toList
  | array tab => [tab]
  | error message stack => [message, stack]
  | arrayBuffer byteBuffer => [byteBuffer]
  | typedArray buffer => [buffer]
  | regexp source byteCode => [source, byteCode]
  | other => []

/-- The fields that are scanned at one go, in order. -/
def Block.fields : Block n → List (Word n)
  | object proto props u => proto :: props :: u.fields
  | varRef value => [value]
  | functionBytecode funcName byteCode cpool vars extVars filename pc2line =>
    [funcName, byteCode, cpool, vars, extVars, filename, pc2line]
  | _ => []

def Block.arr : Block n → List (Word n)
  | valueArray arr => arr
  | _ => []

/-- What is on the mark stack: a block, or an array with the position to go on at. -/
inductive Entry (n : ℕ)
  | block (i : Fin n)
  | array (i : Fin n) (pos : ℕ)
  deriving DecidableEq

def Entry.node : Entry n → Fin n
  | block i => i
  | array i _ => i

def Entry.words : Entry n → ℕ
  | block _ => 1
  | array .. => 2

def words (stack : List (Entry n)) : ℕ := (stack.map Entry.words).sum

/-- `GCMarkState` and the mark bits. `outside` says that something was pushed below `gs_bottom`. -/
structure State (n : ℕ) where
  marked : Finset (Fin n)
  stack : List (Entry n)
  overflow : Bool
  outside : Bool

def State.push (cap : ℕ) (s : State n) (e : Entry n) : State n :=
  { s with stack := e :: s.stack, outside := s.outside || cap < words (e :: s.stack) }

def State.pop (s : State n) : State n := { s with stack := s.stack.tail }

def State.mark (s : State n) (i : Fin n) : State n := { s with marked := insert i s.marked }

section Marking

variable (h : Fin n → Block n) (cap : ℕ)

/-- The entry with which the scan of a block begins. -/
def firstEntry (i : Fin n) : Entry n :=
  match h i with
  | .valueArray _ => .array i 0
  | _ => .block i

/-- `gc_mark`, where `cap` words are free for the mark stack. -/
def gcMark (s : State n) (v : Word n) : State n :=
  match v with
  | .other | .rom => s
  | .block i =>
    if i ∈ s.marked then s
    else
      let s := s.mark i
      if (h i).hasReferences then
        if cap - words s.stack < (firstEntry h i).words then { s with overflow := true }
        else s.push cap (firstEntry h i)
      else s

/-- The first position from `pos` on at which there is a pointer. -/
def skipNonPointers (arr : List (Word n)) (pos : ℕ) : ℕ := pos + (arr.drop pos).findIdx jsIsPtr

/-- The body of the loop of `gc_mark_flush`, the entry having been taken off the stack. -/
def scanEntry (s : State n) : Entry n → State n
  | .block i => (h i).fields.foldl (gcMark h cap) s
  | .array i pos =>
    let arr := (h i).arr
    let pos := skipNonPointers arr pos
    if pos < arr.length then
      let s := if pos + 1 < arr.length then s.push cap (.array i (pos + 1)) else s
      gcMark h cap s (arr.getD pos .other)
    else s

/-! ### The loops end -/

/-- How many blocks are not marked. -/
def State.unmarked (s : State n) : ℕ := s.markedᶜ.card

/-- How often an entry can come back. -/
def Entry.weight : Entry n → ℕ
  | .block _ => 1
  | .array i pos => 1 + ((h i).arr.length - pos)

def weight (stack : List (Entry n)) : ℕ := (stack.map (Entry.weight h)).sum

theorem unmarked_mark {s : State n} {i : Fin n} (hi : i ∉ s.marked) :
    (s.mark i).unmarked < s.unmarked := by
  refine Finset.card_lt_card ?_
  rw [State.mark, Finset.compl_ssubset_compl]
  exact Finset.ssubset_insert hi

/-- A word changes nothing, or one more block is marked. -/
theorem gcMark_progress (s : State n) (v : Word n) :
    gcMark h cap s v = s ∨ (gcMark h cap s v).unmarked < s.unmarked := by
  rcases v with _ | _ | i
  · exact Or.inl rfl
  · exact Or.inl rfl
  by_cases hi : i ∈ s.marked
  · exact Or.inl (if_pos hi)
  refine Or.inr (lt_of_eq_of_lt ?_ (unmarked_mark hi))
  simp only [gcMark, if_neg hi]
  split_ifs <;> rfl

theorem foldl_gcMark_progress (l : List (Word n)) : ∀ s : State n,
    l.foldl (gcMark h cap) s = s ∨ (l.foldl (gcMark h cap) s).unmarked < s.unmarked := by
  induction l with
  | nil => exact fun s => Or.inl rfl
  | cons v l ih =>
    intro s
    rw [List.foldl_cons]
    rcases gcMark_progress h cap s v with hv | hv
    · rw [hv]
      exact ih s
    · rcases ih (gcMark h cap s v) with hl | hl
      · rw [hl]
        exact Or.inr hv
      · exact Or.inr (hl.trans hv)

/-- One more block is marked, or neither the marks nor the overflow have changed. -/
def Progress (s s' : State n) : Prop :=
  s'.unmarked < s.unmarked ∨ s'.unmarked = s.unmarked ∧ s'.overflow = s.overflow

theorem Progress.trans {s s' s'' : State n} (h1 : Progress s s') (h2 : Progress s' s'') :
    Progress s s'' := by
  rcases h1 with h1 | ⟨h1, ho1⟩ <;> rcases h2 with h2 | ⟨h2, ho2⟩
  · exact Or.inl (h2.trans h1)
  · exact Or.inl (h2.trans_lt h1)
  · exact Or.inl (h2.trans_eq h1)
  · exact Or.inr ⟨h2.trans h1, ho2.trans ho1⟩

/-- An entry is dropped or comes back lighter, or one more block is marked. -/
theorem scanEntry_progress (s : State n) (e : Entry n) :
    (scanEntry h cap s e).unmarked < s.unmarked ∨
      ((scanEntry h cap s e).unmarked = s.unmarked ∧
        (scanEntry h cap s e).overflow = s.overflow) ∧
      weight h (scanEntry h cap s e).stack < weight h (e :: s.stack) := by
  have hdrop : weight h s.stack < weight h (e :: s.stack) := by
    rcases e with i | ⟨i, pos⟩ <;> simp [weight, Entry.weight]
  rcases e with i | ⟨i, pos⟩
  · rcases foldl_gcMark_progress h cap (h i).fields s with hs | hs
    · refine Or.inr ?_
      rw [scanEntry, hs]
      exact ⟨⟨rfl, rfl⟩, hdrop⟩
    · exact Or.inl hs
  simp only [scanEntry]
  have hle : pos ≤ skipNonPointers (h i).arr pos := Nat.le_add_right _ _
  generalize skipNonPointers (h i).arr pos = q at hle
  by_cases hq : q < (h i).arr.length
  · rw [if_pos hq]
    by_cases hq' : q + 1 < (h i).arr.length
    · rw [if_pos hq']
      rcases gcMark_progress h cap (s.push cap (.array i (q + 1))) ((h i).arr.getD q .other)
        with hv | hv
      · rw [hv]
        refine Or.inr ⟨⟨rfl, rfl⟩, ?_⟩
        simp only [State.push, weight, List.map_cons, List.sum_cons, Entry.weight]
        omega
      · exact Or.inl hv
    · rw [if_neg hq']
      rcases gcMark_progress h cap s ((h i).arr.getD q .other) with hv | hv
      · rw [hv]
        exact Or.inr ⟨⟨rfl, rfl⟩, hdrop⟩
      · exact Or.inl hv
  · rw [if_neg hq]
    exact Or.inr ⟨⟨rfl, rfl⟩, hdrop⟩

/-- `gc_mark_flush` -/
def gcMarkFlush (s : State n) : State n :=
  match _hs : s.stack with
  | [] => s
  | e :: _ => gcMarkFlush (scanEntry h cap s.pop e)
  termination_by (s.unmarked, weight h s.stack)
  decreasing_by
    rw [Prod.lex_def]
    rcases scanEntry_progress h cap s.pop e with hp | ⟨⟨hp, -⟩, hw⟩
    · exact Or.inl hp
    · refine Or.inr ⟨hp, ?_⟩
      rw [_hs]
      simpa [State.pop, _hs] using hw

theorem gcMarkFlush_progress (s : State n) : Progress s (gcMarkFlush h cap s) := by
  induction s using gcMarkFlush.induct h cap with
  | case1 s hs =>
    rw [gcMarkFlush.eq_def]
    split
    · exact Or.inr ⟨rfl, rfl⟩
    · simp_all
  | case2 s e rest hs ih =>
    have hstep : Progress s (scanEntry h cap s.pop e) := by
      rcases scanEntry_progress h cap s.pop e with hp | ⟨hp, -⟩
      · exact Or.inl hp
      · exact Or.inr hp
    rw [gcMarkFlush.eq_def]
    split
    · simp_all
    · rename_i e' rest' hs'
      obtain rfl : e = e' := (List.cons.inj (hs.symm.trans hs')).1
      exact hstep.trans ih

/-- What is done with each block when the heap is scanned again. -/
def rescanBlock (s : State n) (i : Fin n) : State n :=
  if i ∈ s.marked ∧ (h i).hasReferences then gcMarkFlush h cap (s.push cap (firstEntry h i)) else s

/-- One scan of the whole heap. -/
def rescanHeap (s : State n) : State n :=
  (List.finRange n).foldl (rescanBlock h cap) { s with overflow := false }

theorem foldl_rescanBlock_progress (l : List (Fin n)) : ∀ s : State n,
    Progress s (l.foldl (rescanBlock h cap) s) := by
  induction l with
  | nil => exact fun s => Or.inr ⟨rfl, rfl⟩
  | cons i l ih =>
    intro s
    refine Progress.trans ?_ (ih (rescanBlock h cap s i))
    unfold rescanBlock
    split_ifs
    · exact gcMarkFlush_progress h cap (s.push cap (firstEntry h i))
    · exact Or.inr ⟨rfl, rfl⟩

/-- The loop over the heap while the mark stack overflows. -/
def rescan (s : State n) : State n :=
  if _hs : s.overflow then rescan (rescanHeap h cap s) else s
  termination_by (s.unmarked, s.overflow.toNat)
  decreasing_by
    rw [Prod.lex_def]
    rcases foldl_rescanBlock_progress h cap (List.finRange n) { s with overflow := false }
      with hp | ⟨hp, ho⟩
    · exact Or.inl hp
    · refine Or.inr ⟨hp, ?_⟩
      rw [rescanHeap, ho, _hs]
      exact Nat.zero_lt_one

def gcMarkRoot (s : State n) (v : Word n) : State n := gcMarkFlush h cap (gcMark h cap s v)

end Marking

/-! ### The roots -/

/-- The values of `JSParseState` that are roots. -/
structure ParseState (n : ℕ) where
  sourceStr : Word n
  filenameStr : Word n
  tokenValue : Word n
  curFunc : Word n
  byteCode : Word n

def ParseState.words (p : ParseState n) : List (Word n) :=
  [p.sourceStr, p.filenameStr, p.tokenValue, p.curFunc, p.byteCode]

/-- Where the collector starts. `ramAtoms` are the blocks of the atom table if it is in RAM,
`context` are the values of the context from `current_exception` to the end of `class_obj`. -/
structure Roots (n : ℕ) where
  ramAtoms : List (Fin n)
  context : List (Word n)
  stack : List (Word n)
  topGcRefs : List (Word n)
  lastGcRefs : List (Word n)
  parseState : Option (ParseState n)

def Roots.words (r : Roots n) (keepAtoms : Bool) : List (Word n) :=
  (if keepAtoms then r.ramAtoms.map .block else []) ++ r.context ++ r.stack ++ r.topGcRefs
    ++ r.lastGcRefs ++ (r.parseState.map ParseState.words).getD []

section All

variable (h : Fin n → Block n) (cap : ℕ)

/-- `gc_mark_all` up to the point where no block is left to be scanned. -/
def markAll (r : Roots n) (keepAtoms : Bool) : State n :=
  rescan h cap ((r.words keepAtoms).foldl (gcMarkRoot h cap) ⟨∅, [], false, false⟩)

def gcMbIsMarked (marked : Finset (Fin n)) : Word n → Bool
  | .block i => i ∈ marked
  | _ => false

/-- The marks after the update of the table of unique strings, whose elements are weak: the table
itself is kept if one of them is. -/
def updateUniqueStrings (uniqueStrings : Option (Fin n)) (marked : Finset (Fin n)) :
    Finset (Fin n) :=
  match uniqueStrings with
  | none => marked
  | some t =>
    if ((h t).arr.filter (gcMbIsMarked marked)).length > 0 then insert t marked
    else marked.erase t

/-- The blocks that `gc_mark_all` has marked when it starts to free the others. -/
def gcMarkAll (r : Roots n) (keepAtoms : Bool) (uniqueStrings : Option (Fin n)) : Finset (Fin n) :=
  updateUniqueStrings h uniqueStrings (markAll h cap r keepAtoms).marked

end All

/-! ### Reachable blocks -/

/-- What is scanned of a block, at one go or element by element. -/
def Block.scanned (b : Block n) : List (Word n) := b.fields ++ b.arr

def Points (h : Fin n → Block n) (i j : Fin n) : Prop := Word.block j ∈ (h i).scanned

/-- Block `i` is reachable from the words of `l`. -/
def ReachableFrom (h : Fin n → Block n) (l : List (Word n)) (i : Fin n) : Prop :=
  Reach.Reachable (Points h) (fun r => Word.block r ∈ l) i

end Qjs.GcMark
