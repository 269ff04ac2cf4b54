import Qjs.Atoms

/-!
# The string position cache

A conversion without the cache, and what a collection does to the cache: `gc_mark_all` clears the
entries of strings that are not marked, `gc_compact_heap` gives the others the new addresses.
Here a reference is an address, so a collection renames the strings it keeps.
-/

namespace Qjs

/-- `js_string_convert_pos` with every scan from the start of the string. -/
def convertPosUncached (p : JSString) (pos : ℕ) : PosType → ℕ
  | .utf8 =>
    if p.isAscii then min p.buf.length (pos / 2)
    else (posScan p.buf .utf8 (pos / 2) 0 0).2.1 + pos % 2
  | .utf16 =>
    if p.isAscii then min p.buf.length pos * 2
    else (posScan p.buf .utf16 pos 0 0).1 * 2 + (posScan p.buf .utf16 pos 0 0).2.2

/-- What a collection decides about strings: those it keeps, with those it has marked among them,
and their new addresses. Strings in ROM are kept without a mark and stay where they are. -/
structure Collection where
  kept : List ℕ
  gcMark : ℕ → Bool
  move : ℕ → ℕ
  kept_of_mark : ∀ id, gcMark id = true → id ∈ kept
  move_injOn : ∀ i ∈ kept, ∀ j ∈ kept, move i = move j → i = j
  empty_kept : 0 ∈ kept
  move_empty : move 0 = 0

/-- The end of `gc_mark_all`: the entries hold their strings weakly. -/
def clearPosCache (g : Collection) (h : StrHeap) : StrHeap :=
  { h with
    cache := fun k =>
      if gcMbIsMarked g.gcMark (h.cache k).str then h.cache k
      else { h.cache k with str := none } }

def moveVal (g : Collection) : StrVal → StrVal
  | .char c => .char c
  | .ref id => .ref (g.move id)

/-- `gc_compact_heap`: the kept strings at their new addresses, and the pointers to them. -/
def gcCompactHeap (g : Collection) (h : StrHeap) : StrHeap :=
  { h with
    strings := fun r => (g.kept.find? (g.move · = r)).bind h.strings
    next := (g.kept.map (g.move · + 1)).foldr max 0
    cache := fun k => { h.cache k with str := (h.cache k).str.map (moveVal g) } }

def jsGc2 (g : Collection) (h : StrHeap) : StrHeap := gcCompactHeap g (clearPosCache g h)

end Qjs
