import Mathlib

/-!
# The hash map of the Aether collections

`aether_hashmap.c`: open addressing with linear probing and Robin Hood displacement. Keys and values are
`void*`, so a type of keys or values has a member that is `NULL`; for integers passed as pointers this is
the integer 0. A loop of the source has a bound on its iterations here, and no answer stands for a loop
that has not returned within it. Memory is always there.
-/

namespace Qjs

namespace HashMap

/-! ### Keys and values -/

/-- A type passed as `void*`. -/
class Pointer (α : Type) where
  null : α

export Pointer (null)

/-- `hash_func` and `key_equals` for a type of keys. -/
class Key (α : Type) extends Pointer α where
  hashFunc : α → UInt64

export Key (hashFunc)

/-- The bytes before the terminating 0. -/
abbrev CString : Type := { bytes : List UInt8 // 0 ∉ bytes }

/-- `FNV_OFFSET`. -/
def fnvOffset : UInt64 := 14695981039346656037

/-- `FNV_PRIME`. -/
def fnvPrime : UInt64 := 1099511628211

/-- `hashmap_hash_string`. -/
def hashString (str : CString) : UInt64 :=
  str.val.foldl (fun hash p => (hash ^^^ p.toUInt64) * fnvPrime) fnvOffset

/-- A `char*`: `NULL` or a string. The string functions are not called with `NULL`. -/
instance : Key (Option CString) where
  null := none
  hashFunc
    | none => fnvOffset
    | some str => hashString str

/-- `hashmap_hash_int`. -/
def hashInt (x : UInt64) : UInt64 :=
  let x := ((x >>> 16) ^^^ x) * 0x45d9f3b
  let x := ((x >>> 16) ^^^ x) * 0x45d9f3b
  (x >>> 16) ^^^ x

/-- An integer cast to `void*`. -/
instance : Key UInt64 where
  null := 0
  hashFunc := hashInt

/-! ### The load factor -/

/-- `(float)n`: 24 significant bits, to nearest and ties to even. -/
def toFloat (n : ℕ) : ℕ :=
  let unit := 2 ^ (n.log2 - 23)
  let q := n / unit
  let r := n % unit
  (if unit < 2 * r ∨ (unit = 2 * r ∧ q % 2 = 1) then q + 1 else q) * unit

/-- `(float)size / capacity >= 0.75`. The quotient is rounded too: below `0.75` the floats are `2 ^ (-24)`
apart, and half way to `0.75` is rounded up to it. -/
def overloaded (size capacity : ℕ) : Bool :=
  (3 * 2 ^ 23 - 1) * toFloat capacity ≤ 2 ^ 25 * toFloat size

end HashMap

/-! ### The table -/

structure HashMapEntry (K V : Type) where
  key : K
  value : V
  hash : UInt64
  psl : ℕ
deriving DecidableEq

/-- `none` is an entry that is not `occupied`. -/
structure HashMap (K V : Type) where
  entries : List (Option (HashMapEntry K V))
  size : ℕ

namespace HashMap

variable {K V : Type}

def capacity (m : HashMap K V) : ℕ := m.entries.length

def slot (m : HashMap K V) (index : ℕ) : Option (HashMapEntry K V) := m.entries.getD index none

def put (m : HashMap K V) (index : ℕ) (entry : Option (HashMapEntry K V)) : HashMap K V :=
  { m with entries := m.entries.set index entry }

/-- `calloc`. -/
def empty (capacity : ℕ) : HashMap K V := ⟨List.replicate capacity none, 0⟩

/-- `DEFAULT_CAPACITY`. -/
def defaultCapacity : ℕ := 16

/-- `hashmap_create`. -/
def create (initialCapacity : ℕ) : HashMap K V :=
  empty (if initialCapacity < defaultCapacity then defaultCapacity else initialCapacity)

variable [DecidableEq K] [Key K]

/-- The loop of `hashmap_insert`, at most `fuel` times. `entry` is what is to be put down; `hash` and `key`
stay those of the call. -/
def insertLoop (hash : UInt64) (key : K) (value : V) :
    ℕ → HashMap K V → ℕ → ℕ → HashMapEntry K V → Option (HashMap K V)
  | 0, _, _, _, _ => none
  | fuel + 1, m, index, psl, entry =>
    match m.slot index with
    | none =>
      some { m.put index (some { entry with psl := psl }) with size := m.size + 1 }
    | some current =>
      if current.hash = hash ∧ current.key = key then
        some (m.put index (some { current with value := value, key := key }))
      else if current.psl < psl then
        insertLoop hash key value fuel (m.put index (some { entry with psl := psl }))
          ((index + 1) % m.capacity) (current.psl + 1) current
      else
        insertLoop hash key value fuel m ((index + 1) % m.capacity) (psl + 1) entry

mutual

/-- `hashmap_insert`. An insert may resize, and a resize inserts: `depth` bounds the nesting of the calls. -/
def insertDepth (depth : ℕ) (m : HashMap K V) (key : K) (value : V) :
    Option (HashMap K V × Bool) :=
  match depth with
  | 0 => none
  | depth + 1 => do
    if key = null then
      return (m, false)
    let m ← if overloaded m.size m.capacity then resizeDepth depth m else some m
    let hash := hashFunc key
    let m ← insertLoop hash key value m.capacity m (hash.toNat % m.capacity) 0 ⟨key, value, hash, 0⟩
    return (m, true)

/-- `hashmap_resize`. -/
def resizeDepth (depth : ℕ) (m : HashMap K V) : Option (HashMap K V) :=
  match depth with
  | 0 => none
  | depth + 1 =>
    let reinsert (m : HashMap K V) : Option (HashMapEntry K V) → Option (HashMap K V)
      | none => some m
      | some entry => (insertDepth depth m entry.key entry.value).map Prod.fst
    m.entries.foldlM reinsert (empty (m.capacity * 2))

end

/-- `hashmap_insert`. -/
def insert (m : HashMap K V) (key : K) (value : V) : Option (HashMap K V × Bool) :=
  insertDepth 3 m key value

/-- The loop of `hashmap_get` and `hashmap_remove` up to where it returns or has found the key. -/
def probe (m : HashMap K V) (hash : UInt64) (key : K) :
    ℕ → ℕ → ℕ → Option (Option (ℕ × HashMapEntry K V))
  | 0, _, _ => none
  | fuel + 1, index, psl =>
    match m.slot index with
    | none => some none
    | some entry =>
      if entry.psl < psl then some none
      else if entry.hash = hash ∧ entry.key = key then some (some (index, entry))
      else probe m hash key fuel ((index + 1) % m.capacity) (psl + 1)

/-- The slot in which the key is found. -/
def find (m : HashMap K V) (key : K) : Option (Option (ℕ × HashMapEntry K V)) :=
  m.probe (hashFunc key) key m.capacity ((hashFunc key).toNat % m.capacity) 0

/-- `hashmap_get`. -/
def get [Pointer V] (m : HashMap K V) (key : K) : Option V :=
  if key = null then some null
  else (m.find key).map fun
    | none => null
    | some (_, entry) => entry.value

/-- `hashmap_contains`. -/
def contains [Pointer V] [DecidableEq V] (m : HashMap K V) (key : K) : Option Bool :=
  (m.get key).map fun value => value ≠ null

omit [DecidableEq K] [Key K] in
/-- Backward shift deletion: the loop of `hashmap_remove` after the key has been found. -/
def shiftBack : ℕ → HashMap K V → ℕ → Option (HashMap K V)
  | 0, _, _ => none
  | fuel + 1, m, current =>
    let next := (current + 1) % m.capacity
    match m.slot next with
    | none => some { m.put current none with size := m.size - 1 }
    | some nextEntry =>
      if nextEntry.psl = 0 then some { m.put current none with size := m.size - 1 }
      else shiftBack fuel (m.put current (some { nextEntry with psl := nextEntry.psl - 1 })) next

/-- `hashmap_remove`. -/
def remove (m : HashMap K V) (key : K) : Option (HashMap K V × Bool) :=
  if key = null then some (m, false)
  else do
    match ← m.find key with
    | none => return (m, false)
    | some (index, _) =>
      let m ← shiftBack m.capacity m index
      return (m, true)

omit [DecidableEq K] [Key K] in
/-- `hashmap_clear`. -/
def clear (m : HashMap K V) : HashMap K V := empty m.capacity

/-! ### Iterator -/

omit [DecidableEq K] [Key K] in
/-- `hashmap_iterator_next`: the entry at the first occupied slot from `index` on, and the index after. -/
def iteratorNext (m : HashMap K V) (index : ℕ) : Option ((K × V) × ℕ) :=
  if index < m.capacity then
    match m.slot index with
    | some entry => some ((entry.key, entry.value), index + 1)
    | none => iteratorNext m (index + 1)
  else none
termination_by m.capacity - index

omit [DecidableEq K] [Key K] in
/-- What `calls` calls of `hashmap_iterator_next` yield when the last of them returns false. -/
def iterateFrom (m : HashMap K V) : ℕ → ℕ → Option (List (K × V))
  | 0, _ => none
  | calls + 1, index =>
    match m.iteratorNext index with
    | none => some []
    | some (pair, index) => (iterateFrom m calls index).map (pair :: ·)

omit [DecidableEq K] [Key K] in
/-- What an iterator yields until it returns false. -/
def iterate (m : HashMap K V) : Option (List (K × V)) := m.iterateFrom (m.capacity + 1) 0

/-! ### Runs -/

inductive Op (K V : Type)
  | insert (key : K) (value : V)
  | remove (key : K)
  | get (key : K)
  | contains (key : K)
  | clear

/-- The map after an operation. -/
def step (m : HashMap K V) : Op K V → Option (HashMap K V)
  | .insert key value => (m.insert key value).map Prod.fst
  | .remove key => (m.remove key).map Prod.fst
  | .get _ => some m
  | .contains _ => some m
  | .clear => some m.clear

def run (m : HashMap K V) (ops : List (Op K V)) : Option (HashMap K V) := ops.foldlM step m

/-! ### The finite map -/

omit [Key K] in
/-- What an operation means for the finite map. -/
def Op.meaning (f : K → Option V) : Op K V → K → Option V
  | .insert key value => Function.update f key (some value)
  | .remove key => Function.update f key none
  | .get _ => f
  | .contains _ => f
  | .clear => fun _ => none

omit [Key K] in
/-- The value of the last insert of a key that no remove or clear follows. -/
def meaning (ops : List (Op K V)) : K → Option V := ops.foldl Op.meaning fun _ => none

/-- The home slot of a key. -/
def home (m : HashMap K V) (key : K) : ℕ := (hashFunc key).toNat % m.capacity

/-- The psl of an entry is its distance from its home slot, and the slots between have entries with a psl
that lets a probe for the key go on. -/
def RobinHood (m : HashMap K V) : Prop :=
  ∀ index entry, m.slot index = some entry →
    entry.psl = (index + m.capacity - m.home entry.key) % m.capacity ∧
      ∀ d < entry.psl, ∃ met, m.slot ((m.home entry.key + d) % m.capacity) = some met ∧
        d ≤ met.psl ∧ met.key ≠ entry.key

structure Agrees [Pointer V] [DecidableEq V] (m : HashMap K V) (f : K → Option V) : Prop where
  get : ∀ key, m.get key = some ((f key).getD null)
  contains : ∀ key, m.contains key = some (f key).isSome
  size : m.size = {key | (f key).isSome}.ncard
  iterator : ∃ pairs, m.iterate = some pairs ∧ (pairs.map Prod.fst).Nodup ∧
    ∀ key value, (key, value) ∈ pairs ↔ f key = some value
  robinHood : m.RobinHood

/-- Neither key nor value of an insert is `NULL`. -/
def Op.NonNull [Pointer V] : Op K V → Prop
  | .insert key value => key ≠ null ∧ value ≠ null
  | _ => True

end HashMap

end Qjs
