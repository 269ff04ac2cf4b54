import Qjs.HashMap
import Qjs.Lib.Buckets

/-!
# The map of the Aether collections

The `HashMap` of `aether_collections.c`: chains in buckets that double when three quarters of them
are used. An operation has no result when an `int` overflows or when a key list is written past its
end. Memory is always there, as the strings of the keys are.
-/

namespace Qjs

namespace ChainedMap

open Qjs.HashMap (CString Pointer null)

variable {V : Type}

structure HashMapEntry (V : Type) where
  key : CString
  value : V
  hash : UInt32
  keyLen : UInt32

/-- `buckets` and `size`; the capacity is the number of buckets. -/
structure HashMap (V : Type) where
  buckets : List (List (HashMapEntry V))
  size : ℕ

def HashMap.capacity (m : HashMap V) : ℕ := m.buckets.length

def hashmapInitialCapacity : ℕ := 16

/-- The number of values of an `int` that are not negative. -/
def intBound : ℕ := 2 ^ 31

def hashCstr (key : CString) : UInt32 :=
  key.val.foldl (fun hash p => ((hash <<< 5) + hash) + p.toUInt32) 5381

/-- `hash_cstr_len`. -/
def hashCstrLen (key : CString) : UInt32 × UInt32 := (hashCstr key, UInt32.ofNat key.val.length)

def keyEquals (e : HashMapEntry V) (b : CString) (bLen : UInt32) : Bool :=
  e.keyLen = bLen && e.key.val.take bLen.toNat = b.val.take bLen.toNat

/-- The test of an entry in the walks over a chain. -/
def isEntry (key : CString) (e : HashMapEntry V) : Bool :=
  e.hash = (hashCstrLen key).1 && keyEquals e key (hashCstrLen key).2

def mapNew : HashMap V := ⟨List.replicate hashmapInitialCapacity [], 0⟩

/-- The bucket number of an entry, before the remainder. -/
def HashMapEntry.home (e : HashMapEntry V) : ℕ := e.hash.toNat

def hashmapResize (m : HashMap V) : Option (HashMap V) :=
  if m.capacity * 2 < intBound then
    some ⟨m.buckets.foldl (fun bs chain => chain.foldl (Buckets.link HashMapEntry.home) bs)
      (List.replicate (m.capacity * 2) []), m.size⟩
  else none

def HashMap.index (m : HashMap V) (key : CString) : ℕ := (hashCstrLen key).1.toNat % m.capacity

/-- The chain of a key. -/
def HashMap.chain (m : HashMap V) (key : CString) : List (HashMapEntry V) :=
  (m.buckets[m.index key]?).getD []

/-- The first entry of the key gets the value. -/
def setValue (key : CString) (value : V) : List (HashMapEntry V) → List (HashMapEntry V)
  | [] => []
  | e :: rest =>
    if isEntry key e then { e with value := value } :: rest else e :: setValue key value rest

def HashMap.overloaded (m : HashMap V) : Bool := m.capacity * 3 < m.size * 4

/-- The load check of `map_put_raw`. -/
def ensureRoom (m : HashMap V) : Option (HashMap V) :=
  if m.overloaded then hashmapResize m else some m

def mapPutRaw (m : HashMap V) (key : CString) (value : V) : Option (HashMap V) := do
  let m ← ensureRoom m
  if (m.chain key).any (isEntry key) then
    some ⟨m.buckets.modify (m.index key) (setValue key value), m.size⟩
  else if m.size + 1 < intBound then
    some ⟨m.buckets.modify (m.index key)
      (⟨key, value, (hashCstrLen key).1, (hashCstrLen key).2⟩ :: ·), m.size + 1⟩
  else none

def mapGetRaw [Pointer V] (m : HashMap V) (key : CString) : V :=
  (((m.chain key).find? (isEntry key)).map HashMapEntry.value).getD null

def mapHas [Pointer V] [DecidableEq V] (m : HashMap V) (key : CString) : Bool :=
  mapGetRaw m key ≠ null

def mapRemove (m : HashMap V) (key : CString) : HashMap V :=
  if (m.chain key).any (isEntry key) then
    ⟨m.buckets.modify (m.index key) (List.eraseP (isEntry key)), m.size - 1⟩
  else m

def mapSize (m : HashMap V) : ℕ := m.size

def mapClear (m : HashMap V) : HashMap V := ⟨List.replicate m.capacity [], 0⟩

/-- The keys in the order of the walk, if they fit in what is allocated. -/
def mapKeysRaw (m : HashMap V) : Option (List CString) :=
  if m.size = 0 then some []
  else
    let keys := m.buckets.flatten.map HashMapEntry.key
    if keys.length ≤ m.size then some keys else none

/-! ### Runs -/

inductive Op (V : Type)
  | put (key : CString) (value : V)
  | remove (key : CString)
  | clear
  | get (key : CString)
  | has (key : CString)
  | keys

def step (m : HashMap V) : Op V → Option (HashMap V)
  | .put key value => mapPutRaw m key value
  | .remove key => some (mapRemove m key)
  | .clear => some (mapClear m)
  | .get _ => some m
  | .has _ => some m
  | .keys => some m

def run (m : HashMap V) (ops : List (Op V)) : Option (HashMap V) := ops.foldlM step m

/-! ### The finite map -/

/-- What an operation means for the finite map. -/
def Op.meaning (f : CString → Option V) : Op V → CString → Option V
  | .put key value => Function.update f key (some value)
  | .remove key => Function.update f key none
  | .clear => fun _ => none
  | .get _ => f
  | .has _ => f
  | .keys => f

/-- The value of the last put of a key that no remove or clear follows. -/
def meaning (ops : List (Op V)) : CString → Option V := ops.foldl Op.meaning fun _ => none

/-- The length of a key is an `unsigned int`. -/
def KeyFits (key : CString) : Prop := key.val.length < 2 ^ 32

/-- The keys of an operation fit, and a put does not find 2^30 buckets overloaded. -/
def Good (m : HashMap V) : Op V → Prop
  | .put key _ => KeyFits key ∧ (m.overloaded = true → m.capacity * 2 < intBound)
  | .remove key => KeyFits key
  | .clear => True
  | .get key => KeyFits key
  | .has key => KeyFits key
  | .keys => True

/-- Each operation of a run is good for the map it finds. -/
def AllGood (m : HashMap V) : List (Op V) → Prop
  | [] => True
  | op :: ops => Good m op ∧ ∀ m', step m op = some m' → AllGood m' ops

/-- The map is the finite map, but for what `map_has` says of a key with the value `NULL`. -/
structure Agrees [Pointer V] [DecidableEq V] (m : HashMap V) (f : CString → Option V) : Prop where
  get : ∀ key, KeyFits key → mapGetRaw m key = (f key).getD null
  has : ∀ key, KeyFits key → (mapHas m key = (f key).isSome ↔ f key ≠ some null)
  size : mapSize m = {key | (f key).isSome}.ncard
  keys : ∃ ks, mapKeysRaw m = some ks ∧ ks.Nodup ∧ ∀ key, key ∈ ks ↔ (f key).isSome
  buckets : ∀ (i : ℕ) (chain : List (HashMapEntry V)), m.buckets[i]? = some chain →
    ∀ e ∈ chain, e.hash = (hashCstrLen e.key).1 ∧ e.hash.toNat % m.capacity = i

end ChainedMap

end Qjs
