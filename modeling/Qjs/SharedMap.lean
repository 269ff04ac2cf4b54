import Mathlib

/-!
# The shared map for hosted code

`aether_shared_map.c`: a map of strings to strings that is also reached by a token, and the shared
memory through which another process hands back outputs. A string is the list of its bytes before the
zero. Memory does not run out. An operation without a result reads outside the memory that is mapped, or
writes outside the buffer of `aether_shared_map_to_shm`.
-/

namespace Qjs

namespace SharedMap

abbrev Str := List UInt8

structure MapEntry where
  key : Str
  value : Option Str
  deriving DecidableEq, Repr

/-- `MAX_ENTRIES`. -/
def maxEntries : ℕ := 256

/-- `AetherSharedMap`; `entries[0 .. count)`. The first `frozenCount` entries are inputs. -/
structure Map where
  entries : List MapEntry
  frozenCount : ℕ
  token : UInt64
  tokenValid : Bool
  nodup : (entries.map MapEntry.key).Nodup
  frozenCount_le : frozenCount ≤ entries.length
  length_le : entries.length ≤ maxEntries

/-- The loop of `aether_shared_map_put` over the entries. -/
def setFirst (key : Str) (value : Option Str) : List MapEntry → Option (List MapEntry)
  | [] => none
  | e :: es =>
    if e.key = key then some (⟨e.key, value⟩ :: es) else (setFirst key value es).map (e :: ·)

theorem setFirst_keys {key : Str} {value : Option Str} : ∀ {es es' : List MapEntry},
    setFirst key value es = some es' → es'.map MapEntry.key = es.map MapEntry.key
  | [], _, h => by cases h
  | e :: es, es', h => by
    rw [setFirst] at h
    split_ifs at h
    · cases h
      rfl
    · obtain ⟨fs, hfs, rfl⟩ := Option.map_eq_some_iff.1 h
      rw [List.map_cons, List.map_cons, setFirst_keys hfs]

theorem setFirst_length {key : Str} {value : Option Str} {es es' : List MapEntry}
    (h : setFirst key value es = some es') : es'.length = es.length := by
  have hk := congrArg List.length (setFirst_keys h)
  simpa using hk

theorem setFirst_none {key : Str} {value : Option Str} : ∀ {es : List MapEntry},
    setFirst key value es = none → key ∉ es.map MapEntry.key
  | [], _ => by simp
  | e :: es, h => by
    rw [setFirst] at h
    split_ifs at h with hk
    rw [List.map_cons, List.mem_cons, not_or]
    exact ⟨Ne.symm hk, setFirst_none (Option.map_eq_none_iff.1 h)⟩

/-- `aether_shared_map_put`. -/
def put (map : Map) (key : Str) (value : Option Str) : Map :=
  match h : setFirst key value map.entries with
  | some entries =>
    { map with
      entries := entries
      nodup := by rw [setFirst_keys h]; exact map.nodup
      frozenCount_le := by rw [setFirst_length h]; exact map.frozenCount_le
      length_le := by rw [setFirst_length h]; exact map.length_le }
  | none =>
    if hroom : maxEntries ≤ map.entries.length then map
    else
      { map with
        entries := map.entries ++ [⟨key, value⟩]
        nodup := by
          have hkey := setFirst_none h
          rw [List.map_append, List.map_singleton, List.nodup_append]
          refine ⟨map.nodup, List.nodup_singleton key, ?_⟩
          rintro a ha b hb rfl
          rw [List.mem_singleton] at hb
          rw [hb] at ha
          exact hkey ha
        frozenCount_le := by
          have := map.frozenCount_le
          rw [List.length_append]
          omega
        length_le := by
          rw [List.length_append, List.length_singleton]
          omega }

/-- `aether_shared_map_get`; the value may be NULL. -/
def get (map : Map) (key : Str) : Option Str :=
  (map.entries.find? fun e => e.key = key).bind MapEntry.value

/-- `aether_shared_map_freeze_inputs`. -/
def freezeInputs (map : Map) : Map :=
  { map with
    frozenCount := map.entries.length
    frozenCount_le := le_rfl }

/-- The inputs: hosted code is to read them only. -/
def Map.inputs (map : Map) : List MapEntry := map.entries.take map.frozenCount

/-! ### Shared memory -/

def pageSize : ℕ := 4096

/-- The bytes that are mapped of an object of shared memory: zeros up to the end of the last page. -/
def mapped (data : Str) : Str :=
  data ++ List.replicate ((pageSize - data.length % pageSize) % pageSize) 0

/-- The C string that starts here. -/
def cString (data : Str) : Option Str :=
  if 0 ∈ data then some (data.takeWhile (· ≠ 0)) else none

/-- A `char` as an `int`. -/
def charInt (signed : Bool) (c : UInt8) : BitVec 32 :=
  if signed then c.toBitVec.signExtend 32 else c.toBitVec.setWidth 32

/-- The header as it is read, with signed or unsigned characters. -/
def frozenHeader (signed : Bool) (data : Str) : ℤ :=
  let c i := charInt signed (data.getD i 0)
  (c 0 ||| c 1 <<< 8 ||| c 2 <<< 16 ||| c 3 <<< 24).toInt

/-- The loop of `aether_shared_map_read_outputs_from_shm`; `data` is what is mapped from `pos` on.
Each turn moves forward. -/
def readLoop (frozen : ℤ) (size : ℕ) : ℕ → Map → ℕ → ℕ → Str → Option Map
  | 0, _, _, _, _ => none
  | fuel + 1, map, entryIdx, pos, data =>
    if pos < size - 1 ∧ data.headD 0 ≠ 0 then do
      let k ← cString data
      let data := data.drop (k.length + 1)
      let v ← cString data
      readLoop frozen size fuel (if frozen ≤ entryIdx then put map k (some v) else map)
        (entryIdx + 1) (pos + (k.length + 1) + (v.length + 1)) (data.drop (v.length + 1))
    else some map

/-- `aether_shared_map_read_outputs_from_shm` of an object with the bytes `data`. -/
def readOutputsFromShm (signed : Bool) (map : Map) (data : Str) : Option Map :=
  if data.length ≤ 4 then some map
  else readLoop (frozenHeader signed data) data.length data.length map 0 4 ((mapped data).drop 4)

/-- The entries that `aether_shared_map_to_shm` puts into its buffer of 65536 bytes. -/
def shmEntries : List MapEntry → Str → Option Str
  | [], buf => some buf
  | e :: es, buf =>
    if buf.length < 65000 then
      let buf := buf ++ e.key ++ [0] ++ (e.value.getD [] ++ [0])
      if buf.length ≤ 65536 then shmEntries es buf else none
    else some buf

/-- The bytes that `aether_shared_map_to_shm` writes. -/
def toShm (map : Map) : Option Str := do
  let header := (List.range 4).map fun i => UInt8.ofNat (map.frozenCount >>> (8 * i))
  let buf ← shmEntries map.entries header
  if buf.length < 65536 then some (buf ++ [0]) else none

/-! ### Tokens -/

/-- The maps by their addresses, and `active_maps[0 .. active_map_count)`. -/
structure State where
  maps : ℕ → Map
  active : List ℕ

def State.setMap (s : State) (a : ℕ) (map : Map) : State :=
  { s with maps := Function.update s.maps a map }

/-- The map is reached by the token. -/
def State.Opens (s : State) (token : UInt64) (a : ℕ) : Prop :=
  token ≠ 0 ∧ (s.maps a).token = token ∧ (s.maps a).tokenValid = true

instance (s : State) (token : UInt64) : DecidablePred (s.Opens token) :=
  fun _ => inferInstanceAs (Decidable (_ ∧ _))

def findByToken (s : State) (token : UInt64) : Option ℕ := s.active.find? (s.Opens token)

/-- What hosted code calls, and the reading of outputs after it has returned. -/
inductive Op
  | putByToken (token : UInt64) (key : Str) (value : Option Str)
  | getByToken (token : UInt64) (key : Str)
  | countByToken (token : UInt64)
  | keyAtByToken (token : UInt64) (i : ℤ)
  | valueAtByToken (token : UInt64) (i : ℤ)
  | freezeInputsByToken (token : UInt64)
  | revokeToken (token : UInt64)
  | toShmByToken (token : UInt64)
  | readOutputsByToken (token : UInt64) (data : Str)
  | readOutputs (a : ℕ) (data : Str)

/-- The token of a guarded operation. -/
def Op.token : Op → Option UInt64
  | putByToken t _ _ | getByToken t _ | countByToken t | keyAtByToken t _ | valueAtByToken t _
  | freezeInputsByToken t | revokeToken t | toShmByToken t | readOutputsByToken t _ => some t
  | readOutputs _ _ => none

/-- What is returned. -/
inductive Out
  | none
  | code (n : ℤ)
  | string (s : Option Str)
  | shm (bytes : Str)
  deriving DecidableEq

/-- What an operation returns that finds no map. -/
def Op.refused : Op → Out
  | putByToken _ _ _ => .code (-1)
  | getByToken _ _ | keyAtByToken _ _ | valueAtByToken _ _ => .string none
  | countByToken _ => .code 0
  | freezeInputsByToken _ | revokeToken _ | toShmByToken _ | readOutputsByToken _ _
  | readOutputs _ _ => .none

/-- `entries[i]`, if there is one. -/
def entryAt (map : Map) (i : ℤ) : Option MapEntry :=
  if 0 ≤ i then map.entries[i.toNat]? else none

/-- An operation on the map that its token opens. -/
def guarded (signed : Bool) (s : State) (a : ℕ) : Op → Option (State × Out)
  | .putByToken _ key value =>
    if (s.maps a).inputs.any (·.key = key) then some (s, .code (-1))
    else some (s.setMap a (put (s.maps a) key value), .code 0)
  | .getByToken _ key => some (s, .string (get (s.maps a) key))
  | .countByToken _ => some (s, .code (s.maps a).entries.length)
  | .keyAtByToken _ i => some (s, .string ((entryAt (s.maps a) i).map MapEntry.key))
  | .valueAtByToken _ i => some (s, .string ((entryAt (s.maps a) i).bind MapEntry.value))
  | .freezeInputsByToken _ => some (s.setMap a (freezeInputs (s.maps a)), .none)
  | .revokeToken _ => some (s.setMap a { s.maps a with tokenValid := false }, .none)
  | .toShmByToken _ => (toShm (s.maps a)).map fun bytes => (s, .shm bytes)
  | .readOutputsByToken _ data | .readOutputs _ data =>
    (readOutputsFromShm signed (s.maps a) data).map fun map => (s.setMap a map, .none)

/-- The map that an operation is about. -/
def target (s : State) : Op → Option ℕ
  | .readOutputs a _ => some a
  | .putByToken t _ _ | .getByToken t _ | .countByToken t | .keyAtByToken t _
  | .valueAtByToken t _ | .freezeInputsByToken t | .revokeToken t | .toShmByToken t
  | .readOutputsByToken t _ => findByToken s t

def step (signed : Bool) (s : State) (op : Op) : Option (State × Out) :=
  match target s op with
  | none => some (s, op.refused)
  | some a => guarded signed s a op

/-- The state after the operations. -/
def run (signed : Bool) : State → List Op → Option State
  | s, [] => some s
  | s, op :: ops => do
    let (s, _) ← step signed s op
    run signed s ops

end SharedMap

end Qjs
