import Mathlib

/-!
# Byte buffers

`aether_bytes.c`. A byte of the buffer that is allocated and not yet written has no value; reading
it is a fault, as is an index outside the buffer or one that an `int` does not hold. `realloc` may
fail.
-/

namespace Qjs

namespace Aether

namespace Bytes

inductive Fault
  | overflow
  | outOfBounds
  | uninitialised
  deriving DecidableEq

/-- `data` has `capacity` bytes. -/
structure AetherBytes where
  length : ℕ
  data : List (Option UInt8)

def AetherBytes.capacity (b : AetherBytes) : ℕ := b.data.length

def sizeBound : ℕ := 2 ^ 64

/-- The loop of `bytes_reserve`, with its guard. -/
def growTo : ℕ → ℕ → ℕ → ℕ
  | 0, newCap, _ => newCap
  | turns + 1, newCap, minCapacity =>
    if newCap < minCapacity then
      let doubled := newCap * 2 % sizeBound
      if doubled < newCap then minCapacity else growTo turns doubled minCapacity
    else newCap

/-- The bytes from the old capacity on are set to 0. -/
def zeroTail (capacity : ℕ) (data : List (Option UInt8)) : List (Option UInt8) :=
  data.take capacity ++ (data.drop capacity).map fun _ => some 0

/-- After 64 turns the doubling has passed every size or been stopped by the guard. -/
def bytesReserve (memory : Bool) (b : AetherBytes) (minCapacity : ℕ) : Option AetherBytes :=
  if minCapacity ≤ b.capacity then some b
  else if memory then
    let newCap := growTo 64 (if 0 < b.capacity then b.capacity else 16) minCapacity
    let newData := b.data ++ List.replicate (newCap - b.capacity) none
    some { b with data := zeroTail b.capacity newData }
  else none

def aetherBytesNew (memory : Bool) (initialCapacity : ℤ) : Option AetherBytes :=
  if initialCapacity < 0 then none
  else bytesReserve memory ⟨0, []⟩ initialCapacity.toNat

def AetherBytes.cover (b : AetherBytes) (needed : ℕ) (data : List (Option UInt8)) : AetherBytes :=
  ⟨max b.length needed, data⟩

def aetherBytesSet (memory : Bool) (b : AetherBytes) (index byte : ℤ) :
    Except Fault (Bool × AetherBytes) :=
  if index < 0 then .ok (false, b)
  else
    let needed := index.toNat + 1
    match bytesReserve memory b needed with
    | none => .ok (false, b)
    | some b =>
      if index.toNat < b.capacity then
        .ok (true, b.cover needed
          (b.data.set index.toNat (some (UInt8.ofNat (byte % 256).toNat))))
      else .error .outOfBounds

/-- `src` is `NULL` or the bytes that may be read there. -/
def aetherBytesCopyFromString (memory : Bool) (b : AetherBytes) (dst : ℤ)
    (src : Option (List UInt8)) (srcLen : ℤ) : Except Fault (Bool × AetherBytes) :=
  match src with
  | none => .ok (false, b)
  | some payload =>
    if dst < 0 ∨ srcLen < 0 then .ok (false, b)
    else if srcLen = 0 then .ok (true, b)
    else
      let needed := dst.toNat + srcLen.toNat
      match bytesReserve memory b needed with
      | none => .ok (false, b)
      | some b =>
        if srcLen.toNat ≤ payload.length ∧ needed ≤ b.capacity then
          .ok (true, b.cover needed (b.data.take dst.toNat ++
            (payload.take srcLen.toNat).map some ++ b.data.drop needed))
        else .error .outOfBounds

def intBound : ℕ := 2 ^ 31

/-- The loop of `aether_bytes_copy_within` from `i` on, with the turns left. -/
def copyLoop (dst src : ℕ) : ℕ → ℕ → List (Option UInt8) → Except Fault (List (Option UInt8))
  | _, 0, data => .ok data
  | i, turns + 1, data =>
    if dst + i < intBound ∧ src + i < intBound then
      match data[src + i]? with
      | none => .error .outOfBounds
      | some none => .error .uninitialised
      | some (some byte) =>
        if dst + i < data.length then
          copyLoop dst src (i + 1) turns (data.set (dst + i) (some byte))
        else .error .outOfBounds
    else .error .overflow

def aetherBytesCopyWithin (memory : Bool) (b : AetherBytes) (dst src length : ℤ) :
    Except Fault (Bool × AetherBytes) :=
  if dst < 0 ∨ src < 0 ∨ length < 0 then .ok (false, b)
  else if length = 0 then .ok (true, b)
  else if b.length ≤ src.toNat then .ok (false, b)
  else if dst ≤ src ∧ b.length < src.toNat + length.toNat then .ok (false, b)
  else
    let needed := dst.toNat + length.toNat
    match bytesReserve memory b needed with
    | none => .ok (false, b)
    | some b => do
      let data ← copyLoop dst.toNat src.toNat 0 length.toNat b.data
      .ok (true, b.cover needed data)

/-- The bytes that go to the string. -/
def aetherBytesFinish (b : AetherBytes) (length : ℤ) : List (Option UInt8) :=
  b.data.take (min length.toNat b.length)

/-! ### Calls -/

/-- A call, with whether memory is there when the buffer grows. -/
inductive Call
  | set (memory : Bool) (index byte : Int32)
  | copyFromString (memory : Bool) (dst : Int32) (src : Option (List UInt8)) (srcLen : Int32)
  | copyWithin (memory : Bool) (dst src length : Int32)

def call (b : AetherBytes) : Call → Except Fault (Bool × AetherBytes)
  | .set memory index byte => aetherBytesSet memory b index.toInt byte.toInt
  | .copyFromString memory dst src srcLen =>
    aetherBytesCopyFromString memory b dst.toInt src srcLen.toInt
  | .copyWithin memory dst src length =>
    aetherBytesCopyWithin memory b dst.toInt src.toInt length.toInt

/-! ### The list model -/

/-- The bytes with zeros behind them up to a length. -/
def padTo (n : ℕ) (bytes : List UInt8) : List UInt8 :=
  bytes ++ List.replicate (n - bytes.length) 0

/-- Byte by byte, from the first one on. -/
def copyForward (dst src : ℕ) : ℕ → ℕ → List UInt8 → List UInt8
  | _, 0, bytes => bytes
  | i, turns + 1, bytes =>
    copyForward dst src (i + 1) turns (bytes.set (dst + i) (bytes.getD (src + i) 0))

def setAt (bytes : List UInt8) (index : ℕ) (byte : ℤ) : List UInt8 :=
  (padTo (index + 1) bytes).set index (UInt8.ofNat (byte % 256).toNat)

def putAt (bytes : List UInt8) (dst : ℕ) (payload : List UInt8) : List UInt8 :=
  let padded := padTo (dst + payload.length) bytes
  padded.take dst ++ payload ++ padded.drop (dst + payload.length)

/-- The bytes after a call that succeeds. -/
def Call.meaning (bytes : List UInt8) : Call → List UInt8
  | .set _ index byte => setAt bytes index.toInt.toNat byte.toInt
  | .copyFromString _ dst src srcLen =>
    if srcLen.toInt = 0 then bytes
    else putAt bytes dst.toInt.toNat ((src.getD []).take srcLen.toInt.toNat)
  | .copyWithin _ dst src length =>
    if length.toInt = 0 then bytes
    else
      copyForward dst.toInt.toNat src.toInt.toNat 0 length.toInt.toNat
        (padTo (dst.toInt.toNat + length.toInt.toNat) bytes)

/-- The calls that the buffer takes, if there is memory where it is needed. -/
def Call.Valid (bytes : List UInt8) : Call → Prop
  | .set _ index _ => 0 ≤ index.toInt
  | .copyFromString _ dst src srcLen => 0 ≤ dst.toInt ∧ src.isSome ∧ 0 ≤ srcLen.toInt
  | .copyWithin _ dst src length =>
    0 ≤ dst.toInt ∧ 0 ≤ src.toInt ∧ 0 ≤ length.toInt ∧ (length.toInt = 0 ∨
      src.toInt < bytes.length ∧
        (src.toInt < dst.toInt ∨ src.toInt + length.toInt ≤ bytes.length))

/-- The bytes that a call needs allocated, and whether memory for more of them is there. -/
def Call.needs : Call → ℕ × Bool
  | .set memory index _ => (index.toInt.toNat + 1, memory)
  | .copyFromString memory dst _ srcLen =>
    (if srcLen.toInt = 0 then 0 else dst.toInt.toNat + srcLen.toInt.toNat, memory)
  | .copyWithin memory dst _ length =>
    (if length.toInt = 0 then 0 else dst.toInt.toNat + length.toInt.toNat, memory)

/-- The call takes effect: it is valid, and the buffer has or gets the bytes it needs. -/
def Call.Takes (b : AetherBytes) (bytes : List UInt8) (c : Call) : Prop :=
  c.Valid bytes ∧ (c.needs.1 ≤ b.capacity ∨ c.needs.2 = true)

/-- The source has the bytes that are copied from it, and no index of a copy within the buffer
reaches 2^31. -/
def Call.Fits : Call → Prop
  | .set _ _ _ => True
  | .copyFromString _ _ src srcLen => srcLen.toInt.toNat ≤ (src.getD []).length
  | .copyWithin _ dst src length =>
    length.toInt = 0 ∨
      dst.toInt + length.toInt ≤ 2 ^ 31 ∧ src.toInt + length.toInt ≤ 2 ^ 31

/-- The buffers that calls lead to, with what the list model has for them. -/
inductive Reached : AetherBytes → List UInt8 → Prop
  | new {memory : Bool} {initialCapacity : Int32} {b : AetherBytes} :
    aetherBytesNew memory initialCapacity.toInt = some b → Reached b []
  | call {b b' : AetherBytes} {bytes : List UInt8} {c : Call} {r : Bool} :
    Reached b bytes → call b c = .ok (r, b') → Reached b' (if r then c.meaning bytes else bytes)

/-- The bytes are what a reader sees; the others are zeros. -/
structure Shows (b : AetherBytes) (bytes : List UInt8) : Prop where
  length : b.length = bytes.length
  data : ∃ n, b.data = bytes.map some ++ List.replicate n (some 0)

end Bytes

end Aether

end Qjs
