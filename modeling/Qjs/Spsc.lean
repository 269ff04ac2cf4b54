import Qjs.Lib.RingSlots

/-!
# The ring buffers between cores

`LockFreeQueue`, `SPSCQueue` and `LockFreeMailbox` of the Aether runtime, with one producer and one
consumer. A move is one load of an index, one copy of a slot or one store of an index, in the order of
the source; a function returns with its last move. `head` and `tail` are the values of the two
indices. The history has what was asked for, what was copied and what was returned.
-/

namespace Qjs

namespace Spsc

inductive Kind
  | lockFreeQueue
  | spscQueue
  | lockFreeMailbox

namespace Kind

/-- `QUEUE_SIZE`, `SPSC_QUEUE_SIZE` and `LOCKFREE_MAILBOX_SIZE` are powers of two. -/
def bits : Kind → ℕ
  | lockFreeQueue => 10
  | spscQueue => 6
  | lockFreeMailbox => 6

def size (q : Kind) : ℕ := 2 ^ q.bits

/-- An `int` or `uint32_t`. -/
abbrev word (n : ℕ) : BitVec 32 := BitVec.ofNat 32 n

/-- `x & MASK`. -/
def mask (q : Kind) (x : BitVec 32) : ℕ := (x &&& word (q.size - 1)).toNat

/-- `(i + 1) & MASK`. -/
def next (q : Kind) (i : ℕ) : ℕ := q.mask (word i + 1)

end Kind

/-! ### Producer and consumer calls -/

variable {α : Type}

/-- `queue_enqueue`, `spsc_enqueue` or `lockfree_mailbox_send`, and their batches. -/
inductive Send (α : Type)
  | one (x : α)
  | batch (xs : List α)

def Send.items : Send α → List α
  | .one x => [x]
  | .batch xs => xs

/-- `queue_dequeue`, `spsc_dequeue` or `lockfree_mailbox_receive`, and their batches. -/
inductive Recv
  | one
  | batch (maxCount : ℕ)

def Recv.maxCount : Recv → ℕ
  | .one => 1
  | .batch maxCount => maxCount

namespace Kind

variable (q : Kind)

/-- The free slots of `queue_enqueue_batch` and `lockfree_mailbox_send_batch`. -/
def maskedSpace (tail head : ℕ) : ℕ := q.mask (word head - word tail - 1)

/-- The free slots of `spsc_enqueue_batch`. -/
def spscSpace (tail head : ℕ) : ℕ :=
  if head > tail then (word head - word tail - 1).toNat
  else (word q.size - (word tail - word head) - 1).toNat

/-- How many items a call of the producer copies; without an answer it returns 0 at once. -/
def enqueueCount (tail head : ℕ) : Send α → Option ℕ
  | .one _ => if q.next tail = head then none else some 1
  | .batch xs =>
    match q with
    | .spscQueue => if q.spscSpace tail head < xs.length then none else some xs.length
    | _ =>
      let space := q.maskedSpace tail head
      if space = 0 then none else some (if xs.length < space then xs.length else space)

/-- The filled slots of `queue_dequeue_batch` and `lockfree_mailbox_receive_batch`. -/
def maskedAvailable (head tail : ℕ) : ℕ := q.mask (word tail - word head)

/-- The filled slots of `spsc_dequeue_batch`. -/
def spscAvailable (head tail : ℕ) : ℕ :=
  if tail > head then (word tail - word head).toNat
  else (word q.size - (word head - word tail)).toNat

/-- How many items a call of the consumer copies. -/
def dequeueCount (head tail : ℕ) : Recv → Option ℕ
  | .one => if head = tail then none else some 1
  | .batch maxCount =>
    match q with
    | .spscQueue =>
      let available := q.spscAvailable head tail
      if head = tail then none else some (if available < maxCount then available else maxCount)
    | _ =>
      let available := q.maskedAvailable head tail
      if available = 0 then none else some (if available < maxCount then available else maxCount)

/-- The index after `i` copies from `start` on. The batches of the mailbox compute it from `i`, all
others go on from the one before. -/
def index (batch : Bool) (start i : ℕ) : ℕ :=
  match q with
  | .lockFreeMailbox => if batch then q.mask (word start + word i) else q.next^[i] start
  | _ => q.next^[i] start

end Kind

def Send.isBatch : Send α → Bool
  | .one _ => false
  | .batch _ => true

def Recv.isBatch : Recv → Bool
  | .one => false
  | .batch _ => true

/-! ### Moves -/

inductive Producer (α : Type)
  | idle
  | loadedTail (op : Send α) (tail : ℕ)
  /-- `i` of `n` slots have been copied. -/
  | copying (op : Send α) (tail n i : ℕ)

inductive Consumer (α : Type)
  | idle
  | loadedHead (op : Recv) (head : ℕ)
  | copying (op : Recv) (head n : ℕ) (out : List α)

inductive Event (α : Type)
  /-- A call of the producer, the slots it has copied and the number it returns. -/
  | sent (op : Send α) (copied reported : ℕ)
  /-- A call of the consumer, what it has copied out and the number it returns. -/
  | received (op : Recv) (out : List α) (reported : ℕ)

structure State (α : Type) where
  head : ℕ
  tail : ℕ
  slots : ℕ → α
  producer : Producer α
  consumer : Consumer α
  events : List (Event α)

/-- The indices are 0; the slots have not been written. -/
def init (slots : ℕ → α) : State α := ⟨0, 0, slots, .idle, .idle, []⟩

variable (q : Kind)

/-- The next move of the producer; `op` is what is called when it is idle. -/
def producerMove (op : Send α) (s : State α) : State α :=
  match s.producer with
  | .idle => { s with producer := .loadedTail op s.tail }
  | .loadedTail op tail =>
    match q.enqueueCount tail s.head op with
    | none => { s with producer := .idle, events := s.events ++ [.sent op 0 0] }
    | some n => { s with producer := .copying op tail n 0 }
  | .copying op tail n i =>
    if i < n then
      match op.items[i]? with
      | none => s
      | some x =>
        { s with
          slots := Function.update s.slots (q.index op.isBatch tail i) x
          producer := .copying op tail n (i + 1) }
    else
      { s with
        tail := q.index op.isBatch tail n
        producer := .idle
        events := s.events ++ [.sent op i n] }

/-- The next move of the consumer. -/
def consumerMove (op : Recv) (s : State α) : State α :=
  match s.consumer with
  | .idle => { s with consumer := .loadedHead op s.head }
  | .loadedHead op head =>
    match q.dequeueCount head s.tail op with
    | none => { s with consumer := .idle, events := s.events ++ [.received op [] 0] }
    | some n => { s with consumer := .copying op head n [] }
  | .copying op head n out =>
    if out.length < n then
      { s with consumer := .copying op head n (out ++ [s.slots (q.index op.isBatch head out.length)]) }
    else
      { s with
        head := q.index op.isBatch head n
        consumer := .idle
        events := s.events ++ [.received op out n] }

inductive Move (α : Type)
  | producer (op : Send α)
  | consumer (op : Recv)

def move (s : State α) : Move α → State α
  | .producer op => producerMove q op s
  | .consumer op => consumerMove q op s

def run (s : State α) (ms : List (Move α)) : State α := ms.foldl (move q) s

/-! ### History -/

/-- The items that a call has reported as sent. -/
def Event.sentItems : Event α → List α
  | .sent op _ reported => op.items.take reported
  | .received _ _ _ => []

def Event.receivedItems : Event α → List α
  | .sent _ _ _ => []
  | .received _ out reported => out.take reported

/-- The items whose enqueue was reported successful. -/
def State.sent (s : State α) : List α := s.events.flatMap Event.sentItems

/-- The items that were dequeued. -/
def State.received (s : State α) : List α := s.events.flatMap Event.receivedItems

/-- The number reported is the number of items that were copied. -/
def Event.Exact : Event α → Prop
  | .sent op copied reported => reported = copied ∧ reported ≤ op.items.length
  | .received op out reported => reported = out.length ∧ reported ≤ op.maxCount

end Spsc

end Qjs
