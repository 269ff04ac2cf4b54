import Qjs.Lib.RingSlots

/-!
# The connection pool

`http_pool_submit`, `http_pool_worker`, `http_pool_destroy` and `http_server_drain_connection` of
`aether_http_server.c`. What a thread does with the lock of the pool is one step, and so is each
action on `inflight_connections`, the handshake, the requests of a connection and its close. A
client `fd` is named by the number of its submission, as the system gives the same `fd` again after
a close.
-/

namespace Qjs

namespace Http

namespace Pool

abbrev Client := ℕ

def poolWorkers : ℕ := 8

def poolQueueCap : ℕ := 256

structure ConnectionPool where
  queue : ℕ → Client
  head : ℕ
  tail : ℕ
  count : ℕ
  shutdown : Bool

def poolCreate : ConnectionPool := ⟨fun _ => 0, 0, 0, 0, false⟩

/-! ### What is done with the lock -/

inductive WorkerTurn
  | wait
  | leave
  | take (c : Client) (pool : ConnectionPool)

def poolWorker (pool : ConnectionPool) : WorkerTurn :=
  if pool.count = 0 ∧ pool.shutdown = false then .wait
  else if pool.shutdown = true ∧ pool.count = 0 then .leave
  else .take (pool.queue pool.head)
    { pool with head := (pool.head + 1) % poolQueueCap, count := pool.count - 1 }

inductive SubmitTurn
  | wait
  | refuse
  | put (pool : ConnectionPool)

def poolSubmit (pool : ConnectionPool) (c : Client) : SubmitTurn :=
  if poolQueueCap ≤ pool.count ∧ pool.shutdown = false then .wait
  else if pool.shutdown = true then .refuse
  else .put
    { pool with
      queue := Function.update pool.queue pool.tail c
      tail := (pool.tail + 1) % poolQueueCap
      count := pool.count + 1 }

/-! ### Draining a connection -/

/-- Where an activation of `http_server_drain_connection` is: called, counted in, past the handshake
if there is one, or with its connection closed. -/
inductive Phase
  | called
  | counted
  | serving
  | closed
  deriving DecidableEq

/-- The next phase, unless the activation returns; the change of `inflight_connections`; whether the
`fd` is closed. -/
structure Drained where
  next : Option Phase
  inflight : ℤ
  closes : Bool

def drainStep (tls accepted : Bool) : Phase → Drained
  | .called => ⟨some .counted, 1, false⟩
  | .counted => if tls = true ∧ accepted = false then ⟨none, 0, true⟩ else ⟨some .serving, 0, false⟩
  | .serving => ⟨some .closed, 0, true⟩
  | .closed => ⟨none, -1, false⟩

/-- A handshake that fails. -/
def handshakeFails (tls accepted : Bool) (p : Phase) : Prop :=
  p = .counted ∧ tls = true ∧ accepted = false

instance (tls accepted : Bool) (p : Phase) : Decidable (handshakeFails tls accepted p) :=
  inferInstanceAs (Decidable (_ ∧ _))

/-! ### Threads -/

inductive Worker
  | ready
  | waiting
  | handling (c : Client) (p : Phase)
  | exited
  deriving DecidableEq

abbrev Workers := Fin poolWorkers → Worker

/-- The calls of `http_pool_submit` in progress, and whether they wait for the queue. -/
abbrev Submitters := List (Client × Bool)

/-- `submitted`, `enqueued`, `dequeued`, `refused`, `closes` and `failures` are the history: how
many clients there were, which of them went into the queue, came out of it and were closed by a
submit, every call of `close`, and how many handshakes failed. -/
structure State where
  pool : ConnectionPool
  workers : Workers
  submitting : Submitters
  inflight : ℤ
  submitted : ℕ
  enqueued : List Client
  dequeued : List Client
  refused : List Client
  closes : List Client
  failures : ℕ

def start : State := ⟨poolCreate, fun _ => .ready, [], 0, 0, [], [], [], [], 0⟩

/-- `pthread_cond_signal` on `not_empty`. -/
def SignalNotEmpty (ws ws' : Workers) : Prop :=
  (ws' = ws ∧ ∀ w, ws w ≠ .waiting) ∨
    ∃ w, ws w = .waiting ∧ ws' = Function.update ws w .ready

/-- `pthread_cond_signal` on `not_full`. -/
def SignalNotFull (subs subs' : Submitters) : Prop :=
  (subs' = subs ∧ ∀ sub ∈ subs, sub.2 = false) ∨
    ∃ front back c, subs = front ++ (c, true) :: back ∧ subs' = front ++ (c, false) :: back

/-- `pthread_cond_broadcast` on `not_empty`. -/
def wakeAll (ws : Workers) : Workers := fun w => if ws w = .waiting then .ready else ws w

def afterDrain (c : Client) : Option Phase → Worker
  | some p => .handling c p
  | none => .ready

/-- A step of some thread; a wait may end without a signal. -/
inductive Step (tls : Bool) : State → State → Prop
  | call (s : State) :
    Step tls s { s with
      submitting := s.submitting ++ [(s.submitted, false)], submitted := s.submitted + 1 }
  | submitWait (s : State) {front back : Submitters} {c : Client} :
    s.submitting = front ++ (c, false) :: back → poolSubmit s.pool c = .wait →
    Step tls s { s with submitting := front ++ (c, true) :: back }
  | submitRefuse (s : State) {front back : Submitters} {c : Client} :
    s.submitting = front ++ (c, false) :: back → poolSubmit s.pool c = .refuse →
    Step tls s { s with
      submitting := front ++ back, refused := s.refused ++ [c], closes := s.closes ++ [c] }
  | submitPut (s : State) {front back : Submitters} {c : Client} {pool : ConnectionPool}
    {ws : Workers} :
    s.submitting = front ++ (c, false) :: back → poolSubmit s.pool c = .put pool →
    SignalNotEmpty s.workers ws →
    Step tls s { s with
      pool := pool, workers := ws, submitting := front ++ back, enqueued := s.enqueued ++ [c] }
  | workerWait (s : State) {w : Fin poolWorkers} :
    s.workers w = .ready → poolWorker s.pool = .wait →
    Step tls s { s with workers := Function.update s.workers w .waiting }
  | workerLeave (s : State) {w : Fin poolWorkers} :
    s.workers w = .ready → poolWorker s.pool = .leave →
    Step tls s { s with workers := Function.update s.workers w .exited }
  | workerTake (s : State) {w : Fin poolWorkers} {c : Client} {pool : ConnectionPool}
    {subs : Submitters} :
    s.workers w = .ready → poolWorker s.pool = .take c pool → SignalNotFull s.submitting subs →
    Step tls s { s with
      pool := pool, workers := Function.update s.workers w (.handling c .called),
      submitting := subs, dequeued := s.dequeued ++ [c] }
  | drain (s : State) {w : Fin poolWorkers} {c : Client} {p : Phase} (accepted : Bool) :
    s.workers w = .handling c p →
    Step tls s { s with
      workers := Function.update s.workers w (afterDrain c (drainStep tls accepted p).next),
      inflight := s.inflight + (drainStep tls accepted p).inflight,
      closes := s.closes ++ if (drainStep tls accepted p).closes then [c] else [],
      failures := s.failures + if handshakeFails tls accepted p then 1 else 0 }
  | destroy (s : State) :
    Step tls s { s with
      pool := { s.pool with shutdown := true }, workers := wakeAll s.workers,
      submitting := s.submitting.map fun sub => (sub.1, false) }
  | wakeWorker (s : State) {w : Fin poolWorkers} :
    s.workers w = .waiting → Step tls s { s with workers := Function.update s.workers w .ready }
  | wakeSubmitter (s : State) {front back : Submitters} {c : Client} :
    s.submitting = front ++ (c, true) :: back →
    Step tls s { s with submitting := front ++ (c, false) :: back }

inductive Reachable (tls : Bool) : State → Prop
  | start : Reachable tls start
  | step {s s' : State} : Reachable tls s → Step tls s s' → Reachable tls s'

/-! ### Graceful shutdown -/

/-- The loop of `http_server_shutdown_graceful_raw` that waits for a reading of 0, with its time in
milliseconds and its sleep in microseconds. -/
def shutdownLoop (readings : ℕ → ℤ) (timeoutMs : ℕ) : ℕ → ℕ → ℕ → ℕ → Bool
  | 0, _, _, _ => false
  | turns + 1, turn, waited, sleepUs =>
    if waited < timeoutMs then
      if readings turn ≤ 0 then true
      else
        shutdownLoop readings timeoutMs turns (turn + 1) (waited + sleepUs / 1000)
          (if sleepUs < 50000 then sleepUs * 2 else sleepUs)
    else false

/-- Whether it returns the empty string and not `timeout`. Every turn waits a millisecond at least.
-/
def shutdownGraceful (readings : ℕ → ℤ) (timeoutMs : ℤ) : Bool :=
  let timeoutMs := if timeoutMs ≤ 0 then 5000 else timeoutMs.toNat
  shutdownLoop readings timeoutMs timeoutMs 0 0 1000

/-! ### What the pool is for -/

/-- Whether an activation of the drain is in progress, from its first action to its return. -/
def Worker.active : Worker → ℤ
  | handling _ .counted => 1
  | handling _ .serving => 1
  | handling _ .closed => 1
  | _ => 0

/-- The client that a worker has and has not closed. -/
def Worker.unclosed : Worker → Multiset Client
  | handling c .called => {c}
  | handling c .counted => {c}
  | handling c .serving => {c}
  | _ => 0

def State.inProgress (s : State) : ℤ := ∑ w, (s.workers w).active

/-- The ring has the clients that went in and have not come out, in the order they went in. -/
structure RingOk (s : State) (pending : List Client) : Prop where
  fifo : s.enqueued = s.dequeued ++ pending
  holds : RingSlots.Holds poolQueueCap s.pool.queue s.pool.head pending
  count : s.pool.count = pending.length
  tail : s.pool.tail = (s.pool.head + s.pool.count) % poolQueueCap
  head_lt : s.pool.head < poolQueueCap
  count_le : s.pool.count ≤ poolQueueCap

/-- Every client is in a submit, went into the queue, or was refused; the clients that were refused
or came out of the queue are the ones that are closed and the ones that a worker has. -/
structure ClientsOk (s : State) : Prop where
  once : (s.submitting.map Prod.fst : Multiset Client) + s.enqueued + s.refused =
    Multiset.range s.submitted
  closed : (s.closes : Multiset Client) + ∑ w, (s.workers w).unclosed = s.refused + s.dequeued

/-- No thread can do anything without a call, a signal or a wakeup. -/
def AtRest (s : State) : Prop :=
  (∀ w, s.workers w = .waiting ∨ s.workers w = .exited) ∧ ∀ sub ∈ s.submitting, sub.2 = true

end Pool

end Http

end Qjs
