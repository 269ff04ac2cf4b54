import Mathlib

/-!
# Actor lists of the multicore scheduler

The `actors` arrays of `multicore_scheduler.c` and all that changes them: registration, deregistration,
targeted migration, the migration of the idle scan, and work stealing. What a thread does while it holds
the locks of the lists is one move; what it reads before is a move of its own, kept in its local
variables. An array that has been replaced by a longer one stays where it is, since a scan may have its
address. Flags and counts of other parts of the scheduler may have any value. A move without a result
reads outside an array or has been called against its contract.
-/

namespace Qjs

namespace ActorLists

/-- Where the thread of a core is, with its local variables. -/
inductive Thread
  /-- Anywhere else in its loop, or in a handler. -/
  | loop
  /-- Targeted migration, before the locks. -/
  | target (actor migTo : ℕ)
  /-- The idle scan has loaded `sched->actors`. -/
  | scanPointer (localActors : ℕ)
  /-- At the head of the loop of the idle scan. -/
  | scan (localActors localActorCount i : ℕ)
  /-- The idle scan has loaded and processed an actor. -/
  | scanActor (localActors localActorCount i actor : ℕ)
  /-- The idle scan is about to migrate the actor, before the locks. -/
  | scanMigrate (localActors localActorCount i actor dst : ℕ)
deriving DecidableEq

structure Core where
  /-- The number of the array that `sched->actors` points to. -/
  actors : ℕ
  actorCount : ℕ
  capacity : ℕ
  thread : Thread

structure State where
  numCores : ℕ
  core : ℕ → Core
  array : ℕ → ℕ → Option ℕ
  arrayLength : ℕ → ℕ
  nextArray : ℕ
  assignedCore : ℕ → ℤ
  migrateTo : ℕ → ℤ
  /-- The actor is active or has messages in its mailbox. -/
  stealable : ℕ → Bool
  /-- Calls of `scheduler_deregister_actor` that have read the core of the actor and wait for the lock. -/
  deregistering : List (ℕ × ℕ)
  /-- The actors that were registered and have not been deregistered. -/
  registered : Finset ℕ

/-- `MAX_ACTORS_PER_CORE`. -/
def maxActorsPerCore : ℕ := 10000

/-- `scheduler_init`. -/
def init (cores : ℕ) : State where
  numCores := cores
  core c := ⟨c, 0, maxActorsPerCore, .loop⟩
  array _ _ := none
  arrayLength _ := maxActorsPerCore
  nextArray := cores
  assignedCore _ := -1
  migrateTo _ := -1
  stealable _ := false
  deregistering := []
  registered := ∅

namespace State

/-- `schedulers[c].actors[i]`. -/
def slot (s : State) (c i : ℕ) : Option ℕ := s.array (s.core c).actors i

def count (s : State) (c : ℕ) : ℕ := (s.core c).actorCount

def setThread (s : State) (c : ℕ) (thread : Thread) : State :=
  { s with core := Function.update s.core c { s.core c with thread := thread } }

def write (s : State) (arr i : ℕ) (x : Option ℕ) : State :=
  { s with array := Function.update s.array arr (Function.update (s.array arr) i x) }

def setCount (s : State) (c n : ℕ) : State :=
  { s with core := Function.update s.core c { s.core c with actorCount := n } }

/-- `sched->actors[i] = sched->actors[--sched->actor_count]`. -/
def removeAt (s : State) (c i : ℕ) : State :=
  let last := s.count c - 1
  (s.write (s.core c).actors i (s.slot c last)).setCount c last

/-- `sched->actors[sched->actor_count++] = actor`. -/
def push (s : State) (c actor : ℕ) : State :=
  (s.write (s.core c).actors (s.count c) (some actor)).setCount c (s.count c + 1)

def assign (s : State) (actor c : ℕ) : State :=
  { s with assignedCore := Function.update s.assignedCore actor c }

/-- `migrate_to = -1`. -/
def noMigration (s : State) (actor : ℕ) : State :=
  { s with migrateTo := Function.update s.migrateTo actor (-1) }

/-- The actor at an index of a list goes to the end of another list. -/
def moveActor (s : State) (src i dst actor : ℕ) : State :=
  ((((s.removeAt src i).assign actor dst).noMigration actor).push dst actor)

/-- The search loop of the removals. -/
def find (s : State) (c actor : ℕ) : Option ℕ :=
  (List.range (s.count c)).find? fun i => s.slot c i = some actor

/-- The first stealable actor from the end of the list down to index 4. -/
def findStealable (s : State) (victim : ℕ) : Option ℕ :=
  ((List.range (s.count victim)).reverse.filter (4 ≤ ·)).find? fun i =>
    match s.slot victim i with
    | none => false
    | some candidate => s.stealable candidate

/-- A longer array takes the place of a full one. -/
def grow (s : State) (c : ℕ) : State :=
  let core := s.core c
  if core.actorCount < core.capacity then s
  else
    { s with
      array := Function.update s.array s.nextArray
        fun i => if i < core.capacity then s.array core.actors i else none
      arrayLength := Function.update s.arrayLength s.nextArray (core.capacity * 2)
      nextArray := s.nextArray + 1
      core := Function.update s.core c
        { core with actors := s.nextArray, capacity := core.capacity * 2 } }

end State

inductive Move
  /-- `scheduler_register_actor`. -/
  | register (actor : ℕ) (preferredCore : ℤ)
  /-- `scheduler_deregister_actor` up to the lock, and from there. -/
  | deregisterRead (actor : ℕ)
  | deregister (actor core : ℕ)
  /-- `scheduler_send_remote` asks for a migration. -/
  | setMigrateTo (actor fromCore : ℕ)
  /-- A message is sent or a mailbox is drained. -/
  | setStealable (actor : ℕ) (flag : Bool)
  /-- Targeted migration of core `c`. -/
  | targetRead (c actor : ℕ)
  | targetMigrate (c : ℕ)
  | targetLocked (c : ℕ)
  /-- The idle scan of core `c`. -/
  | scanPointer (c : ℕ)
  | scanCount (c : ℕ)
  | scanRead (c : ℕ)
  | scanSkip (c : ℕ)
  | scanDecide (c : ℕ)
  | scanMigrate (c : ℕ)
  | scanLocked (c : ℕ)
  /-- Core `c` steals from the core it has found to be the busiest. -/
  | steal (c busiestCore : ℕ)

/-- `mig_to >= 0 && mig_to != sched->core_id && mig_to < num_cores`. -/
def validTarget (s : State) (c : ℕ) (migTo : ℤ) : Bool :=
  0 ≤ migTo ∧ migTo ≠ c ∧ migTo < s.numCores

def register (s : State) (actor : ℕ) (preferredCore : ℤ) : Option State :=
  let c := if preferredCore < 0 then actor % s.numCores else preferredCore.toNat
  if actor ∈ s.registered ∨ s.numCores ≤ c then none
  else some { ((s.grow c).assign actor c).push c actor with registered := insert actor s.registered }

def deregisterRead (s : State) (actor : ℕ) : State :=
  let core := s.assignedCore actor
  if core < 0 ∨ s.numCores ≤ core then s
  else { s with deregistering := (actor, core.toNat) :: s.deregistering }

def deregister (s : State) (actor core : ℕ) : Option State :=
  if (actor, core) ∈ s.deregistering then
    let t := match s.find core actor with
      | none => s
      | some i => s.removeAt core i
    some { t with
      deregistering := s.deregistering.erase (actor, core)
      registered := s.registered.erase actor }
  else none

def targetRead (s : State) (c actor : ℕ) : State :=
  let migTo := s.migrateTo actor
  if validTarget s c migTo ∧ s.assignedCore actor = c then s.setThread c (.target actor migTo.toNat)
  else s

def targetMigrate (s : State) (c actor dst : ℕ) : State :=
  let t := if s.count dst < (s.core dst).capacity then
      match s.find c actor with
      | none => s
      | some i => s.moveActor c i dst actor
    else s
  t.setThread c .loop

/-- The move of the idle scan with both locks. `i` is the index at which the actor was found before. -/
def scanMigrate (s : State) (c localActors localActorCount i actor dst : ℕ) : Option State :=
  if s.count dst < (s.core dst).capacity then
    if s.count c = 0 then none
    else
      let replacement := s.slot c (s.count c - 1)
      some (((s.moveActor c i dst actor).write localActors i replacement).setThread c
        (.scan localActors localActorCount i))
  else some (s.setThread c (.scan localActors localActorCount (i + 1)))

def steal (s : State) (c busiestCore : ℕ) : State :=
  if 4 < s.count busiestCore ∧ s.count c < (s.core c).capacity then
    match s.findStealable busiestCore with
    | none => s
    | some i =>
      match s.slot busiestCore i with
      | none => s
      | some stolen => s.moveActor busiestCore i c stolen
  else s

/-- A move of the thread of core `c`. -/
def threadMove (s : State) (c : ℕ) : Move → Thread → Option State
  | .targetRead _ actor, .loop => some (targetRead s c actor)
  | .targetMigrate _, .target actor dst => some (targetMigrate s c actor dst)
  | .targetLocked _, .target _ _ => some (s.setThread c .loop)
  | .scanPointer _, .loop => some (s.setThread c (.scanPointer (s.core c).actors))
  | .scanCount _, .scanPointer arr => some (s.setThread c (.scan arr (s.count c) 0))
  | .scanRead _, .scan arr n i =>
    if n ≤ i then some (s.setThread c .loop)
    else if s.arrayLength arr ≤ i then none
    else
      match s.array arr i with
      | none => some (s.setThread c (.scan arr n (i + 1)))
      | some actor => some (s.setThread c (.scanActor arr n i actor))
  | .scanSkip _, .scanActor arr n i _ => some (s.setThread c (.scan arr n (i + 1)))
  | .scanDecide _, .scanActor arr n i actor =>
    let migTo := s.migrateTo actor
    if validTarget s c migTo then some (s.setThread c (.scanMigrate arr n i actor migTo.toNat))
    else some (s.setThread c (.scan arr n (i + 1)))
  | .scanMigrate _, .scanMigrate arr n i actor dst => scanMigrate s c arr n i actor dst
  | .scanLocked _, .scanMigrate arr n i _ _ => some (s.setThread c (.scan arr n (i + 1)))
  | .steal _ busiestCore, .loop =>
    if busiestCore < s.numCores ∧ busiestCore ≠ c then some (steal s c busiestCore) else none
  | _, _ => none

/-- The core whose thread makes a move. -/
def Move.thread : Move → Option ℕ
  | .targetRead c _ => some c
  | .targetMigrate c => some c
  | .targetLocked c => some c
  | .scanPointer c => some c
  | .scanCount c => some c
  | .scanRead c => some c
  | .scanSkip c => some c
  | .scanDecide c => some c
  | .scanMigrate c => some c
  | .scanLocked c => some c
  | .steal c _ => some c
  | _ => none

def move (s : State) (mv : Move) : Option State :=
  match mv with
  | .register actor preferredCore => register s actor preferredCore
  | .deregisterRead actor => some (deregisterRead s actor)
  | .deregister actor core => deregister s actor core
  | .setMigrateTo actor fromCore =>
    some { s with migrateTo := Function.update s.migrateTo actor fromCore }
  | .setStealable actor flag => some { s with stealable := Function.update s.stealable actor flag }
  | mv =>
    match mv.thread with
    | none => none
    | some c => if c < s.numCores then threadMove s c mv (s.core c).thread else none

def run (s : State) (moves : List Move) : Option State := moves.foldlM move s

/-- Every registered actor is at one index of one list, and this list is that of its core. -/
def Partition (s : State) : Prop :=
  ∀ actor ∈ s.registered, ∃ c < s.numCores, ∃ i < s.count c, s.slot c i = some actor ∧
    s.assignedCore actor = c ∧
    ∀ d < s.numCores, ∀ j < s.count d, s.slot d j = some actor → d = c ∧ j = i

/-- What the moves rely on that go by something read before the locks: the idle scan still finds the actor
at its index, and the core of an actor that is deregistered is still the one that was read. -/
def UpToDate (s : State) : Move → Prop
  | .scanMigrate c =>
    ∀ localActors localActorCount i actor dst,
      (s.core c).thread = .scanMigrate localActors localActorCount i actor dst →
        i < s.count c ∧ s.slot c i = some actor
  | .deregister actor core => s.assignedCore actor = core
  | _ => True

/-- The states that are reached when everything read before the locks is still true under them. -/
inductive Reached (cores : ℕ) : State → Prop
  | init : Reached cores (init cores)
  | step {s s' : State} (mv : Move) (h : Reached cores s) (hup : UpToDate s mv)
    (hmove : move s mv = some s') : Reached cores s'

end ActorLists

end Qjs
