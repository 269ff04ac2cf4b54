import Qjs.Mailbox
import Qjs.Lib.SwapRemove

/-!
# The cooperative scheduler

`aether_scheduler_coop.c`: one thread, so a state has one call stack. The code of the program (`main` and the
handlers of the actors) may do anything it can do with the scheduler, in any order; the rest of the stack
is frames of the scheduler and of the generated step functions, whose next move is determined. A move with
no result touches an actor that has been released, or a reply slot whose ask has returned.
-/

namespace Qjs

namespace Coop

variable {α : Type}

/-- `_reply_slot` is the number of an ask. -/
structure Message (α : Type) where
  payload : α
  replySlot : Option ℕ
deriving DecidableEq, Inhabited

structure Actor (α : Type) where
  mailbox : Mailbox (Message α)
  timeoutNs : ℕ
  lastActivityNs : ℕ

/-- Where the loop of `aether_scheduler_poll` is. -/
inductive Phase
  /-- At the head of the loop over the actors. -/
  | scan
  /-- In the loop over the messages of an actor. -/
  | drain (actor processed : ℕ)
  /-- In a step that checks a timeout. -/
  | timeout
deriving DecidableEq

inductive Frame
  /-- `actor->step(actor)` has been called. -/
  | step (actor : ℕ)
  /-- The step function runs a receive arm or the timeout arm. -/
  | handler (actor : ℕ)
  | poll (limit i total : ℕ) (phase : Phase)
  | ask (slot maxRounds : ℕ)
deriving DecidableEq

inductive Event (α : Type)
  | sent (actor : ℕ) (msg : Message α)
  /-- A step of the actor has received the message. -/
  | consumed (actor : ℕ) (msg : Message α)
  /-- `aether_scheduler_poll` has returned. -/
  | polled (total : ℕ)
deriving DecidableEq

structure State (α : Type) where
  /-- `actors[0 .. actor_count)`. -/
  actors : List ℕ
  /-- The memory of the actors; a released one is gone. -/
  memory : ℕ → Option (Actor α)
  nextActorId : ℕ
  stack : List Frame
  /-- `reply_ready` of the reply slots. -/
  replyReady : ℕ → Bool
  nextSlot : ℕ
  currentReplySlot : Option ℕ
  events : List (Event α)

def init : State α := ⟨[], fun _ => none, 0, [], fun _ => false, 0, none, []⟩

/-- `MAX_ACTORS_PER_CORE`. -/
def maxActorsPerCore : ℕ := 10000

/-- `max_rounds` of `scheduler_ask_message`. -/
def maxAskRounds : ℕ := 100000

/-- What happens next. -/
inductive Move (α : Type)
  | spawn (timeoutNs : ℕ)
  | release (actor : ℕ)
  | sendLocal (actor : ℕ) (msg : Message α)
  | sendRemote (actor : ℕ) (msg : Message α) (fromCore : ℤ)
  | batchAdd (actor : ℕ) (msg : Message α)
  /-- `aether_send_message`, which calls the step function itself. -/
  | sendMessage (actor : ℕ) (msg : Message α)
  | ask (actor : ℕ) (payload : α)
  | reply
  | poll (maxPerActor : ℤ)
  /-- A handler returns. -/
  | ret
  /-- The scheduler or a step function goes on; `now` is what a clock shows. -/
  | go (now : ℕ)

/-- The program's own code is running. -/
def State.inProgram (s : State α) : Bool :=
  match s.stack with
  | [] => true
  | .handler _ :: _ => true
  | _ => false

/-- `mailbox_send(&actor->mailbox, msg)`; no function of the scheduler looks at its result. -/
def State.mailboxSend (s : State α) (actor : ℕ) (msg : Message α) : Option (State α) :=
  match s.memory actor with
  | none => none
  | some a =>
    some { s with
      memory := Function.update s.memory actor (some { a with mailbox := (a.mailbox.send msg).1 })
      events := s.events ++ [.sent actor msg] }

/-- `scheduler_spawn_pooled` and `scheduler_register_actor`. -/
def State.spawn [Inhabited α] (s : State α) (timeoutNs : ℕ) : State α :=
  { s with
    memory := Function.update s.memory s.nextActorId (some ⟨Mailbox.init, timeoutNs, 0⟩)
    nextActorId := s.nextActorId + 1
    actors := if s.actors.length < maxActorsPerCore then s.actors ++ [s.nextActorId] else s.actors }

/-- The last actor takes the place of the one that is removed. -/
def remove (actors : List ℕ) (actor : ℕ) : List ℕ :=
  match actors.idxOf? actor with
  | none => actors
  | some i => swapRemoveAt actors i

/-- `scheduler_release_pooled`. -/
def State.release (s : State α) (actor : ℕ) : Option (State α) :=
  match s.memory actor with
  | none => none
  | some _ =>
    some { s with
      actors := remove s.actors actor
      memory := Function.update s.memory actor none }

/-- A handler or `main` does something. -/
def programMove [Inhabited α] (s : State α) : Move α → Option (State α)
  | .spawn timeoutNs => some (s.spawn timeoutNs)
  | .release actor => s.release actor
  | .sendLocal actor msg => s.mailboxSend actor msg
  | .sendRemote actor msg _ => s.mailboxSend actor msg
  | .batchAdd actor msg => s.mailboxSend actor msg
  | .sendMessage actor msg =>
    (s.mailboxSend actor msg).map fun s => { s with stack := .step actor :: s.stack }
  | .ask actor payload =>
    (s.mailboxSend actor ⟨payload, some s.nextSlot⟩).map fun t =>
      { t with
        stack := .ask s.nextSlot maxAskRounds :: t.stack
        replyReady := Function.update t.replyReady s.nextSlot false
        nextSlot := s.nextSlot + 1 }
  | .reply =>
    match s.currentReplySlot with
    | none => some s
    | some slot =>
      if s.stack.any fun f => match f with
        | .ask slot' _ => slot' = slot
        | _ => false
      then some { s with replyReady := Function.update s.replyReady slot true }
      else none
  | .poll maxPerActor =>
    let limit := if maxPerActor ≤ 0 then 1024 else maxPerActor.toNat
    some { s with stack := .poll limit 0 0 .scan :: s.stack }
  | .ret =>
    match s.stack with
    | .handler _ :: rest => some { s with stack := rest }
    | _ => none
  | .go _ => none

/-- A generated step function up to its handler. -/
def stepMove (s : State α) (now actor : ℕ) (rest : List Frame) : Option (State α) :=
  match s.memory actor with
  | none => none
  | some a =>
    let put (a : Actor α) : State α := { s with memory := Function.update s.memory actor (some a) }
    if 0 < a.timeoutNs ∧ 0 < a.lastActivityNs ∧ a.timeoutNs ≤ now - a.lastActivityNs then
      some { put { a with timeoutNs := 0, lastActivityNs := 0 } with stack := .handler actor :: rest }
    else
      match a.mailbox.receive with
      | none =>
        let last := if 0 < a.timeoutNs ∧ a.lastActivityNs = 0 then now else a.lastActivityNs
        some { put { a with lastActivityNs := last } with stack := rest }
      | some (msg, mailbox) =>
        some { put ⟨mailbox, 0, 0⟩ with
          stack := .handler actor :: rest
          currentReplySlot := msg.replySlot
          events := s.events ++ [.consumed actor msg] }

/-- `aether_scheduler_poll` goes on. -/
def pollMove (s : State α) (limit i total : ℕ) (rest : List Frame) : Phase → Option (State α)
  | .scan =>
    match s.actors[i]? with
    | none => some { s with stack := rest, events := s.events ++ [.polled total] }
    | some actor =>
      match s.memory actor with
      | none => none
      | some a =>
        if 0 < a.mailbox.count then
          some { s with stack := .poll limit i total (.drain actor 0) :: rest }
        else if 0 < a.timeoutNs ∧ 0 < a.lastActivityNs then
          some { s with stack := .step actor :: .poll limit i total .timeout :: rest }
        else some { s with stack := .poll limit (i + 1) total .scan :: rest }
  | .drain actor processed =>
    match s.memory actor with
    | none => none
    | some a =>
      if processed < limit ∧ a.mailbox.count ≠ 0 then
        some { s with
          stack := .step actor :: .poll limit i total (.drain actor (processed + 1)) :: rest }
      else some { s with stack := .poll limit (i + 1) (total + processed) .scan :: rest }
  | .timeout => some { s with stack := .poll limit (i + 1) (total + 1) .scan :: rest }

/-- `scheduler_ask_message` goes on: the next round, or it returns. -/
def askMove (s : State α) (slot maxRounds : ℕ) (rest : List Frame) : State α :=
  if s.replyReady slot = false ∧ 0 < maxRounds then
    { s with stack := .poll 1 0 0 .scan :: .ask slot (maxRounds - 1) :: rest }
  else { s with stack := rest }

def move [Inhabited α] (s : State α) (mv : Move α) : Option (State α) :=
  match mv, s.stack with
  | .go now, .step actor :: rest => stepMove s now actor rest
  | .go _, .poll limit i total phase :: rest => pollMove s limit i total rest phase
  | .go _, .ask slot maxRounds :: rest => some (askMove s slot maxRounds rest)
  | mv, _ => if s.inProgram then programMove s mv else none

def run [Inhabited α] (s : State α) (moves : List (Move α)) : Option (State α) := moves.foldlM move s

/-! ### What has been sent and consumed -/

def Event.sentTo (actor : ℕ) : Event α → Option (Message α)
  | .sent a msg => if a = actor then some msg else none
  | _ => none

def Event.consumedBy (actor : ℕ) : Event α → Option (Message α)
  | .consumed a msg => if a = actor then some msg else none
  | _ => none

/-- The messages sent to an actor, in the order of the sends. -/
def State.sentTo (s : State α) (actor : ℕ) : List (Message α) := s.events.filterMap (Event.sentTo actor)

/-- The messages that steps of an actor have received, in the order of the steps. -/
def State.consumedBy (s : State α) (actor : ℕ) : List (Message α) :=
  s.events.filterMap (Event.consumedBy actor)

/-- The messages in the mailbox of an actor. -/
def State.pending (s : State α) (actor : ℕ) : ℕ :=
  match s.memory actor with
  | none => 0
  | some a => a.mailbox.count

/-- The target of a move that sends a message. -/
def Move.target : Move α → Option ℕ
  | .sendLocal actor _ => some actor
  | .sendRemote actor _ _ => some actor
  | .batchAdd actor _ => some actor
  | .sendMessage actor _ => some actor
  | .ask actor _ => some actor
  | _ => none

/-- A message that is sent finds a free slot in the mailbox of its actor. -/
def HasRoom (s : State α) (mv : Move α) : Prop :=
  ∀ actor, mv.target = some actor → s.pending actor < Mailbox.size

/-- The states that are reached when every message finds a free slot. -/
inductive Reached [Inhabited α] : State α → Prop
  | init : Reached init
  | step {s s' : State α} (mv : Move α) (h : Reached s) (hroom : HasRoom s mv)
    (hmove : move s mv = some s') : Reached s'

/-- Every message that was sent to a registered actor has been consumed by one of its steps, in the order of
the sends, or waits behind those; none waits when a poll round has just reported zero. -/
def Delivered (s : State α) : Prop :=
  ∀ actor ∈ s.actors, s.consumedBy actor <+: s.sentTo actor ∧
    (s.sentTo actor).length = (s.consumedBy actor).length + s.pending actor ∧
    (s.events.getLast? = some (.polled 0) → s.consumedBy actor = s.sentTo actor)

end Coop

end Qjs
