import Mathlib

/-!
# The mailbox of an actor

The ring of `actor_state_machine.h`: 32 slots with a head, a tail and a count. `mailbox_send` returns 0 and
leaves the ring as it is when all slots are in use.
-/

namespace Qjs

variable {α : Type}

structure Mailbox (α : Type) where
  messages : ℕ → α
  head : ℕ
  tail : ℕ
  count : ℕ

namespace Mailbox

/-- `MAILBOX_SIZE`. -/
def size : ℕ := 32

/-- `MAILBOX_MASK`. -/
def mask : ℕ := size - 1

/-- `mailbox_init` on cleared memory. -/
def init [Inhabited α] : Mailbox α := ⟨fun _ => default, 0, 0, 0⟩

/-- `mailbox_send`. -/
def send (mbox : Mailbox α) (msg : α) : Mailbox α × Bool :=
  if size ≤ mbox.count then (mbox, false)
  else
    ({ messages := Function.update mbox.messages mbox.tail msg
       head := mbox.head
       tail := (mbox.tail + 1) &&& mask
       count := mbox.count + 1 }, true)

/-- `mailbox_receive`. -/
def receive (mbox : Mailbox α) : Option (α × Mailbox α) :=
  if mbox.count = 0 then none
  else
    some (mbox.messages mbox.head,
      { mbox with head := (mbox.head + 1) &&& mask, count := mbox.count - 1 })

end Mailbox

end Qjs
