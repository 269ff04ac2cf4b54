import Qjs.Mailbox
import Qjs.Lib.RingSlots

/-!
# Messages in a mailbox

`Mailbox.Holds` says which messages are in the ring; `send_holds`, `send_full`, `receive_holds` and
`receive_empty` say what the operations do to them.
-/

namespace Qjs

variable {α : Type}

namespace Mailbox

/-- The messages in the ring, the oldest first. -/
structure Holds (mbox : Mailbox α) (xs : List α) : Prop where
  head_lt : mbox.head < size
  tail_eq : mbox.tail = (mbox.head + xs.length) % size
  count_eq : mbox.count = xs.length
  le_size : xs.length ≤ size
  slots : RingSlots.Holds size mbox.messages mbox.head xs

theorem and_mask (n : ℕ) : n &&& mask = n % size :=
  Nat.and_two_pow_sub_one_eq_mod n 5

theorem init_holds [Inhabited α] : (init : Mailbox α).Holds [] where
  head_lt := Nat.zero_lt_succ _
  tail_eq := rfl
  count_eq := rfl
  le_size := Nat.zero_le _
  slots := RingSlots.holds_nil

variable {mbox : Mailbox α} {xs : List α}

theorem send_holds (h : mbox.Holds xs) (hroom : mbox.count < size) (msg : α) :
    (mbox.send msg).1.Holds (xs ++ [msg]) := by
  have hlen := h.count_eq
  rw [send, if_neg (by omega)]
  refine ⟨h.head_lt, ?_, ?_, ?_, ?_⟩
  · rw [and_mask, h.tail_eq, Nat.mod_add_mod, List.length_append, List.length_singleton,
      Nat.add_assoc]
  · rw [List.length_append, List.length_singleton, ← hlen]
  · rw [List.length_append, List.length_singleton]
    omega
  · rw [h.tail_eq]
    refine RingSlots.Holds.snoc (h.slots.update msg le_rfl (by omega)) ?_
    exact Function.update_self _ _ _

theorem send_full (h : mbox.Holds xs) (hfull : xs.length = size) (msg : α) :
    mbox.send msg = (mbox, false) := by
  rw [send, if_pos (by rw [h.count_eq, hfull])]

theorem receive_empty (h : mbox.Holds []) : mbox.receive = none := by
  exact if_pos h.count_eq

theorem receive_holds {x : α} (h : mbox.Holds (x :: xs)) :
    ∃ mbox', mbox.receive = some (x, mbox') ∧ mbox'.Holds xs := by
  have hlen := h.count_eq
  have hle := h.le_size
  rw [List.length_cons] at hlen hle
  have hx := h.slots 0 (by simp)
  rw [Nat.add_zero, Nat.mod_eq_of_lt h.head_lt, List.getElem_cons_zero] at hx
  refine ⟨_, by rw [receive, if_neg (by omega), hx], ?_, ?_, ?_, ?_, ?_⟩
  · rw [and_mask]
    exact Nat.mod_lt _ (by decide)
  · rw [and_mask, Nat.mod_add_mod]
    rw [h.tail_eq, List.length_cons]
    congr 1
    omega
  · simp only [hlen, Nat.add_sub_cancel]
  · omega
  · intro i hi
    have hnext := h.slots (i + 1) (by simpa using hi)
    rw [List.getElem_cons_succ] at hnext
    rw [← hnext]
    simp only [and_mask]
    rw [Nat.mod_add_mod]
    congr 2
    omega

end Mailbox

end Qjs
