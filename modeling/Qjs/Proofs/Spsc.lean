import Qjs.Spsc

/-!
# The ring buffers refine queues

The two indices are the numbers of the items sent and received, modulo the size (`Inv`). The producer
may have an old value of `head` and the consumer one of `tail`, but these only lie behind, so the room
and the items they have found are still there. Each move keeps this (`inv_producerMove`,
`inv_consumerMove`), and with it each run (`run_fifo`).
-/

namespace Qjs

namespace Spsc

open RingSlots

variable {α : Type} {q : Kind}

/-! ### Indices -/

namespace Kind

theorem mask_eq (x : BitVec 32) : q.mask x = x.toNat % q.size := by
  have hsize : (word (q.size - 1)).toNat = 2 ^ q.bits - 1 := by
    cases q <;> rfl
  rw [mask, BitVec.toNat_and, hsize, Nat.and_two_pow_sub_one_eq_mod, size]

theorem next_eq {i : ℕ} (hi : i < q.size) : q.next i = (i + 1) % q.size := by
  rw [next, mask_eq]
  cases q <;> simp [size, bits]

theorem iterate_next {start : ℕ} (hs : start < q.size) (i : ℕ) :
    q.next^[i] start = (start + i) % q.size := by
  induction i with
  | zero => exact (Nat.mod_eq_of_lt hs).symm
  | succ i ih =>
    have hpos : 0 < q.size := by omega
    rw [Function.iterate_succ_apply', ih, next_eq (Nat.mod_lt _ hpos), Nat.mod_add_mod]
    rfl

theorem index_eq {start : ℕ} (hs : start < q.size) (b : Bool) (i : ℕ) :
    q.index b start i = (start + i) % q.size := by
  have hmask : Kind.lockFreeMailbox.mask (word start + word i)
      = (start + i) % Kind.lockFreeMailbox.size := by
    rw [mask_eq]
    simp [size, bits]
  unfold index
  cases q with
  | lockFreeMailbox =>
    cases b with
    | true => exact hmask
    | false => exact iterate_next hs i
  | _ => exact iterate_next hs i

theorem maskedSpace_eq {tail head : ℕ} (ht : tail < q.size) (hh : head < q.size) :
    q.maskedSpace tail head + (tail + q.size - head) % q.size = q.size - 1 := by
  rw [maskedSpace, mask_eq]
  cases q <;> simp only [size, bits] at ht hh ⊢ <;> simp [BitVec.toNat_sub] <;> omega

theorem spscSpace_eq {tail head : ℕ} (ht : tail < q.size) (hh : head < q.size) :
    q.spscSpace tail head + (tail + q.size - head) % q.size = q.size - 1 := by
  unfold spscSpace
  cases q <;> simp only [size, bits] at ht hh ⊢ <;> split_ifs <;> simp [BitVec.toNat_sub] <;> omega

theorem maskedAvailable_eq {tail head : ℕ} (ht : tail < q.size) (hh : head < q.size) :
    q.maskedAvailable head tail = (tail + q.size - head) % q.size := by
  rw [maskedAvailable, mask_eq]
  cases q <;> simp only [size, bits] at ht hh ⊢ <;> simp [BitVec.toNat_sub] <;> omega

theorem spscAvailable_eq {tail head : ℕ} (ht : tail < q.size) (hh : head < q.size)
    (hne : head ≠ tail) : q.spscAvailable head tail = (tail + q.size - head) % q.size := by
  unfold spscAvailable
  cases q <;> simp only [size, bits] at ht hh ⊢ <;> split_ifs <;> simp [BitVec.toNat_sub] <;> omega

/-- What is copied is there and fits. -/
theorem enqueueCount_le {tail head n : ℕ} (ht : tail < q.size) (hh : head < q.size) {op : Send α}
    (h : q.enqueueCount tail head op = some n) :
    n ≤ op.items.length ∧ n + (tail + q.size - head) % q.size < q.size := by
  cases op with
  | one x =>
    simp only [enqueueCount] at h
    split_ifs at h with hfull
    cases h
    rw [next_eq ht] at hfull
    refine ⟨le_refl 1, ?_⟩
    cases q <;> simp only [size, bits] at ht hh hfull ⊢ <;> omega
  | batch xs =>
    have h1 := maskedSpace_eq ht hh
    have h2 := spscSpace_eq ht hh
    cases q with
    | spscQueue =>
      simp only [enqueueCount] at h
      split_ifs at h with hroom
      cases h
      exact ⟨le_refl _, by omega⟩
    | _ =>
      simp only [enqueueCount] at h
      split_ifs at h with hroom hlt
      · cases h
        exact ⟨le_refl _, by omega⟩
      · cases h
        simp only [Send.items]
        omega

theorem dequeueCount_le {tail head n : ℕ} (ht : tail < q.size) (hh : head < q.size) {op : Recv}
    (h : q.dequeueCount head tail op = some n) :
    n ≤ op.maxCount ∧ n ≤ (tail + q.size - head) % q.size := by
  cases op with
  | one =>
    simp only [dequeueCount] at h
    split_ifs at h with hempty
    cases h
    refine ⟨le_refl 1, ?_⟩
    cases q <;> simp only [size, bits] at ht hh ⊢ <;> omega
  | batch maxCount =>
    have h1 := maskedAvailable_eq ht hh
    have h2 := spscAvailable_eq ht hh
    cases q with
    | spscQueue =>
      simp only [dequeueCount] at h
      split_ifs at h with hempty hlt
      · cases h
        simp only [Recv.maxCount]
        rw [← h2 hempty]
        omega
      · cases h
        simp only [Recv.maxCount]
        rw [← h2 hempty]
        omega
    | _ =>
      simp only [dequeueCount] at h
      split_ifs at h with hempty hlt
      · cases h
        simp only [Recv.maxCount]
        omega
      · cases h
        simp only [Recv.maxCount]
        omega

theorem size_pos (q : Kind) : 0 < q.size := by cases q <;> decide

end Kind

/-! ### The invariant -/

variable (q) in
/-- What the producer has found and done so far. -/
def ProducerOk (s : State α) : Prop :=
  match s.producer with
  | .idle => True
  | .loadedTail _ tail => tail = s.tail
  | .copying op tail n i => tail = s.tail ∧ i ≤ n ∧ n ≤ op.items.length
    ∧ s.sent.length + n < s.received.length + q.size
    ∧ Holds q.size s.slots s.sent.length (op.items.take i)

/-- What the consumer has found and done so far. -/
def ConsumerOk (s : State α) : Prop :=
  match s.consumer with
  | .idle => True
  | .loadedHead _ head => head = s.head
  | .copying op head n out => head = s.head ∧ out.length ≤ n ∧ n ≤ op.maxCount
    ∧ s.received.length + n ≤ s.sent.length
    ∧ out = (s.sent.drop s.received.length).take out.length

variable (q) in
structure Inv (s : State α) : Prop where
  pref : s.received <+: s.sent
  tail_eq : s.tail = s.sent.length % q.size
  head_eq : s.head = s.received.length % q.size
  flight : s.sent.length < s.received.length + q.size
  holds : Holds q.size s.slots s.received.length (s.sent.drop s.received.length)
  producer : ProducerOk q s
  consumer : ConsumerOk s
  exact : ∀ e ∈ s.events, e.Exact

theorem inv_init (slots : ℕ → α) : Inv q (init slots) where
  pref := List.nil_prefix
  tail_eq := (Nat.zero_mod _).symm
  head_eq := (Nat.zero_mod _).symm
  flight := by simpa [init, State.sent, State.received] using q.size_pos
  holds := holds_nil
  producer := trivial
  consumer := trivial
  exact := by simp [init]

namespace Inv

variable {s : State α} (h : Inv q s)

include h

theorem length_le : s.received.length ≤ s.sent.length := h.pref.length_le

theorem tail_lt : s.tail < q.size := by
  rw [h.tail_eq]
  exact Nat.mod_lt _ q.size_pos

theorem head_lt : s.head < q.size := by
  rw [h.head_eq]
  exact Nat.mod_lt _ q.size_pos

/-- The distance of the indices is the number of items in flight. -/
theorem distance : (s.tail + q.size - s.head) % q.size = s.sent.length - s.received.length := by
  rw [h.tail_eq, h.head_eq]
  exact sub_mod_of_le h.length_le h.flight

theorem index_tail (b : Bool) (i : ℕ) :
    q.index b s.tail i = (s.sent.length + i) % q.size := by
  rw [q.index_eq h.tail_lt, h.tail_eq, Nat.mod_add_mod]

theorem index_head (b : Bool) (i : ℕ) :
    q.index b s.head i = (s.received.length + i) % q.size := by
  rw [q.index_eq h.head_lt, h.head_eq, Nat.mod_add_mod]

end Inv

theorem sent_of_events {s s' : State α} {e : Event α} (h : s'.events = s.events ++ [e]) :
    s'.sent = s.sent ++ e.sentItems := by
  simp [State.sent, h]

theorem received_of_events {s s' : State α} {e : Event α} (h : s'.events = s.events ++ [e]) :
    s'.received = s.received ++ e.receivedItems := by
  simp [State.received, h]

theorem exact_of_events {s s' : State α} {e : Event α} (h : s'.events = s.events ++ [e])
    (hs : ∀ e ∈ s.events, e.Exact) (he : e.Exact) : ∀ e ∈ s'.events, e.Exact := by
  intro e' he'
  rw [h] at he'
  rcases List.mem_append.1 he' with he' | he'
  · exact hs e' he'
  · rw [List.mem_singleton.1 he']
    exact he

/-- A call that returns 0 at once. -/
theorem inv_returnZero {s s' : State α} (h : Inv q s) {e : Event α}
    (hev : s'.events = s.events ++ [e]) (hsent : e.sentItems = []) (hrec : e.receivedItems = [])
    (he : e.Exact) (hhead : s'.head = s.head) (htail : s'.tail = s.tail)
    (hslots : s'.slots = s.slots) (hprod : ProducerOk q s') (hcons : ConsumerOk s') :
    Inv q s' := by
  have hs : s'.sent = s.sent := by rw [sent_of_events hev, hsent, List.append_nil]
  have hr : s'.received = s.received := by rw [received_of_events hev, hrec, List.append_nil]
  refine ⟨?_, ?_, ?_, ?_, ?_, hprod, hcons, exact_of_events hev h.exact he⟩
  · rw [hs, hr]
    exact h.pref
  · rw [htail, hs]
    exact h.tail_eq
  · rw [hhead, hr]
    exact h.head_eq
  · rw [hs, hr]
    exact h.flight
  · rw [hslots, hs, hr]
    exact h.holds

/-! ### Moves of the producer -/

theorem inv_loadTail {s : State α} (h : Inv q s) (op : Send α) :
    Inv q { s with producer := .loadedTail op s.tail } :=
  ⟨h.pref, h.tail_eq, h.head_eq, h.flight, h.holds, rfl, h.consumer, h.exact⟩

/-- A call that finds no room. -/
theorem inv_enqueueFull {s : State α} (h : Inv q s) (op : Send α) :
    Inv q { s with producer := .idle, events := s.events ++ [.sent op 0 0] } := by
  refine inv_returnZero h rfl rfl rfl ⟨rfl, Nat.zero_le _⟩ rfl rfl rfl trivial ?_
  simpa [ConsumerOk, State.sent, State.received, Event.sentItems, Event.receivedItems]
    using h.consumer

theorem inv_loadHead {s : State α} (h : Inv q s) {op : Send α} {n : ℕ}
    (hn : q.enqueueCount s.tail s.head op = some n) :
    Inv q { s with producer := .copying op s.tail n 0 } := by
  obtain ⟨hlen, hroom⟩ := Kind.enqueueCount_le h.tail_lt h.head_lt hn
  rw [h.distance] at hroom
  have hle := h.length_le
  refine ⟨h.pref, h.tail_eq, h.head_eq, h.flight, h.holds, ?_, h.consumer, h.exact⟩
  refine ⟨rfl, Nat.zero_le n, hlen, ?_, holds_nil⟩
  show s.sent.length + n < s.received.length + q.size
  omega

/-- An item is put behind those that are there. -/
theorem inv_copyIn {s : State α} (h : Inv q s) {op : Send α} {n i : ℕ} {x : α}
    (hp : s.producer = .copying op s.tail n i) (hi : i < n) (hx : op.items[i]? = some x) :
    Inv q { s with
      slots := Function.update s.slots (q.index op.isBatch s.tail i) x
      producer := .copying op s.tail n (i + 1) } := by
  have hprod := h.producer
  rw [ProducerOk, hp] at hprod
  obtain ⟨-, -, hlen, hroom, hheld⟩ := hprod
  obtain ⟨hi', hxi⟩ := List.getElem?_eq_some_iff.1 hx
  have hle := h.length_le
  rw [h.index_tail]
  refine ⟨h.pref, h.tail_eq, h.head_eq, h.flight, ?_, ?_, h.consumer, h.exact⟩
  · refine h.holds.update x ?_ ?_
    · rw [List.length_drop]
      omega
    · omega
  · refine ⟨rfl, hi, hlen, hroom, ?_⟩
    have hlen_take : (op.items.take i).length = i := by
      rw [List.length_take]
      omega
    rw [List.take_add_one, hx, Option.toList_some]
    refine (hheld.update x ?_ ?_).snoc ?_
    · show s.sent.length + (op.items.take i).length ≤ s.sent.length + i
      omega
    · show s.sent.length + i < s.sent.length + q.size
      omega
    · rw [hlen_take]
      exact Function.update_self ..

/-- The index is stored: the items that were copied are sent. -/
theorem inv_storeTail {s s' : State α} (h : Inv q s) {op : Send α} {n : ℕ}
    (hp : s.producer = .copying op s.tail n n) (hs' : s' = { s with
      tail := q.index op.isBatch s.tail n
      producer := .idle
      events := s.events ++ [.sent op n n] }) : Inv q s' := by
  have hprod := h.producer
  rw [ProducerOk, hp] at hprod
  obtain ⟨-, -, hlen, hroom, hheld⟩ := hprod
  have hle := h.length_le
  have hev : s'.events = s.events ++ [.sent op n n] := by rw [hs']
  have hsent : s'.sent = s.sent ++ op.items.take n := sent_of_events hev
  have hrec : s'.received = s.received := (received_of_events hev).trans (List.append_nil _)
  have hlen_take : (op.items.take n).length = n := by
    rw [List.length_take]
    omega
  have hdrop : (s.sent ++ op.items.take n).drop s.received.length
      = s.sent.drop s.received.length ++ op.items.take n :=
    List.drop_append_of_le_length hle
  refine ⟨?_, ?_, ?_, ?_, ?_, ?_, ?_, exact_of_events hev h.exact ⟨rfl, hlen⟩⟩
  · rw [hsent, hrec]
    exact h.pref.trans (List.prefix_append _ _)
  · rw [hsent, List.length_append, hlen_take, hs']
    exact h.index_tail _ n
  · rw [hrec, hs']
    exact h.head_eq
  · rw [hsent, hrec, List.length_append, hlen_take]
    exact hroom
  · rw [hsent, hrec, hdrop, hs']
    refine h.holds.append ?_
    rw [List.length_drop, Nat.add_sub_cancel' hle]
    exact hheld
  · rw [ProducerOk, hs']
    trivial
  · have hcons := h.consumer
    unfold ConsumerOk at hcons ⊢
    rw [hsent, hrec]
    cases hc : s.consumer with
    | idle =>
      rw [hs']
      simp only [hc]
    | loadedHead op' head =>
      rw [hc] at hcons
      rw [hs']
      simp only [hc]
      exact hcons
    | copying op' head m out =>
      rw [hc] at hcons
      obtain ⟨h1, h2, h3, h4, h5⟩ := hcons
      rw [hs']
      simp only [hc]
      refine ⟨h1, h2, h3, ?_, ?_⟩
      · rw [List.length_append]
        omega
      · rw [hdrop, List.take_append_of_le_length (by rw [List.length_drop]; omega)]
        exact h5

theorem inv_producerMove {s : State α} (h : Inv q s) (op : Send α) :
    Inv q (producerMove q op s) := by
  have hprod := h.producer
  unfold ProducerOk at hprod
  unfold producerMove
  cases hp : s.producer with
  | idle => exact inv_loadTail h op
  | loadedTail op' tail =>
    rw [hp] at hprod
    obtain rfl : tail = s.tail := hprod
    simp only
    cases hn : q.enqueueCount s.tail s.head op' with
    | none => exact inv_enqueueFull h op'
    | some n => exact inv_loadHead h hn
  | copying op' tail n i =>
    rw [hp] at hprod
    obtain rfl : tail = s.tail := hprod.1
    simp only
    split_ifs with hi
    · cases hx : op'.items[i]? with
      | none => exact h
      | some x => exact inv_copyIn h hp hi hx
    · obtain rfl : i = n := by
        have := hprod.2.1
        omega
      exact inv_storeTail h hp rfl

/-! ### Moves of the consumer -/

theorem inv_loadHeadIndex {s : State α} (h : Inv q s) (op : Recv) :
    Inv q { s with consumer := .loadedHead op s.head } :=
  ⟨h.pref, h.tail_eq, h.head_eq, h.flight, h.holds, h.producer, rfl, h.exact⟩

/-- A call that finds nothing. -/
theorem inv_dequeueEmpty {s : State α} (h : Inv q s) (op : Recv) :
    Inv q { s with consumer := .idle, events := s.events ++ [.received op [] 0] } := by
  refine inv_returnZero h rfl rfl rfl ⟨rfl, Nat.zero_le _⟩ rfl rfl rfl ?_ trivial
  simpa [ProducerOk, State.sent, State.received, Event.sentItems, Event.receivedItems]
    using h.producer

theorem inv_loadTailIndex {s : State α} (h : Inv q s) {op : Recv} {n : ℕ}
    (hn : q.dequeueCount s.head s.tail op = some n) :
    Inv q { s with consumer := .copying op s.head n [] } := by
  obtain ⟨hmax, havail⟩ := Kind.dequeueCount_le h.tail_lt h.head_lt hn
  rw [h.distance] at havail
  have hle := h.length_le
  refine ⟨h.pref, h.tail_eq, h.head_eq, h.flight, h.holds, h.producer, ?_, h.exact⟩
  refine ⟨rfl, Nat.zero_le n, hmax, ?_, List.take_zero.symm⟩
  show s.received.length + n ≤ s.sent.length
  omega

/-- The next of the items in flight is copied out. -/
theorem inv_copyOut {s : State α} (h : Inv q s) {op : Recv} {n : ℕ} {out : List α}
    (hc : s.consumer = .copying op s.head n out) (hlt : out.length < n) :
    Inv q { s with
      consumer :=
        (.copying op s.head n (out ++ [s.slots (q.index op.isBatch s.head out.length)])) } := by
  have hcons := h.consumer
  rw [ConsumerOk, hc] at hcons
  obtain ⟨-, -, hmax, havail, hout⟩ := hcons
  have hlen : out.length < (s.sent.drop s.received.length).length := by
    rw [List.length_drop]
    omega
  refine ⟨h.pref, h.tail_eq, h.head_eq, h.flight, h.holds, h.producer, ?_, h.exact⟩
  refine ⟨rfl, ?_, hmax, havail, ?_⟩
  · rw [List.length_append, List.length_singleton]
    exact hlt
  · have hnext : out ++ [(s.sent.drop s.received.length)[out.length]]
        = (s.sent.drop s.received.length).take (out.length + 1) := by
      rw [List.take_add_one, List.getElem?_eq_getElem hlen, Option.toList_some, ← hout]
    rw [h.index_head, h.holds out.length hlen, List.length_append, List.length_singleton]
    exact hnext

/-- The index is stored: the items that were copied out are received. -/
theorem inv_storeHead {s s' : State α} (h : Inv q s) {op : Recv} {out : List α}
    (hc : s.consumer = .copying op s.head out.length out) (hs' : s' = { s with
      head := q.index op.isBatch s.head out.length
      consumer := .idle
      events := s.events ++ [.received op out out.length] }) : Inv q s' := by
  have hcons := h.consumer
  rw [ConsumerOk, hc] at hcons
  obtain ⟨-, -, hmax, havail, hout⟩ := hcons
  have hle := h.length_le
  have hev : s'.events = s.events ++ [.received op out out.length] := by rw [hs']
  have hsent : s'.sent = s.sent := (sent_of_events hev).trans (List.append_nil _)
  have hrec : s'.received = s.received ++ out := by
    rw [received_of_events hev, Event.receivedItems, List.take_length]
  refine ⟨?_, ?_, ?_, ?_, ?_, ?_, ?_, exact_of_events hev h.exact ⟨rfl, hmax⟩⟩
  · obtain ⟨rest, hrest⟩ := h.pref
    have hdrop : s.sent.drop s.received.length = rest := by
      rw [← hrest, List.drop_left]
    rw [hdrop] at hout
    rw [hsent, hrec, ← hrest, hout]
    exact (List.prefix_append_right_inj _).2 (List.take_prefix _ _)
  · rw [hsent, hs']
    exact h.tail_eq
  · rw [hrec, List.length_append, hs']
    exact h.index_head _ _
  · have := h.flight
    rw [hsent, hrec, List.length_append]
    omega
  · rw [hsent, hrec, List.length_append, ← List.drop_drop, hs']
    exact h.holds.drop out.length
  · have hprod := h.producer
    unfold ProducerOk at hprod ⊢
    rw [hsent, hrec]
    cases hp : s.producer with
    | idle =>
      rw [hs']
      simp only [hp]
    | loadedTail op' tail =>
      rw [hp] at hprod
      rw [hs']
      simp only [hp]
      exact hprod
    | copying op' tail n i =>
      rw [hp] at hprod
      obtain ⟨h1, h2, h3, h4, h5⟩ := hprod
      rw [hs']
      simp only [hp]
      refine ⟨h1, h2, h3, ?_, h5⟩
      rw [List.length_append]
      omega
  · rw [ConsumerOk, hs']
    trivial

theorem inv_consumerMove {s : State α} (h : Inv q s) (op : Recv) : Inv q (consumerMove q op s) := by
  have hcons := h.consumer
  unfold ConsumerOk at hcons
  unfold consumerMove
  cases hc : s.consumer with
  | idle => exact inv_loadHeadIndex h op
  | loadedHead op' head =>
    rw [hc] at hcons
    obtain rfl : head = s.head := hcons
    simp only
    cases hn : q.dequeueCount s.head s.tail op' with
    | none => exact inv_dequeueEmpty h op'
    | some n => exact inv_loadTailIndex h hn
  | copying op' head n out =>
    rw [hc] at hcons
    obtain rfl : head = s.head := hcons.1
    simp only
    split_ifs with hlt
    · exact inv_copyOut h hc hlt
    · obtain rfl : out.length = n := by
        have := hcons.2.1
        omega
      exact inv_storeHead h hc rfl

/-! ### Runs -/

theorem inv_run {s : State α} (h : Inv q s) (ms : List (Move α)) : Inv q (run q s ms) := by
  induction ms generalizing s with
  | nil => exact h
  | cons m ms ih =>
    refine ih ?_
    cases m with
    | producer op => exact inv_producerMove h op
    | consumer op => exact inv_consumerMove h op

/-- In every interleaving of the moves: what was received is the first part of what was sent, fewer
items than slots are in flight and each of them is in its slot, the producer does not write to such a
slot, and calls report what they have copied. -/
theorem run_fifo (q : Kind) (slots : ℕ → α) (ms : List (Move α)) :
    let s := run q (init slots) ms
    s.received <+: s.sent
      ∧ s.sent.length ≤ s.received.length + (q.size - 1)
      ∧ (∀ k (hk : k < s.sent.length), s.received.length ≤ k → s.slots (k % q.size) = s.sent[k])
      ∧ (∀ op tail n i, s.producer = .copying op tail n i → i < n →
        ∀ k, s.received.length ≤ k → k < s.sent.length → q.index op.isBatch tail i ≠ k % q.size)
      ∧ ∀ e ∈ s.events, e.Exact := by
  intro s
  have h : Inv q s := inv_run (inv_init slots) ms
  refine ⟨h.pref, ?_, ?_, ?_, h.exact⟩
  · have := h.flight
    omega
  · intro k hk hle
    have := h.holds (k - s.received.length) (by rw [List.length_drop]; omega)
    rw [List.getElem_drop] at this
    simpa only [Nat.add_sub_cancel' hle] using this
  · intro op tail n i hp hi k hle hk
    have hprod := h.producer
    rw [ProducerOk, hp] at hprod
    obtain ⟨rfl, -, -, hroom, -⟩ := hprod
    rw [h.index_tail]
    exact (mod_ne_mod (by omega) (by omega)).symm

end Spsc

end Qjs
