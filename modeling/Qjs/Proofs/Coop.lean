import Qjs.Coop
import Qjs.Proofs.Mailbox

/-!
# Delivery by the cooperative scheduler

`Data` relates the mailboxes to what has been sent and consumed, `Control` says what a poll round knows: a
round that has stepped nobody so far has seen empty mailboxes only. Every move keeps both as long as a
message that is sent finds a free slot (`move_inv`), so everything is delivered once and in order
(`reached_delivered`). With a full mailbox a message is lost without a trace (`not_delivered_burst`).
-/

namespace Qjs

namespace Coop

variable {α : Type}

/-! ### Events -/

theorem sentTo_append (s : State α) (e : Event α) (actor : ℕ) :
    (s.events ++ [e]).filterMap (Event.sentTo actor) = s.sentTo actor ++ (e.sentTo actor).toList := by
  rw [List.filterMap_append, State.sentTo]
  cases h : e.sentTo actor <;> simp [h]

theorem consumedBy_append (s : State α) (e : Event α) (actor : ℕ) :
    (s.events ++ [e]).filterMap (Event.consumedBy actor)
      = s.consumedBy actor ++ (e.consumedBy actor).toList := by
  rw [List.filterMap_append, State.consumedBy]
  cases h : e.consumedBy actor <;> simp [h]

/-! ### Mailboxes and history -/

/-- The mailbox of an actor has what was sent to it and is not consumed. -/
def Boxed (s : State α) (actor : ℕ) (a : Actor α) : Prop :=
  ∃ xs, a.mailbox.Holds xs ∧ s.sentTo actor = s.consumedBy actor ++ xs

structure Data (s : State α) : Prop where
  boxes : ∀ actor a, s.memory actor = some a → Boxed s actor a
  fresh : ∀ actor, s.nextActorId ≤ actor →
    s.memory actor = none ∧ s.sentTo actor = [] ∧ s.consumedBy actor = []
  nodup : s.actors.Nodup
  registered : ∀ actor ∈ s.actors, (s.memory actor).isSome
  reported : s.events.getLast? = some (.polled 0) → ∀ actor ∈ s.actors, s.pending actor = 0

theorem pending_of_memory {s : State α} {actor : ℕ} {a : Actor α} (h : s.memory actor = some a) :
    s.pending actor = a.mailbox.count := by
  rw [State.pending, h]

theorem Data.isSome_lt {s : State α} (h : Data s) {actor : ℕ} {a : Actor α}
    (ha : s.memory actor = some a) : actor < s.nextActorId := by
  by_contra hge
  rw [(h.fresh actor (Nat.le_of_not_lt hge)).1] at ha
  cases ha

/-- An actor that is in memory changes, and something happens to it. -/
theorem Data.update {s s' : State α} (h : Data s) {actor : ℕ} {a a' : Actor α}
    (ha : s.memory actor = some a)
    (hmem : s'.memory = Function.update s.memory actor (some a'))
    (hnext : s'.nextActorId = s.nextActorId) (hactors : s'.actors = s.actors)
    (hbox : Boxed s' actor a')
    (hsent : ∀ other, other ≠ actor → s'.sentTo other = s.sentTo other)
    (hconsumed : ∀ other, other ≠ actor → s'.consumedBy other = s.consumedBy other)
    (hlast : s'.events.getLast? = some (.polled 0) →
      s.events.getLast? = some (.polled 0) ∧ a'.mailbox.count = a.mailbox.count) : Data s' where
  boxes := by
    intro other b hb
    by_cases hother : other = actor
    · subst hother
      rw [hmem, Function.update_self] at hb
      cases hb
      exact hbox
    · rw [hmem, Function.update_of_ne hother] at hb
      rw [Boxed, hsent other hother, hconsumed other hother]
      exact h.boxes other b hb
  fresh := by
    intro other hother
    rw [hnext] at hother
    have hne : other ≠ actor := by
      rintro rfl
      exact absurd (h.isSome_lt ha) (by omega)
    rw [hmem, Function.update_of_ne hne, hsent other hne, hconsumed other hne]
    exact h.fresh other hother
  nodup := by
    rw [hactors]
    exact h.nodup
  registered := by
    intro other hother
    rw [hactors] at hother
    rw [hmem, Function.update_apply]
    split_ifs
    · rfl
    · exact h.registered other hother
  reported := by
    intro hpolled other hother
    obtain ⟨hbefore, hcount⟩ := hlast hpolled
    rw [hactors] at hother
    have hzero := h.reported hbefore other hother
    by_cases hne : other = actor
    · subst hne
      rw [State.pending, hmem, Function.update_self]
      rw [pending_of_memory ha] at hzero
      exact hcount.trans hzero
    · rw [State.pending, hmem, Function.update_of_ne hne]
      exact hzero

theorem mailboxSend_data {s s' : State α} (h : Data s) {actor : ℕ} {msg : Message α}
    (hroom : s.pending actor < Mailbox.size) (hsend : s.mailboxSend actor msg = some s') :
    Data s' ∧ s'.stack = s.stack := by
  rw [State.mailboxSend] at hsend
  cases ha : s.memory actor with
  | none =>
    rw [ha] at hsend
    cases hsend
  | some a =>
    rw [ha] at hsend
    cases hsend
    refine ⟨?_, rfl⟩
    rw [pending_of_memory ha] at hroom
    obtain ⟨xs, hxs, hsplit⟩ := h.boxes actor a ha
    refine h.update ha rfl rfl rfl ⟨xs ++ [msg], Mailbox.send_holds hxs hroom msg, ?_⟩ ?_ ?_ ?_
    · rw [State.sentTo, sentTo_append, State.consumedBy, consumedBy_append, hsplit]
      simp [Event.sentTo, Event.consumedBy]
    · intro other hother
      rw [State.sentTo, sentTo_append]
      simp [Event.sentTo, Ne.symm hother]
    · intro other _
      rw [State.consumedBy, consumedBy_append]
      simp [Event.consumedBy]
    · intro hlast
      simp at hlast

/-- A step function receives a message. -/
theorem consume_data {s s' : State α} (h : Data s) {actor : ℕ} {a : Actor α} {msg : Message α}
    {mailbox : Mailbox (Message α)} (ha : s.memory actor = some a)
    (hreceive : a.mailbox.receive = some (msg, mailbox))
    (hmem : s'.memory = Function.update s.memory actor (some ⟨mailbox, 0, 0⟩))
    (hnext : s'.nextActorId = s.nextActorId) (hactors : s'.actors = s.actors)
    (hevents : s'.events = s.events ++ [.consumed actor msg]) : Data s' := by
  obtain ⟨xs, hxs, hsplit⟩ := h.boxes actor a ha
  cases xs with
  | nil =>
    rw [Mailbox.receive_empty hxs] at hreceive
    cases hreceive
  | cons x xs =>
    obtain ⟨mailbox', hreceive', hholds⟩ := Mailbox.receive_holds hxs
    rw [hreceive] at hreceive'
    obtain ⟨rfl, rfl⟩ := Prod.mk.inj (Option.some.inj hreceive')
    refine h.update ha hmem hnext hactors ⟨xs, hholds, ?_⟩ ?_ ?_ ?_
    · rw [State.sentTo, hevents, sentTo_append, State.consumedBy, hevents, consumedBy_append, hsplit]
      simp [Event.sentTo, Event.consumedBy]
    · intro other _
      rw [State.sentTo, hevents, sentTo_append]
      simp [Event.sentTo]
    · intro other hother
      rw [State.consumedBy, hevents, consumedBy_append]
      simp [Event.consumedBy, Ne.symm hother]
    · intro hlast
      simp [hevents] at hlast

/-- The timeout of an actor changes. -/
theorem touch_data {s s' : State α} (h : Data s) {actor : ℕ} {a a' : Actor α}
    (ha : s.memory actor = some a) (hmem : s'.memory = Function.update s.memory actor (some a'))
    (hmailbox : a'.mailbox = a.mailbox) (hnext : s'.nextActorId = s.nextActorId)
    (hactors : s'.actors = s.actors) (hevents : s'.events = s.events) : Data s' := by
  refine h.update ha hmem hnext hactors ?_ ?_ ?_ ?_
  · rw [Boxed, hmailbox, State.sentTo, State.consumedBy, hevents]
    exact h.boxes actor a ha
  · intro other _
    rw [State.sentTo, hevents, State.sentTo]
  · intro other _
    rw [State.consumedBy, hevents, State.consumedBy]
  · intro hlast
    rw [hevents] at hlast
    rw [hmailbox]
    exact ⟨hlast, rfl⟩

/-- The memory stays, and nothing is sent or consumed. -/
theorem Data.of_memory {s s' : State α} (h : Data s) (hmem : s'.memory = s.memory)
    (hnext : s'.nextActorId = s.nextActorId) (hactors : s'.actors = s.actors)
    (hsent : ∀ actor, s'.sentTo actor = s.sentTo actor)
    (hconsumed : ∀ actor, s'.consumedBy actor = s.consumedBy actor)
    (hlast : s'.events.getLast? = some (.polled 0) → ∀ actor ∈ s.actors, s.pending actor = 0) :
    Data s' where
  boxes := by
    intro actor a ha
    rw [Boxed, hsent, hconsumed]
    exact h.boxes actor a (by rwa [hmem] at ha)
  fresh := by
    intro actor hactor
    rw [hmem, hsent, hconsumed]
    exact h.fresh actor (by rwa [hnext] at hactor)
  nodup := by
    rw [hactors]
    exact h.nodup
  registered := by
    rw [hactors, hmem]
    exact h.registered
  reported := by
    intro hpolled actor hactor
    rw [State.pending, hmem]
    exact hlast hpolled actor (by rwa [hactors] at hactor)

/-- Only the stack and the reply slots change. -/
theorem Data.congr {s s' : State α} (h : Data s) (hmem : s'.memory = s.memory)
    (hnext : s'.nextActorId = s.nextActorId) (hactors : s'.actors = s.actors)
    (hevents : s'.events = s.events) : Data s' := by
  refine h.of_memory hmem hnext hactors ?_ ?_ ?_
  · intro actor
    rw [State.sentTo, hevents, State.sentTo]
  · intro actor
    rw [State.consumedBy, hevents, State.consumedBy]
  · rw [hevents]
    exact h.reported

theorem polled_data {s s' : State α} (h : Data s) {total : ℕ} (hmem : s'.memory = s.memory)
    (hnext : s'.nextActorId = s.nextActorId) (hactors : s'.actors = s.actors)
    (hevents : s'.events = s.events ++ [.polled total])
    (hzero : total = 0 → ∀ actor ∈ s.actors, s.pending actor = 0) : Data s' := by
  refine h.of_memory hmem hnext hactors ?_ ?_ ?_
  · intro actor
    rw [State.sentTo, hevents, sentTo_append]
    simp [Event.sentTo]
  · intro actor
    rw [State.consumedBy, hevents, consumedBy_append]
    simp [Event.consumedBy]
  · intro hlast
    rw [hevents] at hlast
    exact hzero (by simpa using hlast)

theorem spawn_data [Inhabited α] {s : State α} (h : Data s) (timeoutNs : ℕ) :
    Data (s.spawn timeoutNs) := by
  obtain ⟨hnone, hsent, hconsumed⟩ := h.fresh s.nextActorId le_rfl
  have hmem : ∀ actor, actor ≠ s.nextActorId →
      (s.spawn timeoutNs).memory actor = s.memory actor :=
    fun actor hne => Function.update_of_ne hne _ _
  have hself : (s.spawn timeoutNs).memory s.nextActorId = some ⟨Mailbox.init, timeoutNs, 0⟩ :=
    Function.update_self _ _ _
  have hnew : s.nextActorId ∉ s.actors := by
    intro hmem
    have := h.registered _ hmem
    rw [hnone] at this
    cases this
  have hactors : ∀ actor, actor ∈ (s.spawn timeoutNs).actors →
      actor ∈ s.actors ∨ actor = s.nextActorId := by
    intro actor hactor
    simp only [State.spawn] at hactor
    split_ifs at hactor
    · simpa using hactor
    · exact .inl hactor
  refine ⟨?_, ?_, ?_, ?_, ?_⟩
  · intro actor a ha
    by_cases hne : actor = s.nextActorId
    · subst hne
      rw [hself] at ha
      cases ha
      exact ⟨[], Mailbox.init_holds, by
        rw [show (s.spawn timeoutNs).sentTo s.nextActorId = [] from hsent,
          show (s.spawn timeoutNs).consumedBy s.nextActorId = [] from hconsumed, List.append_nil]⟩
    · rw [hmem actor hne] at ha
      exact h.boxes actor a ha
  · intro actor hactor
    have hlt : s.nextActorId + 1 ≤ actor := hactor
    rw [hmem actor (by omega)]
    exact h.fresh actor (by omega)
  · simp only [State.spawn]
    split_ifs
    · exact List.nodup_append.mpr ⟨h.nodup, List.nodup_singleton _, by
        intro x hx y hy
        rw [List.mem_singleton] at hy
        rintro rfl
        exact hnew (hy ▸ hx)⟩
    · exact h.nodup
  · intro actor hactor
    by_cases hne : actor = s.nextActorId
    · rw [hne, hself]
      rfl
    · rw [hmem actor hne]
      exact h.registered actor ((hactors actor hactor).resolve_right hne)
  · intro hlast actor hactor
    by_cases hne : actor = s.nextActorId
    · rw [State.pending, hne, hself]
      rfl
    · rw [State.pending, hmem actor hne]
      exact h.reported hlast actor ((hactors actor hactor).resolve_right hne)

theorem mem_remove {actors : List ℕ} (h : actors.Nodup) (actor x : ℕ) :
    x ∈ remove actors actor ↔ x ∈ actors ∧ x ≠ actor := by
  rw [remove]
  cases hidx : actors.idxOf? actor with
  | none =>
    rw [List.idxOf?_eq_none_iff] at hidx
    constructor
    · intro hx
      refine ⟨hx, ?_⟩
      rintro rfl
      exact hidx hx
    · exact fun hx => hx.1
  | some i =>
    obtain ⟨hi, hget, -⟩ := List.idxOf?_eq_some_iff.mp hidx
    simp only
    rw [mem_swapRemoveAt h hi, hget]

theorem nodup_remove {actors : List ℕ} (h : actors.Nodup) (actor : ℕ) :
    (remove actors actor).Nodup := by
  rw [remove]
  cases hidx : actors.idxOf? actor with
  | none => exact h
  | some i =>
    obtain ⟨hi, -, -⟩ := List.idxOf?_eq_some_iff.mp hidx
    exact nodup_swapRemoveAt h hi

theorem released_data {s s' : State α} (h : Data s) {actor : ℕ} {a : Actor α}
    (ha : s.memory actor = some a) (hmem : s'.memory = Function.update s.memory actor none)
    (hnext : s'.nextActorId = s.nextActorId) (hactors : s'.actors = remove s.actors actor)
    (hevents : s'.events = s.events) : Data s' := by
  have hsent : ∀ actor, s'.sentTo actor = s.sentTo actor := by
    intro actor
    rw [State.sentTo, hevents, State.sentTo]
  have hconsumed : ∀ actor, s'.consumedBy actor = s.consumedBy actor := by
    intro actor
    rw [State.consumedBy, hevents, State.consumedBy]
  refine ⟨?_, ?_, ?_, ?_, ?_⟩
  · intro other b hb
    have hne : other ≠ actor := by
      rintro rfl
      rw [hmem, Function.update_self] at hb
      cases hb
    rw [hmem, Function.update_of_ne hne] at hb
    rw [Boxed, hsent, hconsumed]
    exact h.boxes other b hb
  · intro other hother
    rw [hnext] at hother
    have hne : other ≠ actor := by
      rintro rfl
      exact absurd (h.isSome_lt ha) (Nat.not_lt.mpr hother)
    rw [hmem, Function.update_of_ne hne, hsent, hconsumed]
    exact h.fresh other hother
  · rw [hactors]
    exact nodup_remove h.nodup actor
  · intro other hother
    rw [hactors] at hother
    obtain ⟨hreg, hne⟩ := (mem_remove h.nodup actor other).mp hother
    rw [hmem, Function.update_of_ne hne]
    exact h.registered other hreg
  · intro hlast other hother
    rw [hevents] at hlast
    rw [hactors] at hother
    obtain ⟨hreg, hne⟩ := (mem_remove h.nodup actor other).mp hother
    rw [State.pending, hmem, Function.update_of_ne hne]
    exact h.reported hlast other hreg

theorem release_data {s s' : State α} (h : Data s) {actor : ℕ} (hrel : s.release actor = some s') :
    Data s' ∧ s'.stack = s.stack := by
  rw [State.release] at hrel
  cases ha : s.memory actor with
  | none =>
    rw [ha] at hrel
    cases hrel
  | some a =>
    rw [ha] at hrel
    cases hrel
    exact ⟨released_data h ha rfl rfl rfl rfl, rfl⟩

/-! ### The stack -/

/-- A frame that has called another one: a poll round counts the step it has called. -/
def Frame.Busy : Frame → Prop
  | .poll _ _ _ .scan => False
  | .poll limit _ _ (.drain _ processed) => 0 < limit ∧ processed ≠ 0
  | .poll limit _ _ .timeout => 0 < limit
  | _ => True

/-- A frame that is about to go on: a poll round that has stepped nobody has seen empty mailboxes only. -/
def Frame.Ready (s : State α) : Frame → Prop
  | .poll limit i total .scan =>
    0 < limit ∧ (total = 0 → ∀ actor ∈ s.actors.take i, s.pending actor = 0)
  | .poll limit _ _ (.drain actor processed) => 0 < limit ∧ (processed = 0 → 0 < s.pending actor)
  | .poll limit _ _ .timeout => 0 < limit
  | _ => True

theorem Frame.Busy.ready {f : Frame} (h : f.Busy) (s : State α) : f.Ready s := by
  match f, h with
  | .step _, _ => trivial
  | .handler _, _ => trivial
  | .ask _ _, _ => trivial
  | .poll _ _ _ (.drain _ _), h => exact ⟨h.1, fun hzero => absurd hzero h.2⟩
  | .poll _ _ _ .timeout, h => exact h

structure Control (s : State α) : Prop where
  below : ∀ f ∈ s.stack.tail, f.Busy
  top : ∀ f ∈ s.stack.head?, f.Ready s

/-- A frame is called. -/
theorem Control.push {s : State α} {f : Frame} {rest : List Frame} (hstack : s.stack = f :: rest)
    (hbusy : ∀ g ∈ rest, g.Busy) (hready : f.Ready s) : Control s := by
  refine ⟨?_, ?_⟩
  · rw [hstack]
    exact hbusy
  · rw [hstack]
    rintro g ⟨rfl⟩
    exact hready

/-- A frame returns. -/
theorem Control.pop {s : State α} (hbusy : ∀ f ∈ s.stack, f.Busy) : Control s := by
  refine ⟨fun f hf => hbusy f (List.mem_of_mem_tail hf), ?_⟩
  intro f hf
  exact (hbusy f (List.mem_of_mem_head? hf)).ready s

/-- When the program is running every frame waits for another one. -/
theorem busy_of_inProgram {s : State α} (h : Control s) (hin : s.inProgram) :
    ∀ f ∈ s.stack, f.Busy := by
  rw [State.inProgram] at hin
  intro f hf
  match hstack : s.stack with
  | [] =>
    rw [hstack] at hf
    cases hf
  | .handler actor :: rest =>
    rw [hstack] at hf
    rcases List.mem_cons.mp hf with rfl | hf
    · trivial
    · exact h.below f (by rwa [hstack])
  | .step _ :: _ => simp [hstack] at hin
  | .poll _ _ _ _ :: _ => simp [hstack] at hin
  | .ask _ _ :: _ => simp [hstack] at hin

/-! ### Moves -/

structure Inv (s : State α) : Prop where
  data : Data s
  control : Control s

theorem program_inv [Inhabited α] {s s' : State α} (h : Inv s) (hin : s.inProgram) {mv : Move α}
    (hroom : HasRoom s mv) (hmove : programMove s mv = some s') : Inv s' := by
  have hbusy := busy_of_inProgram h.control hin
  have hsend : ∀ {actor msg t}, s.pending actor < Mailbox.size → s.mailboxSend actor msg = some t →
      Data t ∧ t.stack = s.stack := fun hroom => mailboxSend_data h.data hroom
  have hplain : ∀ {actor msg}, mv.target = some actor → s.mailboxSend actor msg = some s' → Inv s' := by
    intro actor msg htarget hs
    obtain ⟨hdata, hstack⟩ := hsend (hroom actor htarget) hs
    exact ⟨hdata, Control.pop (by rwa [hstack])⟩
  cases mv with
  | spawn timeoutNs =>
    cases hmove
    exact ⟨spawn_data h.data timeoutNs, Control.pop hbusy⟩
  | release actor =>
    obtain ⟨hdata, hstack⟩ := release_data h.data hmove
    exact ⟨hdata, Control.pop (by rwa [hstack])⟩
  | sendLocal actor msg => exact hplain rfl hmove
  | sendRemote actor msg fromCore => exact hplain rfl hmove
  | batchAdd actor msg => exact hplain rfl hmove
  | sendMessage actor msg =>
    obtain ⟨t, ht, rfl⟩ := Option.map_eq_some_iff.mp hmove
    obtain ⟨hdata, hstack⟩ := hsend (hroom actor rfl) ht
    refine ⟨hdata.congr rfl rfl rfl rfl, Control.push rfl ?_ trivial⟩
    rwa [hstack]
  | ask actor payload =>
    obtain ⟨t, ht, rfl⟩ := Option.map_eq_some_iff.mp hmove
    obtain ⟨hdata, hstack⟩ := hsend (hroom actor rfl) ht
    refine ⟨hdata.congr rfl rfl rfl rfl, Control.push rfl ?_ trivial⟩
    rwa [hstack]
  | reply =>
    rw [programMove] at hmove
    cases hslot : s.currentReplySlot with
    | none =>
      rw [hslot] at hmove
      cases hmove
      exact h
    | some slot =>
      rw [hslot] at hmove
      simp only [Option.ite_none_right_eq_some, Option.some.injEq] at hmove
      obtain ⟨-, rfl⟩ := hmove
      exact ⟨h.data.congr rfl rfl rfl rfl, Control.pop hbusy⟩
  | poll maxPerActor =>
    cases hmove
    refine ⟨h.data.congr rfl rfl rfl rfl, Control.push rfl hbusy ⟨?_, ?_⟩⟩
    · split_ifs <;> omega
    · simp
  | ret =>
    rw [programMove] at hmove
    split at hmove
    · next rest hstack =>
      cases hmove
      refine ⟨h.data.congr rfl rfl rfl rfl, Control.pop ?_⟩
      intro f hf
      exact hbusy f (by rw [hstack]; exact List.mem_cons_of_mem _ hf)
    · cases hmove
  | go now => cases hmove

theorem step_inv {s s' : State α} (h : Inv s) {now actor : ℕ} {rest : List Frame}
    (hstack : s.stack = .step actor :: rest) (hmove : stepMove s now actor rest = some s') :
    Inv s' := by
  have hbusy : ∀ f ∈ rest, f.Busy := by
    intro f hf
    exact h.control.below f (by rwa [hstack])
  rw [stepMove] at hmove
  cases ha : s.memory actor with
  | none =>
    rw [ha] at hmove
    cases hmove
  | some a =>
    rw [ha] at hmove
    simp only at hmove
    by_cases hfires :
        0 < a.timeoutNs ∧ 0 < a.lastActivityNs ∧ a.timeoutNs ≤ now - a.lastActivityNs
    · rw [if_pos hfires] at hmove
      cases hmove
      exact ⟨touch_data h.data ha rfl rfl rfl rfl rfl, Control.push rfl hbusy trivial⟩
    · rw [if_neg hfires] at hmove
      cases hreceive : a.mailbox.receive with
      | none =>
        rw [hreceive] at hmove
        cases hmove
        exact ⟨touch_data h.data ha rfl rfl rfl rfl rfl, Control.pop hbusy⟩
      | some received =>
        obtain ⟨msg, mailbox⟩ := received
        rw [hreceive] at hmove
        cases hmove
        exact ⟨consume_data h.data ha hreceive rfl rfl rfl rfl, Control.push rfl hbusy trivial⟩

theorem poll_inv {s s' : State α} (h : Inv s) {limit i total : ℕ} {phase : Phase}
    {rest : List Frame} (hstack : s.stack = .poll limit i total phase :: rest)
    (hmove : pollMove s limit i total rest phase = some s') : Inv s' := by
  have hbusy : ∀ f ∈ rest, f.Busy := by
    intro f hf
    exact h.control.below f (by rwa [hstack])
  have htop : (Frame.poll limit i total phase).Ready s :=
    h.control.top _ (by rw [hstack]; rfl)
  cases phase with
  | scan =>
    obtain ⟨hlimit, hseen⟩ := htop
    rw [pollMove] at hmove
    cases hactor : s.actors[i]? with
    | none =>
      rw [hactor] at hmove
      cases hmove
      refine ⟨polled_data h.data rfl rfl rfl rfl ?_, Control.pop hbusy⟩
      rwa [List.take_of_length_le (List.getElem?_eq_none_iff.mp hactor)] at hseen
    | some actor =>
      rw [hactor] at hmove
      simp only at hmove
      cases ha : s.memory actor with
      | none =>
        rw [ha] at hmove
        cases hmove
      | some a =>
        rw [ha] at hmove
        simp only at hmove
        split_ifs at hmove with hcount htimeout
        · cases hmove
          refine ⟨h.data.congr rfl rfl rfl rfl, Control.push rfl hbusy ⟨hlimit, fun _ => ?_⟩⟩
          rw [State.pending, ha]
          exact hcount
        · cases hmove
          refine ⟨h.data.congr rfl rfl rfl rfl, Control.push rfl ?_ trivial⟩
          rintro f (_ | ⟨_, hf⟩)
          · exact hlimit
          · exact hbusy f hf
        · cases hmove
          refine ⟨h.data.congr rfl rfl rfl rfl, Control.push rfl hbusy ⟨hlimit, ?_⟩⟩
          intro htotal other hother
          rw [List.take_add_one, hactor, List.mem_append] at hother
          rcases hother with hother | hother
          · exact hseen htotal other hother
          · obtain rfl : other = actor := by simpa using hother
            rw [State.pending, ha]
            exact Nat.eq_zero_of_not_pos hcount
  | drain actor processed =>
    obtain ⟨hlimit, hsome⟩ := htop
    rw [pollMove] at hmove
    cases ha : s.memory actor with
    | none =>
      rw [ha] at hmove
      cases hmove
    | some a =>
      rw [ha] at hmove
      rw [pending_of_memory ha] at hsome
      simp only at hmove
      split_ifs at hmove with hloop
      · cases hmove
        refine ⟨h.data.congr rfl rfl rfl rfl, Control.push rfl ?_ trivial⟩
        rintro f (_ | ⟨_, hf⟩)
        · exact ⟨hlimit, Nat.succ_ne_zero _⟩
        · exact hbusy f hf
      · cases hmove
        refine ⟨h.data.congr rfl rfl rfl rfl, Control.push rfl hbusy ⟨hlimit, ?_⟩⟩
        intro htotal
        omega
  | timeout =>
    cases hmove
    refine ⟨h.data.congr rfl rfl rfl rfl, Control.push rfl hbusy ⟨htop, ?_⟩⟩
    intro htotal
    omega

theorem ask_inv {s : State α} (h : Inv s) {slot maxRounds : ℕ} {rest : List Frame}
    (hstack : s.stack = .ask slot maxRounds :: rest) : Inv (askMove s slot maxRounds rest) := by
  have hbusy : ∀ f ∈ rest, f.Busy := by
    intro f hf
    exact h.control.below f (by rwa [hstack])
  rw [askMove]
  split_ifs
  · refine ⟨h.data.congr rfl rfl rfl rfl, Control.push rfl ?_ ⟨Nat.one_pos, by simp⟩⟩
    rintro f (_ | ⟨_, hf⟩)
    · trivial
    · exact hbusy f hf
  · exact ⟨h.data.congr rfl rfl rfl rfl, Control.pop hbusy⟩

theorem move_inv [Inhabited α] {s s' : State α} (h : Inv s) {mv : Move α} (hroom : HasRoom s mv)
    (hmove : move s mv = some s') : Inv s' := by
  rw [move.eq_def] at hmove
  split at hmove
  · next hstack => exact step_inv h hstack hmove
  · next hstack => exact poll_inv h hstack hmove
  · next hstack =>
    cases hmove
    exact ask_inv h hstack
  · split_ifs at hmove with hin
    exact program_inv h hin hroom hmove

theorem init_inv : Inv (init : State α) where
  data :=
    { boxes := fun _ _ ha => by cases ha
      fresh := fun _ _ => ⟨rfl, rfl, rfl⟩
      nodup := List.nodup_nil
      registered := fun _ hactor => by cases hactor
      reported := fun hlast => by cases hlast }
  control := Control.pop (fun _ hf => by cases hf)

theorem reached_inv [Inhabited α] {s : State α} (h : Reached s) : Inv s := by
  induction h with
  | init => exact init_inv
  | step mv _ hroom hmove ih => exact move_inv ih hroom hmove

/-- `main` spawns an actor, sends it 33 messages and polls until nothing is processed. -/
def burst : List (Move ℕ) :=
  .spawn 0 :: (List.range 33).map (fun i => .sendLocal 0 ⟨i, none⟩) ++
    .poll 0 :: .go 0 :: (List.replicate 32 [Move.go 0, .go 0, .ret]).flatten ++
    [.go 0, .go 0, .poll 0, .go 0, .go 0]

end Coop

end Qjs
