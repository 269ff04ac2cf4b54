import Qjs.ConnPool

namespace Qjs

namespace Http

namespace Pool

variable {tls : Bool} {s s' : State}

/-! ### One changed worker -/

theorem sum_update {M : Type*} [AddCommMonoid M] (g : Worker → M) (ws : Workers)
    (w : Fin poolWorkers) (x : Worker) :
    g (ws w) + ∑ v, g (Function.update ws w x v) = g x + ∑ v, g (ws v) := by
  have hrest : ∑ v ∈ Finset.univ.erase w, g (Function.update ws w x v) =
      ∑ v ∈ Finset.univ.erase w, g (ws v) :=
    Finset.sum_congr rfl fun v hv => by rw [Function.update_of_ne (Finset.ne_of_mem_erase hv)]
  rw [← Finset.add_sum_erase _ _ (Finset.mem_univ w), hrest, Function.update_self,
    ← Finset.add_sum_erase _ (fun v => g (ws v)) (Finset.mem_univ w), add_left_comm]

/-- Workers between which `g` sees no difference. -/
theorem sum_update_of_eq {M : Type*} [AddCommMonoid M] [IsLeftCancelAdd M] (g : Worker → M)
    (ws : Workers) (w : Fin poolWorkers) (x : Worker) (h : g x = g (ws w)) :
    ∑ v, g (Function.update ws w x v) = ∑ v, g (ws v) := by
  have hsum := sum_update g ws w x
  rw [h] at hsum
  exact add_left_cancel hsum

theorem sum_signal {M : Type*} [AddCommMonoid M] [IsLeftCancelAdd M] (g : Worker → M)
    (hg : g .ready = g .waiting) {ws ws' : Workers} (h : SignalNotEmpty ws ws') :
    ∑ v, g (ws' v) = ∑ v, g (ws v) := by
  obtain ⟨rfl, -⟩ | ⟨w, hw, rfl⟩ := h
  · rfl
  · exact sum_update_of_eq g ws w .ready (by rw [hw, hg])

theorem sum_wakeAll {M : Type*} [AddCommMonoid M] (g : Worker → M) (hg : g .ready = g .waiting)
    (ws : Workers) : ∑ v, g (wakeAll ws v) = ∑ v, g (ws v) := by
  refine Finset.sum_congr rfl fun v _ => ?_
  rw [wakeAll]
  split_ifs with hwait
  · rw [hwait, hg]
  · rfl

/-! ### What a turn with the lock does -/

theorem poolSubmit_wait {pool : ConnectionPool} {c : Client} (h : poolSubmit pool c = .wait) :
    poolQueueCap ≤ pool.count ∧ pool.shutdown = false := by
  rw [poolSubmit] at h
  split_ifs at h with hfull
  exact hfull

theorem poolSubmit_refuse {pool : ConnectionPool} {c : Client}
    (h : poolSubmit pool c = .refuse) : pool.shutdown = true := by
  rw [poolSubmit] at h
  split_ifs at h with hfull hdown
  exact hdown

theorem poolSubmit_put {pool pool' : ConnectionPool} {c : Client}
    (h : poolSubmit pool c = .put pool') :
    pool.count < poolQueueCap ∧ pool.shutdown = false ∧
      pool' = { pool with
        queue := Function.update pool.queue pool.tail c
        tail := (pool.tail + 1) % poolQueueCap
        count := pool.count + 1 } := by
  rw [poolSubmit] at h
  split_ifs at h with hfull hdown
  · rw [Bool.not_eq_true] at hdown
    refine ⟨?_, hdown, (SubmitTurn.put.inj h).symm⟩
    by_contra hcap
    exact hfull ⟨not_lt.1 hcap, hdown⟩

theorem poolWorker_wait {pool : ConnectionPool} (h : poolWorker pool = .wait) :
    pool.count = 0 ∧ pool.shutdown = false := by
  rw [poolWorker] at h
  split_ifs at h with hwait
  exact hwait

theorem poolWorker_leave {pool : ConnectionPool} (h : poolWorker pool = .leave) :
    pool.shutdown = true ∧ pool.count = 0 := by
  rw [poolWorker] at h
  split_ifs at h with hwait hleave
  exact hleave

theorem poolWorker_take {pool pool' : ConnectionPool} {c : Client}
    (h : poolWorker pool = .take c pool') :
    0 < pool.count ∧ c = pool.queue pool.head ∧
      pool' = { pool with head := (pool.head + 1) % poolQueueCap, count := pool.count - 1 } := by
  rw [poolWorker] at h
  split_ifs at h with hwait hleave
  obtain ⟨hc, hpool⟩ := WorkerTurn.take.inj h
  refine ⟨Nat.pos_of_ne_zero fun hzero => ?_, hc.symm, hpool.symm⟩
  rcases hdown : pool.shutdown with _ | _
  · exact hwait ⟨hzero, hdown⟩
  · exact hleave ⟨hdown, hzero⟩

/-! ### The ring -/

theorem RingOk.put {pending : List Client} (h : RingOk s pending) {c : Client}
    {pool : ConnectionPool} (hput : poolSubmit s.pool c = .put pool) (ws : Workers)
    (subs : Submitters) :
    RingOk { s with pool := pool, workers := ws, submitting := subs, enqueued := s.enqueued ++ [c] }
      (pending ++ [c]) := by
  obtain ⟨hroom, -, rfl⟩ := poolSubmit_put hput
  have hcount := h.count
  have htail := h.tail
  rw [hcount] at htail
  refine ⟨?_, ?_, ?_, ?_, h.head_lt, hroom⟩
  · rw [h.fifo, List.append_assoc]
  · dsimp only
    rw [htail]
    exact (h.holds.update c le_rfl (by omega)).snoc (Function.update_self _ _ _)
  · dsimp only
    rw [hcount, List.length_append, List.length_singleton]
  · dsimp only
    rw [htail, hcount, Nat.mod_add_mod]
    rfl

theorem RingOk.take {pending : List Client} (h : RingOk s pending) {c : Client}
    {pool : ConnectionPool} (htake : poolWorker s.pool = .take c pool) (ws : Workers)
    (subs : Submitters) :
    ∃ rest, pending = c :: rest ∧
      RingOk { s with
        pool := pool, workers := ws, submitting := subs, dequeued := s.dequeued ++ [c] } rest := by
  obtain ⟨hpos, rfl, rfl⟩ := poolWorker_take htake
  have hcount := h.count
  have hhead := h.head_lt
  rcases pending with _ | ⟨first, rest⟩
  · rw [hcount] at hpos
    exact absurd hpos (by simp)
  · rw [List.length_cons] at hcount
    have hfirst : s.pool.queue s.pool.head = first := by
      have hslot := h.holds 0 (Nat.succ_pos _)
      rwa [Nat.add_zero, Nat.mod_eq_of_lt hhead] at hslot
    refine ⟨rest, by rw [hfirst], ?_, ?_, ?_, ?_, Nat.mod_lt _ (by decide), ?_⟩
    · rw [hfirst, List.append_assoc]
      exact h.fifo
    · intro i hi
      dsimp only
      rw [Nat.mod_add_mod]
      exact h.holds.drop 1 i hi
    · dsimp only
      omega
    · dsimp only
      rw [h.tail, Nat.mod_add_mod, hcount]
      congr 1
      omega
    · have := h.count_le
      dsimp only
      omega

theorem ring_step {pending : List Client} (h : RingOk s pending) (hstep : Step tls s s') :
    ∃ pending', RingOk s' pending' := by
  cases hstep with
  | submitPut _ hput _ => exact ⟨_, h.put hput _ _⟩
  | workerTake _ htake _ =>
    obtain ⟨rest, -, hrest⟩ := h.take htake _ _
    exact ⟨rest, hrest⟩
  | _ => exact ⟨pending, h.fifo, h.holds, h.count, h.tail, h.head_lt, h.count_le⟩

/-! ### The clients -/

theorem signalNotFull_clients {subs subs' : Submitters} (h : SignalNotFull subs subs') :
    subs'.map Prod.fst = subs.map Prod.fst := by
  obtain ⟨rfl, -⟩ | ⟨front, back, c, rfl, rfl⟩ := h
  · rfl
  · rw [List.map_append, List.map_append, List.map_cons, List.map_cons]

theorem coe_snoc (xs : List Client) (c : Client) :
    ((xs ++ [c] : List Client) : Multiset Client) = xs + {c} := rfl

theorem clients_of_middle (front back : Submitters) (c : Client) (b : Bool) :
    (((front ++ (c, b) :: back).map Prod.fst : List Client) : Multiset Client) =
      ((front ++ back).map Prod.fst : List Client) + {c} := by
  rw [List.map_append, List.map_append, List.map_cons, ← Multiset.coe_add, ← Multiset.cons_coe,
    ← Multiset.coe_add, ← Multiset.singleton_add]
  abel

/-- A drain step closes the client or leaves it unclosed. -/
theorem drain_unclosed (tls accepted : Bool) (c : Client) (p : Phase) :
    (Worker.handling c p).unclosed =
      ((if (drainStep tls accepted p).closes then [c] else [] : List Client) : Multiset Client) +
        (afterDrain c (drainStep tls accepted p).next).unclosed := by
  cases p with
  | called => rfl
  | counted => rcases tls with _ | _ <;> rcases accepted with _ | _ <;> rfl
  | serving => rfl
  | closed => rfl

theorem clients_step (h : ClientsOk s) (hstep : Step tls s s') : ClientsOk s' := by
  obtain ⟨honce, hclosed⟩ := h
  cases hstep with
  | call =>
    refine ⟨?_, hclosed⟩
    dsimp only
    rw [Multiset.range_succ, ← honce, List.map_append, List.map_singleton, coe_snoc,
      ← Multiset.singleton_add]
    abel
  | submitWait hsub _ =>
    refine ⟨?_, hclosed⟩
    rw [hsub, clients_of_middle] at honce
    dsimp only
    rw [clients_of_middle]
    exact honce
  | submitRefuse hsub _ =>
    rw [hsub, clients_of_middle] at honce
    refine ⟨?_, ?_⟩
    · dsimp only
      rw [coe_snoc, ← honce]
      abel
    · dsimp only
      rw [coe_snoc, coe_snoc, add_right_comm, hclosed]
      abel
  | submitPut hsub _ hsignal =>
    rw [hsub, clients_of_middle] at honce
    refine ⟨?_, ?_⟩
    · dsimp only
      rw [coe_snoc, ← honce]
      abel
    · dsimp only
      rw [sum_signal Worker.unclosed rfl hsignal]
      exact hclosed
  | workerWait hw _ =>
    refine ⟨honce, ?_⟩
    dsimp only
    rw [sum_update_of_eq Worker.unclosed s.workers _ _ (by rw [hw]; rfl)]
    exact hclosed
  | workerLeave hw _ =>
    refine ⟨honce, ?_⟩
    dsimp only
    rw [sum_update_of_eq Worker.unclosed s.workers _ _ (by rw [hw]; rfl)]
    exact hclosed
  | @workerTake w c pool subs hw htake hsignal =>
    refine ⟨?_, ?_⟩
    · dsimp only
      rw [signalNotFull_clients hsignal]
      exact honce
    · have hsum := sum_update Worker.unclosed s.workers w (.handling c .called)
      have hready : Worker.ready.unclosed = 0 := rfl
      have hhandling : (Worker.handling c .called).unclosed = {c} := rfl
      rw [hw, hready, hhandling, zero_add] at hsum
      dsimp only
      rw [hsum, coe_snoc, add_left_comm, hclosed]
      abel
  | @drain w c p accepted hw =>
    refine ⟨honce, ?_⟩
    have hsum := sum_update Worker.unclosed s.workers w
      (afterDrain c (drainStep tls accepted p).next)
    rw [hw, drain_unclosed tls accepted, add_comm _ (Worker.unclosed _), add_assoc] at hsum
    dsimp only
    rw [← hclosed, ← Multiset.coe_add, add_assoc, add_left_cancel hsum]
  | destroy =>
    refine ⟨?_, ?_⟩
    · dsimp only
      rw [List.map_map]
      exact honce
    · dsimp only
      rw [sum_wakeAll Worker.unclosed rfl]
      exact hclosed
  | wakeWorker hw =>
    refine ⟨honce, ?_⟩
    dsimp only
    rw [sum_update_of_eq Worker.unclosed s.workers _ _ (by rw [hw]; rfl)]
    exact hclosed
  | wakeSubmitter hsub =>
    refine ⟨?_, hclosed⟩
    rw [hsub, clients_of_middle] at honce
    dsimp only
    rw [clients_of_middle]
    exact honce

/-! ### The counter -/

/-- A drain step moves the counter and the activations alike, unless its handshake fails. -/
theorem drain_active (tls accepted : Bool) (c : Client) (p : Phase) :
    (afterDrain c (drainStep tls accepted p).next).active +
        (if handshakeFails tls accepted p then 1 else 0 : ℕ) =
      (Worker.handling c p).active + (drainStep tls accepted p).inflight := by
  cases p with
  | called => rcases tls with _ | _ <;> rcases accepted with _ | _ <;> rfl
  | counted => rcases tls with _ | _ <;> rcases accepted with _ | _ <;> rfl
  | serving => rcases tls with _ | _ <;> rcases accepted with _ | _ <;> rfl
  | closed => rcases tls with _ | _ <;> rcases accepted with _ | _ <;> rfl

/-- The counter has the activations in progress and every handshake that failed. -/
theorem inflight_step (h : s.inflight = s.inProgress + s.failures) (hstep : Step tls s s') :
    s'.inflight = s'.inProgress + s'.failures := by
  rw [State.inProgress] at h ⊢
  cases hstep with
  | submitPut _ _ hsignal =>
    dsimp only
    rw [sum_signal Worker.active rfl hsignal]
    exact h
  | workerWait hw _ =>
    dsimp only
    rw [sum_update_of_eq Worker.active s.workers _ _ (by rw [hw]; rfl)]
    exact h
  | workerLeave hw _ =>
    dsimp only
    rw [sum_update_of_eq Worker.active s.workers _ _ (by rw [hw]; rfl)]
    exact h
  | workerTake hw _ _ =>
    dsimp only
    rw [sum_update_of_eq Worker.active s.workers _ _ (by rw [hw]; rfl)]
    exact h
  | @drain w c p accepted hw =>
    have hsum := sum_update Worker.active s.workers w
      (afterDrain c (drainStep tls accepted p).next)
    have hactive := drain_active tls accepted c p
    rw [hw] at hsum
    dsimp only
    push_cast at hactive ⊢
    rw [h]
    linarith
  | destroy =>
    dsimp only
    rw [sum_wakeAll Worker.active rfl]
    exact h
  | wakeWorker hw =>
    dsimp only
    rw [sum_update_of_eq Worker.active s.workers _ _ (by rw [hw]; rfl)]
    exact h
  | _ => exact h

/-! ### Waiting -/

/-- No signal is lost: while the queue has clients some worker is not waiting, and while a submit
waits the queue and the submits that do not wait fill it. -/
structure Waits (pool : ConnectionPool) (ws : Workers) (subs : Submitters) : Prop where
  busy : 0 < pool.count → ∃ w, ws w = .ready ∨ ∃ c p, ws w = .handling c p
  awake : pool.shutdown = true → (∀ w, ws w ≠ .waiting) ∧ ∀ sub ∈ subs, sub.2 = false
  full : (∃ sub ∈ subs, sub.2 = true) →
    poolQueueCap ≤ pool.count + subs.countP fun sub => !sub.2
  left : ∀ w, ws w = .exited → pool.shutdown = true ∧ pool.count = 0

variable {pool pool' : ConnectionPool} {ws ws' : Workers} {subs subs' : Submitters}

/-- A worker that goes on. -/
theorem Waits.go (h : Waits pool ws subs) (w : Fin poolWorkers) {x : Worker}
    (hx : x = .ready ∨ ∃ c p, x = .handling c p) :
    Waits pool (Function.update ws w x) subs where
  busy _ := ⟨w, by rwa [Function.update_self]⟩
  awake hdown := by
    refine ⟨fun v hv => ?_, (h.awake hdown).2⟩
    rcases eq_or_ne v w with rfl | hne
    · rw [Function.update_self] at hv
      rcases hx with rfl | ⟨c, p, rfl⟩ <;> cases hv
    · rw [Function.update_of_ne hne] at hv
      exact (h.awake hdown).1 v hv
  full := h.full
  left v hv := by
    rcases eq_or_ne v w with rfl | hne
    · rw [Function.update_self] at hv
      rcases hx with rfl | ⟨c, p, rfl⟩ <;> cases hv
    · rw [Function.update_of_ne hne] at hv
      exact h.left v hv

theorem Waits.go_of_signal (h : Waits pool ws subs) (hsignal : SignalNotEmpty ws ws') :
    Waits pool ws' subs := by
  obtain ⟨rfl, -⟩ | ⟨w, -, rfl⟩ := hsignal
  · exact h
  · exact h.go w (.inl rfl)

/-- After a signal on `not_empty` some worker is awake, unless all have left. -/
theorem exists_awake (hsignal : SignalNotEmpty ws ws') (hleft : ∀ w, ws w ≠ .exited) :
    ∃ w, ws' w = .ready ∨ ∃ c p, ws' w = .handling c p := by
  obtain ⟨rfl, hnone⟩ | ⟨w, -, rfl⟩ := hsignal
  · refine ⟨⟨0, by decide⟩, ?_⟩
    have hwait := hnone ⟨0, by decide⟩
    have hexit := hleft ⟨0, by decide⟩
    rcases hw : ws' ⟨0, by decide⟩ with _ | _ | ⟨c, p⟩ | _
    · exact .inl rfl
    · exact absurd hw hwait
    · exact .inr ⟨c, p, rfl⟩
    · exact absurd hw hexit
  · exact ⟨w, .inl (Function.update_self _ _ _)⟩

theorem mem_middle {front back : Submitters} {sub new : Client × Bool}
    (h : sub ∈ front ++ back) : sub ∈ front ++ new :: back := by
  rcases List.mem_append.1 h with hfront | hback
  · exact List.mem_append_left _ hfront
  · exact List.mem_append_right _ (List.mem_cons_of_mem _ hback)

theorem countP_middle (front back : Submitters) (new : Client × Bool) :
    (front ++ new :: back).countP (fun sub => !sub.2) =
      (front ++ back).countP (fun sub => !sub.2) + if new.2 then 0 else 1 := by
  rw [List.countP_append, List.countP_append, List.countP_cons]
  rcases new.2 with _ | _
  · simp
    omega
  · simp

/-- A submit that stops waiting. -/
theorem Waits.wake {front back : Submitters} {c : Client}
    (h : Waits pool ws (front ++ (c, true) :: back)) :
    Waits pool ws (front ++ (c, false) :: back) where
  busy := h.busy
  awake hdown := absurd ((h.awake hdown).2 (c, true) (by simp)) (by simp)
  full _ := by
    have hfull := h.full ⟨(c, true), by simp⟩
    rw [countP_middle] at hfull ⊢
    simp only [if_true] at hfull
    omega
  left := h.left

theorem waits_step (h : Waits s.pool s.workers s.submitting) (hstep : Step tls s s') :
    Waits s'.pool s'.workers s'.submitting := by
  cases hstep with
  | call =>
    refine ⟨h.busy, fun hdown => ⟨(h.awake hdown).1, fun sub hsub => ?_⟩, ?_, h.left⟩
    · rcases List.mem_append.1 hsub with hold | hnew
      · exact (h.awake hdown).2 sub hold
      · rw [List.mem_singleton.1 hnew]
    · rintro ⟨sub, hsub, hwait⟩
      dsimp only at hsub ⊢
      rw [List.countP_append]
      rcases List.mem_append.1 hsub with hold | hnew
      · have hfull := h.full ⟨sub, hold, hwait⟩
        omega
      · rw [List.mem_singleton.1 hnew] at hwait
        cases hwait
  | submitWait hsub hwait =>
    obtain ⟨hcap, hup⟩ := poolSubmit_wait hwait
    refine ⟨h.busy, fun hdown => ?_, fun _ => Nat.le_add_right_of_le hcap, h.left⟩
    rw [hup] at hdown
    cases hdown
  | submitRefuse hsub hrefuse =>
    obtain ⟨hworkers, hsubs⟩ := h.awake (poolSubmit_refuse hrefuse)
    rw [hsub] at hsubs
    refine ⟨h.busy, fun _ => ⟨hworkers, fun sub hmem => hsubs sub (mem_middle hmem)⟩, ?_, h.left⟩
    rintro ⟨sub, hmem, hwait⟩
    rw [hsubs sub (mem_middle hmem)] at hwait
    cases hwait
  | submitPut hsub hput hsignal =>
    obtain ⟨hroom, hup, rfl⟩ := poolSubmit_put hput
    have hleft : ∀ w, s.workers w ≠ .exited := fun w hw => by
      have hdown := (h.left w hw).1
      rw [hup] at hdown
      cases hdown
    have hsig := h.go_of_signal hsignal
    refine ⟨fun _ => exists_awake hsignal hleft, fun hdown => ?_, ?_, fun w hw => ?_⟩
    · dsimp only at hdown
      rw [hup] at hdown
      cases hdown
    · rintro ⟨sub, hmem, hwait⟩
      have hfull := h.full ⟨sub, hsub ▸ mem_middle hmem, hwait⟩
      rw [hsub, countP_middle] at hfull
      dsimp only at hfull ⊢
      simp only [Bool.false_eq_true, if_false] at hfull
      omega
    · have hdown := (hsig.left w hw).1
      rw [hup] at hdown
      cases hdown
  | @workerWait w hw hwait =>
    obtain ⟨hzero, hup⟩ := poolWorker_wait hwait
    refine ⟨fun hpos => ?_, fun hdown => ?_, h.full, fun v hv => ?_⟩
    · rw [hzero] at hpos
      cases hpos
    · rw [hup] at hdown
      cases hdown
    · dsimp only at hv
      rcases eq_or_ne v w with rfl | hne
      · rw [Function.update_self] at hv
        cases hv
      · rw [Function.update_of_ne hne] at hv
        exact h.left v hv
  | @workerLeave w hw hleave =>
    obtain ⟨hdown, hzero⟩ := poolWorker_leave hleave
    refine ⟨fun hpos => ?_, fun _ => ⟨fun v hv => ?_, (h.awake hdown).2⟩, h.full,
      fun _ _ => ⟨hdown, hzero⟩⟩
    · rw [hzero] at hpos
      cases hpos
    · dsimp only at hv
      rcases eq_or_ne v w with rfl | hne
      · rw [Function.update_self] at hv
        cases hv
      · rw [Function.update_of_ne hne] at hv
        exact (h.awake hdown).1 v hv
  | @workerTake w c pool subs hw htake hsignal =>
    obtain ⟨hpos, -, rfl⟩ := poolWorker_take htake
    have hgo := h.go w (.inr ⟨c, .called, rfl⟩)
    refine ⟨fun _ => ⟨w, .inr ⟨c, .called, Function.update_self _ _ _⟩⟩, fun hdown => ?_, ?_,
      fun v hv => ?_⟩
    · refine ⟨(hgo.awake hdown).1, ?_⟩
      obtain ⟨rfl, -⟩ | ⟨front, back, d, hsubs, -⟩ := hsignal
      · exact (h.awake hdown).2
      · have hbad := (h.awake hdown).2 (d, true) (by rw [hsubs]; simp)
        cases hbad
    · rintro ⟨sub, hmem, hwait⟩
      obtain ⟨rfl, hnone⟩ | ⟨front, back, d, hsubs, rfl⟩ := hsignal
      · rw [hnone sub hmem] at hwait
        cases hwait
      · have hfull := h.full ⟨(d, true), by rw [hsubs]; simp, rfl⟩
        rw [hsubs, countP_middle] at hfull
        dsimp only at hfull ⊢
        rw [countP_middle]
        simp only [if_true, Bool.false_eq_true, if_false] at hfull ⊢
        omega
    · have hzero := (hgo.left v hv).2
      omega
  | @drain w c p accepted hw =>
    refine h.go w ?_
    rcases (drainStep tls accepted p).next with _ | p'
    · exact .inl rfl
    · exact .inr ⟨c, p', rfl⟩
  | destroy =>
    refine ⟨fun hpos => ?_, fun _ => ⟨fun w hw => ?_, fun sub hsub => ?_⟩, ?_, fun w hw => ?_⟩
    · obtain ⟨w, hw⟩ := h.busy hpos
      refine ⟨w, ?_⟩
      have hne : s.workers w ≠ .waiting := by
        rcases hw with hw | ⟨c, p, hw⟩ <;> rw [hw] <;> nofun
      dsimp only
      rwa [wakeAll, if_neg hne]
    · dsimp only at hw
      rw [wakeAll] at hw
      split_ifs at hw with hwait
      exact hwait hw
    · obtain ⟨old, -, rfl⟩ := List.mem_map.1 hsub
      rfl
    · rintro ⟨sub, hsub, hwait⟩
      obtain ⟨old, -, rfl⟩ := List.mem_map.1 hsub
      cases hwait
    · dsimp only at hw
      rw [wakeAll] at hw
      split_ifs at hw
      exact ⟨rfl, (h.left w hw).2⟩
  | wakeWorker hw => exact h.go _ (.inl rfl)
  | wakeSubmitter hsub => exact (hsub ▸ h).wake

/-! ### Graceful shutdown -/

/-- The turns are as many as the loop can take. -/
theorem shutdownLoop_turns (readings : ℕ → ℤ) (timeoutMs turns turn waited sleepUs more : ℕ)
    (hturns : timeoutMs ≤ waited + turns) (hsleep : 1000 ≤ sleepUs) :
    shutdownLoop readings timeoutMs (turns + more) turn waited sleepUs =
      shutdownLoop readings timeoutMs turns turn waited sleepUs := by
  induction turns generalizing turn waited sleepUs with
  | zero =>
    cases more with
    | zero => rfl
    | succ more =>
      rw [Nat.zero_add, shutdownLoop, shutdownLoop, if_neg (by omega)]
  | succ turns ih =>
    have hwait : 1 ≤ sleepUs / 1000 := by omega
    rw [Nat.succ_add, shutdownLoop, shutdownLoop]
    split_ifs
    · rfl
    · exact ih _ _ _ (by omega) (by omega)
    · exact ih _ _ _ (by omega) hsleep
    · rfl

theorem shutdownLoop_pos {k : ℤ} (hk : 0 < k) (timeoutMs turns turn waited sleepUs : ℕ) :
    shutdownLoop (fun _ => k) timeoutMs turns turn waited sleepUs = false := by
  induction turns generalizing turn waited sleepUs with
  | zero => rfl
  | succ turns ih =>
    rw [shutdownLoop, if_neg (not_le.2 hk), ih]
    split_ifs <;> rfl

/-- With the counter at rest the shutdown sees all connections ended if it is not above 0. -/
theorem shutdownGraceful_const (k timeoutMs : ℤ) :
    shutdownGraceful (fun _ => k) timeoutMs = true ↔ k ≤ 0 := by
  rw [shutdownGraceful]
  have hpos : 0 < if timeoutMs ≤ 0 then 5000 else timeoutMs.toNat := by split_ifs <;> omega
  generalize (if timeoutMs ≤ 0 then 5000 else timeoutMs.toNat) = limit at hpos
  rcases limit with _ | limit
  · cases hpos
  · rcases lt_or_ge 0 k with hk | hk
    · rw [shutdownLoop_pos hk]
      exact iff_of_false Bool.false_ne_true (not_le.2 hk)
    · rw [shutdownLoop, if_pos hpos, if_pos hk]
      exact iff_of_true rfl hk

/-! ### Runs -/

theorem Reachable.ring (h : Reachable tls s) : ∃ pending, RingOk s pending := by
  induction h with
  | start => exact ⟨[], rfl, RingSlots.holds_nil, rfl, rfl, by decide, Nat.zero_le _⟩
  | step _ hstep ih =>
    obtain ⟨pending, hring⟩ := ih
    exact ring_step hring hstep

theorem Reachable.clients (h : Reachable tls s) : ClientsOk s := by
  induction h with
  | start => exact ⟨rfl, rfl⟩
  | step _ hstep ih => exact clients_step ih hstep

theorem Reachable.inflight (h : Reachable tls s) : s.inflight = s.inProgress + s.failures := by
  induction h with
  | start => rfl
  | step _ hstep ih => exact inflight_step ih hstep

theorem Reachable.waits (h : Reachable tls s) : Waits s.pool s.workers s.submitting := by
  induction h with
  | start => exact ⟨nofun, nofun, by simp [Pool.start], nofun⟩
  | step _ hstep ih => exact waits_step ih hstep

/-- What came in and what was closed are parts of the clients, each there once. -/
theorem ClientsOk.nodup {pending : List Client} (h : ClientsOk s) (hring : RingOk s pending) :
    s.enqueued.Nodup ∧ s.closes.Nodup := by
  have hrange := Multiset.nodup_range s.submitted
  rw [← h.once] at hrange
  have hin : (s.refused : Multiset Client) + s.enqueued ≤
      (s.submitting.map Prod.fst : List Client) + s.enqueued + s.refused := by
    rw [add_assoc, add_comm (s.refused : Multiset Client)]
    exact Multiset.le_add_left _ _
  have hout : (s.closes : Multiset Client) ≤ s.refused + s.enqueued := by
    refine (Multiset.le_add_right _ (∑ w, (s.workers w).unclosed)).trans ?_
    rw [h.closed, hring.fifo, ← Multiset.coe_add]
    exact add_le_add_right (Multiset.le_add_right _ _) _
  exact ⟨Multiset.coe_nodup.1 (Multiset.nodup_of_le ((Multiset.le_add_left _ _).trans hin) hrange),
    Multiset.coe_nodup.1 (Multiset.nodup_of_le (hout.trans hin) hrange)⟩

/-- When no thread can go on, every client has been closed, once. -/
theorem Reachable.closed_of_rest (h : Reachable tls s) (hrest : AtRest s) :
    (s.closes : Multiset Client) = Multiset.range s.submitted := by
  obtain ⟨hworkers, hsubs⟩ := hrest
  obtain ⟨pending, hring⟩ := h.ring
  have hwaits := h.waits
  have hzero : s.pool.count = 0 := by
    by_contra hne
    obtain ⟨w, hw⟩ := hwaits.busy (Nat.pos_of_ne_zero hne)
    rcases hw with hw | ⟨c, p, hw⟩ <;> rcases hworkers w with hw' | hw' <;> rw [hw] at hw' <;>
      cases hw'
  have hnone : s.submitting = [] := by
    by_contra hne
    obtain ⟨sub, hmem⟩ := List.exists_mem_of_ne_nil _ hne
    have hfull := hwaits.full ⟨sub, hmem, hsubs sub hmem⟩
    have hcount : s.submitting.countP (fun sub => !sub.2) = 0 :=
      List.countP_eq_zero.2 fun sub hsub => by rw [hsubs sub hsub]; simp
    rw [hzero, hcount] at hfull
    exact absurd hfull (by decide)
  have hpending : pending = [] := List.length_eq_zero_iff.1 (hring.count.symm.trans hzero)
  have hunclosed : ∑ w, (s.workers w).unclosed = 0 := by
    refine Finset.sum_eq_zero fun w _ => ?_
    rcases hworkers w with hw | hw <;> rw [hw] <;> rfl
  obtain ⟨honce, hclosed⟩ := h.clients
  rw [hunclosed, add_zero] at hclosed
  rw [hnone] at honce
  rw [hclosed, ← honce, hring.fifo, hpending, List.append_nil, add_comm]
  exact (zero_add _).symm

end Pool

end Http

end Qjs
