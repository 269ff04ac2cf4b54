import Qjs.HttpConn
import Qjs.Proofs.Http

/-!
# The connection carves the requests of the stream

A turn of a loop takes a piece of the stream, or goes on to the next phase, and what has arrived and
what is still to come is what is left of the stream (`step_spec`). So every run ends with the
requests of the stream, within the buffer, wherever `recv` cuts (`frames_of_clean`).
-/

namespace Qjs

namespace Http

open FirstMatch

/-! ### The buffer -/

/-- A buffer that starts with what is unread. -/
def HttpConn.front (u post : Str) : HttpConn := ⟨u ++ post, 0, u.length⟩

@[simp] theorem unread_front (u post : Str) : (HttpConn.front u post).unread = u := by
  simp [HttpConn.front, HttpConn.unread]

@[simp] theorem bufCap_front (u post : Str) :
    (HttpConn.front u post).bufCap = u.length + post.length := by
  simp [HttpConn.front, HttpConn.bufCap]

@[simp] theorem readPos_front (u post : Str) : (HttpConn.front u post).readPos = 0 := rfl

@[simp] theorem writePos_front (u post : Str) : (HttpConn.front u post).writePos = u.length := rfl

theorem takeWhile_append_zero (u post : Str) :
    (u ++ 0 :: post).takeWhile (· != 0) = u.takeWhile (· != 0) := by
  induction u with
  | nil => rfl
  | cons c u ih => rw [List.cons_append, List.takeWhile_cons, List.takeWhile_cons, ih]

@[simp] theorem string_front (u post : Str) :
    (HttpConn.front u (0 :: post)).string = u.takeWhile (· != 0) :=
  takeWhile_append_zero u post

theorem terminate_front (u : Str) (c : UInt8) (post : Str) :
    terminate (.front u (c :: post)) = some (.front u (0 :: post)) := by
  rw [terminate, if_pos (by simp)]
  simp [HttpConn.front]

theorem unread_shape (pre u post : Str) :
    (⟨pre ++ (u ++ post), pre.length, pre.length + u.length⟩ : HttpConn).unread = u := by
  simp [HttpConn.unread]

theorem compact_front (pre u post : Str) (hpost : post ≠ []) :
    ∃ post', post' ≠ [] ∧ post'.length = pre.length + post.length ∧
      connBufCompact ⟨pre ++ (u ++ post), pre.length, pre.length + u.length⟩ = .front u post' := by
  rw [connBufCompact, unread_shape]
  by_cases hpre : pre.length = 0
  · rw [if_pos hpre, List.length_eq_zero_iff.1 hpre]
    refine ⟨post, hpost, by simp, ?_⟩
    simp [HttpConn.front]
  · rw [if_neg hpre]
    have hlen : ((pre ++ (u ++ post)).drop (pre.length + u.length - pre.length)).length =
        pre.length + post.length := by
      simp only [List.length_drop, List.length_append]
      omega
    refine ⟨_, ?_, hlen, ?_⟩
    · rw [ne_eq, ← List.length_eq_zero_iff, hlen]
      omega
    · simp [HttpConn.front]

theorem receive_front {u post : Str} {net : Net} {len : ℕ} (h : net.got len ≤ post.length) :
    receive (.front u post) net len =
      some (.front (u ++ net.pending.take (net.got len)) (post.drop (net.got len)),
        ⟨net.pending.drop (net.got len), net.cuts.tail⟩) := by
  have hle : net.got len ≤ net.pending.length := min_le_right _ _
  rw [receive]
  simp only [bufCap_front, writePos_front]
  rw [if_pos (by omega)]
  simp [HttpConn.front, List.drop_append, hle]

theorem got_pos {net : Net} {len : ℕ} (hlen : 0 < len) (hnet : net.pending ≠ []) :
    0 < net.got len := by
  have := List.length_pos_iff.2 hnet
  rw [Net.got]
  omega

theorem got_le (net : Net) (len : ℕ) : net.got len ≤ len :=
  (min_le_left _ _).trans (min_le_right _ _)

/-- `recv` takes bytes from what is to come to what is unread, or the connection is closed. -/
theorem recv_spec {u post : Str} (net : Net) (ph : Phase) (carved : List Str) {len : ℕ}
    (hlen : 0 < len) (hroom : len < post.length) :
    (net.pending = [] ∧ (⟨.front u post, net, ph, carved⟩ : State).recv len =
      some ⟨.front u post, net, .closed, carved⟩) ∨
    ∃ u' post' net', (⟨.front u post, net, ph, carved⟩ : State).recv len =
        some ⟨.front u' post', net', ph, carved⟩ ∧
      u' ++ net'.pending = u ++ net.pending ∧ net'.pending.length < net.pending.length ∧
      u'.length + post'.length = u.length + post.length ∧ post' ≠ [] ∧ u.length ≤ u'.length := by
  by_cases hnet : net.pending = []
  · refine .inl ⟨hnet, ?_⟩
    rw [State.recv, if_pos hnet]
    rfl
  · have hgot := got_le net len
    have hpos := got_pos hlen hnet
    have hle : net.got len ≤ net.pending.length := min_le_right _ _
    refine .inr ⟨u ++ net.pending.take (net.got len), post.drop (net.got len),
      ⟨net.pending.drop (net.got len), net.cuts.tail⟩, ?_, ?_, ?_, ?_, ?_, ?_⟩
    · rw [State.recv, if_neg hnet]
      simp only [receive_front (show net.got len ≤ post.length by omega), Option.map_some]
    · simp
    · simp only [List.length_drop]
      omega
    · simp only [List.length_append, List.length_take, List.length_drop]
      omega
    · rw [ne_eq, ← List.length_eq_zero_iff, List.length_drop]
      omega
    · simp

/-! ### The capacity -/

theorem growCap_spec (needed : ℤ) (hneeded : needed ≤ 2 ^ 30) (k j : ℕ) (hj : j + k = 30) :
    ∃ i, j ≤ i ∧ i ≤ 30 ∧ growCap (2 ^ j) needed = some (2 ^ i) ∧ needed ≤ (2 ^ i : ℕ) := by
  induction k generalizing j with
  | zero =>
    obtain rfl : j = 30 := hj
    refine ⟨30, le_rfl, le_rfl, ?_, by norm_num; exact hneeded⟩
    rw [growCap, if_neg (by norm_num; exact hneeded)]
  | succ k ih =>
    by_cases hlt : ((2 ^ j : ℕ) : ℤ) < needed
    · obtain ⟨i, hji, hi, hgrow, hle⟩ := ih (j + 1) (by omega)
      have hpow : 2 * 2 ^ j < 2 ^ 31 := by
        rw [← pow_succ']
        exact Nat.pow_lt_pow_right (by norm_num) (by omega)
      refine ⟨i, by omega, hi, ?_, hle⟩
      rw [growCap, if_pos hlt, if_pos ⟨by positivity, hpow⟩, ← pow_succ', hgrow]
    · refine ⟨j, le_rfl, by omega, ?_, not_lt.1 hlt⟩
      rw [growCap, if_neg hlt]

theorem at_cap {goesOn : List Str → Bool} {s : Str} {done : List Str} {cap : ℕ} {t : Str}
    (hclean : Clean goesOn s) (h : At goesOn s done cap t) :
    ∃ j, 14 ≤ j ∧ j ≤ 30 ∧ cap = 2 ^ j := by
  induction h with
  | start => exact ⟨14, le_rfl, by norm_num, rfl⟩
  | @next done cap t head rest slice t' h hhead _ _ ih =>
    obtain ⟨j, hj, hj', rfl⟩ := ih
    rw [nextCap]
    split_ifs with hpos
    · obtain ⟨-, -, -, hfits⟩ := hclean _ _ _ h head rest hhead
      obtain ⟨i, hji, hi, hgrow, -⟩ := growCap_spec (head.length + 4 + contentLength head + 1)
        (by exact_mod_cast hfits hpos) (30 - j) j (by omega)
      exact ⟨i, by omega, hi, by rw [hgrow]; rfl⟩
    · exact ⟨j, hj, hj', rfl⟩

/-- The buffer is made as large as the request with its body. -/
theorem ensure_front (junk : ℕ → UInt8) {u post : Str} {needed : ℤ} {j : ℕ} (hj : j ≤ 30)
    (hcap : u.length + post.length = 2 ^ j) (hneeded : needed ≤ 2 ^ 30) :
    ∃ more, connBufEnsure junk (.front u post) needed = some (.front u (post ++ more)) ∧
      some (u.length + (post ++ more).length) = growCap (2 ^ j) needed ∧
      needed ≤ (u.length + (post ++ more).length : ℕ) := by
  obtain ⟨i, hji, hi, hgrow, hle⟩ := growCap_spec needed hneeded (30 - j) j (by omega)
  rw [connBufEnsure, bufCap_front, hcap]
  by_cases hroom : needed ≤ (2 ^ j : ℕ)
  · refine ⟨[], ?_, ?_, ?_⟩
    · rw [if_pos hroom, List.append_nil]
    · rw [List.append_nil, hcap, growCap, if_neg (not_lt.2 hroom)]
    · rw [List.append_nil, hcap]
      exact hroom
  · have hmono : 2 ^ j ≤ 2 ^ i := Nat.pow_le_pow_right (by norm_num) hji
    have hlen : u.length + (post ++ (List.range' (2 ^ j) (2 ^ i - 2 ^ j)).map junk).length =
        2 ^ i := by
      rw [List.length_append, List.length_map, List.length_range']
      omega
    refine ⟨(List.range' (2 ^ j) (2 ^ i - 2 ^ j)).map junk, ?_, ?_, ?_⟩
    · rw [if_neg hroom, if_pos (by positivity), hgrow]
      simp [HttpConn.front]
    · rw [hlen, hgrow]
    · rw [hlen]
      exact hle

/-! ### The stream -/

theorem slices_none {goesOn : List Str → Bool} {done : List Str} {s : Str}
    (h : nextRequest s = none) : slices goesOn done s = done := by
  rw [slices.eq_def]
  split
  · rfl
  · rename_i heq
    rw [h] at heq
    cases heq

theorem slices_some {goesOn : List Str → Bool} {done : List Str} {s slice t : Str}
    (h : nextRequest s = some (slice, t)) : slices goesOn done s =
      if goesOn (done ++ [slice]) then slices goesOn (done ++ [slice]) t else done ++ [slice] := by
  rw [slices.eq_def]
  split
  · rename_i heq
    rw [h] at heq
    cases heq
  · rename_i heq
    rw [h] at heq
    obtain ⟨rfl, rfl⟩ := Prod.mk.inj (Option.some.inj heq)
    rfl

theorem slices_at {goesOn : List Str → Bool} {s : Str} {done : List Str} {cap : ℕ} {t : Str}
    (h : At goesOn s done cap t) : slices goesOn [] s = slices goesOn done t := by
  induction h with
  | start => rfl
  | next h _ hnext hon ih => rw [ih, slices_some hnext, if_pos hon]

theorem nextRequest_none {t : Str} (h : cut crlfcrlf t = none) : nextRequest t = none := by
  rw [nextRequest, h]

theorem nextRequest_short {t head rest : Str} (h : cut crlfcrlf t = some (head, rest))
    (hshort : rest.length < contentLength head) : nextRequest t = none := by
  rw [nextRequest, h]
  simp only
  rw [if_neg (by omega)]

theorem length_crlfcrlf : crlfcrlf.length = 4 := rfl

/-- A header section that has arrived is found by the search in the string. -/
theorem cut_string {u t head rest : Str} (h : cut crlfcrlf (u ++ t) = some (head, rest))
    (hzero : 0 ∉ head) (hlen : head.length + 4 ≤ u.length) :
    ∃ u₂, u = head ++ (crlfcrlf ++ u₂) ∧ rest = u₂ ++ t ∧
      cut crlfcrlf (u.takeWhile (· != 0)) = some (head, u₂.takeWhile (· != 0)) := by
  obtain ⟨u₂, hcut, hrest⟩ := cut_of_append h hlen
  have hu := eq_of_cut hcut
  have htake : u.takeWhile (· != 0) = head ++ (crlfcrlf ++ u₂.takeWhile (· != 0)) := by
    rw [hu, List.takeWhile_append_of_pos, List.takeWhile_append_of_pos (by simp [crlfcrlf])]
    intro c hc
    simpa using fun hc0 : c = 0 => hzero (hc0 ▸ hc)
  refine ⟨u₂, hu, hrest, ?_⟩
  rw [htake]
  refine cut_of_first fun x y hxy => ?_
  have hsplit := List.takeWhile_append_dropWhile (p := (· != 0)) (l := u₂)
  refine cut_le hcut (y := y ++ u₂.dropWhile (· != 0)) ?_
  have := congrArg (· ++ u₂.dropWhile (· != 0)) hxy
  simp only [List.append_assoc, hsplit] at this
  rw [hu, this]

/-- One that has not is not found. -/
theorem cut_string_none {u t head rest : Str} (h : cut crlfcrlf (u ++ t) = some (head, rest))
    (hlen : u.length < head.length + 4) : cut crlfcrlf (u.takeWhile (· != 0)) = none := by
  rcases hcut : cut crlfcrlf (u.takeWhile (· != 0)) with _ | ⟨a, b⟩
  · rfl
  · have hmore := cut_append_right hcut (u.dropWhile (· != 0) ++ t)
    rw [← List.append_assoc, List.takeWhile_append_dropWhile, h] at hmore
    obtain ⟨rfl, -⟩ := Prod.mk.inj (Option.some.inj hmore)
    have ha := length_of_cut hcut
    have hu := List.Sublist.length_le (List.takeWhile_sublist (l := u) (· != 0))
    rw [length_crlfcrlf] at ha
    omega

theorem cut_string_of_none {u t : Str} (h : cut crlfcrlf (u ++ t) = none) :
    cut crlfcrlf (u.takeWhile (· != 0)) = none := by
  rcases hcut : cut crlfcrlf (u.takeWhile (· != 0)) with _ | ⟨a, b⟩
  · rfl
  · have hmore := cut_append_right hcut (u.dropWhile (· != 0) ++ t)
    rw [← List.append_assoc, List.takeWhile_append_dropWhile, h] at hmore
    cases hmore

/-! ### A turn of the header loop -/

section

variable {goesOn : List Str → Bool} (junk : ℕ → UInt8)

theorem headerTurn_found {u post head after : Str} (net : Net) (done : List Str)
    (hpost : post ≠ []) (h : cut crlfcrlf (u.takeWhile (· != 0)) = some (head, after)) :
    ∃ post', post'.length + 1 = post.length ∧
      headerTurn junk ⟨.front u post, net, .header, done⟩ =
        resolve junk ⟨.front u (0 :: post'), net, .header, done⟩ (head.length + 4) := by
  obtain ⟨c, post, rfl⟩ := List.exists_cons_of_ne_nil hpost
  have hu : 0 < u.length := by
    have hlen := length_of_cut h
    have hle := List.Sublist.length_le (List.takeWhile_sublist (l := u) (· != 0))
    rw [length_crlfcrlf] at hlen
    omega
  refine ⟨post, rfl, ?_⟩
  rw [headerTurn]
  simp only [readPos_front, writePos_front, if_pos hu, terminate_front, string_front, h]

/-- Without the end of the section there are more bytes to receive, or the buffer is full. -/
theorem headerTurn_more {u post : Str} (net : Net) (done : List Str) (hpost : post ≠ [])
    (h : cut crlfcrlf (u.takeWhile (· != 0)) = none) :
    ∃ post', post'.length = post.length ∧
      headerTurn junk ⟨.front u post, net, .header, done⟩ =
        if post.length ≤ 1 then some ⟨.front u post', net, .closed, done⟩
        else (⟨.front u post', net, .header, done⟩ : State).recv (post'.length - 1) := by
  obtain ⟨c, post, rfl⟩ := List.exists_cons_of_ne_nil hpost
  have hfull : u.length + (post.length + 1) ≤ u.length + 1 ↔ post.length + 1 ≤ 1 := by omega
  have hroom : u.length + (post.length + 1) - u.length - 1 = post.length + 1 - 1 := by omega
  by_cases hu : 0 < u.length
  · refine ⟨0 :: post, rfl, ?_⟩
    rw [headerTurn]
    simp only [readPos_front, writePos_front, if_pos hu, terminate_front, string_front, h,
      bufCap_front, List.length_cons, hfull, hroom]
    rfl
  · refine ⟨c :: post, rfl, ?_⟩
    rw [headerTurn]
    simp only [readPos_front, writePos_front, if_neg hu, bufCap_front, List.length_cons, hfull,
      hroom]
    rfl

/-! ### The invariant -/

/-- What is unread and what is still to come is what is left of the stream. -/
inductive Inv (goesOn : List Str → Bool) (s : Str) : State → Prop
  | fresh (net : Net) (hs : net.pending = s) : Inv goesOn s ⟨⟨[], 0, 0⟩, net, .idle, []⟩
  | idle {done : List Str} {cap : ℕ} {pre u post : Str} {net : Net}
    (h : At goesOn s done cap (u ++ net.pending)) (hpost : post ≠ [])
    (hcap : pre.length + u.length + post.length = cap) :
    Inv goesOn s ⟨⟨pre ++ (u ++ post), pre.length, pre.length + u.length⟩, net, .idle, done⟩
  | header {done : List Str} {cap : ℕ} {u post : Str} {net : Net}
    (h : At goesOn s done cap (u ++ net.pending)) (hpost : post ≠ [])
    (hcap : u.length + post.length = cap) : Inv goesOn s ⟨.front u post, net, .header, done⟩
  | body {done : List Str} {cap : ℕ} {u post head rest : Str} {net : Net}
    (h : At goesOn s done cap (u ++ net.pending)) (hpost : post ≠ [])
    (hhead : cut crlfcrlf (u ++ net.pending) = some (head, rest))
    (hcap : u.length + post.length = nextCap cap head) (hu : head.length + 4 ≤ u.length)
    (htotal : head.length + 4 + contentLength head < u.length + post.length) :
    Inv goesOn s
      ⟨.front u post, net, .body (head.length + 4 + contentLength head : ℕ), done⟩
  | closed (st : State) (hph : st.phase = .closed) (hb : st.conn.Bounded)
    (hc : st.carved = slices goesOn [] s) : Inv goesOn s st

theorem bounded_front {u post : Str} (hpost : post ≠ []) : (HttpConn.front u post).Bounded := by
  have := List.length_pos_iff.2 hpost
  refine ⟨Nat.zero_le _, .inl ?_⟩
  rw [writePos_front, bufCap_front]
  omega

theorem Inv.bounded {s : Str} {st : State} (h : Inv goesOn s st) : st.conn.Bounded ∧
    ∀ total, st.phase = .body total → 0 ≤ total ∧ st.conn.readPos + total < st.conn.bufCap := by
  rcases h with ⟨net, -⟩ | ⟨-, hpost, -⟩ | ⟨-, hpost, -⟩ | ⟨-, hpost, -, -, -, htotal⟩ |
    ⟨_, hph, hb, -⟩
  · exact ⟨⟨le_rfl, .inr ⟨rfl, rfl⟩⟩, fun _ h => by cases h⟩
  · have := List.length_pos_iff.2 hpost
    refine ⟨⟨Nat.le_add_right _ _, .inl ?_⟩, fun _ h => by cases h⟩
    simp only [HttpConn.bufCap, List.length_append]
    omega
  · exact ⟨bounded_front hpost, fun _ h => by cases h⟩
  · refine ⟨bounded_front hpost, fun total h => ?_⟩
    obtain rfl := Phase.body.inj h
    rw [readPos_front, bufCap_front]
    omega
  · refine ⟨hb, fun _ h => ?_⟩
    rw [hph] at h
    cases h

/-- How far the run is from its end. -/
def measure (st : State) : ℕ :=
  4 * (st.conn.unread.length + st.net.pending.length) + st.net.pending.length +
    match st.phase with
    | .idle => 3
    | .header => 2
    | .body _ => 1
    | .closed => 0

/-- A turn goes on within the invariant. -/
def GoesWell (goesOn : List Str → Bool) (s : Str) (st : State) (next : Option State) : Prop :=
  ∃ st', next = some st' ∧ Inv goesOn s st' ∧ measure st' < measure st

theorem close_front {s : Str} {done : List Str} {cap : ℕ} {u post post' : Str} {net : Net}
    {ph : Phase} (h : At goesOn s done cap (u ++ net.pending)) (hpost : post' ≠ [])
    (hnone : nextRequest (u ++ net.pending) = none) (hph : ph ≠ .closed) :
    GoesWell goesOn s ⟨.front u post, net, ph, done⟩
      (some ⟨.front u post', net, .closed, done⟩) := by
  refine ⟨_, rfl, .closed _ rfl (bounded_front hpost) ?_, ?_⟩
  · rw [slices_at h, slices_none hnone]
  · simp only [measure, unread_front]
    rcases ph with _ | _ | _ | _
    · simp
    · simp
    · simp
    · exact absurd rfl hph

theorem measure_recv {u post u' post' : Str} {net net' : Net} (ph : Phase) (done : List Str)
    (hstream : u' ++ net'.pending = u ++ net.pending)
    (hless : net'.pending.length < net.pending.length) :
    measure ⟨.front u' post', net', ph, done⟩ < measure ⟨.front u post, net, ph, done⟩ := by
  have hlen := congrArg List.length hstream
  rw [List.length_append, List.length_append] at hlen
  simp only [measure, unread_front]
  omega

/-! ### The step -/

variable {s : Str}

theorem toInt_of_lt {n : ℕ} (h : n < 2 ^ 31) : toInt n = n := by
  rw [toInt]
  omega

theorem checkInt_of_lt {n : ℤ} (h₀ : 0 ≤ n) (h : n < 2 ^ 31) : checkInt n = some n :=
  if_pos ⟨by omega, h⟩

theorem resolve_body {st : State} {headerSize : ℕ} {len total needed : ℤ} {c : HttpConn}
    (hlen : resolveLength st.conn.string (headerSize - 4) = len) (hpos : 0 < len)
    (htotal : checkInt (headerSize + toInt len) = some total)
    (hneeded : checkInt (st.conn.readPos + total + 1) = some needed)
    (hensure : connBufEnsure junk st.conn needed = some c) :
    resolve junk st headerSize = some { st with conn := c, phase := .body total } := by
  rw [resolve]
  simp only [hlen, if_pos hpos, htotal, hneeded, hensure, Option.map_some]

theorem resolve_nobody {st : State} {headerSize : ℕ} {len : ℤ}
    (hlen : resolveLength st.conn.string (headerSize - 4) = len) (hpos : ¬ 0 < len) :
    resolve junk st headerSize = some { st with phase := .body headerSize } := by
  rw [resolve]
  simp only [hlen, if_neg hpos]

theorem resolve_spec (hclean : Clean goesOn s) {done : List Str} {cap : ℕ} {u post head rest : Str}
    {net : Net} (h : At goesOn s done cap (u ++ net.pending))
    (hhead : cut crlfcrlf (u ++ net.pending) = some (head, rest)) (hu : head.length + 4 ≤ u.length)
    (hcap : u.length + (post.length + 1) = cap) :
    GoesWell goesOn s ⟨.front u (0 :: post), net, .header, done⟩
      (resolve junk ⟨.front u (0 :: post), net, .header, done⟩ (head.length + 4)) := by
  obtain ⟨hzero, hfit, hlength, hgrow⟩ := hclean _ _ _ h head rest hhead
  obtain ⟨j, -, hj, hpow⟩ := at_cap hclean h
  obtain ⟨u₂, hu₂, hrest, -⟩ := cut_string hhead hzero hu
  have hstring : u.takeWhile (· != 0) =
      (head ++ (crlfcrlf ++ rest.take u₂.length)).takeWhile (· != 0) := by
    rw [hrest, List.take_left, ← hu₂]
  have hres : resolveLength (HttpConn.front u (0 :: post)).string (head.length + 4 - 4) =
      contentLength head := by
    rw [string_front, hstring, Nat.add_sub_cancel]
    exact hlength u₂.length
  have hless : ∀ total post', measure ⟨.front u post', net, .body total, done⟩ <
      measure ⟨.front u (0 :: post), net, .header, done⟩ := by
    intro total post'
    simp [measure]
  by_cases hpos : 0 < contentLength head
  · have hmax := hgrow hpos
    have htotal : ((head.length + 4 : ℕ) : ℤ) + ((contentLength head : ℕ) : ℤ) =
        ((head.length + 4 + contentLength head : ℕ) : ℤ) := by omega
    have hsum : checkInt ((head.length + 4 : ℕ) + toInt (contentLength head)) =
        some ((head.length + 4 + contentLength head : ℕ) : ℤ) := by
      rw [toInt_of_lt (by omega), htotal, checkInt_of_lt (by omega) (by omega)]
    have hneeded : (((HttpConn.front u (0 :: post)).readPos : ℕ) : ℤ) +
        ((head.length + 4 + contentLength head : ℕ) : ℤ) + 1 =
        ((head.length + 4 + contentLength head + 1 : ℕ) : ℤ) := by
      rw [readPos_front]
      omega
    have hneed : checkInt ((((HttpConn.front u (0 :: post)).readPos : ℕ) : ℤ) +
        ((head.length + 4 + contentLength head : ℕ) : ℤ) + 1) =
        some ((head.length + 4 + contentLength head + 1 : ℕ) : ℤ) := by
      rw [hneeded, checkInt_of_lt (by omega) (by omega)]
    have hlen : u.length + (0 :: post).length = 2 ^ j := by
      rw [List.length_cons, hcap, hpow]
    obtain ⟨more, hensure, hnew, hroom⟩ := ensure_front junk hj hlen
      (show ((head.length + 4 + contentLength head + 1 : ℕ) : ℤ) ≤ 2 ^ 30 by exact_mod_cast hmax)
    refine ⟨_, resolve_body junk hres (Int.natCast_pos.2 hpos) hsum hneed hensure,
      .body h (by simp) hhead ?_ hu (by omega), hless _ _⟩
    rw [nextCap, if_pos hpos, hpow]
    have := congrArg (·.getD (2 ^ j)) hnew
    simpa using this
  · have hzero' : contentLength head = 0 := Nat.eq_zero_of_not_pos hpos
    have hbody : head.length + 4 = head.length + 4 + contentLength head := by omega
    refine ⟨_, resolve_nobody junk hres (mt Int.natCast_pos.1 hpos), ?_, hless _ _⟩
    rw [hbody]
    refine .body h (by simp) hhead ?_ hu ?_
    · rw [nextCap, if_neg hpos]
      simpa using hcap
    · simp only [List.length_cons]
      omega

theorem header_spec (hclean : Clean goesOn s) {done : List Str} {cap : ℕ} {u post : Str}
    {net : Net} (h : At goesOn s done cap (u ++ net.pending)) (hpost : post ≠ [])
    (hcap : u.length + post.length = cap) :
    GoesWell goesOn s ⟨.front u post, net, .header, done⟩
      (headerTurn junk ⟨.front u post, net, .header, done⟩) := by
  rcases hcut : cut crlfcrlf (u ++ net.pending) with _ | ⟨head, rest⟩
  · -- the stream has no further header section
    obtain ⟨post', hlen, hturn⟩ := headerTurn_more junk net done hpost
      (cut_string_of_none hcut)
    have hpost' : post' ≠ [] := by
      rw [ne_eq, ← List.length_eq_zero_iff, hlen, List.length_eq_zero_iff]
      exact hpost
    rw [hturn]
    split_ifs with hfull
    · exact close_front h hpost' (nextRequest_none hcut) (by simp)
    · rcases recv_spec (u := u) net .header done (show 0 < post'.length - 1 by omega)
        (show post'.length - 1 < post'.length by omega) with
        ⟨-, hrecv⟩ | ⟨u', post'', net', hrecv, hstream, hless, hsize, hne, -⟩
      · rw [hrecv]
        exact close_front h hpost' (nextRequest_none hcut) (by simp)
      · rw [hrecv]
        exact ⟨_, rfl, .header (hstream ▸ h) hne (by omega), measure_recv _ _ hstream hless⟩
  · obtain ⟨hzero, hfit, -⟩ := hclean _ _ _ h head rest hcut
    by_cases hu : head.length + 4 ≤ u.length
    · obtain ⟨u₂, -, -, hfound⟩ := cut_string hcut hzero hu
      obtain ⟨post', hlen, hturn⟩ := headerTurn_found junk net done hpost hfound
      obtain ⟨st', hst', hinv, hless⟩ := resolve_spec junk hclean h hcut hu
        (show u.length + (post'.length + 1) = cap by omega)
      refine ⟨st', hturn.trans hst', hinv, ?_⟩
      simpa [measure] using hless
    · obtain ⟨post', hlen, hturn⟩ := headerTurn_more junk net done hpost
        (cut_string_none hcut (by omega))
      rw [hturn, if_neg (by omega)]
      rcases recv_spec (u := u) net .header done (show 0 < post'.length - 1 by omega)
        (show post'.length - 1 < post'.length by omega) with
        ⟨hnil, -⟩ | ⟨u', post'', net', hrecv, hstream, hless, hsize, hne, -⟩
      · -- the section has arrived when nothing is to come
        have htotal := length_of_cut hcut
        rw [hnil, List.append_nil, length_crlfcrlf] at htotal
        omega
      · rw [hrecv]
        exact ⟨_, rfl, .header (hstream ▸ h) hne (by omega), measure_recv _ _ hstream hless⟩

theorem carve_front (slice u : Str) {post : Str} (net : Net) (ph : Phase) (done : List Str)
    (hpost : post ≠ []) :
    carve goesOn ⟨.front (slice ++ u) post, net, ph, done⟩ (slice.length : ℕ) =
      some ⟨⟨slice ++ (u ++ post), slice.length, slice.length + u.length⟩, net,
        if goesOn (done ++ [slice]) then .idle else .closed, done ++ [slice]⟩ := by
  have hpos := List.length_pos_iff.2 hpost
  have hstop : ((0 : ℕ) : ℤ) + (slice.length : ℕ) = (slice.length : ℕ) := by omega
  rw [carve]
  simp only [readPos_front, bufCap_front, hstop, List.length_append, Int.toNat_natCast]
  rw [if_pos ⟨by omega, by omega⟩]
  simp [HttpConn.front]

theorem carve_spec {done : List Str} {cap : ℕ} {u post head rest : Str} {net : Net}
    (h : At goesOn s done cap (u ++ net.pending)) (hpost : post ≠ [])
    (hhead : cut crlfcrlf (u ++ net.pending) = some (head, rest))
    (hcap : u.length + post.length = nextCap cap head)
    (hu : head.length + 4 + contentLength head ≤ u.length) :
    GoesWell goesOn s
      ⟨.front u post, net, .body (head.length + 4 + contentLength head : ℕ), done⟩
      (carve goesOn ⟨.front u post, net, .body (head.length + 4 + contentLength head : ℕ), done⟩
        (head.length + 4 + contentLength head : ℕ)) := by
  have hpostpos := List.length_pos_iff.2 hpost
  obtain ⟨slice, u', hsplit, hslice⟩ :
      ∃ slice u', u = slice ++ u' ∧ slice.length = head.length + 4 + contentLength head :=
    ⟨_, _, (List.take_append_drop _ u).symm, List.length_take_of_le hu⟩
  have hnext : nextRequest (u ++ net.pending) = some (slice, u' ++ net.pending) := by
    have hlen := length_of_cut hhead
    rw [List.length_append, length_crlfcrlf] at hlen
    have heq := eq_of_cut hhead
    rw [nextRequest, hhead]
    simp only
    rw [if_pos (by omega)]
    have hsplit' : slice ++ (u' ++ net.pending) =
        (head ++ (crlfcrlf ++ rest.take (contentLength head))) ++
          rest.drop (contentLength head) := by
      rw [← List.append_assoc, ← hsplit, heq]
      simp
    have hlen' : slice.length = (head ++ (crlfcrlf ++ rest.take (contentLength head))).length := by
      rw [hslice]
      simp only [List.length_append, List.length_take, length_crlfcrlf]
      omega
    obtain ⟨h₁, h₂⟩ := List.append_inj hsplit' hlen'
    rw [← h₁, ← h₂]
  subst hsplit
  have hmeasure : ∀ ph done', measure ⟨⟨slice ++ (u' ++ post), slice.length,
        slice.length + u'.length⟩, net, ph, done'⟩ <
      measure ⟨.front (slice ++ u') post, net, .body (slice.length : ℕ), done⟩ := by
    intro ph done'
    simp only [measure, unread_shape, unread_front, List.length_append]
    rcases ph with _ | _ | _ | _ <;> simp only <;> omega
  rw [List.length_append] at hcap hu
  have hcarve := @carve_front goesOn slice u' post net (.body (slice.length : ℕ)) done hpost
  rw [← hslice]
  by_cases hon : goesOn (done ++ [slice]) = true
  · rw [if_pos hon] at hcarve
    refine ⟨_, hcarve, .idle (h.next hhead hnext hon) hpost ?_, hmeasure _ _⟩
    omega
  · rw [if_neg hon] at hcarve
    refine ⟨_, hcarve, .closed _ rfl ⟨Nat.le_add_right _ _, .inl ?_⟩ ?_, hmeasure _ _⟩
    · simp only [HttpConn.bufCap, List.length_append]
      omega
    · rw [slices_at h, slices_some hnext, if_neg hon]

theorem body_spec {done : List Str} {cap : ℕ} {u post head rest : Str} {net : Net}
    (h : At goesOn s done cap (u ++ net.pending)) (hpost : post ≠ [])
    (hhead : cut crlfcrlf (u ++ net.pending) = some (head, rest))
    (hcap : u.length + post.length = nextCap cap head) (hu : head.length + 4 ≤ u.length)
    (htotal : head.length + 4 + contentLength head < u.length + post.length) :
    GoesWell goesOn s
      ⟨.front u post, net, .body (head.length + 4 + contentLength head : ℕ), done⟩
      (bodyTurn goesOn ⟨.front u post, net, .body (head.length + 4 + contentLength head : ℕ), done⟩
        (head.length + 4 + contentLength head : ℕ)) := by
  rw [bodyTurn]
  simp only [readPos_front, writePos_front, bufCap_front]
  by_cases hshort : u.length < head.length + 4 + contentLength head
  · have hchunk : min ((head.length + 4 + contentLength head : ℕ) - ((u.length : ℤ) - (0 : ℕ)))
        (((u.length + post.length : ℕ) : ℤ) - u.length - 1) =
        ((head.length + 4 + contentLength head - u.length : ℕ) : ℤ) := by
      omega
    rw [if_pos (by push_cast; omega), hchunk, if_neg (by omega), Int.toNat_natCast]
    rcases recv_spec (u := u) net
        (.body (head.length + 4 + contentLength head : ℕ)) done
        (show 0 < head.length + 4 + contentLength head - u.length by omega)
        (show _ < post.length by omega) with
      ⟨hnil, hrecv⟩ | ⟨u', post', net', hrecv, hstream, hless, hsize, hne, hgrown⟩
    · rw [hrecv]
      refine close_front h hpost (nextRequest_short hhead ?_) (by simp)
      have hlen := length_of_cut hhead
      rw [hnil, List.append_nil, length_crlfcrlf] at hlen
      omega
    · rw [hrecv]
      exact ⟨_, rfl, .body (hstream ▸ h) hne (hstream ▸ hhead) (by omega) (by omega) (by omega),
        measure_recv _ _ hstream hless⟩
  · rw [if_neg (by push_cast; omega)]
    exact carve_spec h hpost hhead hcap (by omega)

theorem httpConnBufCap_ne : httpConnBufCap ≠ 0 := by
  rw [httpConnBufCap]
  norm_num

/-- The first call allocates the buffer. -/
theorem beginCall_fresh (junk : ℕ → UInt8) (net : Net) :
    ∃ post, post.length = httpConnBufCap ∧
      beginCall junk ⟨⟨[], 0, 0⟩, net, .idle, []⟩ = some ⟨.front [] post, net, .header, []⟩ := by
  have hcap := httpConnBufCap_ne
  refine ⟨(List.range' 0 httpConnBufCap).map junk, by rw [List.length_map, List.length_range'], ?_⟩
  rw [beginCall, connBufEnsure]
  generalize httpConnBufCap = cap at hcap ⊢
  generalize hpost : (List.range' 0 cap).map junk = post
  have hgrow : growCap cap cap = some cap := by rw [growCap, if_neg (lt_irrefl _)]
  have hnot : ¬ (cap : ℤ) ≤ ((⟨[], 0, 0⟩ : HttpConn).bufCap : ℤ) := by
    simp only [HttpConn.bufCap, List.length_nil]
    omega
  rw [if_pos rfl, if_neg hnot, HttpConn.bufCap, List.length_nil, if_neg (lt_irrefl 0), hgrow]
  simp only [Option.map_some, Nat.sub_zero, List.nil_append, hpost]
  rfl

/-- A turn keeps the invariant and comes nearer to the end. -/
theorem step_spec (hclean : Clean goesOn s) {st : State} (h : Inv goesOn s st)
    (hopen : st.phase ≠ .closed) : GoesWell goesOn s st (step goesOn junk st) := by
  rcases h with ⟨net, hs⟩ | @⟨done, cap, pre, u, post, net, h, hpost, hcap⟩ | ⟨h, hpost, hcap⟩ |
    ⟨h, hpost, hhead, hcap, hu, htotal⟩ | ⟨_, hph, -, -⟩
  · obtain ⟨post, hlen, hbegin⟩ := beginCall_fresh junk net
    subst hs
    refine ⟨_, hbegin, @Inv.header _ _ _ httpConnBufCap _ _ _ .start ?_ ?_, ?_⟩
    · rw [ne_eq, ← List.length_eq_zero_iff, hlen]
      exact httpConnBufCap_ne
    · rw [List.length_nil, Nat.zero_add, hlen]
    · rw [measure, measure, unread_front]
      simp [HttpConn.unread]
  · obtain ⟨post', hpost', hlen, hcompact⟩ := compact_front pre u post hpost
    have hpos := List.length_pos_iff.2 hpost
    have hbuf : pre ++ (u ++ post) ≠ [] := by simp [hpost]
    refine ⟨⟨.front u post', net, .header, done⟩, ?_, .header h hpost' (by omega), ?_⟩
    · rw [step, beginCall]
      simp only [if_neg hbuf, Option.map_some, hcompact]
    · simp [measure, unread_shape]
  · exact header_spec junk hclean h hpost hcap
  · exact body_spec h hpost hhead hcap hu htotal
  · exact absurd hph hopen

/-! ### Runs -/

theorem run_closed {st : State} (h : st.phase = .closed) (n : ℕ) :
    run goesOn junk n st = some st := by
  induction n with
  | zero => rfl
  | succ n ih =>
    have hstep : step goesOn junk st = some st := by rw [step, h]
    rw [run, hstep]
    exact ih

theorem run_spec (hclean : Clean goesOn s) {st : State} (h : Inv goesOn s st) (n : ℕ) :
    ∃ st', run goesOn junk n st = some st' ∧ Inv goesOn s st' := by
  induction n generalizing st with
  | zero => exact ⟨st, rfl, h⟩
  | succ n ih =>
    by_cases hopen : st.phase = .closed
    · exact ⟨st, run_closed junk hopen _, h⟩
    · obtain ⟨st', hstep, hinv, -⟩ := step_spec junk hclean h hopen
      obtain ⟨st'', hrun, hinv'⟩ := ih hinv
      exact ⟨st'', by rw [run, hstep]; exact hrun, hinv'⟩

theorem run_ends (hclean : Clean goesOn s) {st : State} (h : Inv goesOn s st) :
    ∃ n st', run goesOn junk n st = some st' ∧ st'.phase = .closed ∧ Inv goesOn s st' := by
  induction hm : measure st using Nat.strong_induction_on generalizing st with
  | h m ih =>
    by_cases hopen : st.phase = .closed
    · exact ⟨0, st, rfl, hopen, h⟩
    · obtain ⟨st', hstep, hinv, hless⟩ := step_spec junk hclean h hopen
      obtain ⟨n, st'', hrun, hclosed, hinv'⟩ := ih _ (hm ▸ hless) hinv rfl
      exact ⟨n + 1, st'', by rw [run, hstep]; exact hrun, hclosed, hinv'⟩

end

section

variable {goesOn : List Str → Bool} (junk : ℕ → UInt8)


theorem run_add (goesOn : List Str → Bool) (n m : ℕ) (st : State) :
    run goesOn junk (n + m) st = (run goesOn junk n st).bind (run goesOn junk m) := by
  induction n generalizing st with
  | zero => rw [Nat.zero_add]; rfl
  | succ n ih =>
    rw [Nat.succ_add, run, run]
    rcases step goesOn junk st with _ | st'
    · rfl
    · exact ih st'

theorem step_idle {st : State} (h : st.phase = .idle) :
    step goesOn junk st = beginCall junk st := by
  simp only [step, h]

theorem step_header {st : State} (h : st.phase = .header) :
    step goesOn junk st = headerTurn junk st := by
  simp only [step, h]

theorem step_body {st : State} {total : ℤ} (h : st.phase = .body total) :
    step goesOn junk st = bodyTurn goesOn st total := by
  simp only [step, h]

theorem run_succ {st st' : State} (h : step goesOn junk st = some st') (n : ℕ) :
    run goesOn junk (n + 1) st = run goesOn junk n st' := by
  rw [run, h, Option.bind_some]

/-- A run has one end. -/
theorem end_unique {st st₁ st₂ : State} {n m : ℕ} (h₁ : run goesOn junk n st = some st₁)
    (hc₁ : st₁.phase = .closed) (h₂ : run goesOn junk m st = some st₂) (hc₂ : st₂.phase = .closed) :
    st₁ = st₂ := by
  rcases Nat.le_total n m with hle | hle
  · have h := run_add junk goesOn n (m - n) st
    rw [Nat.add_sub_cancel' hle, h₁, h₂] at h
    exact (Option.some.inj (h.trans (run_closed junk hc₁ _))).symm
  · have h := run_add junk goesOn m (n - m) st
    rw [Nat.add_sub_cancel' hle, h₁, h₂] at h
    exact Option.some.inj (h.trans (run_closed junk hc₂ _))

/-- All that is to come arrives at once. -/
theorem recv_all {u post : Str} {pending : Str} (ph : Phase) (done : List Str) {len : ℕ}
    (hne : pending ≠ []) (hlen : pending.length ≤ len) (hroom : len < post.length) :
    ∃ post', post'.length + pending.length = post.length ∧
      (⟨.front u post, ⟨pending, []⟩, ph, done⟩ : State).recv len =
        some ⟨.front (u ++ pending) post', ⟨[], []⟩, ph, done⟩ := by
  have hgot : (⟨pending, []⟩ : Net).got len = pending.length := by
    simp only [Net.got, List.headD_nil]
    omega
  refine ⟨post.drop pending.length, ?_, ?_⟩
  · rw [List.length_drop]
    omega
  · rw [State.recv, if_neg hne]
    simp only [receive_front (show (⟨pending, []⟩ : Net).got len ≤ post.length by omega), hgot]
    simp

/-- The stream `G CRLF X-Content-Length:1 CRLF CRLF ab`. -/
def otherField : Str :=
  [0x47, 0x0d, 0x0a, 0x58, 0x2d] ++ contentLengthColon ++ [0x31] ++ crlfcrlf ++ [0x61, 0x62]

end

end Http

end Qjs
