import Qjs.WebSocket
import Qjs.Proofs.HttpConn

namespace Qjs

namespace Http

/-! ### Reading -/

theorem recvRest_view (net : Net) (n : ℕ) :
    (recvRest net n).map (fun r => (r.1, r.2.pending)) = takeExact net.pending n := by
  induction net, n using recvRest.induct with
  | case1 net => simp [recvRest, takeExact]
  | case2 net n h0 got hpos ih =>
    have hn : got ≤ n := got_le net n
    have hp : got ≤ net.pending.length := min_le_right _ _
    rw [recvRest, if_neg h0]
    dsimp only
    rw [if_pos hpos, Option.map_map]
    have hcomp : ((fun r : List UInt8 × Net => (r.1, r.2.pending)) ∘
        fun r : List UInt8 × Net => (net.pending.take got ++ r.1, r.2)) =
      (fun p : List UInt8 × List UInt8 => (net.pending.take got ++ p.1, p.2)) ∘
        fun r : List UInt8 × Net => (r.1, r.2.pending) := rfl
    rw [hcomp, ← Option.map_map, ih, takeExact, takeExact, List.length_drop]
    by_cases h : n ≤ net.pending.length
    · rw [if_pos (by omega), if_pos h]
      simp only [Option.map_some, Option.some.injEq, Prod.mk.injEq, List.drop_drop]
      refine ⟨?_, by rw [Nat.add_sub_cancel' hn]⟩
      rw [← List.take_add, Nat.add_sub_cancel' hn]
    · rw [if_neg (by omega), if_neg h]
      rfl
  | case3 net n h0 got hpos =>
    have hnil : net.pending = [] := by
      by_contra hne
      exact hpos (got_pos (by omega) hne)
    rw [recvRest, if_neg h0]
    dsimp only
    rw [if_neg hpos, takeExact, hnil, if_neg (by simpa using h0)]
    rfl

/-- A reader over a connection gives what a parser gives over its bytes. -/
def Views {α : Type} (o : Option (α × HttpConn × Net)) (p : Option (α × List UInt8)) : Prop :=
  o.map (fun r => (r.1, r.2.1.unread ++ r.2.2.pending)) = p

theorem views_some {α : Type} (a : α) (conn : HttpConn) (net : Net) :
    Views (some (a, conn, net)) (some (a, conn.unread ++ net.pending)) := rfl

theorem views_bind {α β : Type} {o : Option (α × HttpConn × Net)} {p : Option (α × List UInt8)}
    {f : α × HttpConn × Net → Option (β × HttpConn × Net)}
    {g : α × List UInt8 → Option (β × List UInt8)} (h : Views o p)
    (hf : ∀ a conn net, Views (f (a, conn, net)) (g (a, conn.unread ++ net.pending))) :
    Views (o >>= f) (p >>= g) := by
  subst h
  cases o with
  | none => rfl
  | some r => exact hf r.1 r.2.1 r.2.2

theorem views_map {α β : Type} {o : Option (α × HttpConn × Net)} {p : Option (α × List UInt8)}
    (k : α → β) (h : Views o p) :
    Views (o.map fun r => (k r.1, r.2)) (p.map fun r => (k r.1, r.2)) := by
  subst h
  cases o with
  | none => rfl
  | some r => rfl

theorem unread_advance (conn : HttpConn) (n : ℕ) :
    ({ conn with readPos := conn.readPos + n } : HttpConn).unread = conn.unread.drop n := by
  simp only [HttpConn.unread, List.drop_take, List.drop_drop]
  rw [Nat.sub_add_eq]

theorem wsRecvExact_views (conn : HttpConn) (net : Net) (n : ℕ) :
    Views (wsRecvExact conn net n) (takeExact (conn.unread ++ net.pending) n) := by
  have hrest := recvRest_view net (n - min conn.unread.length n)
  simp only [Views, wsRecvExact, Option.map_map, Function.comp_def, unread_advance]
  have hcomp : (recvRest net (n - min conn.unread.length n)).map (fun r =>
        (conn.unread.take (min conn.unread.length n) ++ r.1,
          conn.unread.drop (min conn.unread.length n) ++ r.2.pending)) =
      ((recvRest net (n - min conn.unread.length n)).map fun r => (r.1, r.2.pending)).map fun p =>
        (conn.unread.take (min conn.unread.length n) ++ p.1,
          conn.unread.drop (min conn.unread.length n) ++ p.2) := by
    rw [Option.map_map]
    rfl
  rw [hcomp, hrest, takeExact, takeExact, List.length_append]
  rcases le_total n conn.unread.length with h | h
  · rw [min_eq_right h, if_pos (by omega), if_pos (by omega)]
    simp [List.take_append_of_le_length h, List.drop_append_of_le_length h]
  · rw [min_eq_left h]
    by_cases hn : n ≤ conn.unread.length + net.pending.length
    · rw [if_pos (by omega), if_pos hn]
      simp [List.take_append, List.drop_append, List.take_of_length_le h,
        List.drop_eq_nil_of_le h]
    · rw [if_neg (by omega), if_neg hn]
      rfl

theorem readLength_views (pl : ℕ) (conn : HttpConn) (net : Net) :
    Views (readLength pl conn net) (parseLength pl (conn.unread ++ net.pending)) := by
  rw [readLength, parseLength]
  split_ifs
  · exact views_map (fun ext => ((bigEndian ext : ℕ) : ℤ)) (wsRecvExact_views conn net 2)
  · exact views_map (fun ext => toLongLong (bigEndian ext)) (wsRecvExact_views conn net 8)
  · exact views_some _ conn net

theorem readMask_views (masked : ℕ) (conn : HttpConn) (net : Net) :
    Views (readMask masked conn net) (parseMask masked (conn.unread ++ net.pending)) := by
  rw [readMask, parseMask]
  split_ifs
  · exact wsRecvExact_views conn net 4
  · exact views_some _ conn net

theorem readFrame_views (conn : HttpConn) (net : Net) :
    Views (readFrame conn net) (parseFrame (conn.unread ++ net.pending)) := by
  rw [readFrame, parseFrame]
  refine views_bind (wsRecvExact_views conn net 2) fun hdr2 conn net => ?_
  refine views_bind (readLength_views _ conn net) fun pl conn net => ?_
  refine views_bind (readMask_views _ conn net) fun maskKey conn net => ?_
  dsimp only
  by_cases h : pl < 0 ∨ pl > wsFrameMax
  · rw [if_pos h, if_pos h]
    rfl
  · rw [if_neg h, if_neg h]
    exact views_bind (wsRecvExact_views conn net _) fun frame conn net => views_some _ conn net

/-! ### Frames -/

theorem takeExact_append (a b : List UInt8) : takeExact (a ++ b) a.length = some (a, b) := by
  rw [takeExact, if_pos (by simp), List.take_left, List.drop_left]

theorem takeExact_of_length {a : List UInt8} {n : ℕ} (h : a.length = n) (b : List UInt8) :
    takeExact (a ++ b) n = some (a, b) := h ▸ takeExact_append a b

theorem bigEndian_concat (ext : List UInt8) (b : UInt8) :
    bigEndian (ext ++ [b]) = 256 * bigEndian ext + b.toNat := by
  have hb : b.toNat < 2 ^ 8 := b.toNat_lt
  rw [bigEndian, List.foldl_append, List.foldl_cons, List.foldl_nil,
    ← Nat.shiftLeft_add_eq_or_of_lt hb, Nat.shiftLeft_eq, bigEndian, mul_comm]

theorem bigEndian_bytes (n m : ℕ) :
    bigEndian ((List.range m).reverse.map fun k => UInt8.ofNat (n >>> (8 * k))) = n % 256 ^ m := by
  induction m generalizing n with
  | zero => simp [bigEndian, Nat.mod_one]
  | succ m ih =>
    have hshift : (List.range m).reverse.map ((fun k => UInt8.ofNat (n >>> (8 * k))) ∘ Nat.succ) =
        (List.range m).reverse.map fun k => UInt8.ofNat ((n >>> 8) >>> (8 * k)) := by
      refine List.map_congr_left fun k _ => ?_
      rw [Function.comp, ← Nat.shiftRight_add, Nat.mul_succ, Nat.add_comm]
    rw [List.range_succ_eq_map, List.reverse_cons, ← List.map_reverse, List.map_append,
      List.map_map, hshift, List.map_cons, List.map_nil, bigEndian_concat, ih, pow_succ',
      Nat.mod_mul, Nat.shiftRight_eq_div_pow]
    simp
    omega

/-- What is read back is the length, if it is not above `LLONG_MAX`. -/
theorem parseLength_encode {code : LengthCode} {n : ℕ} (h : code.Fits n) (s : List UInt8) :
    parseLength (code.encode n).1 ((code.encode n).2 ++ s) = some (toLongLong n, s) := by
  have hbytes := bigEndian_bytes n
  cases code with
  | bits7 =>
    have hn : n < 126 := h
    rw [LengthCode.encode, parseLength, if_neg (by dsimp only; omega),
      if_neg (by dsimp only; omega), toLongLong, if_pos (by omega)]
    rfl
  | bits16 =>
    have hn : n < 2 ^ 16 := h
    rw [LengthCode.encode, parseLength, if_pos rfl, takeExact_of_length (by simp)]
    rw [Option.map_some, show ([8, 0].map fun k => UInt8.ofNat (n >>> k)) =
      (List.range 2).reverse.map fun k => UInt8.ofNat (n >>> (8 * k)) from rfl, hbytes,
      Nat.mod_eq_of_lt (by omega), toLongLong, if_pos (by omega)]
  | bits64 =>
    have hn : n < 2 ^ 64 := h
    rw [LengthCode.encode, parseLength, if_neg (by dsimp only; omega), if_pos rfl,
      takeExact_of_length (by simp)]
    rw [Option.map_some,
      show ([56, 48, 40, 32, 24, 16, 8, 0].map fun k => UInt8.ofNat (n >>> k)) =
        (List.range 8).reverse.map fun k => UInt8.ofNat (n >>> (8 * k)) from rfl, hbytes,
      Nat.mod_eq_of_lt (by omega)]

theorem encode_lt {code : LengthCode} {n : ℕ} (h : code.Fits n) : (code.encode n).1 < 128 := by
  cases code with
  | bits7 => exact (show n < 126 from h).trans (by omega)
  | bits16 => exact (by omega : 126 < 128)
  | bits64 => exact (by omega : 127 < 128)

theorem toLongLong_range {n : ℕ} (h : n < 2 ^ 64) :
    ¬(toLongLong n < 0 ∨ toLongLong n > wsFrameMax) ↔ n ≤ 2 ^ 30 := by
  rw [toLongLong, wsFrameMax]
  split_ifs <;> omega

theorem header_fin : ∀ fin : Bool, ∀ opcode < 16,
    decide (((UInt8.ofNat ((if fin then 0x80 else 0) + opcode)).toNat >>> 7) &&& 1 ≠ 0) = fin ∧
      (UInt8.ofNat ((if fin then 0x80 else 0) + opcode)).toNat &&& 0x0f = opcode := by
  decide

theorem header_length : ∀ masked : Bool, ∀ l < 128,
    (UInt8.ofNat ((if masked then 0x80 else 0) + l)).toNat &&& 0x7f = l ∧
      ((UInt8.ofNat ((if masked then 0x80 else 0) + l)).toNat >>> 7) &&& 1 =
        if masked then 1 else 0 := by
  decide +kernel

theorem length_unmask (maskKey frame : List UInt8) :
    (unmask maskKey frame).length = frame.length := by
  simp [unmask]

theorem unmask_unmask (maskKey frame : List UInt8) :
    unmask maskKey (unmask maskKey frame) = frame := by
  refine List.ext_getElem (by simp only [length_unmask]) fun i _ _ => ?_
  simp only [unmask, List.getElem_mapIdx, UInt8.xor_assoc, UInt8.xor_self, UInt8.xor_zero]

theorem LengthCode.Fits.lt {code : LengthCode} {n : ℕ} (h : code.Fits n) : n < 2 ^ 64 := by
  cases code with
  | bits7 => exact (show n < 126 from h).trans (by omega)
  | bits16 => exact (show n < 2 ^ 16 from h).trans (by omega)
  | bits64 => exact h

theorem takeExact_two (a b : UInt8) (s : List UInt8) :
    takeExact (a :: b :: s) 2 = some ([a, b], s) :=
  takeExact_of_length (a := [a, b]) rfl s

theorem parseFrame_encodeFrame (fin : Bool) {opcode : ℕ} (hop : opcode < 16) (x : Sent)
    (rest : List UInt8) :
    parseFrame (encodeFrame fin opcode x ++ rest) =
      if x.payload.length ≤ 2 ^ 30 then some (⟨fin, opcode, x.payload⟩, rest) else none := by
  obtain ⟨payload, code, mask, hfits⟩ := x
  obtain ⟨hfin, hopcode⟩ := header_fin fin opcode hop
  obtain ⟨hlen, hmask⟩ := header_length mask.isSome _ (encode_lt hfits)
  have hrange := toLongLong_range hfits.lt
  have hcast : payload.length ≤ 2 ^ 30 → (toLongLong payload.length).toNat = payload.length := by
    intro h
    rw [toLongLong, if_pos (by omega), Int.toNat_natCast]
  rw [parseFrame, encodeFrame]
  dsimp only
  rw [List.cons_append, List.cons_append, List.append_assoc, takeExact_two]
  simp only [Option.bind_eq_bind, Option.bind_some, List.getD_cons_zero, List.getD_cons_succ, hfin,
    hopcode, hlen, hmask, parseLength_encode hfits]
  cases mask with
  | none =>
    simp only [Option.isSome_none, Bool.false_eq_true, if_false, Option.elim_none, parseMask,
      ne_eq, not_true_eq_false, Option.bind_some]
    by_cases h : payload.length ≤ 2 ^ 30
    · rw [if_neg (hrange.2 h), if_pos h, hcast h, takeExact_append, Option.bind_some]
    · rw [if_pos (not_not.1 (mt hrange.1 h)), if_neg h]
  | some key =>
    simp only [Option.isSome_some, if_true, Option.elim_some, parseMask, ne_eq, one_ne_zero,
      not_false_eq_true, List.append_assoc, takeExact_of_length key.length_eq, Option.bind_some]
    by_cases h : payload.length ≤ 2 ^ 30
    · rw [if_neg (hrange.2 h), if_pos h, hcast h, takeExact_of_length (length_unmask _ _),
        Option.bind_some, unmask_unmask]
    · rw [if_pos (not_not.1 (mt hrange.1 h)), if_neg h]

theorem wsSendFrame_eq (opcode : ℕ) (hop : opcode < 16) (payload : List UInt8)
    (hlen : payload.length < 2 ^ 31) :
    ∃ x : Sent, x.payload = payload ∧ wsSendFrame opcode payload = encodeFrame true opcode x := by
  have hbyte (n : ℕ) : UInt8.ofNat (n &&& 0xff) = UInt8.ofNat n := by
    rw [show (0xff : ℕ) = 2 ^ 8 - 1 from rfl, Nat.and_two_pow_sub_one_eq_mod]
    exact UInt8.ofNat_mod_size
  have hfirst : UInt8.ofNat (0x80 ||| (opcode &&& 0x0f)) = UInt8.ofNat (0x80 + opcode) := by
    have : ∀ n < 16, 0x80 ||| (n &&& 0x0f) = 0x80 + n := by decide
    rw [this opcode hop]
  rw [wsSendFrame, wsHeader, hfirst]
  by_cases h7 : payload.length < 126
  · refine ⟨⟨payload, .bits7, none, h7⟩, rfl, ?_⟩
    rw [if_pos h7]
    simp [encodeFrame, LengthCode.encode]
  · rw [if_neg h7]
    by_cases h16 : payload.length ≤ 0xffff
    · refine ⟨⟨payload, .bits16, none, (by omega : payload.length < 2 ^ 16)⟩, rfl, ?_⟩
      rw [if_pos h16]
      simp only [encodeFrame, LengthCode.encode, hbyte, List.map_cons, List.map_nil,
        Nat.shiftRight_zero]
      rfl
    · refine ⟨⟨payload, .bits64, none, (by omega : payload.length < 2 ^ 64)⟩, rfl, ?_⟩
      rw [if_neg h16]
      simp only [encodeFrame, LengthCode.encode, hbyte]
      rfl

/-! ### The buffer of a message -/

theorem growCap_overflow {needed : ℤ} (hneeded : 2 ^ 30 < needed) (k j : ℕ) (hj : j + k = 30) :
    growCap (2 ^ j) needed = none := by
  induction k generalizing j with
  | zero =>
    obtain rfl : j = 30 := hj
    rw [growCap, if_pos (by norm_num; exact hneeded), if_neg (by norm_num)]
  | succ k ih =>
    have hlt : ((2 ^ j : ℕ) : ℤ) < needed := by
      have : 2 ^ j ≤ 2 ^ 30 := Nat.pow_le_pow_right (by norm_num) (by omega)
      omega
    have hpow : 2 * 2 ^ j < 2 ^ 31 := by
      rw [← pow_succ']
      exact Nat.pow_lt_pow_right (by norm_num) (by omega)
    rw [growCap, if_pos hlt, if_pos ⟨by positivity, hpow⟩, ← pow_succ']
    exact ih (j + 1) (by omega)

theorem goodCap_le {cap : ℕ} (h : GoodCap cap) : cap ≤ 2 ^ 30 := by
  obtain rfl | ⟨k, hk, rfl⟩ := h
  · omega
  · exact Nat.pow_le_pow_right (by norm_num) hk

theorem startCap_eq {cap : ℕ} (h : GoodCap cap) :
    ∃ k ≤ 30, (if 0 < cap then cap else 4096) = 2 ^ k := by
  obtain rfl | ⟨k, hk, rfl⟩ := h
  · exact ⟨12, by omega, rfl⟩
  · exact ⟨k, hk, if_pos (by positivity)⟩

theorem wsMsgGrow_fits {ws : HttpWsConn} (h : GoodCap ws.msgCap) {need : ℤ}
    (hneed : need ≤ 2 ^ 30) :
    ∃ cap, GoodCap cap ∧ ws.msgCap ≤ cap ∧ need ≤ cap ∧
      wsMsgGrow ws need = .ok { ws with msgCap := cap } := by
  by_cases hle : need ≤ ws.msgCap
  · exact ⟨ws.msgCap, h, le_rfl, hle, if_pos hle⟩
  · obtain ⟨k, hk, hstart⟩ := startCap_eq h
    obtain ⟨i, hki, hi, hgrow, hcap⟩ := growCap_spec need hneed (30 - k) k (by omega)
    refine ⟨2 ^ i, .inr ⟨i, hi, rfl⟩, by omega, hcap, ?_⟩
    rw [wsMsgGrow, if_neg hle, hstart, hgrow]

theorem wsMsgGrow_overflow {ws : HttpWsConn} (h : GoodCap ws.msgCap) {need : ℤ}
    (hneed : 2 ^ 30 < need) : wsMsgGrow ws need = .error .overflow := by
  obtain ⟨k, hk, hstart⟩ := startCap_eq h
  have hcap := goodCap_le h
  rw [wsMsgGrow, if_neg (by omega), hstart, growCap_overflow hneed (30 - k) k (by omega)]

theorem HttpWsConn.Inv.length_lt {ws : HttpWsConn} (h : ws.Inv) : ws.msg.length < 2 ^ 30 := by
  have hcap := goodCap_le h.cap
  obtain hnil | hroom := h.room
  · simp [hnil]
  · omega

theorem HttpWsConn.Inv.length_le {ws : HttpWsConn} (h : ws.Inv) : ws.msg.length ≤ ws.msgCap := by
  obtain hnil | hroom := h.room
  · simp [hnil]
  · omega

theorem wsInt_of_lt {n : ℤ} (h₀ : 0 ≤ n) (h : n < 2 ^ 31) : wsInt n = .ok n := by
  rw [wsInt, checkInt_of_lt h₀ h]

/-- The connection that the payload of a data frame is put after. -/
def HttpWsConn.started (ws : HttpWsConn) (f : WsFrame) : HttpWsConn :=
  { ws with msgOpcode := kindAfter f.opcode ws.msgOpcode, msg := msgBefore f.opcode ws.msg }

theorem wsAppend_eq (ws : HttpWsConn) (f : WsFrame) :
    wsAppend ws f =
      if f.payload.length = 0 then .ok (ws.started f)
      else
        wsInt ((msgBefore f.opcode ws.msg).length + f.payload.length + 1) >>= fun need =>
          wsMsgGrow (ws.started f) need >>= fun ws =>
            .ok { ws with msg := ws.msg ++ f.payload } := by
  rw [wsAppend, HttpWsConn.started, kindAfter, msgBefore]
  by_cases h : isStart f.opcode
  · simp only [if_pos h, if_pos (show f.opcode = wsOpText ∨ f.opcode = wsOpBin from h)]
  · simp only [if_neg h, if_neg (show ¬(f.opcode = wsOpText ∨ f.opcode = wsOpBin) from h)]

theorem started_inv (f : WsFrame) {ws : HttpWsConn} (h : ws.Inv) : (ws.started f).Inv := by
  refine ⟨h.cap, ?_⟩
  dsimp only [HttpWsConn.started, msgBefore]
  split_ifs
  · exact .inl rfl
  · exact h.room

theorem total_eq (f : WsFrame) (msg : List UInt8) :
    f.total msg.length = (msgBefore f.opcode msg).length + f.payload.length := by
  rw [WsFrame.total, msgBefore]
  split_ifs <;> rfl

theorem wsAppend_fits {ws : HttpWsConn} (h : ws.Inv) {f : WsFrame}
    (hfits : f.total ws.msg.length < 2 ^ 30) :
    ∃ cap, (⟨ws.conn, ws.net, ws.sent, ws.closed, msgBefore f.opcode ws.msg ++ f.payload, cap,
        kindAfter f.opcode ws.msgOpcode⟩ : HttpWsConn).Inv ∧
      wsAppend ws f = .ok ⟨ws.conn, ws.net, ws.sent, ws.closed,
        msgBefore f.opcode ws.msg ++ f.payload, cap, kindAfter f.opcode ws.msgOpcode⟩ := by
  rw [total_eq] at hfits
  have hstart := started_inv f h
  rw [wsAppend_eq]
  by_cases h0 : f.payload.length = 0
  · rw [if_pos h0, List.length_eq_zero_iff.1 h0, List.append_nil]
    exact ⟨ws.msgCap, ⟨hstart.cap, hstart.room⟩, rfl⟩
  · have hle : ((msgBefore f.opcode ws.msg).length + f.payload.length + 1 : ℤ) ≤ 2 ^ 30 := by omega
    obtain ⟨cap, hcap, -, hneed, hgrow⟩ := wsMsgGrow_fits hstart.cap hle
    refine ⟨cap, ⟨hcap, .inr ?_⟩, ?_⟩
    · rw [List.length_append]
      dsimp only
      omega
    · rw [if_neg h0, wsInt_of_lt (by omega) (by omega)]
      simp only [bind, Except.bind, hgrow]
      rfl

theorem wsAppend_overflow {ws : HttpWsConn} (h : ws.Inv) {f : WsFrame}
    (hlong : 2 ^ 30 ≤ f.total ws.msg.length) : wsAppend ws f = .error .overflow := by
  have hstart := started_inv f h
  have hlen : (msgBefore f.opcode ws.msg).length < 2 ^ 30 := hstart.length_lt
  rw [total_eq] at hlong
  have hneed : (2 ^ 30 : ℤ) < (msgBefore f.opcode ws.msg).length + f.payload.length + 1 := by omega
  rw [wsAppend_eq, if_neg (by omega)]
  by_cases hint : ((msgBefore f.opcode ws.msg).length + f.payload.length + 1 : ℤ) < 2 ^ 31
  · rw [wsInt_of_lt (by omega) hint]
    simp only [bind, Except.bind, wsMsgGrow_overflow hstart.cap hneed]
  · rw [wsInt, checkInt, if_neg (by omega)]
    rfl

theorem wsFinish_spec {ws : HttpWsConn} (h : ws.Inv) :
    ∃ cap, ({ ws with msgCap := cap } : HttpWsConn).Inv ∧
      wsFinish ws = .ok (if ws.msgOpcode = wsOpText then 1 else 2, { ws with msgCap := cap }) := by
  have hlen := h.length_lt
  rw [wsFinish]
  by_cases htext : ws.msgOpcode = wsOpText
  · have hle : (ws.msg.length + 1 : ℤ) ≤ 2 ^ 30 := by omega
    obtain ⟨cap, hcap, -, hneed, hgrow⟩ := wsMsgGrow_fits h.cap hle
    refine ⟨cap, ⟨hcap, .inr ?_⟩, ?_⟩
    · dsimp only
      omega
    · rw [if_pos htext, if_pos htext, wsInt_of_lt (by omega) (by omega)]
      simp only [bind, Except.bind, hgrow]
  · exact ⟨ws.msgCap, h, by rw [if_neg htext, if_neg htext]⟩

/-! ### A turn -/

/-- A connection after a turn: the bytes left, the message so far and its kind. -/
structure Turned (ws b : HttpWsConn) (op : ℕ) (msg rest : List UInt8) : Prop where
  inv : b.Inv
  stream : b.stream = rest
  msg : b.msg = msg
  opcode : b.msgOpcode = op
  closed : b.closed = ws.closed

section Turn

variable {ws : HttpWsConn} {f : WsFrame} {rest : List UInt8}

theorem readFrame_none {conn : HttpConn} {net : Net}
    (h : parseFrame (conn.unread ++ net.pending) = none) : readFrame conn net = none :=
  Option.map_eq_none_iff.1 ((readFrame_views conn net).trans h)

theorem readFrame_some {conn : HttpConn} {net : Net}
    (h : parseFrame (conn.unread ++ net.pending) = some (f, rest)) :
    ∃ conn' net', readFrame conn net = some (f, conn', net') ∧
      conn'.unread ++ net'.pending = rest := by
  obtain ⟨⟨f', conn', net'⟩, hread, heq⟩ :=
    Option.map_eq_some_iff.1 ((readFrame_views conn net).trans h)
  obtain ⟨rfl, hrest⟩ := Prod.mk.inj heq
  exact ⟨conn', net', hread, hrest⟩

theorem turn_none (h : ws.Inv) (hparse : parseFrame ws.stream = none) :
    ∃ b : HttpWsConn, recvStep ws = .ok (.inr (-1, b)) ∧ b.Inv ∧ b.closed = true := by
  refine ⟨{ ws with closed := true }, ?_, ⟨h.cap, h.room⟩, rfl⟩
  rw [recvStep, readFrame_none hparse]

theorem turn_control (h : ws.Inv) (hparse : parseFrame ws.stream = some (f, rest))
    (hf : f.isControl) :
    ∃ b : HttpWsConn, recvStep ws = .ok (.inl b) ∧ Turned ws b ws.msgOpcode ws.msg rest := by
  obtain ⟨conn, net, hread, hrest⟩ := readFrame_some hparse
  rw [recvStep, hread]
  dsimp only
  by_cases hping : f.opcode = wsOpPing
  · exact ⟨_, if_pos hping, ⟨h.cap, h.room⟩, hrest, rfl, rfl, rfl⟩
  · have hpong : f.opcode = wsOpPong := hf.resolve_left hping
    rw [if_neg hping]
    exact ⟨_, if_pos hpong, ⟨h.cap, h.room⟩, hrest, rfl, rfl, rfl⟩

theorem turn_close (h : ws.Inv) (hparse : parseFrame ws.stream = some (f, rest))
    (hf : f.opcode = wsOpClose) :
    ∃ b : HttpWsConn, recvStep ws = .ok (.inr (-1, b)) ∧ b.Inv ∧ b.closed = true := by
  obtain ⟨conn, net, hread, hrest⟩ := readFrame_some hparse
  rw [recvStep, hread]
  dsimp only
  rw [if_neg (by rw [hf]; decide), if_neg (by rw [hf]; decide), if_pos hf]
  exact ⟨_, rfl, ⟨h.cap, h.room⟩, rfl⟩

theorem turn_data (hparse : parseFrame ws.stream = some (f, rest)) (hf : f.isData) :
    ∃ conn net, conn.unread ++ net.pending = rest ∧
      recvStep ws = wsAppend { ws with conn := conn, net := net } f >>= fun ws =>
        if f.fin then wsFinish ws >>= fun r => .ok (.inr r) else .ok (.inl ws) := by
  obtain ⟨conn, net, hread, hrest⟩ := readFrame_some hparse
  refine ⟨conn, net, hrest, ?_⟩
  rw [recvStep, hread]
  dsimp only
  rw [if_neg fun h => hf.1 (.inl h), if_neg fun h => hf.1 (.inr h), if_neg hf.2]

theorem turn_long (h : ws.Inv) (hparse : parseFrame ws.stream = some (f, rest)) (hf : f.isData)
    (hlong : 2 ^ 30 ≤ f.total ws.msg.length) : recvStep ws = .error .overflow := by
  obtain ⟨conn, net, -, hturn⟩ := turn_data hparse hf
  have hinv : ({ ws with conn := conn, net := net } : HttpWsConn).Inv := ⟨h.cap, h.room⟩
  rw [hturn, wsAppend_overflow hinv hlong]
  rfl

theorem turn_more (h : ws.Inv) (hparse : parseFrame ws.stream = some (f, rest)) (hf : f.isData)
    (hfits : f.total ws.msg.length < 2 ^ 30) (hfin : f.fin = false) :
    ∃ b : HttpWsConn, recvStep ws = .ok (.inl b) ∧
      Turned ws b (kindAfter f.opcode ws.msgOpcode) (msgBefore f.opcode ws.msg ++ f.payload)
        rest := by
  obtain ⟨conn, net, hrest, hturn⟩ := turn_data hparse hf
  have hinv : ({ ws with conn := conn, net := net } : HttpWsConn).Inv := ⟨h.cap, h.room⟩
  obtain ⟨cap, hinv', happend⟩ := wsAppend_fits hinv hfits
  rw [hturn, happend, hfin]
  exact ⟨_, rfl, hinv', hrest, rfl, rfl, rfl⟩

theorem turn_fin (h : ws.Inv) (hparse : parseFrame ws.stream = some (f, rest)) (hf : f.isData)
    (hfits : f.total ws.msg.length < 2 ^ 30) (hfin : f.fin = true) :
    ∃ b : HttpWsConn,
      recvStep ws = .ok (.inr (if kindAfter f.opcode ws.msgOpcode = wsOpText then 1 else 2, b)) ∧
        Turned ws b (kindAfter f.opcode ws.msgOpcode) (msgBefore f.opcode ws.msg ++ f.payload)
          rest := by
  obtain ⟨conn, net, hrest, hturn⟩ := turn_data hparse hf
  have hinv : ({ ws with conn := conn, net := net } : HttpWsConn).Inv := ⟨h.cap, h.room⟩
  obtain ⟨cap, hinv', happend⟩ := wsAppend_fits hinv hfits
  obtain ⟨cap', hinv'', hfinish⟩ := wsFinish_spec hinv'
  rw [hturn, happend, hfin]
  simp only [bind, Except.bind, if_true, hfinish]
  exact ⟨_, rfl, hinv'', hrest, rfl, rfl, rfl⟩

end Turn

theorem takeExact_length {s a rest : List UInt8} {n : ℕ} (h : takeExact s n = some (a, rest)) :
    rest.length + n = s.length := by
  rw [takeExact] at h
  split_ifs at h with hn
  obtain ⟨-, rfl⟩ := Prod.mk.inj (Option.some.inj h)
  rw [List.length_drop]
  omega

theorem parseLength_length {pl : ℕ} {s rest : List UInt8} {n : ℤ}
    (h : parseLength pl s = some (n, rest)) : rest.length ≤ s.length := by
  rw [parseLength] at h
  split_ifs at h
  · obtain ⟨⟨a, t⟩, htake, heq⟩ := Option.map_eq_some_iff.1 h
    obtain ⟨-, rfl⟩ := Prod.mk.inj heq
    exact (takeExact_length htake).symm ▸ Nat.le_add_right _ _
  · obtain ⟨⟨a, t⟩, htake, heq⟩ := Option.map_eq_some_iff.1 h
    obtain ⟨-, rfl⟩ := Prod.mk.inj heq
    exact (takeExact_length htake).symm ▸ Nat.le_add_right _ _
  · obtain ⟨-, rfl⟩ := Prod.mk.inj (Option.some.inj h)
    exact le_rfl

theorem parseMask_length {masked : ℕ} {s key rest : List UInt8}
    (h : parseMask masked s = some (key, rest)) : rest.length ≤ s.length := by
  rw [parseMask] at h
  split_ifs at h
  · exact (takeExact_length h).symm ▸ Nat.le_add_right _ _
  · obtain ⟨-, rfl⟩ := Prod.mk.inj (Option.some.inj h)
    exact le_rfl

/-- Each frame takes its first two bytes at least. -/
theorem parseFrame_length {s rest : List UInt8} {f : WsFrame} (h : parseFrame s = some (f, rest)) :
    rest.length < s.length := by
  rw [parseFrame] at h
  obtain ⟨⟨hdr2, s₁⟩, h₁, h⟩ := Option.bind_eq_some_iff.1 h
  obtain ⟨⟨pl, s₂⟩, h₂, h⟩ := Option.bind_eq_some_iff.1 h
  obtain ⟨⟨key, s₃⟩, h₃, h⟩ := Option.bind_eq_some_iff.1 h
  dsimp only at h
  by_cases hpl : pl < 0 ∨ pl > wsFrameMax
  · rw [if_pos hpl] at h
    cases h
  rw [if_neg hpl] at h
  obtain ⟨⟨frame, s₄⟩, h₄, h⟩ := Option.bind_eq_some_iff.1 h
  obtain ⟨-, rfl⟩ := Prod.mk.inj (Option.some.inj h)
  have := takeExact_length h₁
  have := parseLength_length h₂
  have := parseMask_length h₃
  have := takeExact_length h₄
  dsimp only
  omega

/-! ### Any bytes -/

section TooLong

variable {n len : ℕ} {s rest : List UInt8} {f : WsFrame}

theorem not_tooLong_none (hparse : parseFrame s = none) : ¬ TooLong (n + 1) len s := by
  intro h
  cases h with
  | control h | long h | more h | next h => simp [hparse] at h

theorem not_tooLong_close (hparse : parseFrame s = some (f, rest)) (hf : f.opcode = wsOpClose) :
    ¬ TooLong (n + 1) len s := by
  intro h
  cases h with
  | control h hf' =>
    obtain ⟨rfl, rfl⟩ := Prod.mk.inj (Option.some.inj (hparse.symm.trans h))
    rw [WsFrame.isControl, hf] at hf'
    revert hf'
    decide
  | long h hf' | more h hf' | next h hf' =>
    obtain ⟨rfl, rfl⟩ := Prod.mk.inj (Option.some.inj (hparse.symm.trans h))
    exact hf'.2 hf

theorem tooLong_control (hparse : parseFrame s = some (f, rest)) (hf : f.isControl) :
    TooLong (n + 1) len s ↔ TooLong (n + 1) len rest := by
  refine ⟨fun h => ?_, .control hparse hf⟩
  cases h with
  | control h _ hrest =>
    obtain ⟨rfl, rfl⟩ := Prod.mk.inj (Option.some.inj (hparse.symm.trans h))
    exact hrest
  | long h hf' | more h hf' | next h hf' =>
    obtain ⟨rfl, rfl⟩ := Prod.mk.inj (Option.some.inj (hparse.symm.trans h))
    exact absurd hf hf'.1

/-- A data frame that fits does not end the search. -/
theorem tooLong_data (hparse : parseFrame s = some (f, rest)) (hf : f.isData)
    (hfits : f.total len < 2 ^ 30) :
    TooLong (n + 1) len s ↔
      if f.fin then TooLong n 0 rest else TooLong (n + 1) (f.total len) rest := by
  constructor
  · intro h
    cases h with
    | control h hf' =>
      obtain ⟨rfl, rfl⟩ := Prod.mk.inj (Option.some.inj (hparse.symm.trans h))
      exact absurd hf' hf.1
    | long h _ hlong =>
      obtain ⟨rfl, rfl⟩ := Prod.mk.inj (Option.some.inj (hparse.symm.trans h))
      omega
    | more h _ hfin hrest =>
      obtain ⟨rfl, rfl⟩ := Prod.mk.inj (Option.some.inj (hparse.symm.trans h))
      rwa [hfin, if_neg (by decide)]
    | next h _ hfin hrest =>
      obtain ⟨rfl, rfl⟩ := Prod.mk.inj (Option.some.inj (hparse.symm.trans h))
      rwa [hfin, if_pos rfl]
  · intro h
    cases hfin : f.fin with
    | true =>
      rw [hfin, if_pos rfl] at h
      exact .next hparse hf hfin h
    | false =>
      rw [hfin, if_neg (by decide)] at h
      exact .more hparse hf hfin h

end TooLong

theorem length_append_payload (f : WsFrame) (msg : List UInt8) :
    (msgBefore f.opcode msg ++ f.payload).length = f.total msg.length := by
  rw [total_eq, List.length_append]

section Loop

variable {ws b : HttpWsConn} {fuel : ℕ}

theorem recvLoop_turn (h : recvStep ws = .ok (.inl b)) :
    recvLoop (fuel + 1) ws = recvLoop fuel b := by
  simp only [recvLoop, h]

theorem recvLoop_end {r : ℤ} (h : recvStep ws = .ok (.inr (r, b))) :
    recvLoop (fuel + 1) ws = .ok (r, b) := by
  simp only [recvLoop, h]

theorem recvLoop_fault {e : WsFault} (h : recvStep ws = .error e) :
    recvLoop (fuel + 1) ws = .error e := by
  simp only [recvLoop, h]

/-- The rest of a call overflows just where the message gets too long. -/
def Judged (ws : HttpWsConn) (out : Except WsFault (ℤ × HttpWsConn)) : Prop :=
  (out = .error .overflow ∧ ∀ n, TooLong (n + 1) ws.msg.length ws.stream) ∨
  ∃ r b, out = .ok (r, b) ∧ b.Inv ∧
    ∀ n, TooLong (n + 1) ws.msg.length ws.stream ↔ b.closed = false ∧ TooLong n 0 b.stream

theorem judged_turn {op : ℕ} {msg rest : List UInt8} {out : Except WsFault (ℤ × HttpWsConn)}
    (hb : Turned ws b op msg rest) (hout : Judged b out)
    (hiff : ∀ n, TooLong (n + 1) ws.msg.length ws.stream ↔ TooLong (n + 1) msg.length rest) :
    Judged ws out := by
  rw [Judged, hb.msg, hb.stream] at hout
  simp only [Judged, hiff]
  exact hout

theorem judged_closed (hb : b.Inv) (hclosed : b.closed = true)
    (hnot : ∀ n, ¬ TooLong (n + 1) ws.msg.length ws.stream) : Judged ws (.ok (-1, b)) := by
  refine .inr ⟨-1, b, rfl, hb, fun n => ?_⟩
  rw [hclosed]
  exact ⟨fun hlong => absurd hlong (hnot n), fun hlong => absurd hlong.1 (by decide)⟩

theorem recvLoop_judged (h : ws.Inv) (hopen : ws.closed = false) (hfuel : ws.stream.length < fuel) :
    Judged ws (recvLoop fuel ws) := by
  induction fuel generalizing ws with
  | zero => omega
  | succ fuel ih =>
    rcases hparse : parseFrame ws.stream with _ | ⟨f, rest⟩
    · obtain ⟨b, hstep, hb, hclosed⟩ := turn_none h hparse
      rw [recvLoop_end hstep]
      exact judged_closed hb hclosed fun n => not_tooLong_none hparse
    have hrest := parseFrame_length hparse
    by_cases hcontrol : f.isControl
    · obtain ⟨b, hstep, hb⟩ := turn_control h hparse hcontrol
      rw [recvLoop_turn hstep]
      exact judged_turn hb (ih hb.inv (hb.closed.trans hopen) (by rw [hb.stream]; omega))
        fun n => tooLong_control hparse hcontrol
    by_cases hclose : f.opcode = wsOpClose
    · obtain ⟨b, hstep, hb, hclosed⟩ := turn_close h hparse hclose
      rw [recvLoop_end hstep]
      exact judged_closed hb hclosed fun n => not_tooLong_close hparse hclose
    have hdata : f.isData := ⟨hcontrol, hclose⟩
    rcases le_or_gt (2 ^ 30) (f.total ws.msg.length) with hlong | hfits
    · rw [recvLoop_fault (turn_long h hparse hdata hlong)]
      exact .inl ⟨rfl, fun n => .long hparse hdata hlong⟩
    cases hfin : f.fin with
    | false =>
      obtain ⟨b, hstep, hb⟩ := turn_more h hparse hdata hfits hfin
      rw [recvLoop_turn hstep]
      refine judged_turn hb (ih hb.inv (hb.closed.trans hopen) (by rw [hb.stream]; omega))
        fun n => ?_
      rw [length_append_payload, tooLong_data hparse hdata hfits, hfin, if_neg (by decide)]
    | true =>
      obtain ⟨b, hstep, hb⟩ := turn_fin h hparse hdata hfits hfin
      rw [recvLoop_end hstep]
      refine .inr ⟨_, b, rfl, hb.inv, fun n => ?_⟩
      rw [tooLong_data hparse hdata hfits, hfin, if_pos rfl, hb.stream, hb.closed]
      exact (and_iff_right hopen).symm

end Loop

theorem nil_inv {ws : HttpWsConn} (h : ws.Inv) : ({ ws with msg := [] } : HttpWsConn).Inv :=
  ⟨h.cap, .inl rfl⟩

theorem wsCalls_closed (n : ℕ) {ws : HttpWsConn} (hclosed : ws.closed = true) :
    wsCalls n ws = .ok (List.replicate n (-1, ws.msg), ws) := by
  induction n with
  | zero => rfl
  | succ n ih =>
    simp only [wsCalls, httpWsRecv, hclosed, if_true, bind, Except.bind, ih, List.replicate_succ]

/-- Calls over any bytes. -/
theorem wsCalls_total (n : ℕ) {ws : HttpWsConn} (h : ws.Inv) :
    (wsCalls n ws = .error .overflow ∧ ws.closed = false ∧ TooLong n 0 ws.stream) ∨
    ((∃ rs b, wsCalls n ws = .ok (rs, b)) ∧ ¬ (ws.closed = false ∧ TooLong n 0 ws.stream)) := by
  induction n generalizing ws with
  | zero => exact .inr ⟨⟨_, _, rfl⟩, fun hlong => nomatch hlong.2⟩
  | succ n ih =>
    cases hclosed : ws.closed with
    | true => exact .inr ⟨⟨_, _, wsCalls_closed (n + 1) hclosed⟩, fun hlong => by cases hlong.1⟩
    | false =>
      have hcall : httpWsRecv ws = recvLoop (ws.stream.length + 1) { ws with msg := [] } := by
        rw [httpWsRecv, hclosed, if_neg (by decide)]
      obtain ⟨hloop, hlong⟩ | ⟨r, b, hloop, hb, hiff⟩ :=
        recvLoop_judged (nil_inv h) hclosed (Nat.lt_succ_self ws.stream.length)
      · refine .inl ⟨?_, rfl, hlong n⟩
        simp only [wsCalls, hcall, hloop, bind, Except.bind]
      · have hiff' : TooLong (n + 1) 0 ws.stream ↔ b.closed = false ∧ TooLong n 0 b.stream := hiff n
        rw [hiff']
        obtain ⟨hcalls, hlong⟩ | ⟨⟨rs, b', hcalls⟩, hnot⟩ := ih hb
        · refine .inl ⟨?_, rfl, hlong⟩
          simp only [wsCalls, hcall, hloop, hcalls, bind, Except.bind]
        · refine .inr ⟨⟨(r, b.msg) :: rs, b', ?_⟩, fun hlong => hnot hlong.2⟩
          simp only [wsCalls, hcall, hloop, hcalls, bind, Except.bind]

/-! ### Reachable states -/

theorem recvStep_inv {ws : HttpWsConn} (h : ws.Inv) :
    (∀ b, recvStep ws = .ok (.inl b) → b.Inv) ∧ ∀ r b, recvStep ws = .ok (.inr (r, b)) → b.Inv := by
  suffices hstep : recvStep ws = .error .overflow ∨ (∃ b, recvStep ws = .ok (.inl b) ∧ b.Inv) ∨
      ∃ r b, recvStep ws = .ok (.inr (r, b)) ∧ b.Inv by
    obtain hstep | ⟨b, hstep, hb⟩ | ⟨r, b, hstep, hb⟩ := hstep <;> rw [hstep]
    · exact ⟨fun b hb => (nomatch hb), fun r b hb => (nomatch hb)⟩
    · exact ⟨fun b' hb' => Sum.inl.inj (Except.ok.inj hb') ▸ hb, fun r b hb => (nomatch hb)⟩
    · refine ⟨fun b hb => (nomatch hb), fun r' b' hb' => ?_⟩
      obtain ⟨rfl, rfl⟩ := Prod.mk.inj (Sum.inr.inj (Except.ok.inj hb'))
      exact hb
  rcases hparse : parseFrame ws.stream with _ | ⟨f, rest⟩
  · obtain ⟨b, hstep, hb, -⟩ := turn_none h hparse
    exact .inr (.inr ⟨_, b, hstep, hb⟩)
  by_cases hcontrol : f.isControl
  · obtain ⟨b, hstep, hb⟩ := turn_control h hparse hcontrol
    exact .inr (.inl ⟨b, hstep, hb.inv⟩)
  by_cases hclose : f.opcode = wsOpClose
  · obtain ⟨b, hstep, hb, -⟩ := turn_close h hparse hclose
    exact .inr (.inr ⟨_, b, hstep, hb⟩)
  rcases le_or_gt (2 ^ 30) (f.total ws.msg.length) with hlong | hfits
  · exact .inl (turn_long h hparse ⟨hcontrol, hclose⟩ hlong)
  cases hfin : f.fin with
  | false =>
    obtain ⟨b, hstep, hb⟩ := turn_more h hparse ⟨hcontrol, hclose⟩ hfits hfin
    exact .inr (.inl ⟨b, hstep, hb.inv⟩)
  | true =>
    obtain ⟨b, hstep, hb⟩ := turn_fin h hparse ⟨hcontrol, hclose⟩ hfits hfin
    exact .inr (.inr ⟨_, b, hstep, hb.inv⟩)

theorem reaches_inv {ws b : HttpWsConn} (h : ws.Inv) (hb : Reaches ws b) : b.Inv := by
  induction hb with
  | refl => exact h
  | call _ ih => exact nil_inv ih
  | turn _ hstep ih => exact (recvStep_inv ih).1 _ hstep
  | result _ hstep ih => exact (recvStep_inv ih).2 _ _ hstep

/-! ### Messages -/

section Fragments

variable {ws : HttpWsConn} {fuel : ℕ}

theorem Control.parse_encode (c : Control) (rest : List UInt8) :
    parseFrame (c.encode ++ rest) =
      if c.sent.payload.length ≤ 2 ^ 30 then
        some (⟨true, if c.isPing then wsOpPing else wsOpPong, c.sent.payload⟩, rest)
      else none :=
  parseFrame_encodeFrame true (by split <;> decide) c.sent rest

theorem Control.isControl (c : Control) (payload : List UInt8) :
    (⟨true, if c.isPing then wsOpPing else wsOpPong, payload⟩ : WsFrame).isControl := by
  rw [WsFrame.isControl]
  dsimp only
  split <;> decide

/-- Control frames that are not too long leave the message as it is. -/
theorem controls_fit (cs : List Control) (hcs : ∀ c ∈ cs, c.sent.payload.length ≤ 2 ^ 30)
    {rest : List UInt8} (h : ws.Inv) (hs : ws.stream = cs.flatMap Control.encode ++ rest)
    (hfuel : ws.stream.length < fuel) :
    ∃ fuel' b, recvLoop fuel ws = recvLoop (fuel' + 1) b ∧ Turned ws b ws.msgOpcode ws.msg rest ∧
      rest.length ≤ fuel' := by
  induction cs generalizing ws fuel with
  | nil =>
    obtain ⟨fuel', rfl⟩ := Nat.exists_eq_add_of_lt hfuel
    rw [hs] at hfuel ⊢
    exact ⟨_, ws, rfl, ⟨h, hs, rfl, rfl, rfl⟩, by simp⟩
  | cons c cs ih =>
    obtain _ | fuel := fuel
    · omega
    have hparse := c.parse_encode (cs.flatMap Control.encode ++ rest)
    rw [← List.append_assoc, ← List.flatMap_cons, ← hs, if_pos (hcs c (by simp))] at hparse
    have hlt := parseFrame_length hparse
    obtain ⟨b, hstep, hb⟩ := turn_control h hparse (c.isControl _)
    have hfuel : b.stream.length < fuel := by
      rw [hb.stream]
      omega
    obtain ⟨fuel', b', hloop, hb', hfuel'⟩ :=
      ih (fun c hc => hcs c (List.mem_cons_of_mem _ hc)) hb.inv hb.stream hfuel
    refine ⟨fuel', b', (recvLoop_turn hstep).trans hloop, ⟨hb'.inv, hb'.stream, ?_, ?_, ?_⟩, hfuel'⟩
    · rw [hb'.msg, hb.msg]
    · rw [hb'.opcode, hb.opcode]
    · rw [hb'.closed, hb.closed]

theorem controls_unfit (cs : List Control) (hcs : ¬ ∀ c ∈ cs, c.sent.payload.length ≤ 2 ^ 30)
    {rest : List UInt8} (h : ws.Inv) (hs : ws.stream = cs.flatMap Control.encode ++ rest)
    (hfuel : ws.stream.length < fuel) : ∃ b, recvLoop fuel ws = .ok (-1, b) := by
  induction cs generalizing ws fuel with
  | nil => simp at hcs
  | cons c cs ih =>
    obtain _ | fuel := fuel
    · omega
    rw [List.forall_mem_cons, not_and_or] at hcs
    have hparse := c.parse_encode (cs.flatMap Control.encode ++ rest)
    rw [← List.append_assoc, ← List.flatMap_cons, ← hs] at hparse
    by_cases hc : c.sent.payload.length ≤ 2 ^ 30
    · rw [if_pos hc] at hparse
      have hlt := parseFrame_length hparse
      obtain ⟨b, hstep, hb⟩ := turn_control h hparse (c.isControl _)
      have hfuel : b.stream.length < fuel := by
        rw [hb.stream]
        omega
      obtain ⟨b', hloop⟩ := ih (hcs.resolve_left (not_not.2 hc)) hb.inv hb.stream hfuel
      exact ⟨b', (recvLoop_turn hstep).trans hloop⟩
    · rw [if_neg hc] at hparse
      obtain ⟨b, hstep, -, -⟩ := turn_none h hparse
      exact ⟨b, recvLoop_end hstep⟩

def Fragment.Fits (g : Fragment) : Prop := ∀ c ∈ g.controls, c.sent.payload.length ≤ 2 ^ 30

def payloads (gs : List Fragment) : List UInt8 := gs.flatMap fun g => g.sent.payload

theorem isData_of_op {op : ℕ} (hop : op = wsOpCont ∨ isStart op) (fin : Bool)
    (payload : List UInt8) : (⟨fin, op, payload⟩ : WsFrame).isData := by
  have hne : ¬ (op = wsOpPing ∨ op = wsOpPong) ∧ op ≠ wsOpClose := by
    obtain rfl | rfl | rfl := hop <;> decide
  exact hne

theorem lt_of_op {op : ℕ} (hop : op = wsOpCont ∨ isStart op) : op < 16 := by
  obtain rfl | rfl | rfl := hop <;> decide

theorem msgBefore_cont (msg : List UInt8) : msgBefore wsOpCont msg = msg := if_neg (by decide)

theorem kindAfter_cont (op : ℕ) : kindAfter wsOpCont op = op := if_neg (by decide)

theorem payloads_cons (g : Fragment) (gs : List Fragment) :
    payloads (g :: gs) = g.sent.payload ++ payloads gs := List.flatMap_cons

theorem fragments_fit (gs : List Fragment) (hne : gs ≠ []) (hcs : ∀ g ∈ gs, g.Fits) {op : ℕ}
    (hop : op = wsOpCont ∨ isStart op) {rest : List UInt8} (h : ws.Inv)
    (hs : ws.stream = encodeFragments op gs ++ rest)
    (hlen : (msgBefore op ws.msg ++ payloads gs).length < 2 ^ 30)
    (hfuel : ws.stream.length < fuel) :
    ∃ b, recvLoop fuel ws = .ok (if kindAfter op ws.msgOpcode = wsOpText then 1 else 2, b) ∧
      Turned ws b (kindAfter op ws.msgOpcode) (msgBefore op ws.msg ++ payloads gs) rest := by
  induction gs generalizing ws fuel op with
  | nil => exact absurd rfl hne
  | cons g gs ih =>
    rw [payloads_cons, ← List.append_assoc] at hlen ⊢
    rw [encodeFragments, List.append_assoc, List.append_assoc] at hs
    obtain ⟨fuel', b, hloop, hb, hfuel'⟩ := controls_fit g.controls (hcs g (by simp)) h hs hfuel
    have hparse := parseFrame_encodeFrame gs.isEmpty (lt_of_op hop) g.sent
      (encodeFragments wsOpCont gs ++ rest)
    rw [List.length_append, List.length_append] at hlen
    rw [← hb.stream, if_pos (by omega)] at hparse
    have hdata := isData_of_op hop gs.isEmpty g.sent.payload
    have hfits : (⟨gs.isEmpty, op, g.sent.payload⟩ : WsFrame).total b.msg.length < 2 ^ 30 := by
      rw [total_eq, hb.msg]
      dsimp only
      omega
    rw [hloop]
    cases gs with
    | nil =>
      obtain ⟨b', hstep, hb'⟩ := turn_fin hb.inv hparse hdata hfits rfl
      refine ⟨b', by rw [recvLoop_end hstep, hb.opcode], hb'.inv, hb'.stream, ?_, ?_, ?_⟩
      · rw [hb'.msg, hb.msg, payloads, List.flatMap_nil, List.append_nil]
      · rw [hb'.opcode, hb.opcode]
      · rw [hb'.closed, hb.closed]
    | cons g' gs =>
      obtain ⟨b', hstep, hb'⟩ := turn_more hb.inv hparse hdata hfits rfl
      have hmsg : b'.msg = msgBefore op ws.msg ++ g.sent.payload := by rw [hb'.msg, hb.msg]
      have hkind : b'.msgOpcode = kindAfter op ws.msgOpcode := by rw [hb'.opcode, hb.opcode]
      have hfuel : b'.stream.length < fuel' := by
        have hlt := parseFrame_length hparse
        rw [hb.stream] at hlt
        rw [hb'.stream]
        omega
      have hlen' : (msgBefore wsOpCont b'.msg ++ payloads (g' :: gs)).length < 2 ^ 30 := by
        rw [msgBefore_cont, hmsg, List.length_append, List.length_append]
        exact hlen
      obtain ⟨b'', hloop', hb''⟩ := ih (by simp) (fun g hg => hcs g (List.mem_cons_of_mem _ hg))
        (.inl rfl) hb'.inv hb'.stream hlen' hfuel
      rw [kindAfter_cont, hkind] at hloop' hb''
      rw [msgBefore_cont, hmsg] at hb''
      refine ⟨b'', (recvLoop_turn hstep).trans hloop', hb''.inv, hb''.stream, hb''.msg,
        hb''.opcode, ?_⟩
      rw [hb''.closed, hb'.closed, hb.closed]

theorem fragments_unfit (gs : List Fragment) {op : ℕ} (hop : op = wsOpCont ∨ isStart op)
    {rest : List UInt8} (h : ws.Inv) (hs : ws.stream = encodeFragments op gs ++ rest)
    (hunfit : ¬ ((msgBefore op ws.msg ++ payloads gs).length < 2 ^ 30 ∧ ∀ g ∈ gs, g.Fits))
    (hmsg : (msgBefore op ws.msg).length < 2 ^ 30) (hfuel : ws.stream.length < fuel) :
    recvLoop fuel ws = .error .overflow ∨ ∃ b, recvLoop fuel ws = .ok (-1, b) := by
  induction gs generalizing ws fuel op with
  | nil =>
    refine absurd ⟨?_, fun g hg => nomatch hg⟩ hunfit
    rwa [payloads, List.flatMap_nil, List.append_nil]
  | cons g gs ih =>
    rw [payloads_cons, ← List.append_assoc, List.forall_mem_cons] at hunfit
    rw [encodeFragments, List.append_assoc, List.append_assoc] at hs
    by_cases hg : g.Fits
    · obtain ⟨fuel', b, hloop, hb, hfuel'⟩ := controls_fit g.controls hg h hs hfuel
      have hparse := parseFrame_encodeFrame gs.isEmpty (lt_of_op hop) g.sent
        (encodeFragments wsOpCont gs ++ rest)
      rw [← hb.stream] at hparse
      rw [hloop]
      by_cases hframe : g.sent.payload.length ≤ 2 ^ 30
      · rw [if_pos hframe] at hparse
        have hdata := isData_of_op hop gs.isEmpty g.sent.payload
        have htotal : (⟨gs.isEmpty, op, g.sent.payload⟩ : WsFrame).total b.msg.length =
            (msgBefore op ws.msg ++ g.sent.payload).length := by
          rw [← length_append_payload, hb.msg]
        rcases le_or_gt (2 ^ 30) (msgBefore op ws.msg ++ g.sent.payload).length with hlong | hfits
        · exact .inl (recvLoop_fault (turn_long hb.inv hparse hdata (htotal ▸ hlong)))
        · rw [← htotal] at hfits
          cases gs with
          | nil =>
            refine absurd ⟨?_, hg, fun g hg => nomatch hg⟩ hunfit
            rwa [payloads, List.flatMap_nil, List.append_nil, ← htotal]
          | cons g' gs =>
            obtain ⟨b', hstep, hb'⟩ := turn_more hb.inv hparse hdata hfits rfl
            have hmsg' : b'.msg = msgBefore op ws.msg ++ g.sent.payload := by rw [hb'.msg, hb.msg]
            have hfuel : b'.stream.length < fuel' := by
              have hlt := parseFrame_length hparse
              rw [hb.stream] at hlt
              rw [hb'.stream]
              omega
            rw [recvLoop_turn hstep]
            refine ih (.inl rfl) hb'.inv hb'.stream ?_ ?_ hfuel
            · rw [msgBefore_cont, hmsg']
              exact fun hfit => hunfit ⟨hfit.1, hg, hfit.2⟩
            · rwa [msgBefore_cont, hmsg', ← htotal]
      · rw [if_neg hframe] at hparse
        obtain ⟨b', hstep, -, -⟩ := turn_none hb.inv hparse
        exact .inr ⟨b', recvLoop_end hstep⟩
    · exact .inr (controls_unfit g.controls hg h hs hfuel)

end Fragments

section Calls

variable {ws : HttpWsConn}

theorem httpWsRecv_open (hopen : ws.closed = false) :
    httpWsRecv ws = recvLoop (ws.stream.length + 1) { ws with msg := [] } := by
  rw [httpWsRecv, hopen, if_neg (by decide)]

theorem msgBefore_nil (op : ℕ) : msgBefore op [] = [] := by
  rw [msgBefore]
  split_ifs <;> rfl

theorem message_fit (h : ws.Inv) (hopen : ws.closed = false) {m : Message} {rest : List UInt8}
    (hs : ws.stream = m.encode ++ rest) (hm : m.Fits) :
    ∃ b, httpWsRecv ws = .ok (m.result.1, b) ∧ b.Inv ∧ b.closed = false ∧ b.stream = rest ∧
      b.msg = m.payload := by
  have hop : isStart (if m.isText then wsOpText else wsOpBin) := by split <;> decide
  have hlen : (msgBefore (if m.isText then wsOpText else wsOpBin) [] ++
      payloads m.fragments).length < 2 ^ 30 := by
    rw [msgBefore_nil]
    exact hm.1
  obtain ⟨b, hloop, hb⟩ := fragments_fit m.fragments (by simp [Message.fragments]) hm.2 (.inr hop)
    (nil_inv h) hs hlen (Nat.lt_succ_self ws.stream.length)
  refine ⟨b, ?_, hb.inv, hb.closed.trans hopen, hb.stream, ?_⟩
  · rw [httpWsRecv_open hopen, hloop, kindAfter, if_pos hop, Message.result]
    cases m.isText <;> rfl
  · rw [hb.msg, msgBefore_nil]
    rfl

theorem message_unfit (h : ws.Inv) (hopen : ws.closed = false) {m : Message} {rest : List UInt8}
    (hs : ws.stream = m.encode ++ rest) (hm : ¬ m.Fits) :
    httpWsRecv ws = .error .overflow ∨ ∃ b, httpWsRecv ws = .ok (-1, b) := by
  have hop : isStart (if m.isText then wsOpText else wsOpBin) := by split <;> decide
  rw [httpWsRecv_open hopen]
  refine fragments_unfit m.fragments (.inr hop) (nil_inv h) hs ?_ ?_
    (Nat.lt_succ_self ws.stream.length)
  · rw [msgBefore_nil]
    exact hm
  · rw [msgBefore_nil, List.length_nil]
    omega

theorem result_ne (m : Message) : m.result.1 ≠ -1 := by
  rw [Message.result]
  dsimp only
  split <;> decide

/-- The calls give the messages just if each of them fits. -/
theorem calls_exact_iff (h : ws.Inv) (hopen : ws.closed = false) (ms : List Message)
    {rest : List UInt8} (hs : ws.stream = ms.flatMap Message.encode ++ rest) :
    (∃ b, wsCalls ms.length ws = .ok (ms.map Message.result, b) ∧ b.stream = rest) ↔
      ∀ m ∈ ms, m.Fits := by
  induction ms generalizing ws with
  | nil => exact ⟨fun _ m hm => (nomatch hm), fun _ => ⟨ws, rfl, hs⟩⟩
  | cons m ms ih =>
    rw [List.flatMap_cons, List.append_assoc] at hs
    rw [List.forall_mem_cons]
    by_cases hm : m.Fits
    · obtain ⟨b, hcall, hb, hbopen, hbs, hmsg⟩ := message_fit h hopen hs hm
      rw [← ih hb hbopen hbs, and_iff_right hm]
      simp only [List.length_cons, List.map_cons, wsCalls, hcall, bind, Except.bind, hmsg]
      constructor
      · rintro ⟨b', hcalls, hb'⟩
        rcases hrest : wsCalls ms.length b with e | ⟨rs, b''⟩
        · simp only [hrest, reduceCtorEq] at hcalls
        · simp only [hrest, Except.ok.injEq, Prod.mk.injEq, List.cons.injEq] at hcalls
          obtain ⟨⟨-, rfl⟩, rfl⟩ := hcalls
          exact ⟨b'', rfl, hb'⟩
      · rintro ⟨b', hcalls, hb'⟩
        exact ⟨b', by rw [hcalls]; rfl, hb'⟩
    · refine iff_of_false ?_ fun hall => hm hall.1
      rintro ⟨b', hcalls, -⟩
      simp only [List.length_cons, List.map_cons, wsCalls] at hcalls
      obtain hcall | ⟨b, hcall⟩ := message_unfit h hopen hs hm
      · simp only [hcall, bind, Except.bind, reduceCtorEq] at hcalls
      · rcases hrest : wsCalls ms.length b with e | ⟨rs, b''⟩
        · simp only [hcall, hrest, bind, Except.bind, reduceCtorEq] at hcalls
        · simp only [hcall, hrest, bind, Except.bind, Except.ok.injEq, Prod.mk.injEq,
            List.cons.injEq] at hcalls
          exact result_ne m (congrArg Prod.fst hcalls.1.1).symm

theorem overflow_iff (h : ws.Inv) (n : ℕ) :
    wsCalls n ws = .error .overflow ↔ ws.closed = false ∧ TooLong n 0 ws.stream := by
  obtain ⟨hcalls, hlong⟩ | ⟨⟨rs, b, hcalls⟩, hnot⟩ := wsCalls_total n h
  · exact iff_of_true hcalls hlong
  · exact iff_of_false (by rw [hcalls]; exact fun h => nomatch h) hnot

theorem frame_refused (h : ws.Inv) (hopen : ws.closed = false) {fin : Bool} {opcode : ℕ}
    (hop : opcode < 16) {x : Sent} {rest : List UInt8}
    (hs : ws.stream = encodeFrame fin opcode x ++ rest) (hx : 2 ^ 30 < x.payload.length) :
    ∃ b, httpWsRecv ws = .ok (-1, b) ∧ b.closed = true := by
  have hparse := parseFrame_encodeFrame fin hop x rest
  rw [← hs, if_neg (by omega)] at hparse
  obtain ⟨b, hstep, -, hclosed⟩ := turn_none (nil_inv h) hparse
  exact ⟨b, by rw [httpWsRecv_open hopen, recvLoop_end hstep], hclosed⟩

end Calls

/-- A frame that is sent is read as it was, if a reader takes a frame of its size. -/
theorem sent_frame {opcode : ℕ} (hop : opcode < 16) {payload : List UInt8}
    (hlen : payload.length < 2 ^ 31) {conn : HttpConn} {net : Net} {rest : List UInt8}
    (hs : conn.unread ++ net.pending = wsSendFrame opcode payload ++ rest) :
    (∃ conn' net', readFrame conn net = some (⟨true, opcode, payload⟩, conn', net') ∧
      conn'.unread ++ net'.pending = rest) ↔ payload.length ≤ 2 ^ 30 := by
  obtain ⟨x, rfl, hsend⟩ := wsSendFrame_eq opcode hop payload hlen
  have hparse := parseFrame_encodeFrame true hop x rest
  rw [← hsend, ← hs] at hparse
  by_cases hfits : x.payload.length ≤ 2 ^ 30
  · rw [if_pos hfits] at hparse
    exact iff_of_true (readFrame_some hparse) hfits
  · rw [if_neg hfits] at hparse
    refine iff_of_false ?_ hfits
    rintro ⟨conn', net', hread, -⟩
    rw [readFrame_none hparse] at hread
    cases hread

theorem opened_inv (conn : HttpConn) (net : Net) : (opened conn net).Inv := ⟨.inl rfl, .inl rfl⟩

/-- From the handshake on, messages below 2^30 bytes are read as they were sent, frames above are
refused, and the message stays in its buffer. -/
theorem messages_survive (conn : HttpConn) (net : Net) {ws : HttpWsConn}
    (hws : Reaches (opened conn net) ws) :
    (ws.closed = false → ∀ (ms : List Message) (rest : List UInt8),
      ws.stream = ms.flatMap Message.encode ++ rest → (∀ m ∈ ms, m.Fits) →
        ∃ b, wsCalls ms.length ws = .ok (ms.map Message.result, b) ∧ b.stream = rest) ∧
    (ws.closed = false → ∀ (fin : Bool) (opcode : ℕ) (x : Sent) (rest : List UInt8), opcode < 16 →
      ws.stream = encodeFrame fin opcode x ++ rest → 2 ^ 30 < x.payload.length →
        ∃ b, httpWsRecv ws = .ok (-1, b) ∧ b.closed = true) ∧
    (∀ (opcode : ℕ) (payload rest : List UInt8), opcode < 16 → payload.length < 2 ^ 31 →
      ws.stream = wsSendFrame opcode payload ++ rest →
        ((∃ conn' net', readFrame ws.conn ws.net = some (⟨true, opcode, payload⟩, conn', net') ∧
          conn'.unread ++ net'.pending = rest) ↔ payload.length ≤ 2 ^ 30)) ∧
    ws.msg.length ≤ ws.msgCap ∧
    ∀ n, ¬ (ws.closed = false ∧ TooLong n 0 ws.stream) → ∃ out, wsCalls n ws = .ok out := by
  have h := reaches_inv (opened_inv conn net) hws
  refine ⟨fun hopen ms rest hs => (calls_exact_iff h hopen ms hs).2,
    fun hopen fin opcode x rest hop hs hx => frame_refused h hopen hop hs hx,
    fun opcode payload rest hop hlen hs => sent_frame hop hlen hs, h.length_le, fun n hshort => ?_⟩
  obtain ⟨-, hlong⟩ | ⟨⟨rs, b, hcalls⟩, -⟩ := wsCalls_total n h
  · exact absurd hlong hshort
  · exact ⟨_, hcalls⟩

/-- A text in two fragments, the second one masked and after a ping. -/
def greeting : Message where
  isText := true
  first := ⟨[], ⟨[0x68], .bits7, none, by decide⟩⟩
  more := [⟨[⟨true, [0x21], .bits16, none, by decide⟩],
    ⟨[0x69], .bits7, some ⟨[1, 2, 3, 4], rfl⟩, by decide⟩⟩]

theorem messages_survive_greeting :
    ∃ b, wsCalls 1 (opened ⟨greeting.encode, 0, 4⟩ ⟨greeting.encode.drop 4, [2]⟩) =
      .ok ([(1, [0x68, 0x69])], b) ∧ b.stream = [] :=
  (messages_survive ⟨greeting.encode, 0, 4⟩ ⟨greeting.encode.drop 4, [2]⟩ .refl).1 rfl [greeting] []
    (by decide) (by decide)

theorem single_refused (x : Sent) (hx : 2 ^ 30 < x.payload.length) :
    ¬ ∃ b, wsCalls 1 (opened ⟨[], 0, 0⟩ ⟨encodeFrame true wsOpBin x, []⟩) =
      .ok ([(2, x.payload)], b) := by
  have hs : (opened ⟨[], 0, 0⟩ ⟨encodeFrame true wsOpBin x, []⟩).stream =
      encodeFrame true wsOpBin x ++ [] := (List.append_nil _).symm
  obtain ⟨b, hcall, -⟩ := frame_refused (opened_inv _ _) rfl (by decide) hs hx
  rintro ⟨b', hcalls⟩
  simp only [wsCalls, hcall, bind, Except.bind, Except.ok.injEq, Prod.mk.injEq, List.cons.injEq]
    at hcalls
  exact absurd hcalls.1.1.1 (by decide)

def zeros (n : ℕ) (h : n < 2 ^ 64) : Sent where
  payload := List.replicate n 0
  code := .bits64
  mask := none
  fits := by
    rw [List.length_replicate]
    exact h

theorem length_zeros (n : ℕ) (h : n < 2 ^ 64) : (zeros n h).payload.length = n :=
  List.length_replicate

/-- A binary message of one frame, one byte too long. -/
theorem large_refused :
    ¬ ∃ b, wsCalls 1 (opened ⟨[], 0, 0⟩
        ⟨encodeFrame true wsOpBin (zeros (2 ^ 30 + 1) (by norm_num)), []⟩) =
      .ok ([(2, (zeros (2 ^ 30 + 1) (by norm_num)).payload)], b) :=
  single_refused _ (by rw [length_zeros]; norm_num)

end Http

end Qjs
