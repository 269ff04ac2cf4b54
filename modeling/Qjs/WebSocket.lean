import Qjs.HttpConn

/-!
# WebSocket frames

`http_ws_recv` and `ws_send_frame` of `aether_http_server.c`. What came with the upgrade request is
still in the buffer of the connection, the rest arrives in pieces. Sends succeed and memory does not
run out; a connection that fails is closed, and what it leaves is not kept.

`Message` is what a peer sends: fragments, each with the control frames before it.
-/

namespace Qjs

namespace Http

/-- An `int` overflows, or a loop does not end. -/
inductive WsFault
  | overflow
  | endless
  deriving DecidableEq

/-- `HttpWsConn`, with the bytes of `msg_buf` up to `msg_len`. -/
structure HttpWsConn where
  conn : HttpConn
  net : Net
  sent : List UInt8
  closed : Bool
  msg : List UInt8
  msgCap : ℕ
  msgOpcode : ℕ

def wsOpCont : ℕ := 0x0
def wsOpText : ℕ := 0x1
def wsOpBin : ℕ := 0x2
def wsOpClose : ℕ := 0x8
def wsOpPing : ℕ := 0x9
def wsOpPong : ℕ := 0xa

/-! ### Reading -/

/-- The loop of `ws_recv_exact` over the socket. -/
def recvRest (net : Net) (n : ℕ) : Option (List UInt8 × Net) :=
  if n = 0 then some ([], net)
  else
    let got := net.got n
    if 0 < got then
      (recvRest ⟨net.pending.drop got, net.cuts.tail⟩ (n - got)).map fun r =>
        (net.pending.take got ++ r.1, r.2)
    else none
  termination_by n

def wsRecvExact (conn : HttpConn) (net : Net) (n : ℕ) :
    Option (List UInt8 × HttpConn × Net) :=
  let take := min conn.unread.length n
  (recvRest net (n - take)).map fun r =>
    (conn.unread.take take ++ r.1, { conn with readPos := conn.readPos + take }, r.2)

structure WsFrame where
  fin : Bool
  opcode : ℕ
  payload : List UInt8

/-- The bytes of a length, the first one first. -/
def bigEndian (ext : List UInt8) : ℕ := ext.foldl (fun pl b => (pl <<< 8) ||| b.toNat) 0

/-- The bits of a `long long`. -/
def toLongLong (n : ℕ) : ℤ := if n < 2 ^ 63 then n else (n : ℤ) - 2 ^ 64

def unmask (maskKey : List UInt8) (frame : List UInt8) : List UInt8 :=
  frame.mapIdx fun i b => b ^^^ maskKey.getD (i &&& 3) 0

/-- `1LL << 30`. -/
def wsFrameMax : ℤ := 2 ^ 30

/-- The length of a frame, from the seven bits of its second byte. -/
def readLength (pl : ℕ) (conn : HttpConn) (net : Net) : Option (ℤ × HttpConn × Net) :=
  if pl = 126 then (wsRecvExact conn net 2).map fun r => (((bigEndian r.1 : ℕ) : ℤ), r.2)
  else if pl = 127 then (wsRecvExact conn net 8).map fun r => (toLongLong (bigEndian r.1), r.2)
  else some ((pl : ℤ), conn, net)

def readMask (masked : ℕ) (conn : HttpConn) (net : Net) : Option (List UInt8 × HttpConn × Net) :=
  if masked ≠ 0 then wsRecvExact conn net 4 else some ([0, 0, 0, 0], conn, net)

/-- A frame, with what the connection is after it. -/
def readFrame (conn : HttpConn) (net : Net) : Option (WsFrame × HttpConn × Net) := do
  let (hdr2, conn, net) ← wsRecvExact conn net 2
  let h0 := (hdr2.getD 0 0).toNat
  let h1 := (hdr2.getD 1 0).toNat
  let (pl, conn, net) ← readLength (h1 &&& 0x7f) conn net
  let masked := (h1 >>> 7) &&& 1
  let (maskKey, conn, net) ← readMask masked conn net
  if pl < 0 ∨ pl > wsFrameMax then none
  else
    let (frame, conn, net) ← wsRecvExact conn net pl.toNat
    some (⟨(h0 >>> 7) &&& 1 ≠ 0, h0 &&& 0x0f, if masked ≠ 0 then unmask maskKey frame else frame⟩,
      conn, net)

/-! ### Sending -/

/-- The header of `ws_send_frame`. -/
def wsHeader (opcode payloadLen : ℕ) : List UInt8 :=
  UInt8.ofNat (0x80 ||| (opcode &&& 0x0f)) ::
    if payloadLen < 126 then [UInt8.ofNat payloadLen]
    else if payloadLen ≤ 0xffff then
      [126, UInt8.ofNat ((payloadLen >>> 8) &&& 0xff), UInt8.ofNat (payloadLen &&& 0xff)]
    else
      127 :: [56, 48, 40, 32, 24, 16, 8, 0].map fun k => UInt8.ofNat ((payloadLen >>> k) &&& 0xff)

def wsSendFrame (opcode : ℕ) (payload : List UInt8) : List UInt8 :=
  wsHeader opcode payload.length ++ payload

def HttpWsConn.send (ws : HttpWsConn) (opcode : ℕ) (payload : List UInt8) : HttpWsConn :=
  { ws with sent := ws.sent ++ wsSendFrame opcode payload }

/-! ### Messages -/

def wsMsgGrow (ws : HttpWsConn) (need : ℤ) : Except WsFault HttpWsConn :=
  if need ≤ ws.msgCap then .ok ws
  else
    match growCap (if 0 < ws.msgCap then ws.msgCap else 4096) need with
    | none => .error .overflow
    | some newCap => .ok { ws with msgCap := newCap }

/-- The result of an operation on `int`s. -/
def wsInt (n : ℤ) : Except WsFault ℤ :=
  match checkInt n with
  | none => .error .overflow
  | some n => .ok n

/-- A data frame is put after the message so far. -/
def wsAppend (ws : HttpWsConn) (f : WsFrame) : Except WsFault HttpWsConn :=
  let ws := if f.opcode = wsOpText ∨ f.opcode = wsOpBin then
    { ws with msgOpcode := f.opcode, msg := [] } else ws
  if f.payload.length = 0 then .ok ws
  else do
    let need ← wsInt (ws.msg.length + f.payload.length + 1)
    let ws ← wsMsgGrow ws need
    .ok { ws with msg := ws.msg ++ f.payload }

/-- The end of a message: a text gets a NUL behind it. -/
def wsFinish (ws : HttpWsConn) : Except WsFault (ℤ × HttpWsConn) :=
  if ws.msgOpcode = wsOpText then do
    let need ← wsInt (ws.msg.length + 1)
    let ws ← wsMsgGrow ws need
    .ok (1, ws)
  else .ok (2, ws)

/-- A turn of the loop of `http_ws_recv`: the connection for the next turn, or what is returned. -/
def recvStep (ws : HttpWsConn) : Except WsFault (HttpWsConn ⊕ (ℤ × HttpWsConn)) :=
  match readFrame ws.conn ws.net with
  | none => .ok (.inr (-1, { ws with closed := true }))
  | some (f, conn, net) =>
    let ws := { ws with conn := conn, net := net }
    if f.opcode = wsOpPing then .ok (.inl (ws.send wsOpPong f.payload))
    else if f.opcode = wsOpPong then .ok (.inl ws)
    else if f.opcode = wsOpClose then
      .ok (.inr (-1, { ws.send wsOpClose f.payload with closed := true }))
    else do
      let ws ← wsAppend ws f
      if f.fin then do
        let r ← wsFinish ws
        .ok (.inr r)
      else .ok (.inl ws)

def recvLoop : ℕ → HttpWsConn → Except WsFault (ℤ × HttpWsConn)
  | 0, _ => .error .endless
  | fuel + 1, ws =>
    match recvStep ws with
    | .error e => .error e
    | .ok (.inl ws) => recvLoop fuel ws
    | .ok (.inr r) => .ok r

/-- The bytes that are not read. -/
def HttpWsConn.stream (ws : HttpWsConn) : List UInt8 := ws.conn.unread ++ ws.net.pending

def httpWsRecv (ws : HttpWsConn) : Except WsFault (ℤ × HttpWsConn) :=
  if ws.closed then .ok (-1, ws)
  else recvLoop (ws.stream.length + 1) { ws with msg := [] }

/-- Some calls of `http_ws_recv`, with the message after each. -/
def wsCalls : ℕ → HttpWsConn → Except WsFault (List (ℤ × List UInt8) × HttpWsConn)
  | 0, ws => .ok ([], ws)
  | n + 1, ws => do
    let (r, ws) ← httpWsRecv ws
    let (rs, ws') ← wsCalls n ws
    .ok ((r, ws.msg) :: rs, ws')

/-! ### What a peer sends -/

/-- The encodings of a length. -/
inductive LengthCode
  | bits7
  | bits16
  | bits64
  deriving DecidableEq

def LengthCode.Fits : LengthCode → ℕ → Prop
  | .bits7, n => n < 126
  | .bits16, n => n < 2 ^ 16
  | .bits64, n => n < 2 ^ 64

instance : (code : LengthCode) → (n : ℕ) → Decidable (code.Fits n)
  | .bits7, n => inferInstanceAs (Decidable (n < 126))
  | .bits16, n => inferInstanceAs (Decidable (n < 2 ^ 16))
  | .bits64, n => inferInstanceAs (Decidable (n < 2 ^ 64))

/-- The seven bits of the second byte, and the bytes after it. -/
def LengthCode.encode : LengthCode → ℕ → ℕ × List UInt8
  | .bits7, n => (n, [])
  | .bits16, n => (126, [8, 0].map fun k => UInt8.ofNat (n >>> k))
  | .bits64, n => (127, [56, 48, 40, 32, 24, 16, 8, 0].map fun k => UInt8.ofNat (n >>> k))

/-- The four bytes of a mask. -/
structure MaskKey where
  bytes : List UInt8
  length_eq : bytes.length = 4

/-- A payload, as it is sent. -/
structure Sent where
  payload : List UInt8
  code : LengthCode
  mask : Option MaskKey
  fits : code.Fits payload.length

def encodeFrame (fin : Bool) (opcode : ℕ) (x : Sent) : List UInt8 :=
  let l := x.code.encode x.payload.length
  UInt8.ofNat ((if fin then 0x80 else 0) + opcode)
    :: UInt8.ofNat ((if x.mask.isSome then 0x80 else 0) + l.1)
    :: (l.2 ++ x.mask.elim x.payload fun key => key.bytes ++ unmask key.bytes x.payload)

/-- A ping or a pong. -/
structure Control where
  isPing : Bool
  sent : Sent

def Control.encode (c : Control) : List UInt8 :=
  encodeFrame true (if c.isPing then wsOpPing else wsOpPong) c.sent

/-- A part of a message, with the control frames before it. -/
structure Fragment where
  controls : List Control
  sent : Sent

/-- A message: the first fragment and the others. -/
structure Message where
  isText : Bool
  first : Fragment
  more : List Fragment

def Message.fragments (m : Message) : List Fragment := m.first :: m.more

def encodeFragments : ℕ → List Fragment → List UInt8
  | _, [] => []
  | opcode, g :: gs =>
    g.controls.flatMap Control.encode ++ (encodeFrame gs.isEmpty opcode g.sent
      ++ encodeFragments wsOpCont gs)

def Message.encode (m : Message) : List UInt8 :=
  encodeFragments (if m.isText then wsOpText else wsOpBin) m.fragments

def Message.payload (m : Message) : List UInt8 := m.fragments.flatMap fun g => g.sent.payload

/-- What `http_ws_recv` returns, with the message. -/
def Message.result (m : Message) : ℤ × List UInt8 := (if m.isText then 1 else 2, m.payload)

/-- A message is below 2^30 bytes and its control frames are not above. -/
def Message.Fits (m : Message) : Prop :=
  m.payload.length < 2 ^ 30 ∧ ∀ g ∈ m.fragments, ∀ c ∈ g.controls, c.sent.payload.length ≤ 2 ^ 30

instance (m : Message) : Decidable m.Fits :=
  inferInstanceAs (Decidable (m.payload.length < 2 ^ 30 ∧
    ∀ g ∈ m.fragments, ∀ c ∈ g.controls, c.sent.payload.length ≤ 2 ^ 30))

/-! ### Any bytes -/

/-- The connection after the handshake. -/
def opened (conn : HttpConn) (net : Net) : HttpWsConn := ⟨conn, net, [], false, [], 0, 0⟩

/-- The states of a connection, from one on: a call starts, or a turn of its loop is made. -/
inductive Reaches (ws : HttpWsConn) : HttpWsConn → Prop
  | refl : Reaches ws ws
  | call {a : HttpWsConn} : Reaches ws a → Reaches ws { a with msg := [] }
  | turn {a b : HttpWsConn} : Reaches ws a → recvStep a = .ok (.inl b) → Reaches ws b
  | result {a b : HttpWsConn} {r : ℤ} :
    Reaches ws a → recvStep a = .ok (.inr (r, b)) → Reaches ws b

def takeExact (s : List UInt8) (n : ℕ) : Option (List UInt8 × List UInt8) :=
  if n ≤ s.length then some (s.take n, s.drop n) else none

def parseLength (pl : ℕ) (s : List UInt8) : Option (ℤ × List UInt8) :=
  if pl = 126 then (takeExact s 2).map fun r => (((bigEndian r.1 : ℕ) : ℤ), r.2)
  else if pl = 127 then (takeExact s 8).map fun r => (toLongLong (bigEndian r.1), r.2)
  else some ((pl : ℤ), s)

def parseMask (masked : ℕ) (s : List UInt8) : Option (List UInt8 × List UInt8) :=
  if masked ≠ 0 then takeExact s 4 else some ([0, 0, 0, 0], s)

/-- The frame that a stream starts with, with what comes after it. -/
def parseFrame (s : List UInt8) : Option (WsFrame × List UInt8) := do
  let (hdr2, s) ← takeExact s 2
  let h0 := (hdr2.getD 0 0).toNat
  let h1 := (hdr2.getD 1 0).toNat
  let (pl, s) ← parseLength (h1 &&& 0x7f) s
  let masked := (h1 >>> 7) &&& 1
  let (maskKey, s) ← parseMask masked s
  if pl < 0 ∨ pl > wsFrameMax then none
  else
    let (frame, s) ← takeExact s pl.toNat
    some (⟨(h0 >>> 7) &&& 1 ≠ 0, h0 &&& 0x0f, if masked ≠ 0 then unmask maskKey frame else frame⟩,
      s)

def WsFrame.isControl (f : WsFrame) : Prop := f.opcode = wsOpPing ∨ f.opcode = wsOpPong

/-- A frame that is not for the connection itself. -/
def WsFrame.isData (f : WsFrame) : Prop := ¬ f.isControl ∧ f.opcode ≠ wsOpClose

/-- A text or a binary frame starts a message. -/
def isStart (opcode : ℕ) : Prop := opcode = wsOpText ∨ opcode = wsOpBin

instance (opcode : ℕ) : Decidable (isStart opcode) :=
  inferInstanceAs (Decidable (opcode = wsOpText ∨ opcode = wsOpBin))

def kindAfter (opcode op : ℕ) : ℕ := if isStart opcode then opcode else op

/-- The bytes that the payload of a data frame is put after. -/
def msgBefore (opcode : ℕ) (msg : List UInt8) : List UInt8 := if isStart opcode then [] else msg

/-- The length of the message after a frame, from the length before it. -/
def WsFrame.total (f : WsFrame) (len : ℕ) : ℕ :=
  (if isStart f.opcode then 0 else len) + f.payload.length

/-- One of the next messages of a stream reaches 2^30 bytes, of the first one some may be there. -/
inductive TooLong : ℕ → ℕ → List UInt8 → Prop
  | control {n len : ℕ} {s rest : List UInt8} {f : WsFrame} :
    parseFrame s = some (f, rest) → f.isControl → TooLong (n + 1) len rest → TooLong (n + 1) len s
  | long {n len : ℕ} {s rest : List UInt8} {f : WsFrame} :
    parseFrame s = some (f, rest) → f.isData → 2 ^ 30 ≤ f.total len → TooLong (n + 1) len s
  | more {n len : ℕ} {s rest : List UInt8} {f : WsFrame} :
    parseFrame s = some (f, rest) → f.isData → f.fin = false → TooLong (n + 1) (f.total len) rest →
      TooLong (n + 1) len s
  | next {n len : ℕ} {s rest : List UInt8} {f : WsFrame} :
    parseFrame s = some (f, rest) → f.isData → f.fin = true → TooLong n 0 rest →
      TooLong (n + 1) len s

/-- The size of the buffer: none, or a power of two up to 2^30. -/
def GoodCap (cap : ℕ) : Prop := cap = 0 ∨ ∃ k ≤ 30, cap = 2 ^ k

/-- The message is in its buffer, with room for a NUL. -/
structure HttpWsConn.Inv (ws : HttpWsConn) : Prop where
  cap : GoodCap ws.msgCap
  room : ws.msg = [] ∨ ws.msg.length + 1 ≤ ws.msgCap

end Http

end Qjs
