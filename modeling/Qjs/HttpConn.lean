import Qjs.Http

/-!
# Framing of requests on a connection

`handle_one_request` of `aether_http_server.c` up to the request it carves out of the stream, with
the buffer of the connection. A step is one turn of a loop of it. `recv` gives at least one byte
while some are left, and after that it fails; memory does not run out, and what `realloc` adds holds
any bytes. Where the code is undefined (an `int` overflows, an index is outside the buffer) there is
no next state.

`slices` is what a stream is to be carved into.
-/

namespace Qjs

namespace Http

open FirstMatch

/-! ### Numbers and searches -/

def tolower (c : UInt8) : UInt8 := if 0x41 ≤ c ∧ c ≤ 0x5a then c + 0x20 else c

/-- What stands before and after the first occurrence of `needle`, in upper or lower case. -/
def httpStrcasestr (haystack needle : Str) : Option (Str × Str) :=
  (cut (needle.map tolower) (haystack.map tolower)).map fun p =>
    (haystack.take p.1.length, haystack.drop (p.1.length + needle.length))

def isspace (c : UInt8) : Bool := c = 0x20 || (0x09 ≤ c && c ≤ 0x0d)

def isdigit (c : UInt8) : Bool := 0x30 ≤ c && c ≤ 0x39

def digits (s : Str) : ℤ := (s.takeWhile isdigit).foldl (fun n c => 10 * n + (c.toNat - 0x30 : ℕ)) 0

/-- The number that a text starts with. -/
def leadingInt (s : Str) : ℤ :=
  match s.dropWhile isspace with
  | [] => 0
  | c :: t => if c = 0x2d then -digits t else if c = 0x2b then digits t else digits (c :: t)

def strtol (s : Str) : ℤ := max (-2 ^ 63) (min (leadingInt s) (2 ^ 63 - 1))

/-- The conversion of a `long` to an `int`. -/
def toInt (n : ℤ) : ℤ := (n + 2 ^ 31) % 2 ^ 32 - 2 ^ 31

/-- The result of an operation on `int`s. -/
def checkInt (n : ℤ) : Option ℤ := if -2 ^ 31 ≤ n ∧ n < 2 ^ 31 then some n else none

/-! ### The buffer -/

/-- `buf` has `buf_cap` bytes, none before it is allocated. -/
structure HttpConn where
  buf : List UInt8
  readPos : ℕ
  writePos : ℕ

def HttpConn.bufCap (c : HttpConn) : ℕ := c.buf.length

/-- What has arrived and is not carved. -/
def HttpConn.unread (c : HttpConn) : Str := (c.buf.drop c.readPos).take (c.writePos - c.readPos)

def httpConnBufCap : ℕ := 16 * 1024

def connBufCompact (c : HttpConn) : HttpConn :=
  if c.readPos = 0 then c
  else
    { buf := c.unread ++ c.buf.drop (c.writePos - c.readPos)
      readPos := 0
      writePos := c.writePos - c.readPos }

/-- The loop of `conn_buf_ensure`. -/
def growCap (newCap : ℕ) (needed : ℤ) : Option ℕ :=
  if newCap < needed then
    if 0 < newCap ∧ 2 * newCap < 2 ^ 31 then growCap (2 * newCap) needed else none
  else some newCap
  termination_by 2 ^ 31 - newCap

/-- `junk` is what the memory holds that `realloc` adds. -/
def connBufEnsure (junk : ℕ → UInt8) (c : HttpConn) (needed : ℤ) : Option HttpConn :=
  if needed ≤ c.bufCap then some c
  else (growCap (if 0 < c.bufCap then c.bufCap else httpConnBufCap) needed).map fun newCap =>
    { c with buf := c.buf ++ (List.range' c.bufCap (newCap - c.bufCap)).map junk }

/-- The string at the read position. -/
def HttpConn.string (c : HttpConn) : Str := (c.buf.drop c.readPos).takeWhile (· != 0)

/-- A string ends at the write position. -/
def terminate (c : HttpConn) : Option HttpConn :=
  if c.writePos < c.bufCap then some { c with buf := c.buf.set c.writePos 0 } else none

/-- What is still to arrive, and the sizes of the pieces that `recv` gives, less one. -/
structure Net where
  pending : Str
  cuts : List ℕ

def Net.got (net : Net) (len : ℕ) : ℕ :=
  min (min (net.cuts.headD len + 1) len) net.pending.length

/-- The bytes that `recv` gives are written at the write position. -/
def receive (c : HttpConn) (net : Net) (len : ℕ) : Option (HttpConn × Net) :=
  let n := net.got len
  if c.writePos + n ≤ c.bufCap then
    some ({ c with
      buf := c.buf.take c.writePos ++ net.pending.take n ++ c.buf.drop (c.writePos + n)
      writePos := c.writePos + n }, ⟨net.pending.drop n, net.cuts.tail⟩)
  else none

/-! ### A call -/

def crlfcrlf : Str := [0x0d, 0x0a, 0x0d, 0x0a]

/-- `Content-Length:` -/
def contentLengthColon : Str :=
  [0x43, 0x6f, 0x6e, 0x74, 0x65, 0x6e, 0x74, 0x2d, 0x4c, 0x65, 0x6e, 0x67, 0x74, 0x68, 0x3a]

/-- The length in the string, whose header section ends at `hdrEnd`. -/
def resolveLength (string : Str) (hdrEnd : ℕ) : ℤ :=
  match httpStrcasestr string contentLengthColon with
  | none => 0
  | some (before, after) => if before.length < hdrEnd then max (strtol after) 0 else 0

inductive Phase
  /-- Before a call. -/
  | idle
  | header
  | body (requestTotal : ℤ)
  | closed
  deriving DecidableEq

structure State where
  conn : HttpConn
  net : Net
  phase : Phase
  carved : List Str

section

variable (goesOn : List Str → Bool) (junk : ℕ → UInt8)

def State.close (st : State) : State := { st with phase := .closed }

/-- `recv`, and the same loop again. -/
def State.recv (st : State) (len : ℕ) : Option State :=
  if st.net.pending = [] then some st.close
  else (receive st.conn st.net len).map fun p => { st with conn := p.1, net := p.2 }

def beginCall (st : State) : Option State :=
  (if st.conn.buf = [] then
    (connBufEnsure junk st.conn httpConnBufCap).map fun c => { c with readPos := 0, writePos := 0 }
  else some st.conn).map fun c => { st with conn := connBufCompact c, phase := .header }

/-- The length is resolved and the buffer made large enough. -/
def resolve (st : State) (headerSize : ℕ) : Option State :=
  let contentLength := resolveLength st.conn.string (headerSize - 4)
  if 0 < contentLength then
    match checkInt (headerSize + toInt contentLength) with
    | none => none
    | some neededTotal =>
      match checkInt (st.conn.readPos + neededTotal + 1) with
      | none => none
      | some needed => (connBufEnsure junk st.conn needed).map fun c =>
        { st with conn := c, phase := .body neededTotal }
  else some { st with phase := .body headerSize }

def headerTurn (st : State) : Option State :=
  if st.conn.readPos < st.conn.writePos then
    match terminate st.conn with
    | none => none
    | some c =>
      match cut crlfcrlf c.string with
      | some (head, _) => resolve junk { st with conn := c } (head.length + 4)
      | none =>
        if c.bufCap ≤ c.writePos + 1 then some { st with conn := c }.close
        else { st with conn := c }.recv (c.bufCap - c.writePos - 1)
  else if st.conn.bufCap ≤ st.conn.writePos + 1 then some st.close
  else st.recv (st.conn.bufCap - st.conn.writePos - 1)

/-- The slice is parsed with a zero behind it, which is put back. `goesOn` is whether there is
another call after it. -/
def carve (st : State) (requestTotal : ℤ) : Option State :=
  let stop : ℤ := st.conn.readPos + requestTotal
  if 0 ≤ stop ∧ stop < st.conn.bufCap then
    let carved := st.carved ++ [(st.conn.buf.drop st.conn.readPos).take requestTotal.toNat]
    some
      { st with
        conn := { st.conn with readPos := stop.toNat }
        phase := if goesOn carved then .idle else .closed
        carved := carved }
  else none

def bodyTurn (st : State) (requestTotal : ℤ) : Option State :=
  let unread : ℤ := st.conn.writePos - st.conn.readPos
  if unread < requestTotal then
    let chunk := min (requestTotal - unread) (st.conn.bufCap - st.conn.writePos - 1)
    if chunk ≤ 0 then some st.close else st.recv chunk.toNat
  else carve goesOn st requestTotal

def step (st : State) : Option State :=
  match st.phase with
  | .idle => beginCall junk st
  | .header => headerTurn junk st
  | .body requestTotal => bodyTurn goesOn st requestTotal
  | .closed => some st

def run : ℕ → State → Option State
  | 0, st => some st
  | n + 1, st => (step goesOn junk st).bind (run n)

def initial (stream : Str) (cuts : List ℕ) : State := ⟨⟨[], 0, 0⟩, ⟨stream, cuts⟩, .idle, []⟩

end

/-! ### The stream by itself -/

/-- The lines of a header section. -/
def sectionLines (head : Str) : List Str := splitLines (head ++ crlf)

def IsContentLength (line : Str) : Prop :=
  (line.take contentLengthColon.length).map tolower = contentLengthColon.map tolower

instance (line : Str) : Decidable (IsContentLength line) := inferInstanceAs (Decidable (_ = _))

/-- The value of the field of the header section; a negative one stands for no body. -/
def contentLength (head : Str) : ℕ :=
  match (sectionLines head).tail.find? (fun line => IsContentLength line) with
  | none => 0
  | some line => (leadingInt (line.drop contentLengthColon.length)).toNat

/-- The first request of a stream and what follows it. -/
def nextRequest (s : Str) : Option (Str × Str) :=
  match cut crlfcrlf s with
  | none => none
  | some (head, rest) =>
    if contentLength head ≤ rest.length then
      some (head ++ (crlfcrlf ++ rest.take (contentLength head)), rest.drop (contentLength head))
    else none

theorem nextRequest_length {s slice t : Str} (h : nextRequest s = some (slice, t)) :
    t.length + 4 ≤ s.length := by
  rw [nextRequest] at h
  rcases hcut : cut crlfcrlf s with _ | ⟨head, rest⟩
  · rw [hcut] at h
    cases h
  · rw [hcut] at h
    simp only at h
    split_ifs at h
    obtain ⟨-, rfl⟩ := Prod.mk.inj (Option.some.inj h)
    have hlen := length_of_cut hcut
    rw [crlfcrlf] at hlen
    simp only [List.length_cons, List.length_nil, List.length_drop] at hlen ⊢
    omega

/-- The requests of a stream, after those that are done. -/
def slices (goesOn : List Str → Bool) (done : List Str) (s : Str) : List Str :=
  match _h : nextRequest s with
  | none => done
  | some (slice, t) =>
    if goesOn (done ++ [slice]) then slices goesOn (done ++ [slice]) t else done ++ [slice]
  termination_by s.length
  decreasing_by
    have := nextRequest_length _h
    omega

/-! ### The condition -/

/-- The capacity after a request. -/
def nextCap (cap : ℕ) (head : Str) : ℕ :=
  if 0 < contentLength head then
    (growCap cap (head.length + 4 + contentLength head + 1)).getD cap
  else cap

/-- The header section at the start of `s` has no zero and fits the buffer, the first occurrence of
`Content-Length:` in it gives the value of its field, and the buffer can grow to the request. -/
def Framable (cap : ℕ) (s : Str) : Prop :=
  ∀ head rest, cut crlfcrlf s = some (head, rest) →
    0 ∉ head ∧ head.length + 4 < cap ∧
    (∀ k, resolveLength ((head ++ (crlfcrlf ++ rest.take k)).takeWhile (· != 0)) head.length =
      contentLength head) ∧
    (0 < contentLength head → head.length + 4 + contentLength head + 1 ≤ 2 ^ 30)

/-- The requests `done` are followed by `t`, and the buffer has `cap` bytes. -/
inductive At (goesOn : List Str → Bool) (s : Str) : List Str → ℕ → Str → Prop
  | start : At goesOn s [] httpConnBufCap s
  | next {done : List Str} {cap : ℕ} {t head rest slice t' : Str} (h : At goesOn s done cap t)
    (hhead : cut crlfcrlf t = some (head, rest)) (hnext : nextRequest t = some (slice, t'))
    (hon : goesOn (done ++ [slice]) = true) :
    At goesOn s (done ++ [slice]) (nextCap cap head) t'

def Clean (goesOn : List Str → Bool) (s : Str) : Prop :=
  ∀ done cap t, At goesOn s done cap t → Framable cap t

/-- The positions are in order and inside the buffer, once there is one. -/
def HttpConn.Bounded (c : HttpConn) : Prop :=
  c.readPos ≤ c.writePos ∧ (c.writePos < c.bufCap ∨ c.bufCap = 0 ∧ c.writePos = 0)

/-- The connection carves the requests of the stream, within the buffer. -/
def Frames (goesOn : List Str → Bool) (junk : ℕ → UInt8) (s : Str) (cuts : List ℕ) : Prop :=
  (∀ n, ∃ st, run goesOn junk n (initial s cuts) = some st ∧ st.conn.Bounded ∧
    ∀ total, st.phase = .body total → 0 ≤ total ∧ st.conn.readPos + total < st.conn.bufCap) ∧
  ∃ n st, run goesOn junk n (initial s cuts) = some st ∧ st.phase = .closed ∧
    st.carved = slices goesOn [] s

end Http

end Qjs
