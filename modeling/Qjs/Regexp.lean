import Qjs.Str

/-!
# Regular expressions: byte code and interpreter

A compiled pattern is a header and instructions in bytes, with jumps relative to the next
instruction. `lre_exec` runs it by backtracking: a choice point is three words on the stack, above
it stand the pairs that undo what was stored in the captures and registers since.

The stack is the list of its words from `sp` to the bottom, `bp` the number of words from the last
choice point down. A run is told at each step whether the memory for the stack is missing and
whether the interrupt handler raises an exception.
-/

namespace Qjs.Regexp

/-! ### Bytes -/

def u16Bytes (v : ℕ) : List ℕ := [v % 256, v / 256 % 256]

def u32Bytes (v : ℕ) : List ℕ := [v % 256, v / 256 % 256, v / 65536 % 256, v / 16777216 % 256]

/-- `(uint32_t)`. -/
def toU32 (v : ℤ) : ℕ := (v % 2 ^ 32).toNat

/-- `(int)`. -/
def toI32 (v : ℕ) : ℤ := if v < 2 ^ 31 then v else v - 2 ^ 32

def i32Bytes (v : ℤ) : List ℕ := u32Bytes (toU32 v)

def getU16 (p : List ℕ) : ℕ := byteAt p 0 + byteAt p 1 * 256

def getU32 (p : List ℕ) : ℕ :=
  byteAt p 0 + byteAt p 1 * 256 + byteAt p 2 * 65536 + byteAt p 3 * 16777216

def getI32 (p : List ℕ) : ℤ := toI32 (getU32 p)

/-- The table of `n` 32-bit values. -/
def getTab (n : ℕ) (p : List ℕ) : List ℕ := (List.range n).map fun i => getU32 (p.drop (4 * i))

/-! ### Instructions -/

/-- The instructions; those that differ in one respect are one, with a flag. -/
inductive Op
  | char (bs : List ℕ)
  | dot
  | any
  | space (neg : Bool)
  | lineStart (multi : Bool)
  | lineEnd (multi : Bool)
  | goto (val : ℤ)
  | split (nextFirst : Bool) (val : ℤ)
  | match_
  | lookaheadMatch (neg : Bool)
  | save (isEnd : Bool) (i : ℕ)
  | saveReset (i j : ℕ)
  | loop (r : ℕ) (val : ℤ)
  | loopSplit (checkAdv nextFirst : Bool) (r limit : ℕ) (val : ℤ)
  | setI32 (r v : ℕ)
  | wordBoundary (neg : Bool)
  | backReference (ignoreCase : Bool) (i : ℕ)
  | range8 (tab : List ℕ)
  | range (tab : List ℕ)
  | lookahead (neg : Bool) (val : ℤ)
  | setCharPos (r : ℕ)
  | checkAdvance (r : ℕ)
  | invalid
  deriving DecidableEq, Repr

namespace Op

/-- The `REOP` number. -/
def code : Op → ℕ
  | char bs => bs.length
  | dot => 5
  | any => 6
  | space neg => 7 + neg.toNat
  | lineStart multi => 9 + multi.toNat
  | lineEnd multi => 11 + multi.toNat
  | goto _ => 13
  | split nextFirst _ => 14 + nextFirst.toNat
  | match_ => 16
  | lookaheadMatch neg => 17 + neg.toNat
  | save isEnd _ => 19 + isEnd.toNat
  | saveReset _ _ => 21
  | loop _ _ => 22
  | loopSplit checkAdv nextFirst _ _ _ => 23 + 2 * checkAdv.toNat + nextFirst.toNat
  | setI32 _ _ => 27
  | wordBoundary neg => 28 + neg.toNat
  | backReference ignoreCase _ => 30 + ignoreCase.toNat
  | range8 _ => 32
  | range _ => 33
  | lookahead neg _ => 34 + neg.toNat
  | setCharPos _ => 36
  | checkAdvance _ => 37
  | invalid => 0

/-- The bytes after the number. -/
def operands : Op → List ℕ
  | char bs => bs
  | goto val | split _ val | lookahead _ val => i32Bytes val
  | save _ i | backReference _ i => [i]
  | saveReset i j => [i, j]
  | loop r val => r :: i32Bytes val
  | loopSplit _ _ r limit val => r :: (u32Bytes limit ++ i32Bytes val)
  | setI32 r v => r :: u32Bytes v
  | range8 tab => tab.length / 2 :: tab
  | range tab => u16Bytes (tab.length / 2) ++ tab.flatMap u32Bytes
  | setCharPos r | checkAdvance r => [r]
  | _ => []

def encode (op : Op) : List ℕ := op.code :: op.operands

/-- `reopcode_info[].size`, with the table of a range. -/
def size (op : Op) : ℕ := op.operands.length + 1

/-- The instruction that starts at `p`. -/
def decode (p : List ℕ) : Op :=
  let val := getI32 (p.drop 1)
  match byteAt p 0 with
  | 1 => char ((p.drop 1).take 1)
  | 2 => char ((p.drop 1).take 2)
  | 3 => char ((p.drop 1).take 3)
  | 4 => char ((p.drop 1).take 4)
  | 5 => dot
  | 6 => any
  | 7 => space false
  | 8 => space true
  | 9 => lineStart false
  | 10 => lineStart true
  | 11 => lineEnd false
  | 12 => lineEnd true
  | 13 => goto val
  | 14 => split false val
  | 15 => split true val
  | 16 => match_
  | 17 => lookaheadMatch false
  | 18 => lookaheadMatch true
  | 19 => save false (byteAt p 1)
  | 20 => save true (byteAt p 1)
  | 21 => saveReset (byteAt p 1) (byteAt p 2)
  | 22 => loop (byteAt p 1) (getI32 (p.drop 2))
  | 23 => loopSplit false false (byteAt p 1) (getU32 (p.drop 2)) (getI32 (p.drop 6))
  | 24 => loopSplit false true (byteAt p 1) (getU32 (p.drop 2)) (getI32 (p.drop 6))
  | 25 => loopSplit true false (byteAt p 1) (getU32 (p.drop 2)) (getI32 (p.drop 6))
  | 26 => loopSplit true true (byteAt p 1) (getU32 (p.drop 2)) (getI32 (p.drop 6))
  | 27 => setI32 (byteAt p 1) (getU32 (p.drop 2))
  | 28 => wordBoundary false
  | 29 => wordBoundary true
  | 30 => backReference false (byteAt p 1)
  | 31 => backReference true (byteAt p 1)
  | 32 => range8 ((p.drop 2).take (2 * byteAt p 1))
  | 33 => range (getTab (2 * getU16 (p.drop 1)) (p.drop 3))
  | 34 => lookahead false val
  | 35 => lookahead true val
  | 36 => setCharPos (byteAt p 1)
  | 37 => checkAdvance (byteAt p 1)
  | _ => invalid

end Op

def headerLen : ℕ := 4

def lreGetFlags (code : List ℕ) : ℕ := getU16 code

def lreGetCaptureCount (code : List ℕ) : ℕ := byteAt code 2

def lreGetAllocCount (code : List ℕ) : ℕ := byteAt code 2 * 2 + byteAt code 3

/-! ### Words of the stack -/

/-- `JS_NewShortInt` on a 32-bit value. -/
def newShortInt (v : ℕ) : ℕ := 2 * v % 2 ^ 32

/-- `JS_VALUE_GET_INT`, as a 32-bit value. -/
def getInt (w : ℕ) : ℕ := w / 2 + if w < 2 ^ 31 then 0 else 2 ^ 31

/-- A value that went through a short integer. -/
def short (v : ℕ) : ℕ := getInt (newShortInt v)

/-- Equal, or cut to the bits of a short integer. -/
def Cut (x y : ℕ) : Prop := x = y ∨ x = short y

inductive ChoiceType
  | split
  | lookahead
  | negativeLookahead
  deriving DecidableEq, Repr

def ChoiceType.toNat : ChoiceType → ℕ
  | split => 0
  | lookahead => 1
  | negativeLookahead => 2

/-- `RE_PC_TYPE_TO_VALUE`. -/
def pcTypeToValue (pc : ℕ) (type : ChoiceType) : ℕ := type.toNat * 2 + pc * 8

def valueToPc (w : ℕ) : ℕ := w / 8

def valueToType (w : ℕ) : ℕ := w / 2 % 4

/-! ### State -/

/-- Where the loop stands: at an instruction, at `no_match`, or in the loop of
`negative_lookahead_match`. -/
inductive Mode
  | run
  | noMatch
  | negative
  deriving DecidableEq, Repr

/-- `capture` holds two positions for each group, then the registers. -/
structure State where
  pc : ℕ
  cptr : ℕ
  capture : List ℕ
  stack : List ℕ
  bp : ℕ
  mode : Mode
  deriving DecidableEq, Repr

/-- What comes from outside in a step: no memory for the stack, an exception of the interrupt
handler. -/
structure Events where
  stackFails : Bool
  pollRaises : Bool

inductive Out
  | next (s : State)
  | done (ret : ℤ)
  | abort
  deriving DecidableEq, Repr

def Out.ofOption : Option State → Out
  | none => .done (-1)
  | some s => .next s

namespace State

variable (s : State)

def fail : State := { s with mode := .noMatch }

def get (i : ℕ) : ℕ := s.capture.getD i 0

/-- `SAVE_CAPTURE`. -/
def saveCapture (i v : ℕ) : State :=
  { s with
    stack := newShortInt i :: newShortInt (s.get i) :: s.stack
    capture := s.capture.set i v }

def pushChoice (pc : ℕ) (type : ChoiceType) : State :=
  { s with
    stack := pcTypeToValue pc type :: newShortInt s.cptr :: s.bp :: s.stack
    bp := s.stack.length + 3 }

def jump (val : ℤ) : State := { s with pc := (s.pc + val).toNat }

/-- One of the two ways, with the other as a choice point. -/
def choose (nextFirst : Bool) (val : ℤ) : State :=
  if nextFirst then s.pushChoice (s.jump val).pc .split else (s.pushChoice s.pc .split).jump val

end State

/-- Is the old value of the slot among the words above the last choice point? -/
def isSaved (i bp : ℕ) : List ℕ → Bool
  | w :: _ :: rest => if bp < rest.length + 2 then getInt w == i || isSaved i bp rest else false
  | _ => false

/-- The undo loop: down to the last choice point. -/
def undo (bp : ℕ) : List ℕ → List ℕ → List ℕ × List ℕ
  | capture, w :: v :: rest =>
    if bp < rest.length + 2 then undo bp (capture.set (getInt w) (getInt v)) rest
    else (capture, w :: v :: rest)
  | capture, stack => (capture, stack)

/-! ### Characters -/

def isLineTerminator (c : ℕ) : Bool := c == 0x0a || c == 0x0d || c == 0x2028 || c == 0x2029

def isWordChar (c : ℕ) : Bool :=
  (0x30 ≤ c && c ≤ 0x39) || (0x61 ≤ c && c ≤ 0x7a) || (0x41 ≤ c && c ≤ 0x5a) || c == 0x5f

/-- `lre_canonicalize`: only ASCII. -/
def lreCanonicalize (c : ℕ) : ℕ := if 0x41 ≤ c ∧ c ≤ 0x5a then c + 32 else c

def unicodeIsSpaceAscii (c : ℕ) : Bool := (0x09 ≤ c && c ≤ 0x0d) || c == 0x20

def unicodeIsSpaceNonAscii (c : ℕ) : Bool :=
  c == 0xa0 || c == 0x1680 || (0x2000 ≤ c && c ≤ 0x200a) || (0x2028 ≤ c && c ≤ 0x2029)
    || c == 0x202f || c == 0x205f || c == 0x3000 || c == 0xfeff

variable (cbuf : List ℕ)

/-- `GET_CHAR`: the code point at a position and the position after it. -/
def getChar (cptr : ℕ) : ℕ × ℕ :=
  (utf8Get (cbuf.drop cptr), cptr + utf8CharLen (byteAt cbuf cptr))

/-- `PEEK_PREV_CHAR`. -/
def peekPrevChar (cptr : ℕ) : ℕ := utf8Get (cbuf.drop (charStart cbuf (cptr - 1)))

/-! ### Ranges -/

/-- The loop of `range8`, then the last range, whose end may be 0xff for none. -/
def inRange8 (c : ℕ) : List ℕ → Bool
  | [lo, hi] => lo ≤ c && (c < hi || hi == 0xff)
  | lo :: hi :: tab => (lo ≤ c && c < hi) || inRange8 c tab
  | _ => false

/-- The binary search of `range`; `idxMin` and `idxMax` are unsigned. -/
def rangeSearch (c : ℕ) (tab : List ℕ) : ℕ → ℕ → ℕ → Bool
  | 0, _, _ => false
  | fuel + 1, idxMin, idxMax =>
    if idxMin ≤ idxMax then
      let idx := (idxMin + idxMax) / 2
      if c < tab.getD (2 * idx) 0 then rangeSearch c tab fuel idxMin (toU32 (idx - 1))
      else if tab.getD (2 * idx + 1) 0 ≤ c then rangeSearch c tab fuel (idx + 1) idxMax
      else true
    else false

def inRange (c : ℕ) (tab : List ℕ) : Bool :=
  let n := tab.length / 2
  if n = 0 then false
  else if c < tab.getD 0 0 then false
  else if tab.getD (2 * (n - 1) + 1) 0 ≤ c then false
  else rangeSearch c tab n 0 (n - 1)

/-! ### Instructions that end the match or go on -/

/-- The loop of a back reference, over the text of the group up to `end1`. -/
def backReferenceLoop (ignoreCase : Bool) (end1 : ℕ) : ℕ → ℕ → ℕ → Option ℕ
  | 0, _, cptr => some cptr
  | fuel + 1, cptr1, cptr =>
    if cptr1 < end1 then
      if cbuf.length ≤ cptr then none
      else
        let (c1, cptr1) := getChar cbuf cptr1
        let (c2, cptr) := getChar cbuf cptr
        let c1 := if ignoreCase then lreCanonicalize c1 else c1
        let c2 := if ignoreCase then lreCanonicalize c2 else c2
        if c1 ≠ c2 then none else backReferenceLoop ignoreCase end1 fuel cptr1 cptr
    else some cptr

/-- The position after a character that `p` accepts. -/
def matchChar (p : ℕ → Bool) (cptr : ℕ) : Option ℕ :=
  if cbuf.length ≤ cptr then none
  else
    let (c, cptr) := getChar cbuf cptr
    if p c then some cptr else none

def isUnset (v : ℕ) : Bool := v == 2 ^ 32 - 1

/-- An instruction that only looks at the text: the position after it, none if it fails. -/
def matchOp (s : State) : Op → Option ℕ
  | .char bs =>
    if cbuf.length - s.cptr < bs.length ∨ (cbuf.drop s.cptr).take bs.length ≠ bs then none
    else some (s.cptr + bs.length)
  | .dot => matchChar cbuf (fun c => !isLineTerminator c) s.cptr
  | .any => matchChar cbuf (fun _ => true) s.cptr
  | .space neg =>
    matchChar cbuf (fun c =>
      (if c < 128 then unicodeIsSpaceAscii c else unicodeIsSpaceNonAscii c) ^^ neg) s.cptr
  | .range8 tab => matchChar cbuf (fun c => inRange8 c tab) s.cptr
  | .range tab => matchChar cbuf (fun c => inRange c tab) s.cptr
  | .lineStart multi =>
    if s.cptr = 0 then some s.cptr
    else if multi && isLineTerminator (peekPrevChar cbuf s.cptr) then some s.cptr
    else none
  | .lineEnd multi =>
    if s.cptr = cbuf.length then some s.cptr
    else if multi && isLineTerminator (getChar cbuf s.cptr).1 then some s.cptr
    else none
  | .wordBoundary neg =>
    let v1 := if s.cptr = 0 then false else isWordChar (peekPrevChar cbuf s.cptr)
    let v2 := if cbuf.length ≤ s.cptr then false else isWordChar (getChar cbuf s.cptr).1
    if v1 ^^ v2 ^^ !neg then none else some s.cptr
  | .backReference ignoreCase i =>
    if isUnset (s.get (2 * i)) || isUnset (s.get (2 * i + 1)) then some s.cptr
    else
      backReferenceLoop cbuf ignoreCase (s.get (2 * i + 1))
        (s.get (2 * i + 1) - s.get (2 * i)) (s.get (2 * i)) s.cptr
  | _ => none

/-! ### Steps -/

variable (code : List ℕ) (e : Events)

/-- A step that needs room on the stack. -/
def Events.withRoom (s : State) : Out := if e.stackFails then .done (-1) else .next s

/-- `SAVE_CAPTURE_CHECK`, none if there is no room. -/
def Events.saveCaptureCheck (s : State) (i v : ℕ) : Option State :=
  if isSaved i s.bp s.stack then some { s with capture := s.capture.set i v }
  else if e.stackFails then none
  else some (s.saveCapture i v)

/-- A step that polls for interrupts. -/
def Events.withPoll (s : State) : Out := if e.pollRaises then .done (-1) else .next s

/-- The record of the last choice point, popped: its word, and the state without it. -/
def popChoice (s : State) : Option (ℕ × State) :=
  match s.stack with
  | w :: c :: bp :: rest =>
    some (w, { s with pc := valueToPc w, cptr := getInt c, stack := rest, bp := bp })
  | _ => none

/-- What was stored since the last choice point is undone, then it is popped. -/
def back (s : State) : Option (ℕ × State) :=
  popChoice { s with
    capture := (undo s.bp s.capture s.stack).1
    stack := (undo s.bp s.capture s.stack).2 }

/-- A turn of the loop at `no_match`. -/
def noMatchStep (s : State) : Out :=
  if s.bp = 0 then .done 0
  else
    match back s with
    | none => .abort
    | some (w, s) =>
      if valueToType w = ChoiceType.lookahead.toNat then .next s
      else e.withPoll { s with mode := .run }

/-- A turn of the loop of `negative_lookahead_match`. -/
def negativeStep (s : State) : Out :=
  match back s with
  | none => .abort
  | some (w, s) =>
    if valueToType w = ChoiceType.negativeLookahead.toNat then .next s.fail else .next s

/-- The loop of `lookahead_match`: the state at the start of the look-ahead, and the undo words that
stood above it. -/
def popLookahead : ℕ → State → List ℕ → Option (State × List ℕ)
  | 0, _, _ => none
  | fuel + 1, s, kept =>
    let n := s.stack.length - s.bp
    match popChoice { s with stack := s.stack.drop n } with
    | none => none
    | some (w, s') =>
      if valueToType w = ChoiceType.lookahead.toNat then some (s', kept ++ s.stack.take n)
      else popLookahead fuel s' (kept ++ s.stack.take n)

/-- `SAVE_CAPTURE` on both positions of the groups `i`, `i + 1`, ... -/
def resetCaptures : ℕ → ℕ → State → State
  | 0, _, s => s
  | n + 1, i, s => resetCaptures n (i + 1) ((s.saveCapture (2 * i) 0).saveCapture (2 * i + 1) 0)

/-- An instruction, from the state whose `pc` is after it. -/
def execOp (s : State) (op : Op) : Out :=
  let captureCount := lreGetCaptureCount code
  let reg := 2 * captureCount
  match op with
  | .goto val => e.withPoll (s.jump val)
  | .split nextFirst val => e.withRoom (s.choose nextFirst val)
  | .match_ => .done 1
  | .lookaheadMatch false =>
    match popLookahead s.stack.length s [] with
    | none => .abort
    | some (s', kept) =>
      .next { s' with stack := if s'.stack = [] then [] else kept ++ s'.stack }
  | .lookaheadMatch true => .next { s with mode := .negative }
  | .save isEnd i =>
    if captureCount ≤ i then .abort
    else e.withRoom (s.saveCapture (2 * i + isEnd.toNat) s.cptr)
  | .saveReset i j =>
    if captureCount ≤ j then .abort else e.withRoom (resetCaptures (j + 1 - i) i s)
  | .loop r val =>
    let val2 := toU32 (s.get (reg + r) - 1)
    match e.saveCaptureCheck s (reg + r) val2 with
    | none => .done (-1)
    | some s => if val2 ≠ 0 then e.withPoll (s.jump val) else .next s
  | .loopSplit checkAdv nextFirst r limit val =>
    let val2 := toU32 (s.get (reg + r) - 1)
    match e.saveCaptureCheck s (reg + r) val2 with
    | none => .done (-1)
    | some s =>
      if limit < val2 then e.withPoll (s.jump val)
      else if checkAdv ∧ s.get (reg + r + 1) = s.cptr ∧ val2 ≠ limit then .next s.fail
      else if val2 ≠ 0 then e.withRoom (s.choose nextFirst val)
      else .next s
  | .setI32 r v => .ofOption (e.saveCaptureCheck s (reg + r) v)
  | .lookahead neg val =>
    e.withRoom (s.pushChoice (s.jump val).pc (if neg then .negativeLookahead else .lookahead))
  | .setCharPos r => .ofOption (e.saveCaptureCheck s (reg + r) s.cptr)
  | .checkAdvance r => .next (if s.get (reg + r) = s.cptr then s.fail else s)
  | .invalid => .abort
  | op =>
    match matchOp cbuf s op with
    | none => .next s.fail
    | some cptr => .next { s with cptr := cptr }

/-- A turn of the loop of `lre_exec`. -/
def step (s : State) : Out :=
  match s.mode with
  | .noMatch => noMatchStep e s
  | .negative => negativeStep s
  | .run =>
    let op := Op.decode (code.drop s.pc)
    execOp cbuf code e { s with pc := s.pc + op.size } op

/-- The start of `lre_exec`. -/
def start (capture : List ℕ) (cindex : ℕ) : State := ⟨headerLen, cindex, capture, [], 0, .run⟩

/-- A string the interpreter runs on; its positions are short integers. -/
structure Subject where
  buf : List ℕ
  valid : Wtf8.Valid buf
  short : buf.length < 2 ^ 30

/-- The choice points that are on the stack after a step, each as the state right after it was
pushed: a new one if `bp` went up, else those that are not above `bp`. -/
def track (s s' : State) (pushed : List State) : List State :=
  if s.bp < s'.bp then s' :: pushed else pushed.dropWhile fun c => s'.bp < c.bp

/-- The states of the runs from a position of the string, with the choice points on the stack. -/
inductive Run (str : Subject) (code capture : List ℕ) : State → List State → Prop
  | start (cindex : ℕ) (h : cindex ≤ str.buf.length) :
    Run str code capture (start capture cindex) []
  | step {s s' : State} {pushed : List State} (e : Events) (h : Run str code capture s pushed)
    (hs : step str.buf code e s = .next s') : Run str code capture s' (track s s' pushed)

/-- `lre_exec` for a number of steps: what it returns and the captures then. -/
def lreExec : ℕ → (ℕ → Events) → State → Option (ℤ × List ℕ)
  | 0, _, _ => none
  | fuel + 1, e, s =>
    match step cbuf code (e 0) s with
    | .next s' => lreExec fuel (fun i => e (i + 1)) s'
    | .done ret => some (ret, s.capture)
    | .abort => none

/-- The memory of the captures and registers before a match: no group is set, a register may hold
anything. -/
structure Fresh (code capture : List ℕ) : Prop where
  length : capture.length = lreGetAllocCount code
  unset : ∀ i < 2 * lreGetCaptureCount code, isUnset (capture.getD i 0) = true

end Qjs.Regexp
