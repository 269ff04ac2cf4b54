import Qjs.RegexpClass

/-!
# Regular expressions: compiler

`js_parse_regexp` writes the instructions while it reads the pattern: a quantifier and an
alternative move what was written before, and literal characters are joined at the end of each term.
Registers are given out in a last pass over the code.

The two functions that call each other are told how deep they may go, and one level more is taken
for each turn of their loops.
-/

namespace Qjs.Regexp

open Json

/-- `JS_SHORTINT_MAX`. -/
def shortIntMax : ℕ := 2 ^ 30 - 1

/-- `CAPTURE_COUNT_MAX`. -/
def captureCountMax : ℕ := 255

/-- `REGISTER_COUNT_MAX`. -/
def registerCountMax : ℕ := 255

/-- What changes of the parser. -/
structure PState where
  pos : ℕ
  code : List ℕ
  captureCount : ℕ
  deriving DecidableEq, Repr

/-- The instruction at the end of the code, and the position. -/
def PState.emit (st : PState) (op : Op) (pos : ℕ) : PState :=
  { st with pos := pos, code := st.code ++ op.encode }

/-- `emit_insert`, with the bytes that are put there. -/
def insertAt (code : List ℕ) (pos : ℕ) (bs : List ℕ) : List ℕ :=
  code.take pos ++ bs ++ code.drop pos

/-- `put_u32`. -/
def putU32 (code : List ℕ) (pos : ℕ) (v : ℤ) : List ℕ :=
  code.take pos ++ i32Bytes v ++ code.drop (pos + 4)

variable (src : Source)

/-- `re_parse_expect`. -/
def reParseExpect (c : Char) (pos : ℕ) : Parse ℕ :=
  if src.byte pos ≠ c.toNat then .error ⟨"expecting '" ++ c.toString ++ "'", pos⟩ else .ok (pos + 1)

/-- `parse_digits`: the number and the position after it. -/
def parseDigits (pos : ℕ) : ℕ × ℕ :=
  let ds := (src.buf.drop pos).takeWhile Json.isNum
  (ds.foldl (fun v c => min (v * 10 + (c - 0x30)) shortIntMax) 0, pos + ds.length)

/-! ### Quantifiers -/

/-- `re_need_check_adv_and_capture_init`: may the code match without going forward, and is it
unknown whether it sets all its captures? -/
def reNeedCheckAdvAndCaptureInit : ℕ → List ℕ → Bool × Bool
  | 0, _ => (true, false)
  | _, [] => (true, false)
  | fuel + 1, code =>
    let op := Op.decode code
    match op with
    | .range8 _ | .range _ | .char _ | .dot | .any | .space _ =>
      (false, (reNeedCheckAdvAndCaptureInit fuel (code.drop op.size)).2)
    | .lineStart _ | .lineEnd _ | .setI32 _ _ | .setCharPos _ | .wordBoundary _ | .save _ _
    | .saveReset _ _ => reNeedCheckAdvAndCaptureInit fuel (code.drop op.size)
    | _ => (true, true)

/-- The quantifier at a position: the bounds, whether it is greedy, and the position after it. -/
structure Quantifier where
  quantMin : ℕ
  quantMax : ℕ
  greedy : Bool
  deriving DecidableEq, Repr

/-- The label `quantifier`. -/
def lazyMark (quantMin quantMax pos : ℕ) : Option (Quantifier × ℕ) :=
  if src.byte pos = 0x3f then some (⟨quantMin, quantMax, false⟩, pos + 1)
  else some (⟨quantMin, quantMax, true⟩, pos)

/-- The end of a quantifier in braces. -/
def closeBrace (quantMin quantMax pos : ℕ) : Parse (Option (Quantifier × ℕ)) := do
  let pos ← reParseExpect src '}' pos
  return lazyMark src quantMin quantMax pos

/-- The first part of `re_parse_quantifier`. -/
def readQuantifier (pos : ℕ) : Parse (Option (Quantifier × ℕ)) :=
  match src.byte pos with
  | 0x2a => .ok (lazyMark src 0 shortIntMax (pos + 1))
  | 0x2b => .ok (lazyMark src 1 shortIntMax (pos + 1))
  | 0x3f => .ok (lazyMark src 0 1 (pos + 1))
  | 0x7b =>
    if !Json.isNum (src.byte (pos + 1)) then .error ⟨"invalid repetition count", pos⟩
    else
      let (quantMin, p) := parseDigits src (pos + 1)
      if src.byte p = 0x2c then
        if Json.isNum (src.byte (p + 1)) then
          let (quantMax, p) := parseDigits src (p + 1)
          if quantMax < quantMin then .error ⟨"invalid repetition count", pos⟩
          else closeBrace src quantMin quantMax p
        else closeBrace src quantMin shortIntMax (p + 1)
      else closeBrace src quantMin quantMin p
  | _ => .ok none

/-- The jump of an instruction at the end of the code to a position. -/
def relTo (code : List ℕ) (size target : ℕ) : ℤ := target - (code.length + size)

/-- The branches of `re_parse_quantifier` for `quant_min = 0`, on an atom of `len` bytes. -/
def quantifyFromZero (code : List ℕ) (start len : ℕ) (checkAdv : Bool) (q : Quantifier) : List ℕ :=
  let setPos := if checkAdv then (Op.setCharPos 0).encode else []
  let check := if checkAdv then (Op.checkAdvance 0).encode else []
  if q.quantMax = 0 then code.take start
  else if q.quantMax = 1 then
    insertAt code start ((Op.split q.greedy (len + checkAdv.toNat * 2 * 2)).encode ++ setPos)
      ++ check
  else if q.quantMax = shortIntMax then
    let code := insertAt code start
      ((Op.split q.greedy (len + 5 + checkAdv.toNat * 2 * 2)).encode ++ setPos) ++ check
    code ++ (Op.goto (relTo code 5 start)).encode
  else
    let code := insertAt code start ((Op.split q.greedy (6 + checkAdv.toNat * 2 + len + 10)).encode
      ++ (Op.setI32 0 q.quantMax).encode ++ setPos)
    code ++ (Op.loopSplit checkAdv (!q.greedy) 0 q.quantMax (relTo code 10 (start + 11))).encode

/-- The other branches of `re_parse_quantifier`. -/
def quantifyFromOne (code : List ℕ) (start : ℕ) (checkAdv : Bool) (q : Quantifier) : List ℕ :=
  if q.quantMin = 1 ∧ q.quantMax = shortIntMax ∧ !checkAdv then
    code ++ (Op.split (!q.greedy) (relTo code 5 start)).encode
  else if q.quantMin = q.quantMax then
    let code := insertAt code start (Op.setI32 0 q.quantMax).encode
    code ++ (Op.loop 0 (relTo code 6 (start + 6))).encode
  else
    let setPos := if checkAdv then (Op.setCharPos 0).encode else []
    let code := insertAt code start ((Op.setI32 0 q.quantMax).encode ++ setPos)
    code ++ (Op.loopSplit checkAdv (!q.greedy) 0 (q.quantMax - q.quantMin)
      (relTo code 10 (start + 6))).encode

/-- The second part of `re_parse_quantifier`, for an atom that starts at `start`; there were
`lastCaptureCount` groups before it. -/
def quantify (code : List ℕ) (start lastCaptureCount captureCount : ℕ) (q : Quantifier) : List ℕ :=
  let (checkAdv, captureInit) :=
    reNeedCheckAdvAndCaptureInit code.length (code.drop start)
  let reset := (Op.saveReset lastCaptureCount (captureCount - 1)).encode
  let hasCaptures : Bool := lastCaptureCount ≠ captureCount
  let code := if captureInit ∧ hasCaptures then insertAt code start reset else code
  let len := code.length - start
  if q.quantMin = 0 then
    if !captureInit ∧ hasCaptures then
      quantifyFromZero (insertAt code start reset) (start + 3) len checkAdv q
    else quantifyFromZero code start len checkAdv q
  else quantifyFromOne code start checkAdv q

def reParseQuantifier (st : PState) (start lastCaptureCount : ℕ) : Parse PState := do
  match ← readQuantifier src st.pos with
  | none => return st
  | some (q, pos) =>
    return { st with
      pos := pos
      code := quantify st.code start lastCaptureCount st.captureCount q }

/-! ### Terms -/

/-- The instruction for a character or a range of them. -/
def atomOp (pos : ℕ) : ClassAtom → Parse Op
  | .range .s => .ok (.space false)
  | .range .S => .ok (.space true)
  | .range r => reEmitRange pos (reRangeOptimize (reEmitRangeBase r) false)
  | .char c =>
    if src.ignoreCase ∧ isLetter c then
      let c := if 0x61 ≤ c then c - 32 else c
      .ok (.range8 [c, c + 1, c + 32, c + 32 + 1])
    else .ok (.char (unicodeToUtf8 c))

/-- A term: the state after it and, if a quantifier may follow, where it starts in the code and how
many groups there were before it. -/
abbrev Term := PState × Option (ℕ × ℕ)

/-- A term that a quantifier may follow. -/
def atomTerm (st st' : PState) : Term := (st', some (st.code.length, st.captureCount))

/-- The label `parse_class_atom`. -/
def classAtomTerm (st : PState) : Parse Term := do
  let (a, pos) ← getClassAtom src st.pos false
  let op ← atomOp src pos a
  return atomTerm st (st.emit op pos)

variable (disjunction : PState → Parse PState)

/-- A look-ahead, after the characters that open it. -/
def lookaheadTerm (st : PState) (isNeg : Bool) : Parse Term := do
  let st' ← disjunction (st.emit (.lookahead isNeg 0) (st.pos + 3))
  let pos ← reParseExpect src ')' st'.pos
  let st' := st'.emit (.lookaheadMatch isNeg) pos
  let valPos := st.code.length + 1
  return ({ st' with code := putU32 st'.code valPos (st'.code.length - (valPos + 4)) }, none)

def groupTerm (st : PState) : Parse Term :=
  if src.byte (st.pos + 1) = 0x3f then
    match src.byte (st.pos + 2) with
    | 0x3a => do
      let st' ← disjunction { st with pos := st.pos + 3 }
      let pos ← reParseExpect src ')' st'.pos
      return atomTerm st { st' with pos := pos }
    | 0x3d => lookaheadTerm src disjunction st false
    | 0x21 => lookaheadTerm src disjunction st true
    | _ => .error ⟨"invalid group", st.pos⟩
  else if captureCountMax ≤ st.captureCount then .error ⟨"too many captures", st.pos + 1⟩
  else do
    let i := st.captureCount
    let st' ← disjunction { st.emit (.save false i) (st.pos + 1) with captureCount := i + 1 }
    let st' := st'.emit (.save true i) st'.pos
    let pos ← reParseExpect src ')' st'.pos
    return atomTerm st { st' with pos := pos }

def escapeTerm (st : PState) : Parse Term :=
  let c := src.byte (st.pos + 1)
  if c = 0x62 ∨ c = 0x42 then .ok (st.emit (.wordBoundary (c ≠ 0x62)) (st.pos + 2), none)
  else if c = 0x30 then
    if Json.isNum (src.byte (st.pos + 2)) then
      .error ⟨"invalid decimal escape in regular expression", st.pos + 2⟩
    else do
      let op ← atomOp src (st.pos + 2) (.char 0)
      return atomTerm st (st.emit op (st.pos + 2))
  else if Json.isNum c then
    let (i, pos) := parseDigits src (st.pos + 1)
    if captureCountMax < i then .error ⟨"back reference is out of range", pos⟩
    else .ok (atomTerm st (st.emit (.backReference src.ignoreCase i) pos))
  else classAtomTerm src st

def reParseTerm (st : PState) : Parse Term :=
  match src.byte st.pos with
  | 0x5e => .ok (st.emit (.lineStart src.multiLine) (st.pos + 1), none)
  | 0x24 => .ok (st.emit (.lineEnd src.multiLine) (st.pos + 1), none)
  | 0x2e => .ok (atomTerm st (st.emit (if src.dotall then .any else .dot) (st.pos + 1)))
  | 0x7b =>
    if !src.isUnicode ∧ !Json.isNum (src.byte (st.pos + 1)) then classAtomTerm src st
    else .error ⟨"nothing to repeat", st.pos⟩
  | 0x2a | 0x2b | 0x3f => .error ⟨"nothing to repeat", st.pos⟩
  | 0x28 => groupTerm src disjunction st
  | 0x5c => escapeTerm src st
  | 0x5b => do
    let (op, pos) ← reParseCharClass src st.pos
    return atomTerm st (st.emit op pos)
  | 0x5d | 0x7d =>
    if src.isUnicode then .error ⟨"syntax error", st.pos⟩ else classAtomTerm src st
  | _ => classAtomTerm src st

/-- The quantifier that may follow a term. -/
def quantifyTerm (t : Term) : Parse PState :=
  match t.2 with
  | none => .ok t.1
  | some (start, lastCaptureCount) => reParseQuantifier src t.1 start lastCaptureCount

/-! ### Joining literal characters -/

/-- `re_is_char`: the number of bytes if the code is one character instruction, otherwise 0. -/
def reIsChar (code : List ℕ) (start stop : ℕ) : ℕ :=
  let n := byteAt code start
  if ¬ (1 ≤ n ∧ n ≤ 4) then 0
  else if stop - start ≠ n + 1 then 0
  else n

/-- The loop that moves the bytes of the second character. -/
def moveBytes (dst : ℕ) : ℕ → List ℕ → List ℕ
  | 0, code => code
  | n2 + 1, code =>
    let code := moveBytes dst n2 code
    code.set (dst + n2) (byteAt code (dst + n2 + 1))

/-- The last two terms joined if they are characters: the code, and where its last term starts. -/
def combineChars (code : List ℕ) (lastTermStart : Option ℕ) (termStart : ℕ) : List ℕ × ℕ :=
  match lastTermStart with
  | none => (code, termStart)
  | some last =>
    let n1 := reIsChar code last termStart
    let n2 := reIsChar code termStart code.length
    if n1 > 0 ∧ n2 > 0 ∧ n1 + n2 ≤ 4 then
      let n1 := n1 + n2
      let code := moveBytes (last + n1) n2 (code.set last n1)
      (code.take (code.length - 1), last)
    else (code, termStart)

/-! ### Alternatives -/

mutual

def reParseAlternative : ℕ → PState → Option ℕ → Parse PState
  | 0, st, _ => .error ⟨"stack overflow", st.pos⟩
  | fuel + 1, st, lastTermStart =>
    if src.bufLen ≤ st.pos ∨ src.byte st.pos = 0x7c ∨ src.byte st.pos = 0x29 then .ok st
    else do
      let termStart := st.code.length
      let t ← reParseTerm src (reParseDisjunction fuel) st
      let st ← quantifyTerm src t
      let (code, lastTermStart) := combineChars st.code lastTermStart termStart
      reParseAlternative fuel { st with code := code } (some lastTermStart)

def reParseDisjunction : ℕ → PState → Parse PState
  | 0, st => .error ⟨"stack overflow", st.pos⟩
  | fuel + 1, st => do
    let st' ← reParseAlternative fuel st none
    moreAlternatives fuel st.code.length st'

/-- The loop of `re_parse_disjunction`, for code that starts at `start`. -/
def moreAlternatives : ℕ → ℕ → PState → Parse PState
  | 0, _, st => .error ⟨"stack overflow", st.pos⟩
  | fuel + 1, start, st =>
    if src.byte st.pos = 0x7c then do
      let len := st.code.length - start
      let code := insertAt st.code start (Op.split true (len + 5)).encode
      let valPos := code.length + 1
      let st' ← reParseAlternative fuel
        { st with pos := st.pos + 1, code := code ++ (Op.goto 0).encode } none
      let code := putU32 st'.code valPos (st'.code.length - (valPos + 4))
      moreAlternatives fuel start { st' with code := code }
    else .ok st

end

/-! ### Registers -/

variable (captureCount pos : ℕ)

/-- The register of an instruction if it has one, then the new `stack_size` and `stack_size_max`.
The parser is at `pos`. -/
def allocRegister (stackSize stackSizeMax : ℕ) : Op → Parse (Option ℕ × ℕ × ℕ)
  | .invalid => .error ⟨"assertion failed: opcode < REOP_COUNT", pos⟩
  | .setI32 _ _ | .setCharPos _ =>
    if stackSizeMax < stackSize + 1 then
      if registerCountMax < stackSize + 1 then .error ⟨"too many regexp registers", pos⟩
      else .ok (some stackSize, stackSize + 1, stackSize + 1)
    else .ok (some stackSize, stackSize + 1, stackSizeMax)
  | .checkAdvance _ | .loop _ _ | .loopSplit false _ _ _ _ =>
    if stackSize < 1 then .error ⟨"assertion failed: stack_size > 0", pos⟩
    else .ok (some (stackSize - 1), stackSize - 1, stackSizeMax)
  | .loopSplit true _ _ _ _ =>
    if stackSize < 2 then .error ⟨"assertion failed: stack_size >= 2", pos⟩
    else .ok (some (stackSize - 2), stackSize - 2, stackSizeMax)
  | .backReference _ i =>
    if captureCount ≤ i then .error ⟨"back reference is out of range", pos⟩
    else .ok (none, stackSize, stackSizeMax)
  | _ => .ok (none, stackSize, stackSizeMax)

/-- The bytes of an instruction, with its register. -/
def withRegister (bs : List ℕ) : Option ℕ → List ℕ
  | none => bs
  | some r => bs.set 1 r

/-- `re_compute_register_count`: the code with its registers, and their number. -/
def reComputeRegisterCount : ℕ → List ℕ → ℕ → ℕ → Parse (List ℕ × ℕ)
  | 0, _, _, stackSizeMax => .ok ([], stackSizeMax)
  | _, [], _, stackSizeMax => .ok ([], stackSizeMax)
  | fuel + 1, code, stackSize, stackSizeMax => do
    let op := Op.decode code
    let (r, stackSize, stackSizeMax) ← allocRegister captureCount pos stackSize stackSizeMax op
    let (code', count) ← reComputeRegisterCount fuel (code.drop op.size) stackSize stackSizeMax
    return (withRegister (code.take op.size) r ++ code', count)

/-- The code before the first alternative: without the sticky flag a loop over the start
positions. -/
def prologue : List ℕ :=
  (if src.sticky then []
    else (Op.split false (1 + 5)).encode ++ Op.any.encode ++ (Op.goto (-(5 + 1 + 5))).encode)
    ++ (Op.save false 0).encode

/-- `js_parse_regexp`: the byte code. -/
def jsParseRegexp : Parse (List ℕ) := do
  let header := u16Bytes src.reFlags ++ [0, 0]
  let st ← reParseDisjunction src (4 * src.buf.length + 4)
    ⟨src.bufStart, header ++ prologue src, 1⟩
  let st := (st.emit (.save true 0) st.pos).emit .match_ st.pos
  if st.pos ≠ src.bufLen then .error ⟨"extraneous characters at the end", st.pos⟩
  else do
    let code := st.code.drop headerLen
    let (code, registerCount) ←
      reComputeRegisterCount st.captureCount st.pos code.length code 0 0
    return u16Bytes src.reFlags ++ [st.captureCount, registerCount] ++ code

end Qjs.Regexp
