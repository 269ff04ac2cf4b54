import Qjs.RegexpParse

/-!
# Regular expressions: the shape of a program

What the compiler writes is the code of a tree: the nodes are the forms in which it puts
instructions around an atom. The registers of a node are those after the ones in use around it.

A path of a program is a sequence of what the interpreter can do without going back: at a choice
either way is taken, and a look-ahead that was entered remembers where it started. The last
instruction that stored a register is kept for each one.
-/

namespace Qjs.Regexp

/-! ### Trees -/

inductive Node
  | nil
  | op (o : Op)
  | cat (a b : Node)
  | alt (a b : Node)
  /-- The atom or nothing. -/
  | skip (greedy : Bool) (a : Node)
  /-- The atom, with a check that it goes forward. -/
  | guard (a : Node)
  | star (greedy : Bool) (a : Node)
  | plus (greedy : Bool) (a : Node)
  /-- The atom `n` times. -/
  | times (n : ℕ) (a : Node)
  /-- The atom up to `max` times, with a choice from a counter of `limit` on. -/
  | counted (checkAdv greedy : Bool) (max limit : ℕ) (a : Node)
  | look (neg : Bool) (a : Node)

def bytes (ops : List Op) : List ℕ := ops.flatMap Op.encode

namespace Node

/-- The number of bytes. -/
def size : Node → ℕ
  | nil => 0
  | op o => o.size
  | cat a b => a.size + b.size
  | alt a b => 5 + a.size + 5 + b.size
  | skip _ a => 5 + a.size
  | guard a => 2 + a.size + 2
  | star _ a => 5 + a.size + 5
  | plus _ a => a.size + 5
  | times _ a => 6 + a.size + 6
  | counted checkAdv _ _ _ a => 6 + 2 * checkAdv.toNat + a.size + 10
  | look _ a => 5 + a.size + 1

/-- The instructions, with `k` registers in use around the node; `reg` gives their numbers. -/
def ops (reg : ℕ → ℕ) : ℕ → Node → List Op
  | _, nil => []
  | _, op o => [o]
  | k, cat a b => a.ops reg k ++ b.ops reg k
  | k, alt a b =>
    [.split true (a.size + 5)] ++ a.ops reg k ++ [.goto b.size] ++ b.ops reg k
  | k, skip greedy a => [.split greedy a.size] ++ a.ops reg k
  | k, guard a => [.setCharPos (reg k)] ++ a.ops reg (k + 1) ++ [.checkAdvance (reg k)]
  | k, star greedy a =>
    [.split greedy (a.size + 5)] ++ a.ops reg k ++ [.goto (-(5 + a.size + 5))]
  | k, plus greedy a => a.ops reg k ++ [.split (!greedy) (-(a.size + 5))]
  | k, times n a => [.setI32 (reg k) n] ++ a.ops reg (k + 1) ++ [.loop (reg k) (-(a.size + 6))]
  | k, counted checkAdv greedy max limit a =>
    [.setI32 (reg k) max] ++ (if checkAdv then [.setCharPos (reg (k + 1))] else [])
      ++ a.ops reg (k + 1 + checkAdv.toNat)
      ++ [.loopSplit checkAdv (!greedy) (reg k) limit (-(2 * checkAdv.toNat + a.size + 10))]
  | k, look neg a =>
    [.lookahead neg (a.size + 1)] ++ a.ops reg k ++ [.lookaheadMatch neg]

/-- The number of registers. -/
def depth : Node → ℕ
  | nil | op _ => 0
  | cat a b | alt a b => max a.depth b.depth
  | skip _ a | star _ a | plus _ a | look _ a => a.depth
  | guard a | times _ a => 1 + a.depth
  | counted checkAdv _ _ _ a => 1 + checkAdv.toNat + a.depth

end Node

/-- What `re_need_check_adv_and_capture_init` takes from an instruction: that the position goes
forward, that it may not, or that nothing can be said from here on. -/
def Op.scan : Op → Option Bool
  | .range8 _ | .range _ | .char _ | .dot | .any | .space _ => some true
  | .lineStart _ | .lineEnd _ | .setI32 _ _ | .setCharPos _ | .wordBoundary _ | .save _ _
  | .saveReset _ _ => some false
  | _ => none

/-- An instruction that stands alone: no jump, no register, and only the first `captureCount`
groups. -/
def Op.Plain (captureCount : ℕ) : Op → Prop
  | .char bs => 1 ≤ bs.length ∧ bs.length ≤ 4
  | .range8 tab => tab.length % 2 = 0
  | .range tab => tab.length % 2 = 0 ∧ tab.length / 2 < 65536 ∧ ∀ v ∈ tab, v < 2 ^ 32
  | .save _ i => i < captureCount
  | .saveReset i j => i ≤ j ∧ j < captureCount
  | .dot | .any | .space _ | .lineStart _ | .lineEnd _ | .wordBoundary _ | .backReference _ _ =>
    True
  | _ => False

namespace Node

/-- A match of the node goes forward. -/
def advances : Node → Bool
  | op o => o.scan = some true
  | cat a b => a.advances || b.advances
  | guard _ => true
  | plus _ a | times _ a | counted _ _ _ _ a => a.advances
  | _ => false

/-- Loops without a counter go forward, counters are short integers. -/
def Ok (captureCount : ℕ) : Node → Prop
  | nil => True
  | op o => o.Plain captureCount
  | cat a b | alt a b => a.Ok captureCount ∧ b.Ok captureCount
  | skip _ a | guard a | look _ a => a.Ok captureCount
  | star _ a | plus _ a => a.Ok captureCount ∧ a.advances
  | times n a => a.Ok captureCount ∧ 1 ≤ n ∧ n ≤ shortIntMax
  | counted _ _ max limit a =>
    a.Ok captureCount ∧ 1 ≤ max ∧ max ≤ shortIntMax ∧ limit ≤ max

/-- All back references are to the first `captureCount` groups. -/
def Refs (captureCount : ℕ) : Node → Prop
  | op (.backReference _ i) => i < captureCount
  | nil | op _ => True
  | cat a b | alt a b => a.Refs captureCount ∧ b.Refs captureCount
  | skip _ a | guard a | look _ a | star _ a | plus _ a | times _ a | counted _ _ _ _ a =>
    a.Refs captureCount

/-- The code before registers are given out. -/
def raw (a : Node) : List ℕ := bytes (a.ops (fun _ => 0) 0)

end Node

/-! ### Paths -/

/-- What a state is without its stack, but with the look-aheads that were entered: whether each is
negative, where it started in the text, and where it goes on in the code. `owner` is the position of
the last instruction that stored each register. -/
structure Config where
  pc : ℕ
  cptr : ℕ
  capture : List ℕ
  looks : List (Bool × ℕ × ℕ)
  owner : ℕ → ℕ

namespace Config

variable (c : Config)

def get (i : ℕ) : ℕ := c.capture.getD i 0

/-- Behind the instruction. -/
def after (o : Op) : Config := { c with pc := c.pc + o.size }

def jump (val : ℤ) : Config := { c with pc := (c.pc + val).toNat }

def write (i v : ℕ) : Config := { c with capture := c.capture.set i v }

/-- The register `r`, in slot `i`, is stored by the instruction at `pc`. -/
def writeReg (pc r i v : ℕ) : Config :=
  { c.write i v with owner := fun r' => if r' = r then pc else c.owner r' }

def resetGroups : ℕ → ℕ → Config → Config
  | 0, _, c => c
  | n + 1, i, c => resetGroups n (i + 1) ((c.write (2 * i) 0).write (2 * i + 1) 0)

/-- The state of the interpreter it stands for, on a stack. -/
def onStack (stack : List ℕ) (bp : ℕ) : State := ⟨c.pc, c.cptr, c.capture, stack, bp, .run⟩

end Config

variable (cbuf code : List ℕ)

/-- What an instruction at `pc` can lead to; the configuration is the one after it. -/
def Op.succs (pc : ℕ) (c : Config) : Op → List Config
  | .goto val => [c.jump val]
  | .split _ val => [c, c.jump val]
  | .match_ => []
  | .lookaheadMatch false =>
    match c.looks with
    | (false, cptr, pc) :: looks => [{ c with pc := pc, cptr := cptr, looks := looks }]
    | _ => []
  | .lookaheadMatch true => []
  | .save isEnd i => [c.write (2 * i + isEnd.toNat) c.cptr]
  | .saveReset i j => [c.resetGroups (j + 1 - i) i]
  | .loop r val =>
    let i := 2 * lreGetCaptureCount code + r
    let val2 := toU32 (c.get i - 1)
    let c := c.writeReg pc r i val2
    if val2 ≠ 0 then [c.jump val] else [c]
  | .loopSplit checkAdv _ r limit val =>
    let i := 2 * lreGetCaptureCount code + r
    let val2 := toU32 (c.get i - 1)
    let c := c.writeReg pc r i val2
    if limit < val2 then [c.jump val]
    else if checkAdv ∧ c.get (i + 1) = c.cptr ∧ val2 ≠ limit then []
    else if val2 ≠ 0 then [c, c.jump val]
    else [c]
  | .setI32 r v => [c.writeReg pc r (2 * lreGetCaptureCount code + r) v]
  | .lookahead neg val =>
    { c with looks := (neg, c.cptr, (c.jump val).pc) :: c.looks } ::
      if neg then [c.jump val] else []
  | .setCharPos r => [c.writeReg pc r (2 * lreGetCaptureCount code + r) c.cptr]
  | .checkAdvance r => if c.get (2 * lreGetCaptureCount code + r) = c.cptr then [] else [c]
  | .invalid => []
  | op =>
    match matchOp cbuf (c.onStack [] 0) op with
    | none => []
    | some cptr => [{ c with cptr := cptr }]

/-- The next configurations. -/
def succs (c : Config) : List Config :=
  let op := Op.decode (code.drop c.pc)
  op.succs cbuf code c.pc (c.after op)

/-- The configurations that a path from a start position comes to. A value may have gone through the
undo log. -/
inductive Path (capture : List ℕ) : Config → Prop
  | start (cindex : ℕ) (h : cindex ≤ cbuf.length) :
    Path capture ⟨headerLen, cindex, capture, [], fun _ => 0⟩
  | cut {c : Config} (h : Path capture c) {capture' : List ℕ}
    (hc : List.Forall₂ Cut capture' c.capture) : Path capture { c with capture := capture' }
  | step {c c' : Config} (h : Path capture c) (hc : c' ∈ succs cbuf code c) : Path capture c'

/-! ### Literal characters -/

/-- Instructions that look at the text, one after the other. -/
def matchOps (s : State) : List Op → Option ℕ
  | [] => some s.cptr
  | o :: ops => match matchOp cbuf s o with
    | none => none
    | some cptr => matchOps { s with cptr := cptr } ops

/-- The term at a position is the character `c` alone, without a quantifier. -/
structure IsLiteral (src : Source) (pos c pos' : ℕ) : Prop where
  inside : ¬ (src.bufLen ≤ pos ∨ src.byte pos = 0x7c ∨ src.byte pos = 0x29)
  codePoint : c < 0x110000
  term : ∀ disjunction st, st.pos = pos → reParseTerm src disjunction st
    = .ok (atomTerm st (st.emit (.char (unicodeToUtf8 c)) pos'))
  alone : readQuantifier src pos' = .ok none

/-- The terms from a position to another are these characters. -/
def Literals (src : Source) : ℕ → List ℕ → ℕ → Prop
  | pos, [], pos' => pos = pos'
  | pos, c :: cs, pos' => ∃ p, IsLiteral src pos c p ∧ Literals src p cs pos'

/-- The bytes of the character instruction that the last term is, if it is one. -/
def lastChar (st : PState) : Option ℕ → List ℕ
  | none => []
  | some p => if 0 < reIsChar st.code p st.code.length then st.code.drop (p + 1) else []

/-- The code before that instruction. -/
def beforeChar (st : PState) : Option ℕ → List ℕ
  | none => st.code
  | some p => if 0 < reIsChar st.code p st.code.length then st.code.take p else st.code

/-- Of the characters that are joined to `n` bytes before them, each is of one byte. -/
def JoinsAscii : ℕ → List ℕ → Prop
  | _, [] => True
  | n, c :: cs =>
    if 0 < n ∧ n + (unicodeToUtf8 c).length ≤ 4 then
      (unicodeToUtf8 c).length = 1 ∧ JoinsAscii (n + (unicodeToUtf8 c).length) cs
    else JoinsAscii (unicodeToUtf8 c).length cs

/-! ### Loops -/

/-- The instructions that set a register for a loop. -/
def Op.opens : Op → Bool
  | .setI32 _ _ | .setCharPos _ => true
  | _ => false

/-- The number of registers whose loop ends with the instruction. -/
def Op.closes : Op → ℕ
  | .checkAdvance _ | .loop _ _ | .loopSplit false _ _ _ _ => 1
  | .loopSplit true _ _ _ _ => 2
  | _ => 0

/-- The registers an instruction reads or stores. -/
def Op.registers : Op → List ℕ
  | .setI32 r _ | .setCharPos r | .checkAdvance r | .loop r _ | .loopSplit false _ r _ _ => [r]
  | .loopSplit true _ r _ _ => [r, r + 1]
  | _ => []

/-- The loops that are open at `target`, innermost first: each is the position of the instruction
that opens it. The code is read from `pos` on. -/
def openLoops (target : ℕ) : ℕ → ℕ → List ℕ → List ℕ
  | 0, _, loops => loops
  | fuel + 1, pos, loops =>
    if target ≤ pos then loops
    else
      let op := Op.decode (code.drop pos)
      openLoops target fuel (pos + op.size)
        (if op.opens then pos :: loops else loops.drop op.closes)

/-- The loops open before the instruction at `pc`. -/
def loopsAt (pc : ℕ) : List ℕ := openLoops code pc code.length headerLen []

/-- The registers that the instruction at `pc` reads at the end of a loop, each with its loop. -/
def loopEnds (pc : ℕ) : List (ℕ × ℕ) :=
  let op := Op.decode (code.drop pc)
  op.registers.zip ((loopsAt code pc).take op.closes).reverse

/-- On some path from `c` the end of the loop `q` is reached, and there the register `r` is read,
before the loop is opened anew. -/
inductive Live (q r : ℕ) : Config → Prop
  | here {c : Config} (h : (r, q) ∈ loopEnds code c.pc) : Live q r c
  | step {c c' : Config} (hq : c.pc ≠ q) (hc : c' ∈ succs cbuf code c) (h : Live q r c') :
    Live q r c

/-- A compiled pattern. -/
structure Program where
  src : Source
  code : List ℕ
  compiled : jsParseRegexp src = .ok code
  short : code.length ≤ jsByteArraySizeMax

end Qjs.Regexp
