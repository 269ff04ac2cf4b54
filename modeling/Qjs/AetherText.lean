import Qjs.Lib.Separated

/-!
# Splitting and formatting

`string_split`, `string_split_to_seq` and `string_format_list`, over the two kinds of text that a
pointer to a string leads to. Memory for the results is taken to be there.
-/

namespace Qjs

namespace Aether

namespace Strings

open Separated

inductive Fault
  | wildPointer
  | outOfBounds
  | uninitialised
  deriving DecidableEq

def leBytes : ℕ → ℕ → List UInt8
  | 0, _ => []
  | n + 1, value => UInt8.ofNat value :: leBytes n (value / 256)

/-- The number in `n` bytes from an index on, the low byte first. -/
def leAt (byteAt : ℕ → UInt8) (i : ℕ) : ℕ → ℕ
  | 0 => 0
  | n + 1 => (byteAt i).toNat + 256 * leAt byteAt (i + 1) n

structure AetherString where
  refCount : ℕ
  capacity : ℕ
  address : ℕ
  data : List UInt8
  refCount_lt : refCount < 2 ^ 31
  length_le : data.length ≤ capacity
  capacity_lt : capacity < 2 ^ 64
  address_pos : 0 < address
  address_lt : address < 2 ^ 56

def aetherStringMagic : List UInt8 := [0xde, 0xc0, 0x57, 0xae]

/-- The bytes of the structure itself. -/
def AetherString.header (a : AetherString) : List UInt8 :=
  aetherStringMagic ++ leBytes 4 a.refCount ++ leBytes 8 a.data.length ++ leBytes 8 a.capacity ++
    leBytes 8 a.address

/-- The bytes up to the terminator, and what memory has after it. -/
structure CString where
  bytes : List UInt8
  after : ℕ → UInt8
  ne_zero : ∀ b ∈ bytes, b ≠ 0

/-- What a pointer to a string points to. -/
inductive Text
  | wrapped (a : AetherString)
  | plain (c : CString)

def Text.contents : Text → List UInt8
  | wrapped a => a.data
  | plain c => c.bytes

def Text.byteAt : Text → ℕ → UInt8
  | wrapped a, i => a.header.getD i 0
  | plain c, i => (c.bytes ++ [0]).getD i (c.after (i - c.bytes.length - 1))

def isAetherString (byteAt : ℕ → UInt8) : Bool :=
  byteAt 0 == 0xde && byteAt 1 == 0xc0 && byteAt 2 == 0x57 && byteAt 3 == 0xae &&
    leAt byteAt 4 4 < 2 ^ 31 && leAt byteAt 8 8 ≤ leAt byteAt 16 8 && leAt byteAt 24 8 != 0

def strLen (t : Text) : ℕ :=
  if isAetherString t.byteAt then leAt t.byteAt 8 8 else t.contents.length

/-- The bytes that the pointer leads to; a text that passes for a structure has no such pointer. -/
def strData : Text → Option (List UInt8)
  | .wrapped a => some a.data
  | .plain c => if isAetherString (Text.plain c).byteAt then none else some c.bytes

def copyFrom : Option (List UInt8) → ℕ → Except Fault (List UInt8)
  | some data, n => .ok (data.take n)
  | none, 0 => .ok []
  | none, _ + 1 => .error .wildPointer

/-- What a function sees that reads a `const char *` to the first zero byte. -/
def asCString : Text → List UInt8
  | .wrapped a => a.header.takeWhile (· ≠ 0)
  | .plain c => c.bytes

/-! ### string_split -/

abbrev Slots := List (Option (List UInt8))

def countLoop (sdata delimiter : List UInt8) (upper i count : ℕ) : ℕ :=
  if i ≤ upper then
    if OccursAt delimiter sdata i then
      countLoop sdata delimiter upper (i + (delimiter.length - 1) + 1) (count + 1)
    else countLoop sdata delimiter upper (i + 1) count
  else count
termination_by upper + 1 - i

def fillLoop (sdata delimiter : List UInt8) (upper i start idx : ℕ) (strings : Slots) :
    Except Fault (ℕ × ℕ × Slots) :=
  if i ≤ upper then
    if OccursAt delimiter sdata i then
      if idx < strings.length then
        fillLoop sdata delimiter upper (i + (delimiter.length - 1) + 1) (i + delimiter.length)
          (idx + 1) (strings.set idx (some ((sdata.drop start).take (i - start))))
      else .error .outOfBounds
    else fillLoop sdata delimiter upper (i + 1) start idx strings
  else .ok (start, idx, strings)
termination_by upper + 1 - i

def splitPieces (sdata delimiter : List UInt8) : Except Fault Slots :=
  if delimiter.length = 0 then .ok (sdata.map fun b => some [b])
  else if sdata.length < delimiter.length then .ok [some sdata]
  else do
    let upper := sdata.length - delimiter.length
    let count := countLoop sdata delimiter upper 0 1
    let (start, idx, strings) ←
      fillLoop sdata delimiter upper 0 0 0 (List.replicate count none)
    if idx < strings.length then
      .ok (strings.set idx (some ((sdata.drop start).take (sdata.length - start))))
    else .error .outOfBounds

/-- Every way through the function reads the bytes of the string, if it has any. -/
def stringSplit (str delimiter : Text) : Except Fault Slots := do
  let sdata ← copyFrom (strData str) (strLen str)
  splitPieces sdata (asCString delimiter)

/-- The cells in front of `head`, for the slots below `i`. -/
def seqLoop (strings : Slots) : ℕ → List (List UInt8) → Except Fault (List (List UInt8))
  | 0, head => .ok head
  | i + 1, head =>
    match strings[i]? with
    | none => .error .outOfBounds
    | some none => .error .uninitialised
    | some (some piece) => seqLoop strings i (piece :: head)

def stringSplitToSeq (str delimiter : Text) : Except Fault (List (List UInt8)) := do
  let strings ← stringSplit str delimiter
  seqLoop strings strings.length []

/-! ### string_format_list -/

def openBrace : UInt8 := 123

def closeBrace : UInt8 := 125

/-- The length of an entry; an entry may be `NULL`. -/
def argLen (a : Option Text) : ℕ := (a.map strLen).getD 0

def firstPass (args : List (Option Text)) : List UInt8 → ℕ → ℕ → ℕ
  | [], _, total => total
  | [_], _, total => total + 1
  | c :: n :: rest, nextArg, total =>
    if c = openBrace ∧ n = openBrace then firstPass args rest nextArg (total + 1)
    else if c = closeBrace ∧ n = closeBrace then firstPass args rest nextArg (total + 1)
    else if c = openBrace ∧ n = closeBrace then
      match args[nextArg]? with
      | some a => firstPass args rest (nextArg + 1) (total + argLen a)
      | none => firstPass args rest nextArg total
    else firstPass args (n :: rest) nextArg (total + 1)

/-- Bytes behind those written, in a buffer with room for `total` and the terminator. -/
def put (total : ℕ) (out bytes : List UInt8) : Except Fault (List UInt8) :=
  if out.length + bytes.length ≤ total + 1 then .ok (out ++ bytes) else .error .outOfBounds

def argData (a : Option Text) : Except Fault (List UInt8) :=
  match a with
  | none => .ok []
  | some a => copyFrom (strData a) (strLen a)

def secondPass (args : List (Option Text)) (total : ℕ) :
    List UInt8 → ℕ → List UInt8 → Except Fault (List UInt8)
  | [], _, out => .ok out
  | [c], _, out => put total out [c]
  | c :: n :: rest, nextArg, out =>
    if c = openBrace ∧ n = openBrace then do
      let out ← put total out [openBrace]
      secondPass args total rest nextArg out
    else if c = closeBrace ∧ n = closeBrace then do
      let out ← put total out [closeBrace]
      secondPass args total rest nextArg out
    else if c = openBrace ∧ n = closeBrace then
      match args[nextArg]? with
      | some a => do
        let adata ← argData a
        let out ← put total out adata
        secondPass args total rest (nextArg + 1) out
      | none => secondPass args total rest nextArg out
    else do
      let out ← put total out [c]
      secondPass args total (n :: rest) nextArg out

/-- The length that the first pass finds, and the bytes of the second. -/
def formatPasses (fmt : List UInt8) (args : List (Option Text)) :
    Except Fault (ℕ × List UInt8) := do
  let total := firstPass args fmt 0 0
  let out ← secondPass args total fmt 0 []
  if out.length < total + 1 then .ok (total, out) else .error .outOfBounds

def stringFormatList (fmt : Text) (args : List (Option Text)) : Except Fault (List UInt8) := do
  let (_, out) ← formatPasses (asCString fmt) args
  .ok out

/-! ### What is meant -/

/-- A text that a check of its first bytes takes for a structure. -/
def Text.Mistaken (t : Text) : Prop := strData t = none

/-- The pieces make up the text with the delimiter between them, and none has it inside. -/
def Splits (s delimiter : List UInt8) (pieces : List (List UInt8)) : Prop :=
  delimiter.intercalate pieces = s ∧ ∀ piece ∈ pieces, ¬ delimiter <:+: piece

/-- A split gives the pieces, as an array and as a sequence, and every other way to pass the same
two texts gives the same. -/
def SplitsRight (str delimiter : Text) : Prop :=
  ∃ pieces, stringSplit str delimiter = .ok (pieces.map some) ∧
    stringSplitToSeq str delimiter = .ok pieces ∧
    Splits str.contents delimiter.contents pieces ∧
    ∀ str' delimiter' : Text, str'.contents = str.contents → ¬ str'.Mistaken →
      delimiter'.contents = delimiter.contents → asCString delimiter' = delimiter'.contents →
      stringSplit str' delimiter' = .ok (pieces.map some)

/-- For an empty delimiter the pieces are the bytes. -/
def BytesRight (str delimiter : Text) : Prop :=
  stringSplit str delimiter = .ok (str.contents.map fun b => some [b]) ∧
    stringSplitToSeq str delimiter = .ok (str.contents.map fun b => [b])

inductive Token
  | byte (b : UInt8)
  | placeholder
  deriving DecidableEq

/-- A format read from left to right. -/
def tokens : List UInt8 → List Token
  | [] => []
  | [c] => [.byte c]
  | c :: n :: rest =>
    if c = openBrace ∧ n = openBrace then .byte openBrace :: tokens rest
    else if c = closeBrace ∧ n = closeBrace then .byte closeBrace :: tokens rest
    else if c = openBrace ∧ n = closeBrace then .placeholder :: tokens rest
    else .byte c :: tokens (n :: rest)

/-- The text of a format; a placeholder without an argument has none. -/
def expand : List Token → List (List UInt8) → List UInt8
  | [], _ => []
  | .byte b :: ts, args => b :: expand ts args
  | .placeholder :: ts, [] => expand ts []
  | .placeholder :: ts, arg :: args => arg ++ expand ts args

def placeholders (ts : List Token) : ℕ := ts.count .placeholder

def argText (a : Option Text) : List UInt8 := (a.map Text.contents).getD []

def ArgMistaken (a : Option Text) : Prop := ∃ t, a = some t ∧ t.Mistaken

/-- The second pass writes as many bytes as the first one counts, and they are the expansion. -/
def FormatsRight (fmt : Text) (args : List (Option Text)) : Prop :=
  ∃ out, formatPasses (asCString fmt) args = .ok (out.length, out) ∧
    stringFormatList fmt args = .ok out ∧
    out = expand (tokens fmt.contents) (args.map argText)

end Strings

end Aether

end Qjs
