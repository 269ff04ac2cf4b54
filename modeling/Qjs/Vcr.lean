import Qjs.ConstFold
import Qjs.Lib.Sections

/-!
# VCR tapes

A recorded tape is a Markdown text: a heading for each interaction, a subheading for each of its
four parts, and a code block, fenced or indented, under each. `emitTape` writes it and
`parseTapeFile` reads it back, looking for the headings at the beginnings of lines.

A text is its bytes, and a position of the parser, which is always the beginning of a line, is the
list of the lines from there on: an empty last one is the end of a text whose last line is ended.
Notes and redactions are left out, and memory does not run out.
-/

namespace Qjs.Aether.Vcr

open JsonText Sections

abbrev Text := List ℕ

def text (s : String) : Text := s.toList.map Char.toNat

def newline : ℕ := 0x0a

def lines (s : Text) : List Text := s.splitOn newline

structure Interaction where
  method : Text
  path : Text
  status : ℤ
  contentType : Text
  body : Text
  reqHeaders : Text
  reqBody : Text
  deriving DecidableEq

/-- `vcr_emphasize_http_verbs` and `vcr_indent_code_blocks`. -/
structure Toggles where
  emphasizeHttpVerbs : Bool
  indentCodeBlocks : Bool

/-! ### Writing -/

def emitCodeBlock (t : Toggles) (body : Text) : Text :=
  if t.indentCodeBlocks then
    if body = [] then text "    \n"
    else (visited (lines body)).flatMap fun line => text "    " ++ line ++ text "\n"
  else if body = [] then text "```\n```\n"
  else if body.getLast? = some newline then text "```\n" ++ body ++ text "```\n"
  else text "```\n" ++ body ++ text "\n```\n"

def emphasis (t : Toggles) : Text := if t.emphasizeHttpVerbs then text "*" else []

def emitOneInteraction (t : Toggles) (i : ℕ) (x : Interaction) : Text :=
  text "## Interaction " ++ formatLld i ++ text ": " ++ emphasis t ++ x.method ++ emphasis t
    ++ text " " ++ x.path ++ text "\n\n"
    ++ text "### Request headers recorded for playback:\n\n" ++ emitCodeBlock t x.reqHeaders
    ++ text "### Request body recorded for playback ():\n\n" ++ emitCodeBlock t x.reqBody
    ++ text "### Response headers recorded for playback:\n\n"
    ++ emitCodeBlock t (if x.contentType = [] then [] else text "Content-Type: " ++ x.contentType)
    ++ text "### Response body recorded for playback (" ++ formatLld x.status ++ text ": "
    ++ (if x.contentType = [] then text "text/plain" else x.contentType) ++ text "):\n\n"
    ++ emitCodeBlock t x.body ++ text "\n"

def emitFrom (t : Toggles) : ℕ → List Interaction → Text
  | _, [] => []
  | i, x :: xs => emitOneInteraction t i x ++ emitFrom t (i + 1) xs

def emitTape (t : Toggles) (xs : List Interaction) : Text := emitFrom t 0 xs

/-! ### Code blocks -/

/-- A space, a tab, a line feed or a carriage return. -/
def isTrimmed (c : ℕ) : Bool := c == 32 || c == 9 || c == 10 || c == 13

def rtrim (s : Text) : Text := s.rdropWhile isTrimmed

def fence : Text := text "```"

def isBlank (c : ℕ) : Bool := c == 32 || c == 9

def isIndented (line : Text) : Bool := line.head? == some 9 || (text "    ").isPrefixOf line

def stripIndent (line : Text) : Text := if line.head? = some 9 then line.drop 1 else line.drop 4

/-- The lines of an indented block, up to one that is neither blank nor indented. -/
def indentedLines : List Text → List Text
  | [] => []
  | line :: ls =>
    if line = [] ∧ ls = [] then []
    else if isIndented line then stripIndent line :: indentedLines ls
    else if line.all isBlank then [] :: indentedLines ls
    else []

def extractIndentedAt (ls : List Text) : Text := [newline].intercalate (indentedLines ls)

/-- The block of a section, nothing if it has none; the end that is returned too is not used. -/
def extractCodeBlockAt : List Text → Text
  | [] => []
  | line :: ls =>
    if rtrim line = [] then extractCodeBlockAt ls
    else if fence.isPrefixOf (rtrim line) then
      if ls.any fence.isPrefixOf then
        [newline].intercalate (ls.takeWhile fun line => !fence.isPrefixOf line)
      else []
    else if isIndented line then extractIndentedAt (line :: ls)
    else []

/-! ### Headings -/

/-- `*` or `_`. -/
def isEmphasis (c : ℕ) : Bool := c == 42 || c == 95

def isEmphasized (m : Text) : Bool :=
  2 ≤ m.length && m.head?.any isEmphasis && m.getLast?.any isEmphasis

def stripLoop : ℕ → Text → Text
  | 0, m => m
  | fuel + 1, m => if isEmphasized m then stripLoop fuel m.tail.dropLast else m

def stripEmphasis (m : Text) : Text := stripLoop m.length m

/-- The method and the path. -/
def parseInteractionHeader (line : Text) : Option (Text × Text) :=
  match (rtrim line).span (· != 32) with
  | (_, []) => none
  | (m, _ :: path) => some (stripEmphasis m, path)

/-- The number, the colon and the spaces before the method. -/
def skipNumber (line : Text) : Text :=
  let line := line.dropWhile isDigit
  let line := if line.head? = some 58 then line.tail else line
  line.dropWhile (· == 32)

def isSpace (c : ℕ) : Bool := c == 0x20 || (0x09 ≤ c && c ≤ 0x0d)

/-- `string.to_int`: what `strtol` reads, if it fits and only white space follows. -/
def toInt (s : Text) : Option ℤ :=
  let s := s.dropWhile isSpace
  let neg := s.head? = some 0x2d
  let s := if neg ∨ s.head? = some 0x2b then s.tail else s
  let ds := s.takeWhile isDigit
  let v : ℤ := if neg then -(digitsValue ds : ℤ) else digitsValue ds
  if ds = [] ∨ v < -2 ^ 31 ∨ 2 ^ 31 - 1 < v then none
  else if (s.dropWhile isDigit).all isSpace then some v
  else none

/-- The status and the content type of `(200: text/plain)`. -/
def parseResponseBodyHeader (line : Text) : Option (ℤ × Text) :=
  match line.dropWhile (· != 40) with
  | [] => none
  | _ :: rest =>
    if 41 ∉ rest then none
    else
      match (rest.takeWhile (· != 41)).span (· != 58) with
      | (_, []) => none
      | (status, _ :: ct) => (toInt status).map fun st => (st, ct.dropWhile isBlank)

/-! ### Request headers -/

def toLower (c : ℕ) : ℕ := if 65 ≤ c ∧ c ≤ 90 then c + 32 else c

def icmp : Text → Text → ℤ
  | [], [] => 0
  | [], _ :: _ => -1
  | _ :: _, [] => 1
  | a :: as, b :: bs =>
    if toLower a = toLower b then icmp as bs else if toLower a < toLower b then -1 else 1

/-- One turn of `sort_lines`. -/
def insertLine (out : List Text) (line : Text) : List Text :=
  out.takeWhile (fun l => icmp l line ≤ 0) ++ line :: out.dropWhile fun l => icmp l line ≤ 0

def sortLines (ls : List Text) : List Text := ls.foldl insertLine []

def trimCr (line : Text) : Text := if line.getLast? = some 13 then line.dropLast else line

/-- Empty lines and `Host` are dropped. -/
def keepsHeader (line : Text) : Bool :=
  let name := line.takeWhile (· != 58)
  line != [] && !(58 ∈ line && name != [] && icmp name (text "Host") == 0)

def normalizeRecordedHeaders (raw : Text) : Text :=
  endl newline (sortLines (((visited (lines raw)).map trimCr).filter keepsHeader))

/-! ### Reading -/

def isSection (line : Text) : Bool := (text "### ").isPrefixOf line

def isInteraction (line : Text) : Bool := (text "## Interaction ").isPrefixOf line

/-- The variables of `parse_one_interaction`. -/
structure Parts where
  status : ℤ
  contentType : Text
  body : Text
  reqHeaders : Text
  reqBody : Text

def Parts.start : Parts := ⟨0, [], [], [], []⟩

def parseSection (q : Parts) (name : Text) (ls : List Text) : Except String Parts :=
  let block := extractCodeBlockAt ls
  if (text "Request headers recorded").isPrefixOf name then
    .ok (if block = [] then q else { q with reqHeaders := normalizeRecordedHeaders block })
  else if (text "Request body recorded").isPrefixOf name then .ok { q with reqBody := block }
  else if (text "Response body recorded").isPrefixOf name then
    match parseResponseBodyHeader name with
    | none => .error "malformed response body header"
    | some (st, ct) => .ok { q with status := st, contentType := ct, body := block }
  else .ok q

/-- The sections, each a heading and the lines up to the next one, where the line before it is
ended; a heading that is not ended itself is not read. -/
def parseSections (q : Parts) : List (Text × List Text) → Except String Parts
  | [] => .ok q
  | [(line, ls)] => if ls = [] then .ok q else parseSection q (line.drop 4) ls
  | (line, ls) :: g :: gs => do
    parseSections (← parseSection q (line.drop 4) (ls ++ [[]])) (g :: gs)

/-- The lines of an interaction, without the words of its heading. -/
def parseOneInteraction : List Text → Except String Interaction
  | [] => .error "interaction missing header line"
  | [_] => .error "interaction missing header line"
  | line :: l :: ls =>
    match parseInteractionHeader (skipNumber line) with
    | none => .error "malformed interaction header"
    | some (method, path) => do
      let q ← parseSections .start (groups isSection (l :: ls)).2
      if q.status = 0 then .error "interaction has no Response body section"
      else .ok ⟨method, path, q.status, q.contentType, q.body, q.reqHeaders, q.reqBody⟩

/-- The loop of `parse_tape_file`; at the end of the file there is no interaction. -/
def parseInteractions : List (Text × List Text) → Except String (List Interaction)
  | [] => .ok []
  | (line, ls) :: gs =>
    if line.drop 15 = [] ∧ ls = [] ∧ gs = [] then .ok []
    else do
      let x ← parseOneInteraction (line.drop 15 :: ls)
      return x :: (← parseInteractions gs)

/-- `parse_tape_file` on the contents of the file: the tape it builds. -/
def parseTapeFile (contents : Text) : Except String (List Interaction) :=
  let gs := (groups isInteraction (lines contents)).2
  if gs = [] then .error "tape contains no '## Interaction ' headers"
  else do
    let xs ← parseInteractions gs
    if xs = [] then .error "tape parsed but yielded zero interactions" else .ok xs

/-! ### Which tapes come back -/

/-- What is recorded: C strings, a method that is one word, a status that is not zero, and request
headers in the form `normalize_recorded_headers` gives them. -/
structure Recorded extends Interaction where
  bytes : ∀ c ∈ method ++ path ++ contentType ++ body ++ reqHeaders ++ reqBody, 0 < c ∧ c < 256
  method_noSpace : 32 ∉ method
  status_ne : status ≠ 0
  status_int : -2 ^ 31 ≤ status ∧ status ≤ 2 ^ 31 - 1
  headers_canonical : normalizeRecordedHeaders reqHeaders = reqHeaders

def blockLines (s : Text) : List Text := visited (lines s)

/-- A line that means something to the parser. -/
def isMark (line : Text) : Bool :=
  fence.isPrefixOf line || isSection line || isInteraction line

/-- The lines of the block are found again: an indented one does not begin with a blank line, a
fenced one has no line with a mark. -/
def KeepsLines (t : Toggles) (s : Text) : Prop :=
  if t.indentCodeBlocks then ∀ line, (blockLines s).head? = some line → rtrim line ≠ []
  else ∀ line ∈ blockLines s, isMark line = false

/-- The end of the block is found again: no last line feed, but one where the blank line at the end
of the tape is taken for a line of the block. -/
def KeepsEnd (t : Toggles) (last : Bool) (s : Text) : Prop :=
  if t.indentCodeBlocks && last then s = [] ∨ s.getLast? = some newline
  else s.getLast? ≠ some newline

structure RoundTrips (t : Toggles) (last : Bool) (x : Interaction) : Prop where
  method_line : newline ∉ x.method
  method_ne_nil : t.emphasizeHttpVerbs = false → x.method ≠ []
  method_plain : isEmphasized x.method = false
  path_line : newline ∉ x.path
  path_end : ∃ c, x.path.getLast? = some c ∧ isTrimmed c = false
  type_line : newline ∉ x.contentType
  type_paren : 41 ∉ x.contentType
  type_start : ∃ c, x.contentType.head? = some c ∧ isBlank c = false
  headers : KeepsLines t x.reqHeaders
  reqBody : KeepsLines t x.reqBody
  reqBody_end : KeepsEnd t false x.reqBody
  body : KeepsLines t x.body
  body_end : KeepsEnd t last x.body

end Qjs.Aether.Vcr
