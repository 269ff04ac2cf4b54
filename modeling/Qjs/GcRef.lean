import Qjs.Lib.Records

/-!
# The stack of GC references

The functions that push `JSGCRef` records on `ctx->top_gc_ref`, or words on `ctx->sp`, as programs over
these two. What the rest of the engine does in a run is given: which calls fail, how a piece is
appended to a string buffer, what is found. Of a call that does not appear nothing is left.

A record is the variable of a C frame: `d` is the depth of the frame. A run of the parser is a nest of
records and words that may end in a jump at any point.
-/

namespace Qjs

namespace GcRef

open Records

/-- The variable of a record. -/
inductive Name
  | buffer | val | val1 | val2 | str | sep | obj | method | captureBuf | evalCode | topFunc | parsed
  deriving DecidableEq

abbrev Ref := ℕ × Name

/-! ### Calls -/

/-- How a function that may call JavaScript ends: without an exception, or with one and with some
words left on the stack. -/
inductive Callee
  | ok
  | fail (left : ℕ)

def Callee.failed : Callee → Bool
  | .ok => false
  | .fail _ => true

def Callee.left : Callee → ℕ
  | .ok => 0
  | .fail left => left

/-- Whether it fails. -/
def callee (x : Callee) : Prog Ref Bool := do
  move (-x.left)
  pure x.failed

/-- How `JS_Call` ends. A call that does not start (C stack overflow, not a function, no room for the
frame) keeps what has been pushed for it. -/
inductive CallEnd
  | returns
  | throws
  | notStarted (extra : ℕ)

/-- `JS_Call` with `argc` arguments, the function and `this` on the stack. -/
def jsCall (argc : ℕ) : CallEnd → Prog Ref Bool
  | .returns => do
    move (argc + 2)
    pure false
  | .throws => do
    move (argc + 2)
    pure true
  | .notStarted extra => do
    move (-extra)
    pure true

/-- One method of `JS_ToPrimitive`. -/
structure Method where
  get : Callee
  isFunction : Bool
  stackCheck : Bool
  call : CallEnd
  isObject : Bool

/-- `JS_ToPrimitive` of an object. -/
def jsToPrimitive (d : ℕ) : List Method → Prog Ref Bool
  | [] => pure true
  | m :: ms => do
    push (d, .val)
    let failed ← callee m.get
    pop (d, .val)
    if failed then pure true
    else if m.isFunction then do
      push (d, .method)
      push (d, .val)
      pop (d, .val)
      pop (d, .method)
      if m.stackCheck then do
        move (-2)
        push (d, .val)
        let failed ← jsCall 0 m.call
        pop (d, .val)
        if failed then pure true
        else if m.isObject then jsToPrimitive d ms
        else pure false
      else pure true
    else jsToPrimitive d ms

/-- `JS_Run`: whether there is a closure and room for the call, and the call. -/
structure Run where
  closure : Bool
  stackCheck : Bool
  call : CallEnd

def jsRun (d : ℕ) (e : Run) : Prog Ref Bool :=
  if e.closure then do
    push (d, .val)
    pop (d, .val)
    if e.stackCheck then do
      move (-2)
      jsCall 0 e.call
    else pure true
  else pure true

/-! ### String buffers

The programs take and return whether the buffer is `JS_EXCEPTION`. -/

/-- What `string_buffer_concat_str` has to do. -/
inductive Append
  | fits
  | tooLong
  | resize (ok : Bool)

/-- `string_buffer_concat_str`; it returns -1 when the buffer is an exception. -/
def stringBufferConcatStr (d : ℕ) (exc : Bool) (a : Append) : Prog Ref Bool :=
  if exc then pure true
  else
    match a with
    | .fits => pure false
    | .tooLong => pure true
    | .resize ok => do
      push (d, .val1)
      push (d, .val2)
      pop (d, .val2)
      pop (d, .val1)
      pure !ok

/-- A value, with its `JS_ToString`. -/
structure Item where
  toString : Callee
  append : Append

/-- `string_buffer_concat`. -/
def stringBufferConcat (d : ℕ) (exc : Bool) (x : Item) : Prog Ref Bool := do
  let failed ← callee x.toString
  if failed then pure true else stringBufferConcatStr d exc x.append

/-- What is added by `string_buffer_concat_utf8`, `string_buffer_putc` or `string_buffer_puts`. -/
inductive Piece
  /-- An empty range, or no string for `string_buffer_puts`. -/
  | skip
  /-- No substring. -/
  | noSub
  | append (a : Append)

def stringBufferPiece (d : ℕ) (exc : Bool) : Piece → Prog Ref Bool
  | .skip => pure exc
  | .noSub => pure true
  | .append a => stringBufferConcatStr d exc a

/-- Pieces of which no result is looked at. -/
def stringBufferPieces (d : ℕ) (exc : Bool) : List Piece → Prog Ref Bool
  | [] => pure exc
  | p :: ps => do
    let exc ← stringBufferPiece d exc p
    stringBufferPieces d exc ps

/-- Values until one fails. -/
def stringBufferItems (d : ℕ) (exc : Bool) : List (List Piece × Item) → Prog Ref Bool
  | [] => pure exc
  | (ps, x) :: xs => do
    let exc ← stringBufferPieces d exc ps
    let exc ← stringBufferConcat d exc x
    if exc then pure true else stringBufferItems d exc xs

/-- `string_buffer_push`, what is done with the buffer, and `string_buffer_pop`. -/
def withBuffer {α : Type} (d : ℕ) (m : Prog Ref α) : Prog Ref α := do
  push (d, .buffer)
  let a ← m
  pop (d, .buffer)
  pure a

/-! ### Functions with a string buffer -/

/-- `JS_ConcatString`. -/
def jsConcatString (d : ℕ) (isException : Bool) (a₁ a₂ : Append) : Prog Ref Bool :=
  if isException then pure true
  else withBuffer d (stringBufferPieces (d + 1) false [.append a₁, .append a₂])

/-- `js_string_concat`. -/
def jsStringConcat (d : ℕ) (toString : Callee) (r : Item) (args : List Item) : Prog Ref Bool := do
  let failed ← callee toString
  if failed then pure true
  else withBuffer d (stringBufferItems (d + 1) false ((r :: args).map fun x => ([], x)))

/-- A character of `js_string_fromCharCode`. -/
structure CharCode where
  toInt : Callee
  inRange : Bool
  append : Append

/-- The loop of `js_string_fromCharCode`: whether it fails. -/
def charCodes (d : ℕ) : List CharCode → Prog Ref Bool
  | [] => pure false
  | x :: xs => do
    let failed ← callee x.toInt
    if failed then pure true
    else if x.inRange then do
      let exc ← stringBufferConcatStr d false x.append
      if exc then pure true else charCodes d xs
    else pure true

/-- `js_string_fromCharCode`. -/
def jsStringFromCharCode (d : ℕ) (args : List CharCode) : Prog Ref Bool :=
  withBuffer d (charCodes (d + 1) args)

/-- `js_string_toLowerCase`. -/
def jsStringToLowerCase (d : ℕ) (toString : Callee) (alloc : Bool) (chars : List Append) :
    Prog Ref Bool := do
  let failed ← callee toString
  if failed then pure true
  else if alloc then withBuffer d (stringBufferPieces (d + 1) false (chars.map .append))
  else pure true

structure Repeat where
  isString : Bool
  toInt : Callee
  inRange : Bool
  /-- The string is empty or is repeated once. -/
  trivial : Bool
  alloc : Bool
  appends : List Append

/-- `js_string_repeat`. -/
def jsStringRepeat (d : ℕ) (e : Repeat) : Prog Ref Bool :=
  if e.isString then do
    let failed ← callee e.toInt
    if failed then pure true
    else if e.inRange then
      if e.trivial then pure false
      else if e.alloc then withBuffer d (stringBufferPieces (d + 1) false (e.appends.map .append))
      else pure true
    else pure true
  else pure true

structure ErrorToString where
  isError : Bool
  getName : Callee
  /-- `JS_ToString` of a name that is not undefined. -/
  toString : Option Callee
  name : Item
  message : Option (Piece × Item)

/-- `js_error_toString`. -/
def jsErrorToString (d : ℕ) (e : ErrorToString) : Prog Ref Bool :=
  if e.isError then do
    let failed ← callee e.getName
    if failed then pure true
    else do
      let failed ← callee (e.toString.getD .ok)
      if failed then pure true
      else withBuffer d do
        let exc ← stringBufferConcat (d + 1) false e.name
        match e.message with
        | none => pure exc
        | some (p, x) => do
          let exc ← stringBufferPiece (d + 1) exc p
          stringBufferConcat (d + 1) exc x
  else pure true

/-- An element of `js_array_join`. -/
structure JoinElem where
  /-- The separator, not before the first one. -/
  sep : Option Item
  get : Callee
  /-- The value, unless it is undefined or null. -/
  val : Option Item

/-- The loop of `js_array_join`: whether it fails. -/
def joinElems (d : ℕ) : List JoinElem → Prog Ref Bool
  | [] => pure false
  | x :: xs => do
    let exc ← match x.sep with
      | none => pure false
      | some y => stringBufferConcat d false y
    if exc then pure true
    else do
      let failed ← callee x.get
      if failed then pure true
      else do
        let exc ← match x.val with
          | none => pure false
          | some y => stringBufferConcat d false y
        if exc then pure true else joinElems d xs

structure Join where
  isObject : Bool
  length : Callee
  sep : Callee
  elems : List JoinElem

/-- `js_array_join`. -/
def jsArrayJoin (d : ℕ) (e : Join) : Prog Ref Bool :=
  if e.isObject then do
    let failed ← callee e.length
    if failed then pure true
    else do
      let failed ← callee e.sep
      if failed then pure true
      else do
        push (d, .sep)
        let failed ← withBuffer d (joinElems (d + 1) e.elems)
        pop (d, .sep)
        pure failed
  else pure true

/-! ### The parser -/

/-- A run of the parser. -/
inductive Nest
  | done
  /-- `js_parse_error`: a jump to the handler. -/
  | error
  /-- A record that is pushed and popped after `body`, and what comes then. -/
  | ref (body rest : Nest)
  /-- The same with `n` words. -/
  | words (n : ℕ) (body rest : Nest)

/-- Whether it ends in a jump. -/
def parse (d : ℕ) : Nest → Prog Ref Bool
  | .done => pure false
  | .error => pure true
  | .ref body rest => do
    push (d, .parsed)
    let jump ← parse (d + 1) body
    if jump then pure true
    else do
      pop (d, .parsed)
      parse d rest
  | .words n body rest => do
    move (-n)
    let jump ← parse (d + 1) body
    if jump then pure true
    else do
      move n
      parse d rest

/-- What is parsed; for a program whether there is memory for the name of the file and the function,
and the runs of `js_parse_program` and `js_parse_local_functions`. -/
inductive Source
  | json (n : Nest)
  | regexp (n : Nest)
  | program (filename func : Bool) (program locals : Nest)

def parseSource (d : ℕ) : Source → Prog Ref Bool
  | .json n => parse (d + 1) n
  | .regexp n => parse (d + 1) n
  | .program filename func program locals =>
    if filename then
      if func then do
        push (d, .topFunc)
        let jump ← parse (d + 1) program
        if jump then pure true
        else do
          let jump ← parse (d + 1) locals
          if jump then pure true
          else do
            pop (d, .topFunc)
            pure false
      else pure true
    else pure true

/-- `JS_Parse2`. -/
def jsParse2 (d : ℕ) (src : Source) : Prog Ref Bool := catching (parseSource d src)

structure FunctionConstructor where
  opening : Piece
  /-- The parameters, with the comma before each of them. -/
  params : List (List Piece × Item)
  /-- The body, unless there are no arguments. -/
  body : List (List Piece × Item)
  closing : Piece
  /-- Whether `string_buffer_pop` gives a string when nothing has failed. -/
  string : Bool
  source : Source
  run : Run

/-- The text of the function: whether it is an exception. -/
def functionText (d : ℕ) (e : FunctionConstructor) : Prog Ref Bool := do
  let exc ← stringBufferPiece d false e.opening
  let exc ← stringBufferItems d exc e.params
  if exc then pure true
  else do
    let exc ← stringBufferItems d exc e.body
    if exc then pure true else stringBufferPiece d exc e.closing

/-- `js_function_constructor`. -/
def jsFunctionConstructor (d : ℕ) (e : FunctionConstructor) : Prog Ref Bool := do
  let exc ← withBuffer d (functionText (d + 1) e)
  if exc then pure true
  else if e.string then do
    let failed ← jsParse2 (d + 1) e.source
    if failed then pure true else jsRun (d + 1) e.run
  else pure true

/-! ### JSON.stringify -/

/-- A property that is written. -/
structure JsonProp where
  comma : Piece
  name : List Piece
  colon : Piece
  stackCheck : Bool
  circular : Bool

/-- A turn of the loop of `js_json_stringify`. -/
inductive Turn
  /-- A number or a boolean. -/
  | text (x : Item)
  | null (p : Piece)
  | string (ps : List Piece)
  | endArray (ps : List Piece)
  | elem (ps : List Piece) (stackCheck circular : Bool)
  /-- Before the first property a brace and `js_object_keys`; the properties that are looked up; the
  one that is written, or the end of the object. -/
  | object (start : Option (Piece × Callee)) (gets : List Callee) (next : JsonProp ⊕ Piece)

/-- `js_to_quoted_string`. -/
def jsToQuotedString (d : ℕ) (exc : Bool) (ps : List Piece) : Prog Ref Bool := do
  push (d, .str)
  let exc ← stringBufferPieces (d + 1) exc ps
  pop (d, .str)
  pure exc

/-- The name of a property, while its value is kept. -/
def jsonName (d : ℕ) (exc : Bool) (q : JsonProp) : Prog Ref Bool := do
  let exc ← stringBufferPiece d exc q.comma
  let exc ← jsToQuotedString d exc q.name
  stringBufferPiece d exc q.colon

/-- Whether it fails. The records are counted; when the turns have run out, those that are open end. -/
def jsonTurns (d : ℕ) : ℕ → Bool → List Turn → Prog Ref Bool
  | 0, _, _ => pure false
  | n + 1, _, [] => do
    move (3 * (n + 1))
    pure false
  | n + 1, exc, .text x :: ts => do
    let exc ← stringBufferConcat (d + 1) exc x
    if exc then pure true
    else do
      move 3
      jsonTurns d n exc ts
  | n + 1, exc, .null p :: ts => do
    let exc ← stringBufferPiece (d + 1) exc p
    move 3
    jsonTurns d n exc ts
  | n + 1, exc, .string ps :: ts => do
    let exc ← jsToQuotedString (d + 1) exc ps
    move 3
    jsonTurns d n exc ts
  | n + 1, exc, .endArray ps :: ts => do
    let exc ← stringBufferPieces (d + 1) exc ps
    move 3
    jsonTurns d n exc ts
  | n + 1, exc, .elem ps stackCheck circular :: ts => do
    let exc ← stringBufferPieces (d + 1) exc ps
    if stackCheck && !circular then do
      move (-3)
      jsonTurns d (n + 2) exc ts
    else pure true
  | n + 1, exc, .object start gets next :: ts => do
    let exc ← stringBufferPieces (d + 1) exc (start.map Prod.fst).toList
    let failed ← untilFail callee ((start.map Prod.snd).toList ++ gets)
    if failed then pure true
    else
      match next with
      | .inr p => do
        let exc ← stringBufferPiece (d + 1) exc p
        move 3
        jsonTurns d n exc ts
      | .inl q => do
        push (d, .val)
        let exc ← jsonName (d + 1) exc q
        pop (d, .val)
        if q.stackCheck && !q.circular then do
          move (-3)
          jsonTurns d (n + 2) exc ts
        else pure true

/-- `js_json_stringify`. -/
def jsJsonStringify (d : ℕ) (stackCheck : Bool) (turns : List Turn) : Prog Ref Bool :=
  withBuffer d <| resetting <|
    if stackCheck then do
      move (-3)
      jsonTurns d 1 false turns
    else pure true

/-! ### Regular expressions -/

/-- A group of a match. -/
inductive Capture
  | undefined
  /-- Whether there is memory for the substring, and room for what is still to be pushed. -/
  | defined (sub stackCheck : Bool)

inductive ExecMagic
  | exec | search | test

inductive ExecEnd
  | error | noMatch | found

structure Exec where
  isRegexp : Bool
  toString : Callee
  alloc : Bool
  magic : ExecMagic
  result : ExecEnd
  newArray : Bool
  defineIndex : Bool
  defineInput : Bool
  captures : List Capture

/-- A substring for the array of the result. -/
def execCapture (d : ℕ) : Capture → Prog Ref Bool
  | .undefined => pure false
  | .defined sub _ => do
    push (d, .obj)
    pop (d, .obj)
    pure !sub

/-- The array of the result: whether it fails. -/
def execArray (d : ℕ) (e : Exec) : Prog Ref Bool :=
  if e.newArray then do
    push (d, .obj)
    pop (d, .obj)
    if e.defineIndex then do
      push (d, .obj)
      pop (d, .obj)
      if e.defineInput then untilFail (execCapture d) e.captures else pure true
    else pure true
  else pure true

def execResult (d : ℕ) (e : Exec) : Prog Ref Bool :=
  match e.result with
  | .error => pure true
  | .noMatch => pure false
  | .found =>
    match e.magic with
    | .search | .test => pure false
    | .exec => execArray d e

/-- `js_regexp_exec`. -/
def jsRegexpExec (d : ℕ) (e : Exec) : Prog Ref Bool :=
  if e.isRegexp then do
    let failed ← callee e.toString
    if failed then pure true
    else if e.alloc then do
      push (d, .captureBuf)
      let failed ← execResult d e
      pop (d, .captureBuf)
      pure failed
    else do
      -- the jump to `fail` is before the record is pushed
      pop (d, .captureBuf)
      pure true
  else pure true

/-! ### String.prototype.replace -/

structure Subst where
  isFunction : Bool
  stackCheck : Bool
  /-- The groups of a match from the last one on; without a regular expression the needle is pushed. -/
  captures : Option (List Capture)
  call : CallEnd
  result : Item
  pieces : List Piece

/-- The groups are pushed as arguments. -/
def pushCapture (d : ℕ) : Capture → Prog Ref Bool
  | .undefined => do
    move (-1)
    pure false
  | .defined sub stackCheck =>
    if sub then do
      push (d, .val)
      pop (d, .val)
      if stackCheck then do
        move (-1)
        pure false
      else pure true
    else pure true

/-- `js_string_concat_subst`: whether the buffer is an exception. -/
def jsStringConcatSubst (d : ℕ) (exc : Bool) (e : Subst) : Prog Ref Bool :=
  if e.isFunction then
    if e.stackCheck then do
      move (-2)
      let captures := e.captures.getD [.undefined]
      let failed ← untilFail (pushCapture d) captures
      if failed then pure exc
      else do
        move (-2)
        let failed ← jsCall (2 + captures.length) e.call
        if failed then pure exc else stringBufferConcat (d + 1) exc e.result
    else pure exc
  else stringBufferPieces (d + 1) exc e.pieces

/-- A match: what is before it, and what is put in its place. -/
structure Match where
  before : Piece
  subst : Subst

def replaceMatches (d : ℕ) (exc : Bool) : List Match → Prog Ref Bool
  | [] => pure exc
  | m :: ms => do
    let exc ← stringBufferPiece (d + 1) exc m.before
    let exc ← jsStringConcatSubst (d + 1) exc m.subst
    replaceMatches d exc ms

structure Replace where
  this : Callee
  /-- `JS_ToString` of a pattern that is no regular expression. -/
  pattern : Callee
  replacement : Callee
  isRegexp : Bool
  alloc : Bool
  /-- The matches that are replaced. -/
  found : List Match
  /-- Whether a search ends with an error. -/
  execFails : Bool
  after : Piece

/-- `js_string_replace`. -/
def jsStringReplace (d : ℕ) (e : Replace) : Prog Ref Bool := do
  let failed ← untilFail callee [e.this, e.pattern, e.replacement]
  if failed then pure true
  else withBuffer d <|
    if e.isRegexp then
      if e.alloc then do
        push (d, .captureBuf)
        let exc ← replaceMatches d false e.found
        pop (d, .captureBuf)
        if e.execFails then pure true else stringBufferPiece (d + 1) exc e.after
      else pure true
    else if e.found.isEmpty then pure false
    else do
      let exc ← replaceMatches d false e.found
      stringBufferPiece (d + 1) exc e.after

/-! ### Bytecode -/

/-- `JS_PrepareBytecode64to32`: whether `expand_short_floats` and `gc_compact_heap_64to32` succeed. -/
def jsPrepareBytecode64to32 (d : ℕ) (expand compact : Bool) : Prog Ref Bool := do
  push (d, .evalCode)
  if expand then
    if compact then do
      pop (d, .evalCode)
      pure false
    else pure true
  else pure true

/-! ### Entry points -/

inductive Entry
  | parse2 (src : Source)
  | prepareBytecode64to32 (expand compact : Bool)
  | regexpExec (e : Exec)
  | stringReplace (e : Replace)
  | jsonStringify (stackCheck : Bool) (turns : List Turn)
  | functionConstructor (e : FunctionConstructor)
  | arrayJoin (e : Join)
  | errorToString (e : ErrorToString)
  | stringRepeat (e : Repeat)
  | stringToLowerCase (toString : Callee) (alloc : Bool) (chars : List Append)
  | stringFromCharCode (args : List CharCode)
  | stringConcat (toString : Callee) (r : Item) (args : List Item)
  | concatString (isException : Bool) (a₁ a₂ : Append)
  | toPrimitive (ms : List Method)
  | run (e : Run)

/-- The function, in a frame of depth `d`. -/
def Entry.prog (d : ℕ) : Entry → Prog Ref Bool
  | .parse2 src => jsParse2 d src
  | .prepareBytecode64to32 expand compact => jsPrepareBytecode64to32 d expand compact
  | .regexpExec e => jsRegexpExec d e
  | .stringReplace e => jsStringReplace d e
  | .jsonStringify stackCheck turns => jsJsonStringify d stackCheck turns
  | .functionConstructor e => jsFunctionConstructor d e
  | .arrayJoin e => jsArrayJoin d e
  | .errorToString e => jsErrorToString d e
  | .stringRepeat e => jsStringRepeat d e
  | .stringToLowerCase toString alloc chars => jsStringToLowerCase d toString alloc chars
  | .stringFromCharCode args => jsStringFromCharCode d args
  | .stringConcat toString r args => jsStringConcat d toString r args
  | .concatString isException a₁ a₂ => jsConcatString d isException a₁ a₂
  | .toPrimitive ms => jsToPrimitive d ms
  | .run e => jsRun d e

end GcRef

end Qjs
