import Mathlib
import Qjs.HttpConn

/-!
# Responses of the HTTP server

The response functions of `aether_http_server.c`, from `http_response_create` to
`http_response_serialize_len`. A pointer to bytes with a length is a function from the index; memory
does not run out. The other half is a reader of HTTP responses, by which the output is judged.
-/

namespace Qjs

namespace Http

namespace Response

open FirstMatch

/-! ### Texts -/

/-- `HTTP/1.1 ` -/
def versionText : Str := [0x48, 0x54, 0x54, 0x50, 0x2f, 0x31, 0x2e, 0x31, 0x20]

def colonSpace : Str := [0x3a, 0x20]

/-- `Content-Type` -/
def contentType : Str := [0x43, 0x6f, 0x6e, 0x74, 0x65, 0x6e, 0x74, 0x2d, 0x54, 0x79, 0x70, 0x65]

/-- `Content-Length` -/
def contentLength : Str :=
  [0x43, 0x6f, 0x6e, 0x74, 0x65, 0x6e, 0x74, 0x2d, 0x4c, 0x65, 0x6e, 0x67, 0x74, 0x68]

/-- `Server` -/
def serverName : Str := [0x53, 0x65, 0x72, 0x76, 0x65, 0x72]

/-- `text/html; charset=utf-8` -/
def textHtml : Str :=
  [0x74, 0x65, 0x78, 0x74, 0x2f, 0x68, 0x74, 0x6d, 0x6c, 0x3b, 0x20, 0x63, 0x68, 0x61, 0x72, 0x73,
   0x65, 0x74, 0x3d, 0x75, 0x74, 0x66, 0x2d, 0x38]

/-- `Aether/1.0` -/
def aetherVersion : Str := [0x41, 0x65, 0x74, 0x68, 0x65, 0x72, 0x2f, 0x31, 0x2e, 0x30]

/-- `application/json` -/
def applicationJson : Str :=
  [0x61, 0x70, 0x70, 0x6c, 0x69, 0x63, 0x61, 0x74, 0x69, 0x6f, 0x6e, 0x2f, 0x6a, 0x73, 0x6f, 0x6e]

def httpStatusText (code : ℤ) : Str :=
  if code = 200 then [0x4f, 0x4b]
  else if code = 201 then [0x43, 0x72, 0x65, 0x61, 0x74, 0x65, 0x64]
  else if code = 204 then [0x4e, 0x6f, 0x20, 0x43, 0x6f, 0x6e, 0x74, 0x65, 0x6e, 0x74]
  else if code = 400 then [0x42, 0x61, 0x64, 0x20, 0x52, 0x65, 0x71, 0x75, 0x65, 0x73, 0x74]
  else if code = 401 then [0x55, 0x6e, 0x61, 0x75, 0x74, 0x68, 0x6f, 0x72, 0x69, 0x7a, 0x65, 0x64]
  else if code = 403 then [0x46, 0x6f, 0x72, 0x62, 0x69, 0x64, 0x64, 0x65, 0x6e]
  else if code = 404 then [0x4e, 0x6f, 0x74, 0x20, 0x46, 0x6f, 0x75, 0x6e, 0x64]
  else if code = 500 then
    [0x49, 0x6e, 0x74, 0x65, 0x72, 0x6e, 0x61, 0x6c, 0x20, 0x53, 0x65, 0x72, 0x76, 0x65, 0x72,
     0x20, 0x45, 0x72, 0x72, 0x6f, 0x72]
  else if code = 502 then [0x42, 0x61, 0x64, 0x20, 0x47, 0x61, 0x74, 0x65, 0x77, 0x61, 0x79]
  else if code = 503 then
    [0x53, 0x65, 0x72, 0x76, 0x69, 0x63, 0x65, 0x20, 0x55, 0x6e, 0x61, 0x76, 0x61, 0x69, 0x6c,
     0x61, 0x62, 0x6c, 0x65]
  else [0x55, 0x6e, 0x6b, 0x6e, 0x6f, 0x77, 0x6e]

/-- `%zu` -/
def decimal (n : ℕ) : Str :=
  if n = 0 then [0x30] else (Nat.digits 10 n).reverse.map fun d => UInt8.ofNat (0x30 + d)

/-- `%d` -/
def decimalInt (n : ℤ) : Str := if n < 0 then 0x2d :: decimal n.natAbs else decimal n.toNat

/-! ### Building a response -/

structure HttpServerResponse where
  statusCode : ℤ
  statusText : Str
  headers : List (Str × Str)
  body : Option (List UInt8)
  deriving DecidableEq

def HttpServerResponse.bodyLength (res : HttpServerResponse) : ℕ := (res.body.getD []).length

def maxHeaders : ℕ := 50

/-- `strcasecmp(a, b) == 0` -/
def sameName (a b : Str) : Prop := a.map tolower = b.map tolower

instance (a b : Str) : Decidable (sameName a b) := inferInstanceAs (Decidable (_ = _))

/-- The loop that looks for a header to update. -/
def updateHeader (key value : Str) : List (Str × Str) → Option (List (Str × Str))
  | [] => none
  | h :: hs =>
    if sameName h.1 key then some ((h.1, value) :: hs) else (updateHeader key value hs).map (h :: ·)

def setHeader (res : HttpServerResponse) (key value : Str) : HttpServerResponse :=
  match updateHeader key value res.headers with
  | some headers => { res with headers := headers }
  | none =>
    if maxHeaders ≤ res.headers.length then res
    else { res with headers := res.headers ++ [(key, value)] }

def httpResponseCreate : HttpServerResponse :=
  setHeader (setHeader ⟨200, httpStatusText 200, [], none⟩ contentType textHtml)
    serverName aetherVersion

def httpResponseSetStatus (res : HttpServerResponse) (code : ℤ) : HttpServerResponse :=
  { res with statusCode := code, statusText := httpStatusText code }

def httpResponseSetHeader (res : HttpServerResponse) (key value : Option Str) :
    HttpServerResponse :=
  match key, value with
  | some key, some value => setHeader res key value
  | _, _ => res

/-- The body, and `Content-Length` for it. -/
def storeBody (res : HttpServerResponse) (body : Option (List UInt8)) : HttpServerResponse :=
  setHeader { res with body := body } contentLength (decimal (body.getD []).length)

def httpResponseSetBody (res : HttpServerResponse) (body : Option Str) : HttpServerResponse :=
  match body with
  | none => res
  | some body => storeBody res (some body)

/-- The bytes that a pointer and a length stand for, if they are accepted. -/
def bytesOf (body : Option (ℕ → UInt8)) (length : ℤ) : Option (List UInt8) :=
  if length < 0 then none
  else if length = 0 then some []
  else body.map fun bytes => (List.range length.toNat).map bytes

def httpResponseSetBodyN (res : HttpServerResponse) (body : Option (ℕ → UInt8)) (length : ℤ) :
    HttpServerResponse :=
  match bytesOf body length with
  | none => res
  | some bytes => storeBody res (if length = 0 then none else some bytes)

def httpResponseJson (res : HttpServerResponse) (text : Option Str) : HttpServerResponse :=
  httpResponseSetBody (setHeader res contentType applicationJson) text

/-! ### Serializing -/

inductive Fault
  | overflow
  | outOfBounds
  | wrongLength
  deriving DecidableEq

def statusHeadroom : ℕ := 64

def neededSize (res : HttpServerResponse) : ℕ :=
  statusHeadroom + (res.headers.map fun h => h.1.length + h.2.length + 4).sum + 2 + res.bodyLength

def intBound : ℕ := 2 ^ 31

/-- `snprintf` behind what is written, with the sum of its result and the offset an `int`. A text
that would be cut for want of room is a fault. -/
def snprintf (size : ℕ) (buf text : List UInt8) : Except Fault (List UInt8) :=
  if intBound ≤ buf.length + text.length then .error .overflow
  else if buf.length + text.length < size then .ok (buf ++ text)
  else .error .outOfBounds

def statusLine (res : HttpServerResponse) : Str :=
  versionText ++ decimalInt res.statusCode ++ space :: res.statusText

def headerLine (h : Str × Str) : Str := h.1 ++ colonSpace ++ h.2

def writeHeaders (size : ℕ) : List (Str × Str) → List UInt8 → Except Fault (List UInt8)
  | [], buf => .ok buf
  | h :: hs, buf => do
    let buf ← snprintf size buf (headerLine h ++ crlf)
    writeHeaders size hs buf

/-- The body, and the part of the buffer that the length given back stands for. The length of the
body goes through an `int`; a sum below 0 becomes a length far beyond the buffer. -/
def writeBody (size : ℕ) (buf body : List UInt8) : Except Fault (List UInt8) :=
  if body.length = 0 then .ok buf
  else if size < buf.length + body.length then .error .outOfBounds
  else
    let off := (buf.length : ℤ) + Int.bmod body.length (2 ^ 32)
    if off < -intBound ∨ intBound ≤ off then .error .overflow
    else if off < 0 then .error .wrongLength
    else .ok ((buf ++ body).take off.toNat)

def httpResponseSerializeLen (res : HttpServerResponse) : Except Fault (List UInt8) := do
  let size := neededSize res + 1
  let buf ← snprintf size [] (statusLine res ++ crlf)
  let buf ← writeHeaders size res.headers buf
  let buf ← snprintf size buf crlf
  writeBody size buf (res.body.getD [])

/-! ### Calls -/

inductive Call
  | setStatus (code : Int32)
  | setHeader (key value : Option Str)
  | setBody (body : Option Str)
  | setBodyN (body : Option (ℕ → UInt8)) (length : Int32)
  | json (text : Option Str)

def apply (res : HttpServerResponse) : Call → HttpServerResponse
  | .setStatus code => httpResponseSetStatus res code.toInt
  | .setHeader key value => httpResponseSetHeader res key value
  | .setBody body => httpResponseSetBody res body
  | .setBodyN body length => httpResponseSetBodyN res body length.toInt
  | .json text => httpResponseJson res text

def responseAfter (calls : List Call) : HttpServerResponse := calls.foldl apply httpResponseCreate

/-- The body that a call sets; a body setter without a body sets none. -/
def Call.sets : Call → Option (List UInt8)
  | .setBody body => body
  | .setBodyN body length => bytesOf body length.toInt
  | .json text => text
  | _ => none

/-! ### Reading a response -/

def digit (c : UInt8) : Prop := 0x30 ≤ c ∧ c ≤ 0x39

instance (c : UInt8) : Decidable (digit c) := inferInstanceAs (Decidable (_ ∧ _))

def lineBreak (c : UInt8) : Prop := c = 0x0d ∨ c = 0x0a

instance (c : UInt8) : Decidable (lineBreak c) := inferInstanceAs (Decidable (_ ∨ _))

/-- The three digits of the status and its text. -/
def readStatusLine (line : Str) : Option (Str × Str) :=
  match line.drop versionText.length with
  | a :: b :: c :: d :: reason =>
    if line.take versionText.length = versionText ∧ digit a ∧ digit b ∧ digit c ∧ d = space then
      some ([a, b, c], reason)
    else none
  | _ => none

/-- A name that is not empty, a colon, a blank that may be missing, and the value; a line break that
is not the end of a line is not accepted. -/
def readField (line : Str) : Option (Str × Str) :=
  match cut [colon] line with
  | none => none
  | some (name, rest) =>
    let value := if rest.head? = some space then rest.tail else rest
    if name ≠ [] ∧ (∀ c ∈ name, ¬ lineBreak c) ∧ ∀ c ∈ value, ¬ lineBreak c then
      some (name, value)
    else none

/-- The fields up to the empty line, and what follows it. -/
def readFields : ℕ → Str → Option (List (Str × Str) × List UInt8)
  | 0, _ => none
  | fuel + 1, s =>
    match cut crlf s with
    | none => none
    | some (line, rest) =>
      if line = [] then some ([], rest)
      else do
        let field ← readField line
        let (fields, body) ← readFields fuel rest
        some (field :: fields, body)

structure Message where
  code : Str
  reason : Str
  fields : List (Str × Str)
  body : List UInt8

def readResponse (s : List UInt8) : Option Message := do
  let (line, rest) ← cut crlf s
  let (code, reason) ← readStatusLine line
  let (fields, body) ← readFields (rest.length + 1) rest
  some ⟨code, reason, fields, body⟩

def fieldValue (name : Str) (fields : List (Str × Str)) : Option Str :=
  (fields.find? fun f => sameName f.1 name).map Prod.snd

/-- The output reads as one response with the status, the stored headers and the body, and
`Content-Length` has the number of its bytes. -/
def WireRight (res : HttpServerResponse) : Prop :=
  ∃ out m, httpResponseSerializeLen res = .ok out ∧ readResponse out = some m ∧
    m.code = decimalInt res.statusCode ∧ m.reason = res.statusText ∧ m.fields = res.headers ∧
    fieldValue contentLength m.fields = some (decimal m.body.length) ∧ m.body = res.body.getD []

structure CleanHeader (h : Str × Str) : Prop where
  name_ne : h.1 ≠ []
  name_colon : colon ∉ h.1
  name_breaks : ∀ c ∈ h.1, ¬ lineBreak c
  value_breaks : ∀ c ∈ h.2, ¬ lineBreak c

/-- All that is to be written. -/
def wireText (res : HttpServerResponse) : List UInt8 :=
  statusLine res ++ crlf ++ res.headers.flatMap (fun h => headerLine h ++ crlf) ++ crlf ++
    res.body.getD []

/-- There is a `Content-Length` to update, or room for one. -/
def LengthFits (res : HttpServerResponse) : Prop :=
  (fieldValue contentLength res.headers).isSome ∨ res.headers.length < maxHeaders

end Response

end Http

end Qjs
