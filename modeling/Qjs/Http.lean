import Qjs.Lib.FirstMatch

/-!
# Requests of the HTTP server

`http_parse_request`, `http_get_query_param` and `http_route_matches` of `aether_http_server.c`. A
string is the list of its bytes before the zero, shorter than 2^31; a pointer into a string is what
follows it. A function without a result writes outside an array. What `malloc` gives is as long as
what is copied to it, so only the arrays of a fixed length are followed; memory does not run out.
-/

namespace Qjs

namespace Http

open FirstMatch

abbrev Str := List UInt8

def crlf : Str := [0x0d, 0x0a]

def space : UInt8 := 0x20

def question : UInt8 := 0x3f

def colon : UInt8 := 0x3a

def amp : UInt8 := 0x26

def equals : UInt8 := 0x3d

def slash : UInt8 := 0x2f

def star : UInt8 := 0x2a

/-! ### Arrays -/

/-- `strncpy` of a whole string to an array of `size` bytes, and the zero behind it. -/
def copyTo (size : ℕ) (s : Str) : Option Str := if s.length < size then some s else none

/-- The next element of an array of `size` elements. -/
def push {α : Type} (size : ℕ) (xs : List α) (x : α) : Option (List α) :=
  if xs.length < size then some (xs ++ [x]) else none

/-! ### A request -/

structure HttpRequest where
  method : Str
  path : Str
  queryString : Option Str
  httpVersion : Str
  headers : List (Str × Str)
  body : Option Str
  params : List (Str × Str)
  deriving DecidableEq

def strchr (s : Str) (c : UInt8) : Option (Str × Str) := cut [c] s

structure RequestLine where
  method : Str
  path : Str
  queryString : Option Str
  httpVersion : Str

/-- The method, the path, the query and the version, where the line has two spaces. -/
def parseRequestLine (line : Str) : Option RequestLine :=
  match strchr line space with
  | none => none
  | some (method, pathStart) =>
    match strchr pathStart space with
    | none => none
    | some (target, version) =>
      match strchr pathStart question with
      | none => some ⟨method, target, none, version⟩
      | some (path, query) =>
        if path.length < target.length then
          some ⟨method, path, some (query.take (target.length - path.length - 1)), version⟩
        else some ⟨method, target, none, version⟩

/-- What a line of the header section adds to the headers. -/
def addHeader (headers : List (Str × Str)) (line : Str) : Option (List (Str × Str)) :=
  match strchr line colon with
  | some (key, value) =>
    if headers.length < 50 then push 50 headers (key, value.dropWhile (· == space))
    else some headers
  | none => some headers

/-- The loop over the headers: they and what follows the section. -/
def parseHeaders (headerStart : Str) (headers : List (Str × Str)) :
    Option (List (Str × Str) × Str) :=
  match _h : cut crlf headerStart with
  | none => some (headers, headerStart)
  | some (line, rest) =>
    if line = [] then some (headers, rest)
    else match copyTo 1024 line with
      | none => none
      | some headerLine =>
        match addHeader headers headerLine with
        | none => none
        | some headers => parseHeaders rest headers
  termination_by headerStart.length
  decreasing_by
    rw [length_of_cut _h, crlf]
    simp only [List.length_cons, List.length_nil]
    omega

def httpParseRequest (raw : Str) : Option (Option HttpRequest) :=
  match cut crlf raw with
  | none => some none
  | some (first, headerStart) =>
    match copyTo 2048 first with
    | none => none
    | some requestLine =>
      match parseRequestLine requestLine with
      | none => some none
      | some line =>
        (parseHeaders headerStart []).map fun p =>
          some
            { method := line.method
              path := line.path
              queryString := line.queryString
              httpVersion := line.httpVersion
              headers := p.1
              body := if p.2 = [] then none else some p.2
              params := [] }

def httpGetQueryParam (queryString : Option Str) (key : Str) : Option (Option Str) :=
  match queryString with
  | none => some none
  | some query =>
    match cut key query with
    | none => some none
    | some (before, after) =>
      if before ≠ [] ∧ before.getLast? ≠ some amp then some none
      else match strchr (key ++ after) equals with
        | none => some none
        | some (_, value) => (copyTo 256 (value.takeWhile (· != amp))).map some

/-- The loop of `http_route_matches`. -/
def matchLoop (pattern path : Str) (params : List (Str × Str)) : Option (Bool × List (Str × Str)) :=
  match pattern, path with
  | [], u => some (u.isEmpty, params)
  | _ :: _, [] => some (false, params)
  | c :: p, d :: u =>
    if c = colon then
      match push 10 params (p.takeWhile (· != slash), (d :: u).takeWhile (· != slash)) with
      | none => none
      | some params => matchLoop (p.dropWhile (· != slash)) ((d :: u).dropWhile (· != slash)) params
    else if c = star then some (true, params)
    else if c = d then matchLoop p u params
    else some (false, params)
  termination_by pattern.length
  decreasing_by
    · have := (@List.dropWhile_suffix _ p (· != slash)).length_le
      simp only [List.length_cons]
      omega
    · simp

def httpRouteMatches (pattern path : Str) (req : HttpRequest) : Option (Bool × HttpRequest) :=
  if pattern = path then some (true, req)
  else (matchLoop pattern path []).map fun p => (p.1, { req with params := p.2 })

/-! ### What the arrays hold -/

def splitLines (s : Str) : List Str :=
  match _h : cut crlf s with
  | none => []
  | some (line, rest) => line :: splitLines rest
  termination_by s.length
  decreasing_by
    rw [length_of_cut _h, crlf]
    simp only [List.length_cons, List.length_nil]
    omega

/-- The lines before the first blank one, without the first. -/
def headerLines (raw : Str) : List Str := (splitLines raw).tail.takeWhile (· ≠ [])

/-- The first line is shorter than 2048 bytes and, where it has two spaces, each line of the header
section is shorter than 1024 bytes. -/
def LinesFit (raw : Str) : Prop :=
  ∀ first ∈ (splitLines raw).head?, first.length < 2048 ∧
    (2 ≤ first.count space → ∀ line ∈ headerLines raw, line.length < 1024)

/-- The value that follows the first occurrence of `key`, where that starts a parameter, is shorter
than 256 bytes. -/
def ValueFits (queryString : Option Str) (key : Str) : Prop :=
  ∀ query ∈ queryString, ∀ before after name value tail : Str,
    query = before ++ (key ++ after) → (∀ x y, query = x ++ (key ++ y) → before.length ≤ x.length) →
    (before = [] ∨ before.getLast? = some amp) →
    key ++ after = name ++ equals :: (value ++ tail) → equals ∉ name → amp ∉ value →
    (tail = [] ∨ tail.head? = some amp) → value.length < 256

/-- A beginning of a pattern, with `n` parameters, fits a beginning of a path. -/
inductive Fits : ℕ → Str → Str → Prop
  | nil : Fits 0 [] []
  | lit {n : ℕ} {p u : Str} (c : UInt8) (hcolon : c ≠ colon) (hstar : c ≠ star) (h : Fits n p u) :
    Fits n (c :: p) (c :: u)
  | param {n : ℕ} {p u : Str} (name value : Str) (hname : slash ∉ name) (hvalue : slash ∉ value)
    (h : Fits n (slash :: p) (slash :: u)) :
    Fits (n + 1) (colon :: (name ++ slash :: p)) (value ++ slash :: u)

/-- No eleventh parameter is reached with something of the path left. -/
def ParamsFit (pattern path : Str) : Prop :=
  pattern = path ∨ ∀ p rest u v, pattern = p ++ colon :: rest → path = u ++ v → v ≠ [] →
    ¬ Fits 10 p u

/-! ### A request by its parts -/

structure Field where
  key : Str
  pad : ℕ
  value : Str

def Field.line (f : Field) : Str := f.key ++ colon :: (List.replicate f.pad space ++ f.value)

structure Parts where
  method : Str
  path : Str
  query : Option Str
  version : Str
  fields : List Field
  body : Str

def Parts.target (r : Parts) : Str :=
  match r.query with
  | none => r.path
  | some query => r.path ++ question :: query

def Parts.firstLine (r : Parts) : Str :=
  r.method ++ space :: (r.target ++ space :: r.version)

def Parts.text (r : Parts) : Str :=
  r.firstLine ++ (crlf ++ (r.fields.flatMap (fun f => f.line ++ crlf) ++ (crlf ++ r.body)))

def Parts.request (r : Parts) : HttpRequest :=
  { method := r.method
    path := r.path
    queryString := r.query
    httpVersion := r.version
    headers := r.fields.map fun f => (f.key, f.value)
    body := if r.body = [] then none else some r.body
    params := [] }

structure Field.WellFormed (f : Field) : Prop where
  key_colon : colon ∉ f.key
  value_space : f.value.head? ≠ some space
  key_crlf : ¬ crlf <:+: f.key
  value_crlf : ¬ crlf <:+: f.value

structure Parts.WellFormed (r : Parts) : Prop where
  method_space : space ∉ r.method
  target_space : space ∉ r.target
  path_question : question ∉ r.path
  method_crlf : ¬ crlf <:+: r.method
  target_crlf : ¬ crlf <:+: r.target
  version_crlf : ¬ crlf <:+: r.version
  fields : ∀ f ∈ r.fields, f.WellFormed

structure Parts.WithinLimits (r : Parts) : Prop where
  firstLine : r.firstLine.length < 2048
  line : ∀ f ∈ r.fields, f.line.length < 1024
  fields : r.fields.length ≤ 50

end Http

end Qjs
