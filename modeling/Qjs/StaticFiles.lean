import Qjs.HttpResponse

/-!
# Static files

`http_serve_file`, `http_serve_static`, `aether_middleware_static` and `vcr_static_dispatch`. What
the system gives is a parameter: `realpath`, and `fopen` of a regular file with what `fread` returns
of it. Memory does not run out, and a path that `realpath` gives fits its array.
-/

namespace Qjs

namespace Http

namespace Static

open Response

/-! ### Paths -/

def dot : UInt8 := 0x2e

def parentDir : Str := [dot, dot]

/-- The names in a path. -/
def segments (path : Str) : List Str := (path.splitOn slash).filter fun s => s ≠ []

/-- What `realpath` gives: names with a slash before each, or the root. -/
def Canonical (path : Str) : Prop :=
  ∃ names : List Str, (∀ s ∈ names, s ≠ [] ∧ slash ∉ s ∧ s ≠ [dot] ∧ s ≠ parentDir) ∧
    path = if names = [] then [slash] else names.flatMap (slash :: ·)

/-- The path is the root or below it. -/
def Below (root path : Str) : Prop := segments root <+: segments path

/-- What `fread` gives of a file may be less than the file. -/
structure File where
  content : List UInt8
  bytesRead : ℕ
  bytesRead_le : bytesRead ≤ content.length

structure FileSystem where
  realpath : Str → Option Str
  fopen : Str → Option File
  canonical : ∀ path resolved, realpath path = some resolved → Canonical resolved

/-! ### http_serve_file -/

def ascii (text : String) : Str := text.toList.map fun c => UInt8.ofNat c.toNat

def octetStream : Str := ascii "application/octet-stream"

/-- The types that `http_mime_type` knows, by the extension. -/
def mimeTypes : List (Str × Str) :=
  [(ascii "html", ascii "text/html; charset=utf-8"),
   (ascii "htm", ascii "text/html; charset=utf-8"),
   (ascii "css", ascii "text/css; charset=utf-8"),
   (ascii "js", ascii "application/javascript; charset=utf-8"),
   (ascii "json", ascii "application/json; charset=utf-8"),
   (ascii "xml", ascii "application/xml; charset=utf-8"),
   (ascii "txt", ascii "text/plain; charset=utf-8"),
   (ascii "png", ascii "image/png"),
   (ascii "jpg", ascii "image/jpeg"),
   (ascii "jpeg", ascii "image/jpeg"),
   (ascii "gif", ascii "image/gif"),
   (ascii "svg", ascii "image/svg+xml"),
   (ascii "ico", ascii "image/x-icon"),
   (ascii "webp", ascii "image/webp"),
   (ascii "woff", ascii "font/woff"),
   (ascii "woff2", ascii "font/woff2"),
   (ascii "ttf", ascii "font/ttf"),
   (ascii "otf", ascii "font/otf"),
   (ascii "pdf", ascii "application/pdf"),
   (ascii "zip", ascii "application/zip"),
   (ascii "wasm", ascii "application/wasm")]

/-- What follows the last dot. -/
def extension (path : Str) : Option Str :=
  if dot ∈ path then some (path.reverse.takeWhile (· ≠ dot)).reverse else none

def httpMimeType (path : Str) : Str :=
  match extension path with
  | none => octetStream
  | some ext =>
    match mimeTypes.find? fun t => sameName ext t.1 with
    | none => octetStream
    | some t => t.2

/-- A response with a status and a text. -/
def respond (res : HttpServerResponse) (code : ℤ) (text : Str) : HttpServerResponse :=
  httpResponseSetBody (httpResponseSetStatus res code) (some text)

def fileNotFound : Str := ascii "404 - File Not Found"

def notFound : Str := ascii "404 - Not Found"

def serverError : Str := ascii "500 - Server Error"

def forbidden : Str := ascii "403 - Forbidden"

def forbiddenText : Str := ascii "Forbidden"

def uriTooLong : Str := ascii "URI too long"

def uriTooLongText : Str := ascii "414 - URI Too Long"

def indexHtml : Str := ascii "index.html"

def allowOrigin : Str := ascii "Access-Control-Allow-Origin"

/-- A string of C: the bytes before the first zero. -/
def cString (bytes : List UInt8) : Str := bytes.takeWhile (· ≠ 0)

def httpServeFile (fs : FileSystem) (res : HttpServerResponse) (filepath : Str) :
    HttpServerResponse :=
  match fs.fopen filepath with
  | none => respond res 404 fileNotFound
  | some f =>
    if f.bytesRead = 0 ∧ 0 < f.content.length then respond res 500 serverError
    else
      let res := httpResponseSetStatus res 200
      let res := setHeader res contentType (httpMimeType filepath)
      let res := setHeader res allowOrigin [star]
      httpResponseSetBody res (some (cString (f.content.take f.bytesRead)))

/-! ### http_serve_static -/

/-- `..`, `%2e`, `%2E`, `%2f`, `%2F`, `%5c`, `%5C` and a backslash. -/
def traversals : List Str :=
  [parentDir, [0x25, 0x32, 0x65], [0x25, 0x32, 0x45], [0x25, 0x32, 0x66], [0x25, 0x32, 0x46],
   [0x25, 0x35, 0x63], [0x25, 0x35, 0x43], [0x5c]]

def refused (path : Str) : Bool := traversals.any fun t => decide (t <:+: path)

/-- The path of the request without its slash; `index.html` stands for none. -/
def requestName (path : Option Str) : Str :=
  match path.getD [] with
  | [] => indexHtml
  | c :: rest => if c = slash then if rest = [] then indexHtml else rest else c :: rest

def filepathSize : ℕ := 1024

/-- `snprintf` cuts what does not fit. -/
def staticPath (dir name : Str) : Str := (dir ++ slash :: name).take (filepathSize - 1)

/-- The path that is given to `http_serve_file`, if any, and the response. -/
def httpServeStatic (fs : FileSystem) (path : Option Str) (res : HttpServerResponse)
    (baseDir : Option Str) : Option Str × HttpServerResponse :=
  let dir := baseDir.getD [dot]
  let name := requestName path
  if refused name then (none, respond res 403 forbidden)
  else
    match fs.realpath (staticPath dir name), fs.realpath dir with
    | some resolved, some resolvedDir =>
      if resolvedDir.isPrefixOf resolved then (some resolved, httpServeFile fs res resolved)
      else (none, respond res 403 forbidden)
    | _, _ => (none, respond res 404 notFound)

/-! ### aether_middleware_static -/

structure StaticOpts where
  urlPrefix : Str
  root : Str
  root_ne : root ≠ []

/-- `aether_middleware_static`, with the path given to `http_serve_file`; without a response the
chain goes on. -/
def middlewareStatic (fs : FileSystem) (path : Option Str) (res : HttpServerResponse)
    (o : StaticOpts) : Option Str × Option HttpServerResponse :=
  match path with
  | none => (none, none)
  | some path =>
    if !o.urlPrefix.isPrefixOf path then (none, none)
    else
      let rest := path.drop o.urlPrefix.length
      let tail := if rest = [] then [slash] else rest
      if slash :: parentDir <:+: tail ∨ parentDir ++ [slash] <:+: tail ∨ tail = parentDir then
        (none, some (respond res 403 forbiddenText))
      else
        let fspath := o.root ++ (if tail.head? = some slash then [] else [slash]) ++ tail
        if filepathSize ≤ fspath.length then (none, some (respond res 414 uriTooLong))
        else (some fspath, some (httpServeFile fs res fspath))

/-! ### vcr_static_dispatch -/

structure StaticMount where
  mountPath : Str
  fsDir : Str

def prefixMismatch : Str := ascii "static dispatch: prefix mismatch (router bug)"

def nullPath : Str := ascii "static dispatch: null request path"

def vcrStaticDispatch (fs : FileSystem) (path : Option Str) (res : HttpServerResponse)
    (m : StaticMount) : Option Str × HttpServerResponse :=
  match path with
  | none => (none, respond res 400 nullPath)
  | some path =>
    if !m.mountPath.isPrefixOf path then (none, respond res 500 prefixMismatch)
    else
      let rest := path.drop m.mountPath.length
      let rel := if rest.head? = some slash then rest.tail else rest
      let rel := if rel = [] then indexHtml else rel
      if refused rel then (none, respond res 403 forbidden)
      else
        let filepath := m.fsDir ++ slash :: rel
        if filepathSize ≤ filepath.length then (none, respond res 414 uriTooLongText)
        else (some filepath, httpServeFile fs res filepath)

/-! ### What serving is for -/

/-- The path given to `http_serve_file` is below the root that the directory resolves to. -/
def Contained (fs : FileSystem) (path : Option Str) (res : HttpServerResponse)
    (baseDir : Option Str) : Prop :=
  ∀ opened, (httpServeStatic fs path res baseDir).1 = some opened →
    ∃ root, fs.realpath (baseDir.getD [dot]) = some root ∧ Below root opened

/-- The path that the request resolves to goes on behind the path of the root with a byte other than
a slash, so that its name begins with the name of the root. -/
def NamedAlike (root resolved : Str) : Prop :=
  root ≠ [slash] ∧ ∃ c t, resolved = root ++ c :: t ∧ c ≠ slash

/-- A path behind a root, with no parent directory in it. -/
def NoParent (root path : Str) : Prop :=
  ∃ rest, path = root ++ slash :: rest ∧ parentDir ∉ rest.splitOn slash

/-- A response with the status 200 has the bytes of the file. -/
def Complete (fs : FileSystem) (res : HttpServerResponse) (filepath : Str) : Prop :=
  ∀ f, fs.fopen filepath = some f → (httpServeFile fs res filepath).statusCode = 200 →
    (httpServeFile fs res filepath).body.getD [] = f.content

end Static

end Http

end Qjs
