import Qjs.Http

/-!
# What a handler is given

The routing of `handle_one_request` and the parameters that a handler asks for. A route keeps its
handler with its user data as one value.
-/

namespace Qjs

namespace Http

structure HttpRoute (η : Type) where
  method : Str
  pathPattern : Str
  handler : η

variable {η : Type}

/-- The loop of `handle_one_request` over the routes. -/
def findRoute : List (HttpRoute η) → HttpRequest → Option (Option (HttpRoute η) × HttpRequest)
  | [], req => some (none, req)
  | route :: routes, req =>
    if route.method = req.method then
      match httpRouteMatches route.pathPattern req.path req with
      | none => none
      | some (true, req) => some (some route, req)
      | some (false, req) => findRoute routes req
    else findRoute routes req

def httpGetPathParam (req : HttpRequest) (key : Str) : Option Str :=
  (req.params.find? fun p => p.1 = key).map Prod.snd

/-! ### Routes that match -/

/-- What a name or a segment of a path ends with. -/
def Ended (s : Str) : Prop := s = [] ∨ s.head? = some slash

/-- The pattern matches the whole path, with these bindings. -/
inductive Matches : Str → Str → List (Str × Str) → Prop
  | nil : Matches [] [] []
  | lit {p u : Str} {b : List (Str × Str)} (c : UInt8) (hcolon : c ≠ colon) (hstar : c ≠ star)
    (h : Matches p u b) : Matches (c :: p) (c :: u) b
  | param {p u : Str} {b : List (Str × Str)} (name value : Str) (hname : slash ∉ name)
    (hvalue : slash ∉ value) (hne : value ≠ []) (hp : Ended p) (hu : Ended u)
    (h : Matches p u b) : Matches (colon :: (name ++ p)) (value ++ u) ((name, value) :: b)
  | star (p u : Str) : Matches (star :: p) u []

/-- The first route with the method whose pattern matches the path. -/
def IsFirst (routes : List (HttpRoute η)) (req : HttpRequest) (r : HttpRoute η)
    (b : List (Str × Str)) : Prop :=
  ∃ pre post, routes = pre ++ r :: post ∧ r.method = req.method ∧ Matches r.pathPattern req.path b
    ∧ ∀ q ∈ pre, q.method = req.method → ∀ b', ¬ Matches q.pathPattern req.path b'

/-- The first route that matches is chosen, and the handler sees its bindings and no others. -/
def Routed (routes : List (HttpRoute η)) (req : HttpRequest) : Prop :=
  (∀ r b, IsFirst routes req r b → ∃ req', findRoute routes req = some (some r, req')
      ∧ req'.params = b
      ∧ ∀ key, httpGetPathParam req' key = (b.find? fun p => p.1 = key).map Prod.snd)
    ∧ ((∀ r b, ¬ IsFirst routes req r b) → ∃ req', findRoute routes req = some (none, req'))

/-! ### Where the loop agrees -/

/-- How far a pattern and a path go together: what is bound on the way, and what is left of both. A
segment may be empty as long as something of the path is left. -/
def walk (pattern path : Str) : List (Str × Str) × Str × Str :=
  match pattern, path with
  | [], u => ([], [], u)
  | c :: p, [] => ([], c :: p, [])
  | c :: p, d :: u =>
    if c = colon then
      let r := walk (p.dropWhile (· != slash)) ((d :: u).dropWhile (· != slash))
      ((p.takeWhile (· != slash), (d :: u).takeWhile (· != slash)) :: r.1, r.2)
    else if c = star then ([], c :: p, d :: u)
    else if c = d then walk p u
    else ([], c :: p, d :: u)
  termination_by pattern.length
  decreasing_by
    · have := (@List.dropWhile_suffix _ p (· != slash)).length_le
      simp only [List.length_cons]
      omega
    · simp

/-- What the routes have left in the request after they were tried without a match. -/
def leftover (tried : List (HttpRoute η)) (req : HttpRequest) : List (Str × Str) :=
  tried.foldl (fun params q =>
    if q.method = req.method then (walk q.pathPattern req.path).1 else params) req.params

/-- There are ten parameters at most; where a segment is empty neither both ends nor a `*` with
something of the path left are reached; where none is, a `*` is not reached at the end of the path.
-/
structure WalkFits (pattern path : Str) : Prop where
  ten : (walk pattern path).1.length ≤ 10
  segment : (∃ p ∈ (walk pattern path).1, p.2 = []) →
    (walk pattern path).2 ≠ ([], []) ∧
      ((walk pattern path).2.1.head? = some star → (walk pattern path).2.2 = [])
  remainder : (∀ p ∈ (walk pattern path).1, p.2 ≠ []) →
    (walk pattern path).2.1.head? = some star → (walk pattern path).2.2 ≠ []

/-- Of each route that is tried, up to the first that matches: the pattern is the path itself, and
what was left in the request is what the pattern binds there, or else the loop agrees. -/
def RoutesFit (routes : List (HttpRoute η)) (req : HttpRequest) : Prop :=
  ∀ pre r post, routes = pre ++ r :: post → r.method = req.method →
    (∀ q ∈ pre, q.method = req.method → ∀ b, ¬ Matches q.pathPattern req.path b) →
    (r.pathPattern = req.path → leftover pre req = (walk req.path req.path).1)
      ∧ (r.pathPattern ≠ req.path → WalkFits r.pathPattern req.path)

/-! ### Parameters of the query -/

def pairText (p : Str × Str) : Str := p.1 ++ equals :: p.2

/-- `k1=v1&...&kn=vn`. -/
def queryText (ps : List (Str × Str)) : Str := [amp].intercalate (ps.map pairText)

/-- The pairs and the `&` behind each. -/
def pairsBefore (ps : List (Str × Str)) : Str := ps.flatMap fun p => pairText p ++ [amp]

structure PairsValid (ps : List (Str × Str)) : Prop where
  key_amp : ∀ p ∈ ps, amp ∉ p.1
  key_equals : ∀ p ∈ ps, equals ∉ p.1
  value_amp : ∀ p ∈ ps, amp ∉ p.2

/-- The value of the first pair with the key. -/
def firstValue (ps : List (Str × Str)) (key : Str) : Option Str :=
  (ps.find? fun p => p.1 = key).map Prod.snd

/-- Where the first occurrence of the key is not at the start of a pair, no pair has the key; where
it is, the value of this pair is shorter than 256 bytes, and the pair has the key or else the first
pair with the key has the same value. -/
structure QueryFits (ps : List (Str × Str)) (key : Str) : Prop where
  inside : ∀ before after, FirstMatch.cut key (queryText ps) = some (before, after) →
    before ≠ [] → before.getLast? ≠ some amp → ∀ p ∈ ps, p.1 ≠ key
  start : ∀ pre p post after, ps = pre ++ p :: post →
    FirstMatch.cut key (queryText ps) = some (pairsBefore pre, after) →
    p.2.length < 256 ∧ (p.1 = key ∨ firstValue ps key = some p.2)

end Http

end Qjs
