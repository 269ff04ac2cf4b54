import Qjs.HttpConn

/-!
# The rate limiter

`aether_middleware_rate_limit` of `aether_middleware.c`: a bucket of tokens for each client key. The
`double`s of the source are exact rationals here. The part of a call that holds the lock is a step;
the clock is read before it, so the readings come in any order.
-/

namespace Qjs

namespace Http

namespace RateLimit

/-- The first header of a name, in upper or lower case. -/
def httpGetHeader (req : HttpRequest) (key : Str) : Option Str :=
  (req.headers.find? fun h => h.1.map tolower = key.map tolower).map Prod.snd

/-- `X-Forwarded-For` -/
def xForwardedFor : Str :=
  [0x58, 0x2d, 0x46, 0x6f, 0x72, 0x77, 0x61, 0x72, 0x64, 0x65, 0x64, 0x2d, 0x46, 0x6f, 0x72]

/-- `X-Real-IP` -/
def xRealIp : Str := [0x58, 0x2d, 0x52, 0x65, 0x61, 0x6c, 0x2d, 0x49, 0x50]

/-- `anonymous` -/
def anonymous : Str := [0x61, 0x6e, 0x6f, 0x6e, 0x79, 0x6d, 0x6f, 0x75, 0x73]

def keybufSize : ℕ := 128

def comma : UInt8 := 0x2c

/-- The loop that trims the key to the first comma, with the length of what it has written. -/
def trimKey : ℕ → Str → Str
  | _, [] => []
  | klen, c :: key =>
    if c = 0 ∨ c = comma ∨ ¬ klen + 1 < keybufSize then []
    else if c ≠ space ∧ c ≠ 0x09 then c :: trimKey (klen + 1) key
    else trimKey klen key

def clientKey (req : HttpRequest) : Str :=
  trimKey 0 (((httpGetHeader req xForwardedFor).or (httpGetHeader req xRealIp)).getD anonymous)

structure RateBucket where
  key : Str
  tokens : ℚ
  lastRefill : ℤ
  deriving DecidableEq

def rateTableSize : ℕ := 256

/-- What `aether_rate_limit_opts_new` accepts. -/
structure RateLimitOpts where
  maxRequests : ℤ
  windowMs : ℤ
  max_pos : 0 < maxRequests
  window_pos : 0 < windowMs

/-- The chains of buckets, by slot. -/
abbrev Table := ℕ → List RateBucket

def Table.empty : Table := fun _ => []

def rateHash (s : Str) : UInt32 := s.foldl (fun h c => ((h <<< 5) + h) + c.toUInt32) 5381

def slotOf (key : Str) : ℕ := (rateHash key).toNat % rateTableSize

/-- A request, the reading of the clock and whether memory for a new bucket is found. -/
structure Arrival where
  req : HttpRequest
  now : ℤ
  memory : Bool

inductive Answer
  /-- A token is taken and the request goes on. -/
  | admitted
  /-- The request goes on since there is no memory for a bucket. -/
  | failOpen
  | tooManyRequests (retryAfter : ℤ)
  deriving DecidableEq

section Opts

variable (o : RateLimitOpts)

def refill (now : ℤ) (bucket : RateBucket) : RateBucket :=
  let elapsed := now - bucket.lastRefill
  if 0 < elapsed then
    let tokens := bucket.tokens + elapsed * o.maxRequests / o.windowMs
    { bucket with
      tokens := if o.maxRequests < tokens then o.maxRequests else tokens
      lastRefill := now }
  else bucket

def take (bucket : RateBucket) : Answer × RateBucket :=
  if bucket.tokens < 1 then
    let need := 1 - bucket.tokens
    let perMs : ℚ := o.maxRequests / o.windowMs
    (.tooManyRequests (⌊need / perMs / 1000⌋ + 1), bucket)
  else (.admitted, { bucket with tokens := bucket.tokens - 1 })

def serve (now : ℤ) (bucket : RateBucket) : Answer × RateBucket := take o (refill o now bucket)

/-- The chain of the slot is walked; a new bucket comes at its end. -/
def onChain (key : Str) (now : ℤ) (memory : Bool) : List RateBucket → Answer × List RateBucket
  | [] =>
    if memory then
      let r := serve o now ⟨key, o.maxRequests, now⟩
      (r.1, [r.2])
    else (.failOpen, [])
  | bucket :: rest =>
    if bucket.key = key then
      let r := serve o now bucket
      (r.1, r.2 :: rest)
    else
      let r := onChain key now memory rest
      (r.1, bucket :: r.2)

def rateLimit (table : Table) (a : Arrival) : Answer × Table :=
  let key := clientKey a.req
  let r := onChain o key a.now a.memory (table (slotOf key))
  (r.1, Function.update table (slotOf key) r.2)

/-- The requests in the order of the lock, each with its answer and the table after it. -/
def trace : Table → List Arrival → List (Arrival × Answer × Table)
  | _, [] => []
  | table, a :: rest =>
    let r := rateLimit o table a
    (a, r.1, r.2) :: trace r.2 rest

end Opts

/-- The bucket of a key. -/
def bucketOf (table : Table) (key : Str) : Option RateBucket :=
  (table (slotOf key)).find? fun bucket => bucket.key = key

/-- A request of the key is admitted, and the time it has is in the interval. -/
def admittedIn (time : Arrival × Answer × Table → Option ℤ) (key : Str) (t : ℤ) (length : ℕ)
    (e : Arrival × Answer × Table) : Bool :=
  clientKey e.1.req = key ∧ e.2.1 = .admitted ∧ (time e).any fun now => t ≤ now ∧ now ≤ t + length

/-- The latest reading that the bucket of the request has seen. -/
def bucketTime (e : Arrival × Answer × Table) : Option ℤ :=
  (bucketOf e.2.2 (clientKey e.1.req)).map RateBucket.lastRefill

def readingTime (e : Arrival × Answer × Table) : Option ℤ := some e.1.now

end RateLimit

end Http

end Qjs
