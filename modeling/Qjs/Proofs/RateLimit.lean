import Qjs.RateLimit
import Mathlib.Tactic.Linarith
import Mathlib.Tactic.FieldSimp
import Mathlib.Tactic.Positivity

namespace Qjs

namespace Http

namespace RateLimit

section Opts

variable (o : RateLimitOpts)

/-! ### One bucket -/

/-- Tokens for each millisecond. -/
def RateLimitOpts.rate : ℚ := o.maxRequests / o.windowMs

theorem rate_pos : 0 < o.rate :=
  div_pos (Int.cast_pos.2 o.max_pos) (Int.cast_pos.2 o.window_pos)

/-- The tokens of a bucket are between none and all. -/
def Full (bucket : RateBucket) : Prop := 0 ≤ bucket.tokens ∧ bucket.tokens ≤ o.maxRequests

theorem refill_of_lt {now : ℤ} {bucket : RateBucket} (h : bucket.lastRefill < now) :
    refill o now bucket =
      ⟨bucket.key, min o.maxRequests (bucket.tokens + (now - bucket.lastRefill) * o.rate),
        now⟩ := by
  rw [refill, RateLimitOpts.rate, ← mul_div_assoc, min_def_lt]
  dsimp only
  rw [if_pos (sub_pos.2 h), Int.cast_sub]

theorem refill_of_le {now : ℤ} {bucket : RateBucket} (h : now ≤ bucket.lastRefill) :
    refill o now bucket = bucket :=
  if_neg (by omega)

theorem refill_key (now : ℤ) (bucket : RateBucket) : (refill o now bucket).key = bucket.key := by
  rcases lt_or_ge bucket.lastRefill now with h | h
  · rw [refill_of_lt o h]
  · rw [refill_of_le o h]

theorem refill_time (now : ℤ) (bucket : RateBucket) :
    (refill o now bucket).lastRefill = max bucket.lastRefill now := by
  rcases lt_or_ge bucket.lastRefill now with h | h
  · rw [refill_of_lt o h, max_eq_right h.le]
  · rw [refill_of_le o h, max_eq_left h]

theorem refill_full (now : ℤ) {bucket : RateBucket} (h : Full o bucket) :
    Full o (refill o now bucket) := by
  rcases lt_or_ge bucket.lastRefill now with hlt | hge
  · have hgain : (0 : ℚ) ≤ (now - bucket.lastRefill) * o.rate :=
      mul_nonneg (sub_nonneg.2 (Int.cast_le.2 hlt.le)) (rate_pos o).le
    rw [refill_of_lt o hlt]
    exact ⟨le_min (Int.cast_nonneg o.max_pos.le) (add_nonneg h.1 hgain), min_le_left _ _⟩
  · rwa [refill_of_le o hge]

/-- A refill gives no more than the rate allows for the time that has passed. -/
theorem refill_le (now : ℤ) (bucket : RateBucket) :
    (refill o now bucket).tokens ≤
      bucket.tokens + ((refill o now bucket).lastRefill - bucket.lastRefill) * o.rate := by
  rcases lt_or_ge bucket.lastRefill now with h | h
  · rw [refill_of_lt o h]
    exact min_le_right _ _
  · rw [refill_of_le o h, sub_self, zero_mul, add_zero]

theorem take_key (bucket : RateBucket) : (take o bucket).2.key = bucket.key := by
  rw [take]
  split <;> rfl

theorem take_time (bucket : RateBucket) : (take o bucket).2.lastRefill = bucket.lastRefill := by
  rw [take]
  split <;> rfl

theorem serve_key (now : ℤ) (bucket : RateBucket) : (serve o now bucket).2.key = bucket.key := by
  rw [serve, take_key, refill_key]

theorem serve_time (now : ℤ) (bucket : RateBucket) :
    (serve o now bucket).2.lastRefill = max bucket.lastRefill now := by
  rw [serve, take_time, refill_time]

theorem take_cases (bucket : RateBucket) :
    (1 ≤ bucket.tokens ∧ take o bucket = (.admitted, { bucket with tokens := bucket.tokens - 1 })) ∨
    ((take o bucket).1 ≠ .admitted ∧ (take o bucket).2 = bucket) := by
  rw [take]
  dsimp only
  split_ifs with h
  · exact .inr ⟨fun h => (nomatch h), rfl⟩
  · exact .inl ⟨not_lt.1 h, rfl⟩

theorem serve_full (now : ℤ) {bucket : RateBucket} (h : Full o bucket) :
    Full o (serve o now bucket).2 := by
  have hrefill := refill_full o now h
  rw [serve]
  obtain ⟨hone, htake⟩ | ⟨-, htake⟩ := take_cases o (refill o now bucket)
  · rw [htake]
    exact ⟨sub_nonneg.2 hone, (sub_le_self _ zero_le_one).trans hrefill.2⟩
  · rwa [htake]

/-! ### The level of a bucket over an interval -/

section Interval

variable (t : ℤ) (length : ℕ)

/-- `n` requests were admitted in the interval so far: with the tokens left they are no more than
the bucket and what was refilled since the interval began. -/
structure Level (n : ℕ) (bucket : RateBucket) : Prop where
  full : Full o bucket
  before : bucket.lastRefill < t → n = 0
  within : t ≤ bucket.lastRefill → bucket.lastRefill ≤ t + length →
    n + bucket.tokens ≤ o.maxRequests + (bucket.lastRefill - t) * o.rate
  bound : (n : ℚ) ≤ o.maxRequests + length * o.rate

variable {o t length}

theorem Level.refill {n : ℕ} {bucket : RateBucket} (h : Level o t length n bucket) (now : ℤ) :
    Level o t length n (refill o now bucket) := by
  have hrate := rate_pos o
  have hle := refill_le o now bucket
  have htime := refill_time o now bucket
  refine ⟨refill_full o now h.full, fun hlt => h.before (by omega), fun ht hlen => ?_, h.bound⟩
  by_cases hbefore : bucket.lastRefill < t
  · have hpos : (0 : ℚ) ≤ ((RateLimit.refill o now bucket).lastRefill - t) * o.rate :=
      mul_nonneg (sub_nonneg.2 (Int.cast_le.2 ht)) hrate.le
    have hmax := (refill_full o now h.full).2
    rw [h.before hbefore]
    push_cast
    linarith
  · have hwithin := h.within (not_lt.1 hbefore) (by omega)
    linarith

theorem Level.take {n : ℕ} {bucket : RateBucket} (h : Level o t length n bucket) :
    Level o t length
      (n + if (take o bucket).1 = .admitted ∧ t ≤ bucket.lastRefill ∧ bucket.lastRefill ≤ t + length
        then 1 else 0) (RateLimit.take o bucket).2 := by
  obtain ⟨hone, htake⟩ | ⟨hne, htake⟩ := take_cases o bucket
  · rw [htake]
    have hfull : Full o { bucket with tokens := bucket.tokens - 1 } :=
      ⟨sub_nonneg.2 hone, (sub_le_self _ zero_le_one).trans h.full.2⟩
    dsimp only
    split_ifs with hin
    · have hwithin := h.within hin.2.1 hin.2.2
      have hlen : ((bucket.lastRefill : ℚ) - t) * o.rate ≤ length * o.rate := by
        refine mul_le_mul_of_nonneg_right ?_ (rate_pos o).le
        rw [sub_le_iff_le_add', ← Int.cast_natCast, ← Int.cast_add]
        exact Int.cast_le.2 hin.2.2
      refine ⟨hfull, fun hlt => absurd hin.2.1 (not_le.2 hlt), fun _ _ => ?_, ?_⟩
      · push_cast
        linarith
      · push_cast
        linarith
    · refine ⟨hfull, h.before, fun ht hlen => absurd ⟨rfl, ht, hlen⟩ hin, h.bound⟩
  · rw [htake, if_neg fun hin => hne hin.1]
    exact h

end Interval

/-! ### The chains -/

theorem find_onChain_other {key key' : Str} (hne : key' ≠ key) (now : ℤ) (memory : Bool)
    (chain : List RateBucket) :
    (onChain o key now memory chain).2.find? (fun bucket => bucket.key = key') =
      chain.find? fun bucket => bucket.key = key' := by
  induction chain with
  | nil =>
    rw [onChain]
    split_ifs
    · exact List.find?_cons_of_neg (by simpa [serve_key] using hne.symm)
    · rfl
  | cons bucket rest ih =>
    rw [onChain]
    split_ifs with hkey
    · rw [List.find?_cons_of_neg (by simpa [serve_key, hkey] using hne.symm),
        List.find?_cons_of_neg (by simpa [hkey] using hne.symm)]
    · dsimp only
      rw [List.find?_cons, List.find?_cons, ih]

/-- What a request does with the bucket of its key. -/
inductive Served (key : Str) (now : ℤ) (memory : Bool) :
    Option RateBucket → Answer → Option RateBucket → Prop
  | known {bucket : RateBucket} :
    Served key now memory (some bucket) (serve o now bucket).1 (some (serve o now bucket).2)
  | new : memory = true →
    Served key now memory none (serve o now ⟨key, o.maxRequests, now⟩).1
      (some (serve o now ⟨key, o.maxRequests, now⟩).2)
  | noMemory : memory = false → Served key now memory none .failOpen none

theorem find_onChain (key : Str) (now : ℤ) (memory : Bool) (chain : List RateBucket) :
    Served o key now memory (chain.find? fun bucket => bucket.key = key)
      (onChain o key now memory chain).1
      ((onChain o key now memory chain).2.find? fun bucket => bucket.key = key) := by
  induction chain with
  | nil =>
    rw [onChain]
    split_ifs with hmem
    · rw [List.find?_nil, List.find?_cons_of_pos (by simp [serve_key])]
      exact .new hmem
    · exact .noMemory (Bool.eq_false_iff.2 hmem)
  | cons bucket rest ih =>
    rw [onChain]
    split_ifs with hkey
    · rw [List.find?_cons_of_pos (by simpa using hkey),
        List.find?_cons_of_pos (by simpa [serve_key] using hkey)]
      exact .known
    · dsimp only
      rw [List.find?_cons_of_neg (by simpa using hkey),
        List.find?_cons_of_neg (by simpa using hkey)]
      exact ih

theorem served (table : Table) (a : Arrival) :
    Served o (clientKey a.req) a.now a.memory (bucketOf table (clientKey a.req))
      (rateLimit o table a).1 (bucketOf (rateLimit o table a).2 (clientKey a.req)) := by
  rw [bucketOf, bucketOf, rateLimit]
  dsimp only
  rw [Function.update_self]
  exact find_onChain o _ _ _ _

/-- The buckets of the other keys stay as they are. -/
theorem bucketOf_other (table : Table) (a : Arrival) {key : Str} (hne : key ≠ clientKey a.req) :
    bucketOf (rateLimit o table a).2 key = bucketOf table key := by
  rw [bucketOf, bucketOf, rateLimit]
  dsimp only
  by_cases hslot : slotOf key = slotOf (clientKey a.req)
  · rw [hslot, Function.update_self]
    exact find_onChain_other o hne _ _ _
  · rw [Function.update_of_ne hslot]

/-! ### Runs -/

theorem new_full (key : Str) (now : ℤ) : Full o ⟨key, o.maxRequests, now⟩ :=
  ⟨Int.cast_nonneg o.max_pos.le, le_rfl⟩

/-- Every bucket of the key holds between no tokens and all of them. -/
def TableFull (table : Table) : Prop :=
  ∀ key bucket, bucketOf table key = some bucket → Full o bucket

theorem rateLimit_full {table : Table} (h : TableFull o table) (a : Arrival) :
    TableFull o (rateLimit o table a).2 := by
  intro key bucket hbucket
  by_cases hkey : key = clientKey a.req
  · subst hkey
    have hserved := served o table a
    rw [hbucket] at hserved
    generalize hbefore : bucketOf table (clientKey a.req) = before at hserved
    generalize (rateLimit o table a).1 = answer at hserved
    cases hserved with
    | known => exact serve_full o _ (h _ _ hbefore)
    | new => exact serve_full o _ (new_full o _ _)
  · rw [bucketOf_other o table a hkey] at hbucket
    exact h key bucket hbucket

theorem trace_full {table : Table} (h : TableFull o table) (as : List Arrival) :
    ∀ e ∈ trace o table as, TableFull o e.2.2 := by
  induction as generalizing table with
  | nil => exact fun e he => nomatch he
  | cons a as ih =>
    intro e he
    obtain rfl | he := List.mem_cons.1 he
    · exact rateLimit_full o h a
    · exact ih (rateLimit_full o h a) e he

section Interval

variable (t : ℤ) (length : ℕ)

def OptionLevel (n : ℕ) (bucket : Option RateBucket) : Prop :=
  bucket.elim (n = 0) (Level o t length n)

variable {o t length}

theorem level_new (key : Str) (now : ℤ) : Level o t length 0 ⟨key, o.maxRequests, now⟩ := by
  have hrate := rate_pos o
  have hmax : (0 : ℚ) ≤ o.maxRequests := Int.cast_nonneg o.max_pos.le
  refine ⟨new_full o key now, fun _ => rfl, fun ht _ => ?_, ?_⟩
  · have hpos : (0 : ℚ) ≤ (now - t) * o.rate :=
      mul_nonneg (sub_nonneg.2 (Int.cast_le.2 ht)) hrate.le
    push_cast
    linarith
  · push_cast
    positivity

theorem OptionLevel.bound {n : ℕ} {bucket : Option RateBucket}
    (h : OptionLevel o t length n bucket) : (n : ℚ) ≤ o.maxRequests + length * o.rate := by
  have hrate := rate_pos o
  have hmax : (0 : ℚ) ≤ o.maxRequests := Int.cast_nonneg o.max_pos.le
  cases bucket with
  | none =>
    have h0 : n = 0 := h
    rw [h0]
    push_cast
    positivity
  | some bucket => exact Level.bound h

theorem Level.serve {n : ℕ} {bucket : RateBucket} (h : Level o t length n bucket) (now : ℤ) :
    Level o t length
      (n + if (serve o now bucket).1 = .admitted ∧ t ≤ (serve o now bucket).2.lastRefill ∧
        (serve o now bucket).2.lastRefill ≤ t + length then 1 else 0)
      (RateLimit.serve o now bucket).2 := by
  rw [RateLimit.serve, take_time]
  exact (h.refill now).take

/-- One request, of any key, raises the level by what it admits. -/
theorem level_step {n : ℕ} {table : Table} {key : Str}
    (h : OptionLevel o t length n (bucketOf table key)) (a : Arrival) :
    OptionLevel o t length
      (n + if admittedIn bucketTime key t length (a, rateLimit o table a) then 1 else 0)
      (bucketOf (rateLimit o table a).2 key) := by
  by_cases hkey : clientKey a.req = key
  · subst hkey
    have hserved := served o table a
    simp only [admittedIn, bucketTime, decide_eq_true_eq, true_and]
    generalize bucketOf table (clientKey a.req) = before at h hserved
    generalize (rateLimit o table a).1 = answer at hserved
    generalize bucketOf (rateLimit o table a).2 (clientKey a.req) = after at hserved
    cases hserved with
    | known =>
      have hlevel : Level o t length n _ := h
      simpa [OptionLevel] using hlevel.serve a.now
    | new =>
      have h0 : n = 0 := h
      subst h0
      simpa [OptionLevel] using (level_new (clientKey a.req) a.now).serve a.now
    | noMemory => simpa [OptionLevel] using h
  · rw [bucketOf_other o table a (Ne.symm hkey)]
    simpa [admittedIn, hkey] using h

theorem count_le {n : ℕ} {table : Table} {key : Str}
    (h : OptionLevel o t length n (bucketOf table key)) (as : List Arrival) :
    ((n + (trace o table as).countP (admittedIn bucketTime key t length) : ℕ) : ℚ) ≤
      o.maxRequests + length * o.rate := by
  induction as generalizing n table with
  | nil => exact h.bound
  | cons a as ih =>
    rw [trace, List.countP_cons, add_comm (List.countP _ _), ← add_assoc]
    exact ih (level_step h a)

end Interval

/-! ### Readings in order -/

/-- The bucket of a key has seen no reading after those that are still to come. -/
def SeenBefore (table : Table) (key : Str) (as : List Arrival) : Prop :=
  ∀ bucket, bucketOf table key = some bucket →
    ∀ a ∈ as, clientKey a.req = key → bucket.lastRefill ≤ a.now

/-- The readings of the key come in order. -/
def InOrder (key : Str) (as : List Arrival) : Prop :=
  (as.filter fun a => clientKey a.req = key).Pairwise fun a b => a.now ≤ b.now

variable {o}

theorem seenBefore_step {table : Table} {key : Str} {a : Arrival} {as : List Arrival}
    (h : SeenBefore table key (a :: as)) (horder : InOrder key (a :: as)) :
    SeenBefore (rateLimit o table a).2 key as := by
  intro bucket hbucket b hb hkeyb
  by_cases hkey : clientKey a.req = key
  · subst hkey
    have hle : a.now ≤ b.now := by
      rw [InOrder, List.filter_cons_of_pos (by simp), List.pairwise_cons] at horder
      exact horder.1 b (List.mem_filter.2 ⟨hb, by simpa using hkeyb⟩)
    have hserved := served o table a
    rw [hbucket] at hserved
    generalize hbefore : bucketOf table (clientKey a.req) = before at hserved
    generalize (rateLimit o table a).1 = answer at hserved
    cases hserved with
    | known =>
      rw [serve_time]
      exact max_le (h _ hbefore b (List.mem_cons_of_mem _ hb) hkeyb) hle
    | new =>
      rw [serve_time]
      exact max_le hle hle
  · rw [bucketOf_other o table a (Ne.symm hkey)] at hbucket
    exact h bucket hbucket b (List.mem_cons_of_mem _ hb) hkeyb

/-- With its readings in order, a request that is admitted has its own reading as its time. -/
theorem admittedIn_reading {table : Table} {key : Str} {a : Arrival} {as : List Arrival}
    (h : SeenBefore table key (a :: as)) (t : ℤ) (length : ℕ) :
    admittedIn readingTime key t length (a, rateLimit o table a) =
      admittedIn bucketTime key t length (a, rateLimit o table a) := by
  by_cases hkey : clientKey a.req = key
  · subst hkey
    have hserved := served o table a
    simp only [admittedIn, bucketTime, readingTime]
    generalize hbefore : bucketOf table (clientKey a.req) = before at hserved
    generalize (rateLimit o table a).1 = answer at hserved
    generalize bucketOf (rateLimit o table a).2 (clientKey a.req) = after at hserved
    cases hserved with
    | known =>
      have hle := h _ hbefore a List.mem_cons_self rfl
      rw [Option.map_some, serve_time, max_eq_right hle]
    | new => rw [Option.map_some, serve_time, max_self]
    | noMemory => simp
  · simp [admittedIn, hkey]

theorem countP_reading {table : Table} {key : Str} (as : List Arrival)
    (h : SeenBefore table key as) (horder : InOrder key as) (t : ℤ) (length : ℕ) :
    (trace o table as).countP (admittedIn readingTime key t length) =
      (trace o table as).countP (admittedIn bucketTime key t length) := by
  induction as generalizing table with
  | nil => rfl
  | cons a as ih =>
    have horder' : InOrder key as := horder.sublist ((List.sublist_cons_self a as).filter _)
    rw [trace, List.countP_cons, List.countP_cons, admittedIn_reading h,
      ih (seenBefore_step h horder) horder']

end Opts

theorem bucketOf_empty (key : Str) : bucketOf .empty key = none := rfl

theorem empty_full (o : RateLimitOpts) : TableFull o .empty := by
  intro key bucket hbucket
  cases (bucketOf_empty key).symm.trans hbucket

theorem seenBefore_empty (key : Str) (as : List Arrival) : SeenBefore .empty key as := by
  intro bucket hbucket
  cases (bucketOf_empty key).symm.trans hbucket

/-- From the empty table: the requests of a key that are admitted in an interval, at the latest
reading that its bucket has seen, are no more than the bucket and what the interval refills. -/
theorem rate_bound (o : RateLimitOpts) (as : List Arrival) :
    (∀ (key : Str) (t : ℤ) (length : ℕ),
      ((trace o .empty as).countP (admittedIn bucketTime key t length) : ℚ) ≤
        o.maxRequests + length * o.maxRequests / o.windowMs ∧
      (InOrder key as →
        ((trace o .empty as).countP (admittedIn readingTime key t length) : ℚ) ≤
          o.maxRequests + length * o.maxRequests / o.windowMs)) ∧
    (∀ e ∈ trace o .empty as, ∀ key bucket, bucketOf e.2.2 key = some bucket →
      0 ≤ bucket.tokens ∧ bucket.tokens ≤ o.maxRequests) ∧
    ∀ (table : Table) (a : Arrival) (key : Str), key ≠ clientKey a.req →
      bucketOf (rateLimit o table a).2 key = bucketOf table key := by
  have hbound (key : Str) (t : ℤ) (length : ℕ) :
      ((trace o .empty as).countP (admittedIn bucketTime key t length) : ℚ) ≤
        o.maxRequests + length * o.maxRequests / o.windowMs := by
    have h : OptionLevel o t length 0 (bucketOf .empty key) := rfl
    have hcount := count_le h as
    rwa [zero_add, RateLimitOpts.rate, ← mul_div_assoc] at hcount
  refine ⟨fun key t length => ⟨hbound key t length, fun horder => ?_⟩, ?_,
    fun table a key hne => bucketOf_other o table a hne⟩
  · rw [countP_reading as (seenBefore_empty key as) horder]
    exact hbound key t length
  · exact trace_full o (empty_full o) as

/-- A request without headers. -/
def plain : HttpRequest := ⟨[], [], none, [], [], none, []⟩

/-- Two requests for each second. -/
def twoPerSecond : RateLimitOpts := ⟨2, 1000, by decide, by decide⟩

theorem rate_bound_inOrder :
    ((trace twoPerSecond .empty ([0, 500].map fun now => ⟨plain, now, true⟩)).countP
        (admittedIn readingTime anonymous 0 500) : ℚ) ≤
      twoPerSecond.maxRequests +
        (500 : ℕ) * twoPerSecond.maxRequests / twoPerSecond.windowMs :=
  ((rate_bound twoPerSecond ([0, 500].map fun now => ⟨plain, now, true⟩)).1 anonymous 0 500).2
    (by unfold InOrder; decide)

/-- The fourth reading was taken before the third one and is late. -/
def lateReading : List Arrival := [0, 0, 1000, 0].map fun now => ⟨plain, now, true⟩

/-- Three requests with one reading are admitted. -/
theorem late_admitted :
    ¬ (((trace twoPerSecond .empty lateReading).countP
        (admittedIn readingTime anonymous 0 0) : ℚ) ≤
      twoPerSecond.maxRequests + (0 : ℕ) * twoPerSecond.maxRequests / twoPerSecond.windowMs) := by
  have h : (trace twoPerSecond .empty lateReading).countP
      (admittedIn readingTime anonymous 0 0) = 3 := by
    decide +kernel
  rw [h]
  norm_num [twoPerSecond]

end RateLimit

end Http

end Qjs
