import Qjs.Vcr

/-!
# Request headers in a replay

`vcr_dispatch` of `aether_vcr.c` compares the headers of a request with the recorded ones, both as
sorted lines without `Host`: `normalize_live_headers` of C, which sorts with `qsort`, and
`normalize_recorded_headers` of Aether, which sorts by insertion. A byte from 128 on is compared as
what it is as a `char`. The diagnostics are left out, and memory does not run out.
-/

namespace Qjs.Aether.Vcr

open Sections

/-- The value of a byte as a `char`, which is signed or not. -/
def charValue (signed : Bool) (b : ℕ) : ℤ := if signed ∧ 128 ≤ b then (b : ℤ) - 256 else b

def lowerChar (c : ℤ) : ℤ := if 65 ≤ c ∧ c ≤ 90 then c + 32 else c

/-! ### The live headers -/

/-- `icmp` of `aether_vcr.c`, of strings without their ends. -/
def icmpLive (signed : Bool) : Text → Text → ℤ
  | [], [] => 0
  | [], b :: _ => -b
  | a :: _, [] => a
  | a :: as, b :: bs =>
    if lowerChar (charValue signed a) ≠ lowerChar (charValue signed b) then
      lowerChar (charValue signed a) - lowerChar (charValue signed b)
    else icmpLive signed as bs

def lineCmp (signed : Bool) (a b : Text) : ℤ := icmpLive signed a b

/-- A name and a value, as a line. -/
def headerLine (h : Text × Text) : Text := h.1 ++ text ": " ++ h.2

def isLive (signed : Bool) (h : Text × Text) : Bool := icmpLive signed h.1 (text "Host") != 0

/-- The headers of a request, but for `Host`. -/
def liveHeaders (signed : Bool) (hs : List (Text × Text)) : List (Text × Text) :=
  hs.filter (isLive signed)

def normalizeLiveHeaders (signed : Bool) (qsort : List Text → List Text)
    (hs : List (Text × Text)) : Text :=
  endl newline (qsort ((liveHeaders signed hs).map headerLine))

/-- `qsort` makes of strings some permutation that is in the order of the comparator. -/
def SortsBy (cmp : Text → Text → ℤ) (qsort : List Text → List Text) : Prop :=
  ∀ ls, (∀ l ∈ ls, ∀ x ∈ l, 0 < x) →
    (qsort ls).Perm ls ∧ (qsort ls).Pairwise fun a b => cmp a b ≤ 0

/-! ### The recorded headers -/

/-- `icmp_aether`. -/
def icmpOn (signed : Bool) : Text → Text → ℤ
  | [], [] => 0
  | [], _ :: _ => -1
  | _ :: _, [] => 1
  | a :: as, b :: bs =>
    if lowerChar (charValue signed a) ≠ lowerChar (charValue signed b) then
      if lowerChar (charValue signed a) < lowerChar (charValue signed b) then -1 else 1
    else icmpOn signed as bs

def insertLineOn (signed : Bool) (out : List Text) (line : Text) : List Text :=
  out.takeWhile (fun l => icmpOn signed l line ≤ 0)
    ++ line :: out.dropWhile fun l => icmpOn signed l line ≤ 0

def sortLinesOn (signed : Bool) (ls : List Text) : List Text := ls.foldl (insertLineOn signed) []

def keepsHeaderOn (signed : Bool) (line : Text) : Bool :=
  let name := line.takeWhile (· != 58)
  line != [] && !(58 ∈ line && name != [] && icmpOn signed name (text "Host") == 0)

/-- `normalizeRecordedHeaders`, where `string.char_at` gives the value of a `char`. -/
def normalizeRecordedHeadersOn (signed : Bool) (raw : Text) : Text :=
  endl newline
    (sortLinesOn signed (((visited (lines raw)).map trimCr).filter (keepsHeaderOn signed)))

/-- The block that is recorded of a request. -/
def recordedBlock (hs : List (Text × Text)) : Text := endl newline (hs.map headerLine)

/-! ### The comparison -/

/-- `is_blank`. -/
def isBlankText (s : Text) : Bool := s.all fun c => c == 32 || c == 9 || c == 10 || c == 13

/-- Whether `vcr_dispatch` reports that the headers differ. -/
def headersDiffer (recorded live : Text) : Bool := !isBlankText recorded && live != recorded

/-- A header as a line of its own: no NUL, no line break in it and no carriage return at its end.
The name ends at the first colon. -/
structure PlainHeader (h : Text × Text) : Prop where
  bytes : ∀ b ∈ headerLine h, 0 < b ∧ b < 256 ∧ b ≠ newline
  name : 58 ∉ h.1
  value : h.2.getLast? ≠ some 13

/-- Two headers that only differ in the case of their letters are the same. -/
def NoCaseTwins (hs : List (Text × Text)) : Prop :=
  ∀ a ∈ hs, ∀ b ∈ hs, (headerLine a).map toLower = (headerLine b).map toLower → a = b

end Qjs.Aether.Vcr
