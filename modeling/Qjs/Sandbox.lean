import Mathlib

/-!
# The sandbox of preloaded processes

`libaether_sandbox_preload.c` where it is active on a grant text: the grants it loads and the calls
it lets through. A string is the list of its bytes before the zero, and shorter than 2^31; a pointer
to a string is not null. The flags are those of Linux.

What the grants are for is `Granted`: a complete line of the text gives the call its own category
and a pattern that covers its resource. `Sound` says when `DefaultDeny` holds.
-/

namespace Qjs

namespace Sandbox

abbrev Str := List UInt8

def star : UInt8 := 0x2a

def colon : UInt8 := 0x3a

def hash : UInt8 := 0x23

def newline : UInt8 := 0x0a

def slash : UInt8 := 0x2f

def env : Str := [0x65, 0x6e, 0x76]

def tcp : Str := [0x74, 0x63, 0x70]

def fsRead : Str := [0x66, 0x73, 0x5f, 0x72, 0x65, 0x61, 0x64]

def fsWrite : Str := [0x66, 0x73, 0x5f, 0x77, 0x72, 0x69, 0x74, 0x65]

structure Grant where
  cat : Str
  pat : Str

/-! ### Loading the grants -/

def maxGrants : ℕ := 256

/-- The line as a grant, cut to the arrays of the table. -/
def addGrant (line : Str) : Option Grant :=
  if line = [] ∨ line.head? = some hash ∨ colon ∉ line then none
  else some ⟨(line.takeWhile (· != colon)).take 63, ((line.dropWhile (· != colon)).drop 1).take 255⟩

/-- The loop of `parse_grants`, with the line so far. -/
def parseLoop : Str → Str → List Grant → List Grant
  | data, line, grants =>
    if maxGrants ≤ grants.length then grants
    else match data with
      | [] => grants ++ (addGrant line).toList
      | c :: data =>
        if c = 0 then grants ++ (addGrant line).toList
        else if c = newline then parseLoop data [] (grants ++ (addGrant line).toList)
        else parseLoop data (if line.length < 319 then line ++ [c] else line) grants
  termination_by structural data => data

def parseGrants (data : Str) : List Grant := parseLoop data [] []

/-- Where the grants come from. -/
inductive Source
  | shm
  | file

/-- How much of `size` bytes `sandbox_init` passes on: a buffer of a file, an `int` of a mapping. -/
def loadedLength (size : ℕ) : Source → ℕ
  | .shm => if size % 2 ^ 32 < 2 ^ 31 then size % 2 ^ 32 else 0
  | .file => min size 8191

def loaded (src : Source) (text : Str) : Str := text.take (loadedLength text.length src)

def sandboxInit (src : Source) (text : Str) : List Grant := parseGrants (loaded src text)

/-! ### Checking a call -/

/-- The prefix `::ffff:`. -/
def mapped : Str := [0x3a, 0x3a, 0x66, 0x66, 0x66, 0x66, 0x3a]

def unmap (s : Str) : Str := if mapped <+: s then s.drop 7 else s

def patternMatch (pat resource : Str) : Bool :=
  let pat := unmap pat
  let resource := unmap resource
  if pat = [star] then true
  else if 1 < pat.length ∧ pat.getLast? = some star ∧ pat.dropLast <+: resource then true
  else if 1 < pat.length ∧ pat.head? = some star ∧ pat.tail <:+ resource then true
  else pat = resource

def lets (g : Grant) (category resource : Str) : Bool :=
  (g.cat.head? = some star && g.pat.head? = some star) ||
    (g.cat = category && patternMatch g.pat resource)

def checkGrant (grants : List Grant) (category resource : Str) : Bool :=
  grants.any fun g => lets g category resource

def oWronly : BitVec 32 := 1

def oRdwr : BitVec 32 := 2

def oCreat : BitVec 32 := 0x40

def oTrunc : BitVec 32 := 0x200

def oAppend : BitVec 32 := 0x400

def atFdcwd : ℤ := -100

/-- The address of a socket, with the text of `inet_ntop`. -/
inductive Addr
  | inet (ip : Str)
  | inet6 (ip : Str)
  | other

inductive Call
  | getenv (name : Str)
  | open (path : Str) (flags : BitVec 32)
  | openat (dirfd : ℤ) (path : Str) (flags : BitVec 32)
  | fopen (path mode : Str)
  | connect (addr : Addr)

def openCategory (flags : BitVec 32) : Str :=
  if flags &&& (oWronly ||| oRdwr ||| oCreat ||| oAppend) ≠ 0 then fsWrite else fsRead

/-- The category and the resource that the intercepted function checks, if it does. -/
def request : Call → Option (Str × Str)
  | .getenv name => some (env, name)
  | .open path flags => some (openCategory flags, path)
  | .openat _ path flags => some (openCategory flags, path)
  | .fopen path mode => some (if mode.head? = some 0x72 then fsRead else fsWrite, path)
  | .connect (.inet ip) => some (tcp, ip)
  | .connect (.inet6 ip) => some (tcp, ip)
  | .connect .other => none

def letThrough (grants : List Grant) (c : Call) : Bool :=
  match request c with
  | none => true
  | some (category, resource) => checkGrant grants category resource

/-! ### What the grants are for -/

def Call.resource : Call → Option Str
  | .getenv name => some name
  | .open path _ | .openat _ path _ | .fopen path _ => some path
  | .connect (.inet ip) | .connect (.inet6 ip) => some ip
  | .connect .other => none

/-- The category of a call: what can create, write or truncate a file writes. -/
def Call.category : Call → Str
  | .getenv _ => env
  | .open _ flags | .openat _ _ flags =>
    if flags &&& (oWronly ||| oRdwr ||| oCreat ||| oTrunc ||| oAppend) ≠ 0 then fsWrite else fsRead
  | .fopen _ mode => if mode.head? = some 0x72 ∧ 0x2b ∉ mode then fsRead else fsWrite
  | .connect _ => tcp

def Call.IsFile : Call → Prop
  | .open .. | .openat .. | .fopen .. => True
  | _ => False

def Call.IsConnect : Call → Prop
  | .connect _ => True
  | _ => False

/-- Where a path starts. -/
inductive Base
  | root
  | cwd
  | fd (dirfd : ℤ)
  deriving DecidableEq

def Call.base : Call → Base
  | .openat dirfd _ _ => if dirfd = atFdcwd then .cwd else .fd dirfd
  | _ => .cwd

/-- Where a path leads without symbolic links: so many levels up from the base, and then down. -/
structure Place where
  base : Base
  ups : ℕ
  down : List Str
  deriving DecidableEq

def Place.enter (p : Place) (name : Str) : Place :=
  if name = [] ∨ name = [0x2e] then p
  else if name = [0x2e, 0x2e] then
    if p.down ≠ [] then { p with down := p.down.dropLast }
    else if p.base = .root then p
    else { p with ups := p.ups + 1 }
  else { p with down := p.down ++ [name] }

def place (base : Base) (path : Str) : Place :=
  (path.splitOn slash).foldl Place.enter ⟨if path.head? = some slash then .root else base, 0, []⟩

/-- `p` is the directory `d` or in it. -/
def Place.Under (p d : Place) : Prop := p.base = d.base ∧ p.ups = d.ups ∧ d.down <+: p.down

/-- The pattern covers the resource; what the glob of a directory covers is in the directory. -/
def Covers (c : Call) (pat resource : Str) : Prop :=
  resource = pat ∨ pat = [star] ∨
  (∃ p, p ≠ [] ∧ pat = p ++ [star] ∧ p <+: resource ∧
    (c.IsFile → p.getLast? = some slash → (place c.base resource).Under (place .cwd p))) ∨
  ∃ s, s ≠ [] ∧ pat = star :: s ∧ s <:+ resource

/-- An address is one address however it is written. -/
def CoversCall (c : Call) (pat resource : Str) : Prop :=
  match c with
  | .connect _ => Covers c (unmap pat) (unmap resource)
  | _ => Covers c pat resource

def allLine : Str := [star, colon, star]

/-- The line gives the call. -/
def Grants (line : Str) (c : Call) : Prop :=
  line = allLine ∨ ∃ pat resource, line = c.category ++ colon :: pat ∧ c.resource = some resource ∧
    CoversCall c pat resource

def completeLines (text : Str) : List Str := (text.takeWhile (· != 0)).splitOn newline

def Granted (text : Str) (c : Call) : Prop := ∃ line ∈ completeLines text, Grants line c

def DefaultDeny (src : Source) (text : Str) (c : Call) : Prop :=
  letThrough (sandboxInit src text) c = true → Granted text c

/-! ### The condition -/

/-- The grants that are loaded, each with the line of the text it comes from. -/
def entries (src : Source) (text : Str) : List (Str × Grant) :=
  (((completeLines text).zip (completeLines (loaded src text))).filterMap fun l =>
    (addGrant (l.2.take 319)).map fun g => (l.1, g)).take maxGrants

/-- The ways in which a grant lets in a call that its line does not give. -/
inductive Flawed (line : Str) (g : Grant) (c : Call) : Prop
  /-- The line, its category or its pattern was cut. -/
  | cut (h : line ≠ g.cat ++ colon :: g.pat)
  /-- Both sides start with a star, and the line is not `*:*`. -/
  | stars (hc : g.cat.head? = some star) (hp : g.pat.head? = some star) (h : line ≠ allLine)
  /-- The call can change a file and is checked as one that reads. -/
  | misread {resource : Str} (h : request c = some (fsRead, resource)) (hc : c.category = fsWrite)
  /-- The path is in the directory by its text only. -/
  | escapes {p resource : Str} (hf : c.IsFile) (hp : g.pat = p ++ [star])
      (hd : p.getLast? = some slash) (hr : c.resource = some resource)
      (h : ¬ (place c.base resource).Under (place .cwd p))
  /-- The prefix of an address is taken off a name that is none. -/
  | mapped {resource : Str} (hc : ¬ c.IsConnect) (hr : c.resource = some resource)
      (h : Sandbox.mapped <+: g.pat ∨ Sandbox.mapped <+: resource)

/-- A call that no check stands before, and a call that is let in by a flaw, are granted by some
line. -/
def Sound (src : Source) (text : Str) (c : Call) : Prop :=
  (request c = none → Granted text c) ∧
  ∀ e ∈ entries src text, ∀ category resource, request c = some (category, resource) →
    lets e.2 category resource = true → Flawed e.1 e.2 c → Granted text c

end Sandbox

end Qjs
