import Qjs.Json

/-!
# JSON.stringify

`js_json_stringify` over a heap of arrays and objects. The stack has a record for each value that is
open, the last one first; the string buffer is the list of its bytes. What is written of a number is
given by `Numbers`. Memory does not run out, and properties have no getters.
-/

namespace Qjs

namespace Json

open Wtf8

/-- A value; `n` is the number of objects. -/
inductive Val (n : ℕ) (D : Type)
  | undefined
  | null
  | bool (b : Bool)
  | num (d : D)
  | str (us : List ℕ)
  /-- A function. -/
  | func
  | ref (id : Fin n)

/-- The own properties of an object, in the order of `js_object_keys`. The keys are distinct and come
from `JS_ToPropertyKey`. -/
structure Props (n : ℕ) (D : Type) where
  list : List (PropKey × Val n D)
  nodup : (list.map Prod.fst).Nodup
  keys : ∀ p ∈ list, ∃ us, p.1 = toPropertyKey us

inductive Obj (n : ℕ) (D : Type)
  | array (els : List (Val n D))
  | object (props : Props n D)

/-- Numbers as text: `JS_ToString` and `js_atod`. -/
structure Numbers (D : Type) extends Conv D where
  isFinite : D → Bool
  zero : D
  negZero : D
  text : D → List ℕ

/-! ### Strings -/

/-- The code points of a string, from its units. -/
def codePoints : List ℕ → List ℕ
  | [] => []
  | [u] => [u]
  | u :: v :: us =>
    if IsLead u ∧ IsTrail v then join u v :: codePoints us else u :: codePoints (v :: us)

/-- The bytes of a string. -/
def strBuf (us : List ℕ) : List ℕ := encodeAll (codePoints us)

def hexChar (d : ℕ) : ℕ := if d < 10 then 0x30 + d else 0x57 + d

/-- What is put for the code point `c`. -/
def quoteChar (c : ℕ) : List ℕ :=
  if c = 0x09 then [0x5c, 0x74]
  else if c = 0x0d then [0x5c, 0x72]
  else if c = 0x0a then [0x5c, 0x6e]
  else if c = 0x08 then [0x5c, 0x62]
  else if c = 0x0c then [0x5c, 0x66]
  else if c = 0x22 ∨ c = 0x5c then [0x5c, c]
  else if c < 32 ∨ (0xd800 ≤ c ∧ c < 0xe000) then
    -- \u%04x
    [0x5c, 0x75, hexChar (c / 0x1000 % 16), hexChar (c / 0x100 % 16), hexChar (c / 0x10 % 16),
      hexChar (c % 16)]
  else unicodeToUtf8 c

def quotedLoop : ℕ → List ℕ → List ℕ
  | 0, _ => []
  | fuel + 1, p =>
    if p = [] then []
    else quoteChar (utf8Get p) ++ quotedLoop fuel (p.drop (utf8CharLen (byteAt p 0)))

/-- `js_to_quoted_string`: the bytes that are added. -/
def jsToQuotedString (us : List ℕ) : List ℕ :=
  0x22 :: (quotedLoop (strBuf us).length (strBuf us) ++ [0x22])

/-! ### Keys -/

def natText (n : ℕ) : List ℕ :=
  if n = 0 then [0x30] else (Nat.digits 10 n).reverse.map (0x30 + ·)

/-- `JS_ToString` of a property key. -/
def keyText : PropKey → List ℕ
  | .int n => if n < 0 then 0x2d :: natText n.natAbs else natText n.natAbs
  | .str us => us

/-! ### The loop -/

variable {n : ℕ} {D : Type}

/-- `sp[0]`, `sp[1]` and `sp[2]`. -/
structure Rec (n : ℕ) (D : Type) where
  obj : Val n D
  idx : ℕ
  keys : List (List ℕ)

structure Writer (n : ℕ) (D : Type) where
  stack : List (Rec n D)
  out : List ℕ

/-- `check_circular_ref`. The records that are open when it is called are all of objects. -/
def checkCircularRef (stack : List (Rec n D)) : Val n D → Bool
  | .ref id => stack.any fun r => match r.obj with
    | .ref id' => id' = id
    | _ => false
  | _ => false

/-- `JS_GetProperty` of an own property. -/
def getProperty (props : Props n D) (k : PropKey) : Val n D :=
  ((props.list.find? (·.1 = k)).map (·.2)).getD .undefined

/-- The first property from `idx` on that is not undefined. -/
def nextProp (props : Props n D) : ℕ → List (List ℕ) → Option (ℕ × List ℕ × Val n D)
  | _, [] => none
  | idx, key :: keys =>
    match getProperty props (toPropertyKey key) with
    | .undefined => nextProp props (idx + 1) keys
    | val => some (idx, key, val)

/-- What the run ends with. -/
inductive Done
  | ok (out : List ℕ)
  /-- A `TypeError`: "circular reference". -/
  | circular

/-- `null`. -/
def nullText : List ℕ := [0x6e, 0x75, 0x6c, 0x6c]

def boolText : Bool → List ℕ
  | true => [0x74, 0x72, 0x75, 0x65]
  | false => [0x66, 0x61, 0x6c, 0x73, 0x65]

variable (N : Numbers D) (h : Fin n → Obj n D)

/-- The value on top is left for the value `val` in it. -/
def pushVal (stack : List (Rec n D)) (out : List ℕ) (val : Val n D) : Writer n D ⊕ Done :=
  if checkCircularRef stack val then .inr .circular
  else .inl ⟨⟨val, 0, []⟩ :: stack, out⟩

/-- One turn of the loop. -/
def jsonStep (w : Writer n D) : Writer n D ⊕ Done :=
  match w.stack with
  | [] => .inr (.ok w.out)
  | r :: rest =>
    match r.obj with
    | .ref id =>
      match h id with
      | .array els =>
        let out := if r.idx = 0 then w.out ++ [0x5b] else w.out
        match els[r.idx]? with
        | none => .inl ⟨rest, out ++ [0x5d]⟩
        | some val =>
          let out := if r.idx ≠ 0 then out ++ [0x2c] else out
          pushVal ({ r with idx := r.idx + 1 } :: rest) out val
      | .object props =>
        let out := if r.idx = 0 then w.out ++ [0x7b] else w.out
        let keys := if r.idx = 0 then props.list.map (keyText ·.1) else r.keys
        match nextProp props r.idx (keys.drop r.idx) with
        | none => .inl ⟨rest, out ++ [0x7d]⟩
        | some (idx, key, val) =>
          let out := if r.idx ≠ 0 then out ++ [0x2c] else out
          let out := out ++ jsToQuotedString key ++ [0x3a]
          pushVal (⟨r.obj, idx + 1, keys⟩ :: rest) out val
    | .num d =>
      .inl ⟨rest, w.out ++ if N.isFinite d then N.text d else nullText⟩
    | .bool b => .inl ⟨rest, w.out ++ boolText b⟩
    | .str us => .inl ⟨rest, w.out ++ jsToQuotedString us⟩
    | .func | .undefined | .null => .inl ⟨rest, w.out ++ nullText⟩

/-- `k` turns of the loop. -/
def jsonRun : ℕ → Writer n D → Writer n D ⊕ Done
  | 0, w => .inl w
  | k + 1, w =>
    match jsonStep N h w with
    | .inl w => jsonRun k w
    | .inr d => .inr d

/-- `js_json_stringify` of `v` ends with `d`. -/
def Stringifies (v : Val n D) (d : Done) : Prop :=
  ∃ k, jsonRun N h k ⟨[⟨v, 0, []⟩], []⟩ = .inr d

end Json

end Qjs
