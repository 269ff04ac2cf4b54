import Qjs.AetherJson
import Qjs.Lib.SigDigits

/-!
# The JSON writer of Aether

`json_stringify_raw`, and the functions that build values: `json_create_*`, `json_array_add_raw` and
`json_object_set_raw`. A buffer is the list of its bytes. A copy into an arena cuts a string to its
length. The capacity of a container and whether it has an arena are given with it. Memory does not
run out.
-/

namespace Qjs

namespace Aether

/-! ### Values -/

mutual

/-- `deep_copy_into_arena`. -/
def deepCopy : JsonValue → JsonValue
  | .null => .null
  | .bool b => .bool b
  | .number d => .number d
  | .str data length => .str (data.take length) length
  | .arr items => .arr (deepCopyItems items)
  | .obj members => .obj (deepCopyMembers members)

def deepCopyItems : List JsonValue → List JsonValue
  | [] => []
  | v :: vs => deepCopy v :: deepCopyItems vs

def deepCopyMembers : List (List ℕ × ℕ × JsonValue) → List (List ℕ × ℕ × JsonValue)
  | [] => []
  | (k, l, v) :: ps => (k.take l, l, deepCopy v) :: deepCopyMembers ps

end

def jsonCreateNull : JsonValue := .null

def jsonCreateBool (b : Bool) : JsonValue := .bool b

def jsonCreateNumber (d : Double) : JsonValue := .number d

/-- `json_create_string` of the bytes of a C string. -/
def jsonCreateString (s : List UInt8) : JsonValue :=
  .str (s.map UInt8.toNat) (s.length % 2 ^ 32)

def jsonCreateArray : JsonValue := .arr []

def jsonCreateObject : JsonValue := .obj []

/-- What is in a container after `ensure_container_arena`. -/
def ensureArena (arena : Bool) (v : JsonValue) : JsonValue := if arena then v else deepCopy v

/-- `json_array_add_raw`; nothing where the value is no array. -/
def jsonArrayAddRaw (arena : Bool) (capacity : ℕ) (arr value : JsonValue) :
    Except Failure (Option JsonValue) :=
  match ensureArena arena arr with
  | .arr items => do
    let a ← Entries.push arrReserve ⟨items, capacity⟩ (deepCopy value)
    .ok (some (.arr a.items))
  | _ => .ok none

/-- The value of the first member with this key is replaced. -/
def replaceMember (key : List ℕ) (value : JsonValue) :
    List (List ℕ × ℕ × JsonValue) → Option (List (List ℕ × ℕ × JsonValue))
  | [] => none
  | (k, l, v) :: ps =>
    if l = key.length ∧ k.take l = key then some ((k, l, value) :: ps)
    else (replaceMember key value ps).map ((k, l, v) :: ·)

/-- `json_object_set_raw`, with the bytes of a C string as the key. -/
def jsonObjectSetRaw (arena : Bool) (capacity : ℕ) (obj : JsonValue) (key : List UInt8)
    (value : JsonValue) : Except Failure (Option JsonValue) :=
  match ensureArena arena obj with
  | .obj members =>
    if 2 ^ 32 ≤ key.length then .ok none
    else
      match replaceMember (key.map UInt8.toNat) (deepCopy value) members with
      | some members => .ok (some (.obj members))
      | none => do
        let a ← Entries.push objReserve ⟨members, capacity⟩
          (key.map UInt8.toNat, key.length, deepCopy value)
        .ok (some (.obj a.items))
  | _ => .ok none

/-! ### Numbers -/

/-- The last `width` decimal digits of `m`. -/
def decDigits : ℕ → ℕ → List ℕ
  | 0, _ => []
  | width + 1, m => decDigits width (m / 10) ++ [0x30 + m % 10]

/-- Six significant digits of `q`, rounded, and the exponent of the first one. -/
def sixDigits (q : ℚ) : ℕ × ℤ := Double.sigDigits 6 q

def stripZeros (ds : List ℕ) : List ℕ := (ds.reverse.dropWhile (· == 0x30)).reverse

def pointText (frac : List ℕ) : List ℕ := if frac = [] then [] else 0x2e :: frac

/-- The digits of an exponent, at least two. -/
def expDigits (n : ℕ) : List ℕ := decDigits (max 2 (Nat.log 10 n + 1)) n

/-- `%f` of `%g`: the digits `ds`, the first one with the exponent `x`. -/
def textF (ds : List ℕ) (x : ℤ) : List ℕ :=
  if 0 ≤ x then ds.take (x.toNat + 1) ++ pointText (stripZeros (ds.drop (x.toNat + 1)))
  else 0x30 :: pointText (stripZeros (List.replicate (-x - 1).toNat 0x30 ++ ds))

/-- `%e` of `%g`. -/
def textE (ds : List ℕ) (x : ℤ) : List ℕ :=
  ds.take 1 ++ (pointText (stripZeros (ds.drop 1))
    ++ 0x65 :: (if x < 0 then 0x2d else 0x2b) :: expDigits x.natAbs)

/-- The magnitude of a finite number in `%g`. -/
def textG (q : ℚ) : List ℕ :=
  if q = 0 then [0x30]
  else
    let (m, x) := sixDigits q
    if -4 ≤ x ∧ x < 6 then textF (decDigits 6 m) x else textE (decDigits 6 m) x

def signText (neg : Bool) : List ℕ := if neg then [0x2d] else []

/-- `snprintf` with `%g`. -/
def formatG (d : Double) : List ℕ :=
  match d.decode with
  | .nan => signText d.msb ++ [0x6e, 0x61, 0x6e]
  | .inf neg => signText neg ++ [0x69, 0x6e, 0x66]
  | .fin neg m e => signText neg ++ textG (m * 2 ^ e)

/-! ### Strings -/

def hexUpper (d : ℕ) : ℕ := if d < 10 then 0x30 + d else 0x37 + d

/-- The escapes of `sb_emit_string` with a letter. -/
def emitEscape : ℕ → Option (List ℕ)
  | 0x22 => some [0x5c, 0x22] -- double quote
  | 0x5c => some [0x5c, 0x5c] -- backslash
  | 0x08 => some [0x5c, 0x62] -- b
  | 0x0c => some [0x5c, 0x66] -- f
  | 0x0a => some [0x5c, 0x6e] -- n
  | 0x0d => some [0x5c, 0x72] -- r
  | 0x09 => some [0x5c, 0x74] -- t
  | _ => none

/-- The loop of `sb_emit_string`; `run` are the bytes from `run_start` on that are not yet put. -/
def emitStringLoop (b run : List ℕ) : List ℕ → List ℕ
  | [] => b ++ run
  | c :: p =>
    match emitEscape c with
    | some esc => emitStringLoop (b ++ run ++ esc) [] p
    | none =>
      if c < 0x20 then
        emitStringLoop
          (b ++ run ++ [0x5c, 0x75, 0x30, 0x30] ++ [hexUpper (c / 0x10), hexUpper (c % 0x10)]) [] p
      else emitStringLoop b (run ++ [c]) p

def sbEmitString (b s : List ℕ) (n : ℕ) : List ℕ :=
  emitStringLoop (b ++ [0x22]) [] (s.take n) ++ [0x22]

/-! ### The tree -/

def nullText : List ℕ := [0x6e, 0x75, 0x6c, 0x6c]

def boolText : Bool → List ℕ
  | true => [0x74, 0x72, 0x75, 0x65]
  | false => [0x66, 0x61, 0x6c, 0x73, 0x65]

mutual

def sbEmitValue (b : List ℕ) (depth : ℕ) : JsonValue → List ℕ
  | .null => b ++ nullText
  | .bool x => b ++ if depth > jsonMaxDepth then nullText else boolText x
  | .number d => b ++ if depth > jsonMaxDepth then nullText else formatG d
  | .str data length => if depth > jsonMaxDepth then b ++ nullText else sbEmitString b data length
  | .arr items =>
    if depth > jsonMaxDepth then b ++ nullText
    else sbEmitItems (b ++ [0x5b]) (depth + 1) true items ++ [0x5d]
  | .obj members =>
    if depth > jsonMaxDepth then b ++ nullText
    else sbEmitMembers (b ++ [0x7b]) (depth + 1) true members ++ [0x7d]

/-- The loop of `sb_emit_array`; `first` is `i == 0`. -/
def sbEmitItems (b : List ℕ) (depth : ℕ) (first : Bool) : List JsonValue → List ℕ
  | [] => b
  | v :: vs => sbEmitItems (sbEmitValue (if first then b else b ++ [0x2c]) depth v) depth false vs

/-- The loop of `sb_emit_object`. -/
def sbEmitMembers (b : List ℕ) (depth : ℕ) (first : Bool) :
    List (List ℕ × ℕ × JsonValue) → List ℕ
  | [] => b
  | (k, l, v) :: ps =>
    let b := sbEmitString (if first then b else b ++ [0x2c]) k l ++ [0x3a]
    sbEmitMembers (sbEmitValue b depth v) depth false ps

end

/-- `json_stringify_raw`: the bytes before the final zero. -/
def jsonStringifyRaw (v : JsonValue) : List UInt8 := (sbEmitValue [] 0 v).map UInt8.ofNat

/-- `json_parse_raw`: the bytes up to the first zero. -/
def jsonParseRaw (sc : Scanner) (s : List UInt8) : Except Failure JsonValue :=
  jsonParseRawN sc (s.takeWhile (· != 0))

end Aether

end Qjs
