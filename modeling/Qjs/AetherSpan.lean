import Qjs.AetherJson

/-!
# The writes of a string

`parse_string_raw` of `aether_json.c` with a record of what it puts into the buffer: after each
`memcpy` and each escape, the bytes that are written so far and what is left of the input behind the
raw bytes that they stand for.
-/

namespace Qjs

namespace Aether

/-- The writes, and the result. -/
abbrev Traced := List (List ℕ × List ℕ) × Except Failure (List ℕ × List ℕ)

/-- A write into the buffer of a span, recorded before the buffer is checked, and what follows it.
-/
def tracedPut (span : ℕ) (dst bs rest : List ℕ) (next : List ℕ → Traced) : Traced :=
  match putBytes span dst bs with
  | .error e => ([(dst ++ bs, rest)], .error e)
  | .ok dst' => ((dst ++ bs, rest) :: (next dst').1, (next dst').2)

/-- The loop of `parse_string_raw` with its writes. -/
def tracedLoop (sc : Scanner) (span : ℕ) : ℕ → List ℕ → List ℕ → Traced
  | 0, _, _ => ([], .error .endless)
  | fuel + 1, dst, p =>
    let run := scanStrSafe sc p
    tracedPut span dst (p.take run) (p.drop run) fun dst =>
      match p.drop run with
      | [] => ([], .error (.error "unterminated string" []))
      | c :: p =>
        if c = 0x22 then ([], (putBytes span dst [0]).map fun _ => (dst, p))
        else if c = 0x5c then
          match parseEscape p with
          | .error e => ([], .error e)
          | .ok (bs, p) => tracedPut span dst bs p fun dst => tracedLoop sc span fuel dst p
        else if c < 0x20 then ([], .error (.error "control character U+%04X must be escaped" [c]))
        else
          match parseUtf8 (c :: p) with
          | .error e => ([], .error e)
          | .ok (bs, p) => tracedPut span dst bs p fun dst => tracedLoop sc span fuel dst p

/-- `parse_string_raw` with its writes. -/
def tracedStringRaw (sc : Scanner) (p : List ℕ) :
    List (List ℕ × List ℕ) × Except Failure ((List ℕ × ℕ) × List ℕ) :=
  if peek p ≠ 0x22 then ([], .error (.error "expected string" []))
  else
    match preScan 0 p.tail with
    | .error e => ([], .error e)
    | .ok span =>
      let t := tracedLoop sc span (p.length + 1) [] p.tail
      (t.1, t.2.map fun r => ((r.1, r.1.length % 2 ^ 32), r.2))

end Aether

end Qjs
