import Qjs.Lib.Replace

/-!
# Redactions of a tape

`str_replace_all` and `apply_redactions_for` of the VCR module, over `string_index_of_from`. A
string is the list of its bytes, none of them zero, and is shorter than 2^31.
-/

namespace Qjs.Aether.Redactions

abbrev Str := List UInt8

/-- The loop of `string_index_of_from`, over `n` indices from `i` on. -/
def indexLoop (str substring : Str) : ℕ → ℕ → ℤ
  | 0, _ => -1
  | n + 1, i =>
    if (str.drop i).take substring.length = substring then i else indexLoop str substring n (i + 1)

def stringIndexOfFrom (str substring : Str) (start : ℤ) : ℤ :=
  let start := if start < 0 then 0 else start.toNat
  if start > str.length then -1
  else if substring.length > str.length - start then -1
  else indexLoop str substring (str.length - substring.length + 1 - start) start

def stringSubstring (str : Str) (start stop : ℤ) : Str :=
  let start := if start < 0 then 0 else start
  let stop := if stop > str.length then (str.length : ℤ) else stop
  if start ≥ stop then [] else (str.drop start.toNat).take (stop - start).toNat

/-- The loop of `str_replace_all`; the cursor moves at each turn. -/
def replaceLoop (src pattern replacement : Str) : ℕ → ℤ → Str → Str
  | 0, _, out => out
  | fuel + 1, cursor, out =>
    if cursor < src.length then
      let idx := stringIndexOfFrom src pattern cursor
      if idx < 0 then out ++ stringSubstring src cursor src.length
      else
        replaceLoop src pattern replacement fuel (idx + pattern.length)
          (out ++ stringSubstring src cursor idx ++ replacement)
    else out

def strReplaceAll (src pattern replacement : Str) : Str :=
  if pattern.length = 0 then src else replaceLoop src pattern replacement src.length 0 []

/-- `Redaction`. -/
structure Redaction where
  field : ℤ
  pattern : Str
  replacement : Str
  deriving DecidableEq

/-- The loop of `apply_redactions_for` over `g_redactions`. -/
def applyRedactionsFor (out : Str) (field : ℤ) : List Redaction → Str
  | [] => out
  | r :: rs =>
    applyRedactionsFor (if r.field = field then strReplaceAll out r.pattern r.replacement else out)
      field rs

/-! ### What is registered for a field -/

/-- The patterns and replacements of a field. -/
def registered (rs : List Redaction) (field : ℤ) : List (Str × Str) :=
  (rs.filter fun r => r.field = field).map fun r => (r.pattern, r.replacement)

/-- The part `x` of the text is touched by no occurrence of a pattern of the field. -/
def Untouched (rs : List Redaction) (field : ℤ) (a x b : Str) : Prop :=
  ∀ q ∈ registered rs field, ∀ k, q.1 <+: (a ++ (x ++ b)).drop k →
    k + q.1.length ≤ a.length ∨ a.length + x.length ≤ k

/-- No pattern of the field is left in the text, and a part that no occurrence touches is unchanged,
between what the redactions make of both sides of it. -/
def Redacted (rs : List Redaction) (field : ℤ) (s : Str) : Prop :=
  (∀ q ∈ registered rs field, ¬ q.1 <:+: applyRedactionsFor s field rs)
    ∧ ∀ a x b, s = a ++ (x ++ b) → x ≠ [] → Untouched rs field a x b →
      applyRedactionsFor s field rs
        = applyRedactionsFor a field rs ++ (x ++ applyRedactionsFor b field rs)

end Qjs.Aether.Redactions
