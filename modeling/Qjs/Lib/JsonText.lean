import Qjs.Lib.Wtf8

/-!
# JSON texts

The grammar of JSON over bytes, with the white space, the numbers and the strings left open
(`Lexical`). A nonterminal is a relation between a text and what is left of it after the first part.
The grammar of RFC 8259 is `rfc8259`; a grammar with more white space, numbers and strings has more
texts (`Text.mono`).
-/

namespace Qjs

namespace JsonText

open Wtf8

/-- The characters of a nonterminal that is not fixed by the structure of values. -/
structure Lexical where
  space : ℕ → Prop
  number : List ℕ → List ℕ → Prop
  /-- One character of a string, between the quotes. -/
  char : List ℕ → List ℕ → Prop

variable (L : Lexical)

inductive Spaces : List ℕ → List ℕ → Prop
  | nil (r : List ℕ) : Spaces r r
  | cons {c : ℕ} {i r : List ℕ} (hc : L.space c) (h : Spaces i r) : Spaces (c :: i) r

inductive Chars : List ℕ → List ℕ → Prop
  | nil (r : List ℕ) : Chars r r
  | cons {i j r : List ℕ} (hc : L.char i j) (h : Chars j r) : Chars i r

inductive Nonterminal
  | value
  /-- The values of an array, with the space around them. -/
  | elements
  /-- The names and values of an object, with the space around them. -/
  | members

inductive Derives : Nonterminal → List ℕ → List ℕ → Prop
  | null {r : List ℕ} : Derives .value (0x6e :: 0x75 :: 0x6c :: 0x6c :: r) r
  | true {r : List ℕ} : Derives .value (0x74 :: 0x72 :: 0x75 :: 0x65 :: r) r
  | false {r : List ℕ} : Derives .value (0x66 :: 0x61 :: 0x6c :: 0x73 :: 0x65 :: r) r
  | number {i r : List ℕ} (h : L.number i r) : Derives .value i r
  | string {i r : List ℕ} (h : Chars L i (0x22 :: r)) : Derives .value (0x22 :: i) r
  | emptyArray {i r : List ℕ} (hw : Spaces L i (0x5d :: r)) : Derives .value (0x5b :: i) r
  | array {i r : List ℕ} (h : Derives .elements i (0x5d :: r)) : Derives .value (0x5b :: i) r
  | emptyObject {i r : List ℕ} (hw : Spaces L i (0x7d :: r)) : Derives .value (0x7b :: i) r
  | object {i r : List ℕ} (h : Derives .members i (0x7d :: r)) : Derives .value (0x7b :: i) r
  | element {i j k r : List ℕ} (hw : Spaces L i j) (hv : Derives .value j k)
      (hw' : Spaces L k r) : Derives .elements i r
  | elements {i j k m r : List ℕ} (hw : Spaces L i j) (hv : Derives .value j k)
      (hw' : Spaces L k (0x2c :: m)) (h : Derives .elements m r) : Derives .elements i r
  | member {i j k m n r : List ℕ} (hw : Spaces L i (0x22 :: j)) (hs : Chars L j (0x22 :: k))
      (hc : Spaces L k (0x3a :: m)) (hw' : Spaces L m n) {o : List ℕ} (hv : Derives .value n o)
      (hw'' : Spaces L o r) : Derives .members i r
  | members {i j k m n r : List ℕ} (hw : Spaces L i (0x22 :: j)) (hs : Chars L j (0x22 :: k))
      (hc : Spaces L k (0x3a :: m)) (hw' : Spaces L m n) {o p : List ℕ} (hv : Derives .value n o)
      (hw'' : Spaces L o (0x2c :: p)) (h : Derives .members p r) : Derives .members i r

/-- A text is a value with space around it. -/
def Text (i : List ℕ) : Prop := ∃ j k, Spaces L i j ∧ Derives L .value j k ∧ Spaces L k []

variable {L} in
theorem Spaces.trans {i j r : List ℕ} (h : Spaces L i j) (h' : Spaces L j r) : Spaces L i r := by
  induction h with
  | nil => exact h'
  | cons hc _ ih => exact .cons hc (ih h')

variable {L} in
/-- Space before the elements of an array or the members of an object belongs to the first one. -/
theorem Derives.space_left {n : Nonterminal} {p i r : List ℕ} (hn : n ≠ .value)
    (hp : Spaces L p i) (h : Derives L n i r) : Derives L n p r := by
  cases h with
  | element hw hv hw' => exact .element (hp.trans hw) hv hw'
  | elements hw hv hw' h => exact .elements (hp.trans hw) hv hw' h
  | member hw hs hc hw' hv hw'' => exact .member (hp.trans hw) hs hc hw' hv hw''
  | members hw hs hc hw' hv hw'' h => exact .members (hp.trans hw) hs hc hw' hv hw'' h
  | _ => exact absurd rfl hn

/-! ### Comparison of grammars -/

/-- `L'` has what `L` has; a character of `L` may be several of `L'`. -/
structure Le (L L' : Lexical) : Prop where
  space : ∀ {c}, L.space c → L'.space c
  number : ∀ {i r}, L.number i r → L'.number i r
  char : ∀ {i r}, L.char i r → Chars L' i r

section Mono

variable {L L' : Lexical}

theorem Spaces.mono (hl : Le L L') {i r : List ℕ} (h : Spaces L i r) : Spaces L' i r := by
  induction h with
  | nil r => exact .nil r
  | cons hc _ ih => exact .cons (hl.space hc) ih

theorem Chars.trans {i j r : List ℕ} (h : Chars L i j) (h' : Chars L j r) : Chars L i r := by
  induction h with
  | nil => exact h'
  | cons hc _ ih => exact .cons hc (ih h')

theorem Chars.mono (hl : Le L L') {i r : List ℕ} (h : Chars L i r) : Chars L' i r := by
  induction h with
  | nil r => exact .nil r
  | cons hc _ ih => exact (hl.char hc).trans ih

theorem Derives.mono (hl : Le L L') {n : Nonterminal} {i r : List ℕ} (h : Derives L n i r) :
    Derives L' n i r := by
  induction h with
  | null => exact .null
  | true => exact .true
  | false => exact .false
  | number h => exact .number (hl.number h)
  | string h => exact .string (h.mono hl)
  | emptyArray hw => exact .emptyArray (hw.mono hl)
  | array _ ih => exact .array ih
  | emptyObject hw => exact .emptyObject (hw.mono hl)
  | object _ ih => exact .object ih
  | element hw _ hw' ih => exact .element (hw.mono hl) ih (hw'.mono hl)
  | elements hw _ hw' _ ihv ih => exact .elements (hw.mono hl) ihv (hw'.mono hl) ih
  | member hw hs hc hw' _ hw'' ih =>
    exact .member (hw.mono hl) (hs.mono hl) (hc.mono hl) (hw'.mono hl) ih (hw''.mono hl)
  | members hw hs hc hw' _ hw'' _ ihv ih =>
    exact .members (hw.mono hl) (hs.mono hl) (hc.mono hl) (hw'.mono hl) ihv (hw''.mono hl) ih

theorem Text.mono (hl : Le L L') {i : List ℕ} (h : Text L i) : Text L' i := by
  obtain ⟨j, k, hw, hv, hw'⟩ := h
  exact ⟨j, k, hw.mono hl, hv.mono hl, hw'.mono hl⟩

end Mono

/-! ### RFC 8259 -/

def IsDigit (c : ℕ) : Prop := 0x30 ≤ c ∧ c ≤ 0x39

def IsHex (c : ℕ) : Prop :=
  IsDigit c ∨ (0x41 ≤ c ∧ c ≤ 0x46) ∨ (0x61 ≤ c ∧ c ≤ 0x66)

instance (c : ℕ) : Decidable (IsDigit c) := inferInstanceAs (Decidable (_ ∧ _))

instance (c : ℕ) : Decidable (IsHex c) := inferInstanceAs (Decidable (_ ∨ _))

/-- One digit or more. -/
def Digits (d : List ℕ) : Prop := d ≠ [] ∧ ∀ c ∈ d, IsDigit c

def Sign (s : List ℕ) : Prop := s = [] ∨ s = [0x2d]

/-- `e` or `E`, with a sign and digits; it may be missing. -/
def Exponent (x : List ℕ) : Prop :=
  x = [] ∨ ∃ e s d, (e = 0x65 ∨ e = 0x45) ∧ (s = [] ∨ s = [0x2b] ∨ s = [0x2d]) ∧ Digits d
    ∧ x = e :: (s ++ d)

def rfcNumber (i r : List ℕ) : Prop :=
  ∃ s n f x, i = s ++ (n ++ (f ++ (x ++ r))) ∧ Sign s ∧ (n = [0x30] ∨ Digits n ∧ n.head? ≠ some 0x30)
    ∧ (f = [] ∨ ∃ d, Digits d ∧ f = 0x2e :: d) ∧ Exponent x

/-- A character that stands for itself, a short escape or four hexadecimal digits. -/
inductive RfcChar : List ℕ → List ℕ → Prop
  | unescaped {c : ℕ} {r : List ℕ} (h : 0x20 ≤ c) (h' : c < 0x110000) (hq : c ≠ 0x22)
      (hb : c ≠ 0x5c) : RfcChar (encode c ++ r) r
  | short {c : ℕ} {r : List ℕ}
      (h : c ∈ [0x22, 0x5c, 0x2f, 0x62, 0x66, 0x6e, 0x72, 0x74]) : RfcChar (0x5c :: c :: r) r
  | unicode {a b c d : ℕ} {r : List ℕ} (ha : IsHex a) (hb : IsHex b) (hc : IsHex c) (hd : IsHex d) :
      RfcChar (0x5c :: 0x75 :: a :: b :: c :: d :: r) r

def rfc8259 : Lexical where
  space c := c = 0x20 ∨ c = 0x09 ∨ c = 0x0a ∨ c = 0x0d
  number := rfcNumber
  char := RfcChar

end JsonText

end Qjs
