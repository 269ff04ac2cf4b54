import Qjs.Lib.JsonText
import Qjs.Lib.RatRound

/-!
# What a JSON text denotes

The tree of a text: elements and members in the order of the text, strings decoded to bytes of
UTF-8, numbers as they are written. The strings are those of RFC 8259 that are well-formed UTF-8 and
in which the escapes of surrogates come in pairs (`strict`); the texts that denote a tree are the
texts of that grammar (`text_iff_denotes`).
-/

namespace Qjs

namespace JsonText

open Wtf8

/-! ### Trees -/

/-- A number as it is written: the sign, the digits on both sides of the point, the sign and the
digits of the exponent. -/
structure Decimal where
  neg : Bool
  int : List ℕ
  frac : List ℕ
  expNeg : Bool
  exp : List ℕ
  deriving DecidableEq, Repr

inductive Tree
  | null
  | bool (b : Bool)
  | num (d : Decimal)
  | str (bs : List ℕ)
  | arr (vs : List Tree)
  | obj (ps : List (List ℕ × Tree))

mutual

/-- How many arrays and objects stand around the innermost values. -/
def Tree.depth : Tree → ℕ
  | .arr vs => depthElements vs
  | .obj ps => depthMembers ps
  | _ => 0

def depthElements : List Tree → ℕ
  | [] => 0
  | v :: vs => max (v.depth + 1) (depthElements vs)

def depthMembers : List (List ℕ × Tree) → ℕ
  | [] => 0
  | (_, v) :: ps => max (v.depth + 1) (depthMembers ps)

end

def digitsValue (ds : List ℕ) : ℕ := ds.foldl (fun n d => 10 * n + (d - 0x30)) 0

def Decimal.exponent (d : Decimal) : ℤ :=
  if d.expNeg then -(digitsValue d.exp : ℤ) else digitsValue d.exp

/-- The number without its sign. -/
def Decimal.magnitude (d : Decimal) : ℚ :=
  digitsValue (d.int ++ d.frac) * 10 ^ (d.exponent - d.frac.length)

/-- The nearest double. -/
def Decimal.double (d : Decimal) : Double := Double.ofRat d.neg d.magnitude

/-! ### Numbers -/

inductive SignText : List ℕ → Bool → Prop
  | none : SignText [] false
  | minus : SignText [0x2d] true

inductive FracText : List ℕ → List ℕ → Prop
  | none : FracText [] []
  | some {ds : List ℕ} (h : Digits ds) : FracText (0x2e :: ds) ds

inductive ExpText : List ℕ → Bool → List ℕ → Prop
  | none : ExpText [] false []
  | some {e : ℕ} {s ds : List ℕ} {neg : Bool} (he : e = 0x65 ∨ e = 0x45)
      (hs : SignText s neg ∨ s = [0x2b] ∧ neg = false) (h : Digits ds) :
      ExpText (e :: (s ++ ds)) neg ds

/-- Digits without a leading zero. -/
def IntText (n : List ℕ) : Prop := n = [0x30] ∨ Digits n ∧ n.head? ≠ some 0x30

inductive NumberText : List ℕ → Decimal → List ℕ → Prop
  | mk {s f x r : List ℕ} {d : Decimal} (hs : SignText s d.neg) (hn : IntText d.int)
      (hf : FracText f d.frac) (hx : ExpText x d.expNeg d.exp) :
      NumberText (s ++ (d.int ++ (f ++ (x ++ r)))) d r

/-! ### Strings -/

def IsScalar (c : ℕ) : Prop := c < 0x110000 ∧ ¬(0xd800 ≤ c ∧ c < 0xe000)

def shortEscape : ℕ → Option ℕ
  | 0x22 => some 0x22
  | 0x5c => some 0x5c
  | 0x2f => some 0x2f
  | 0x62 => some 0x08
  | 0x66 => some 0x0c
  | 0x6e => some 0x0a
  | 0x72 => some 0x0d
  | 0x74 => some 0x09
  | _ => none

def hexDigit (c : ℕ) : ℕ :=
  if c ≤ 0x39 then c - 0x30 else if c ≤ 0x46 then c - 0x41 + 10 else c - 0x61 + 10

/-- Four hexadecimal digits and their number. -/
inductive Hex4 : List ℕ → ℕ → Prop
  | mk {a b c d : ℕ} (ha : IsHex a) (hb : IsHex b) (hc : IsHex c) (hd : IsHex d) :
      Hex4 [a, b, c, d] (((hexDigit a * 16 + hexDigit b) * 16 + hexDigit c) * 16 + hexDigit d)

/-- One character of a string, and its bytes of UTF-8. -/
inductive CharText : List ℕ → List ℕ → List ℕ → Prop
  | unescaped {c : ℕ} {r : List ℕ} (h : 0x20 ≤ c) (hs : IsScalar c) (hq : c ≠ 0x22)
      (hb : c ≠ 0x5c) : CharText (encode c ++ r) (encode c) r
  | short {c d : ℕ} {r : List ℕ} (h : shortEscape c = some d) : CharText (0x5c :: c :: r) [d] r
  | unicode {x r : List ℕ} {c : ℕ} (h : Hex4 x c) (hs : IsScalar c) :
      CharText (0x5c :: 0x75 :: (x ++ r)) (encode c) r
  | pair {x y r : List ℕ} {l t : ℕ} (hx : Hex4 x l) (hy : Hex4 y t) (hl : IsLead l)
      (ht : IsTrail t) :
      CharText (0x5c :: 0x75 :: (x ++ 0x5c :: 0x75 :: (y ++ r))) (encode (join l t)) r

inductive CharsText : List ℕ → List ℕ → List ℕ → Prop
  | nil (r : List ℕ) : CharsText r [] r
  | cons {i j r b bs : List ℕ} (hc : CharText i b j) (h : CharsText j bs r) :
      CharsText i (b ++ bs) r

/-! ### Values -/

/-- What a part of a text denotes; the elements denote an array and the members an object. -/
inductive Denotes : Nonterminal → List ℕ → Tree → List ℕ → Prop
  | null {r : List ℕ} : Denotes .value (0x6e :: 0x75 :: 0x6c :: 0x6c :: r) .null r
  | true {r : List ℕ} : Denotes .value (0x74 :: 0x72 :: 0x75 :: 0x65 :: r) (.bool true) r
  | false {r : List ℕ} :
      Denotes .value (0x66 :: 0x61 :: 0x6c :: 0x73 :: 0x65 :: r) (.bool false) r
  | number {i r : List ℕ} {d : Decimal} (h : NumberText i d r) : Denotes .value i (.num d) r
  | string {i bs r : List ℕ} (h : CharsText i bs (0x22 :: r)) :
      Denotes .value (0x22 :: i) (.str bs) r
  | emptyArray {i r : List ℕ} (hw : Spaces rfc8259 i (0x5d :: r)) :
      Denotes .value (0x5b :: i) (.arr []) r
  | array {i r : List ℕ} {vs : List Tree} (h : Denotes .elements i (.arr vs) (0x5d :: r)) :
      Denotes .value (0x5b :: i) (.arr vs) r
  | emptyObject {i r : List ℕ} (hw : Spaces rfc8259 i (0x7d :: r)) :
      Denotes .value (0x7b :: i) (.obj []) r
  | object {i r : List ℕ} {ps : List (List ℕ × Tree)}
      (h : Denotes .members i (.obj ps) (0x7d :: r)) : Denotes .value (0x7b :: i) (.obj ps) r
  | element {i j k r : List ℕ} {v : Tree} (hw : Spaces rfc8259 i j) (hv : Denotes .value j v k)
      (hw' : Spaces rfc8259 k r) : Denotes .elements i (.arr [v]) r
  | elements {i j k m r : List ℕ} {v : Tree} {vs : List Tree} (hw : Spaces rfc8259 i j)
      (hv : Denotes .value j v k) (hw' : Spaces rfc8259 k (0x2c :: m))
      (h : Denotes .elements m (.arr vs) r) : Denotes .elements i (.arr (v :: vs)) r
  | member {i j k m n o r s : List ℕ} {v : Tree} (hw : Spaces rfc8259 i (0x22 :: j))
      (hs : CharsText j s (0x22 :: k)) (hc : Spaces rfc8259 k (0x3a :: m))
      (hw' : Spaces rfc8259 m n) (hv : Denotes .value n v o) (hw'' : Spaces rfc8259 o r) :
      Denotes .members i (.obj [(s, v)]) r
  | members {i j k m n o p r s : List ℕ} {v : Tree} {ps : List (List ℕ × Tree)}
      (hw : Spaces rfc8259 i (0x22 :: j)) (hs : CharsText j s (0x22 :: k))
      (hc : Spaces rfc8259 k (0x3a :: m)) (hw' : Spaces rfc8259 m n) (hv : Denotes .value n v o)
      (hw'' : Spaces rfc8259 o (0x2c :: p)) (h : Denotes .members p (.obj ps) r) :
      Denotes .members i (.obj ((s, v) :: ps)) r

/-- A text is a value with space around it. -/
def DenotesText (i : List ℕ) (t : Tree) : Prop :=
  ∃ j k, Spaces rfc8259 i j ∧ Denotes .value j t k ∧ Spaces rfc8259 k []

/-! ### The grammar without the trees -/

/-- RFC 8259 with well-formed UTF-8 and surrogates in pairs. -/
def strict : Lexical where
  space := rfc8259.space
  number := rfcNumber
  char i r := ∃ b, CharText i b r

theorem spaces_strict {i r : List ℕ} : Spaces strict i r ↔ Spaces rfc8259 i r := by
  constructor <;> intro h
  all_goals
    induction h with
    | nil r => exact .nil r
    | cons hc _ ih => exact .cons hc ih

theorem numberText_iff {i r : List ℕ} : (∃ d, NumberText i d r) ↔ rfcNumber i r := by
  constructor
  · rintro ⟨d, h⟩
    cases h with
    | @mk s f x r d hs hn hf hx =>
      obtain ⟨neg, n, ds, eneg, es⟩ := d
      dsimp only at hs hf hx
      refine ⟨s, n, f, x, rfl, ?_, hn, ?_, ?_⟩
      · cases hs with
        | none => exact .inl rfl
        | minus => exact .inr rfl
      · cases hf with
        | none => exact .inl rfl
        | some h => exact .inr ⟨_, h, rfl⟩
      · cases hx with
        | none => exact .inl rfl
        | @some e s ds neg he hs h =>
          refine .inr ⟨e, s, es, he, ?_, h, rfl⟩
          rcases hs with hs | ⟨rfl, -⟩
          · cases hs with
            | none => exact .inl rfl
            | minus => exact .inr (.inr rfl)
          · exact .inr (.inl rfl)
  · rintro ⟨s, n, f, x, rfl, hs, hn, hf, hx⟩
    obtain ⟨b, hb⟩ : ∃ b, SignText s b := by
      rcases hs with rfl | rfl
      · exact ⟨_, .none⟩
      · exact ⟨_, .minus⟩
    obtain ⟨ds, hds⟩ : ∃ ds, FracText f ds := by
      rcases hf with rfl | ⟨ds, h, rfl⟩
      · exact ⟨_, .none⟩
      · exact ⟨_, .some h⟩
    obtain ⟨neg, es, hes⟩ : ∃ neg es, ExpText x neg es := by
      rcases hx with rfl | ⟨e, s, es, he, hs, h, rfl⟩
      · exact ⟨_, _, .none⟩
      · rcases hs with rfl | rfl | rfl
        · exact ⟨_, _, .some he (.inl .none) h⟩
        · exact ⟨_, _, .some he (.inr ⟨rfl, rfl⟩) h⟩
        · exact ⟨_, _, .some he (.inl .minus) h⟩
    exact ⟨⟨b, n, ds, neg, es⟩, .mk (d := ⟨b, n, ds, neg, es⟩) hb hn hds hes⟩

theorem charsText_iff {i r : List ℕ} : (∃ bs, CharsText i bs r) ↔ Chars strict i r := by
  constructor
  · rintro ⟨bs, h⟩
    induction h with
    | nil r => exact .nil r
    | cons hc _ ih => exact .cons ⟨_, hc⟩ ih
  · intro h
    induction h with
    | nil r => exact ⟨[], .nil r⟩
    | cons hc _ ih =>
      obtain ⟨b, hb⟩ := hc
      obtain ⟨bs, hbs⟩ := ih
      exact ⟨b ++ bs, .cons hb hbs⟩

theorem Denotes.derives {n : Nonterminal} {i r : List ℕ} {t : Tree} (h : Denotes n i t r) :
    Derives strict n i r := by
  induction h with
  | null => exact .null
  | true => exact .true
  | false => exact .false
  | number h => exact .number (numberText_iff.1 ⟨_, h⟩)
  | string h => exact .string (charsText_iff.1 ⟨_, h⟩)
  | emptyArray hw => exact .emptyArray (spaces_strict.2 hw)
  | array _ ih => exact .array ih
  | emptyObject hw => exact .emptyObject (spaces_strict.2 hw)
  | object _ ih => exact .object ih
  | element hw _ hw' ih => exact .element (spaces_strict.2 hw) ih (spaces_strict.2 hw')
  | elements hw _ hw' _ ihv ih =>
    exact .elements (spaces_strict.2 hw) ihv (spaces_strict.2 hw') ih
  | member hw hs hc hw' _ hw'' ih =>
    exact .member (spaces_strict.2 hw) (charsText_iff.1 ⟨_, hs⟩) (spaces_strict.2 hc)
      (spaces_strict.2 hw') ih (spaces_strict.2 hw'')
  | members hw hs hc hw' _ hw'' _ ihv ih =>
    exact .members (spaces_strict.2 hw) (charsText_iff.1 ⟨_, hs⟩) (spaces_strict.2 hc)
      (spaces_strict.2 hw') ihv (spaces_strict.2 hw'') ih

/-- Elements denote an array, members an object. -/
def Shape : Nonterminal → Tree → Prop
  | .value, _ => True
  | .elements, t => ∃ vs, t = .arr vs
  | .members, t => ∃ ps, t = .obj ps

theorem Derives.denotes {n : Nonterminal} {i r : List ℕ} (h : Derives strict n i r) :
    ∃ t, Shape n t ∧ Denotes n i t r := by
  induction h with
  | null => exact ⟨_, trivial, .null⟩
  | true => exact ⟨_, trivial, .true⟩
  | false => exact ⟨_, trivial, .false⟩
  | number h =>
    obtain ⟨d, hd⟩ := numberText_iff.2 h
    exact ⟨_, trivial, .number hd⟩
  | string h =>
    obtain ⟨bs, hbs⟩ := charsText_iff.2 h
    exact ⟨_, trivial, .string hbs⟩
  | emptyArray hw => exact ⟨_, trivial, .emptyArray (spaces_strict.1 hw)⟩
  | array _ ih =>
    obtain ⟨_, ⟨vs, rfl⟩, h⟩ := ih
    exact ⟨_, trivial, .array h⟩
  | emptyObject hw => exact ⟨_, trivial, .emptyObject (spaces_strict.1 hw)⟩
  | object _ ih =>
    obtain ⟨_, ⟨ps, rfl⟩, h⟩ := ih
    exact ⟨_, trivial, .object h⟩
  | element hw _ hw' ih =>
    obtain ⟨v, -, h⟩ := ih
    exact ⟨_, ⟨_, rfl⟩, .element (spaces_strict.1 hw) h (spaces_strict.1 hw')⟩
  | elements hw _ hw' _ ihv ih =>
    obtain ⟨v, -, hv⟩ := ihv
    obtain ⟨_, ⟨vs, rfl⟩, h⟩ := ih
    exact ⟨_, ⟨_, rfl⟩, .elements (spaces_strict.1 hw) hv (spaces_strict.1 hw') h⟩
  | member hw hs hc hw' _ hw'' ih =>
    obtain ⟨v, -, h⟩ := ih
    obtain ⟨bs, hbs⟩ := charsText_iff.2 hs
    exact ⟨_, ⟨_, rfl⟩, .member (spaces_strict.1 hw) hbs (spaces_strict.1 hc)
      (spaces_strict.1 hw') h (spaces_strict.1 hw'')⟩
  | members hw hs hc hw' _ hw'' _ ihv ih =>
    obtain ⟨v, -, hv⟩ := ihv
    obtain ⟨_, ⟨ps, rfl⟩, h⟩ := ih
    obtain ⟨bs, hbs⟩ := charsText_iff.2 hs
    exact ⟨_, ⟨_, rfl⟩, .members (spaces_strict.1 hw) hbs (spaces_strict.1 hc)
      (spaces_strict.1 hw') hv (spaces_strict.1 hw'') h⟩

theorem text_iff_denotes {i : List ℕ} : Text strict i ↔ ∃ t, DenotesText i t := by
  constructor
  · rintro ⟨j, k, hw, hv, hw'⟩
    obtain ⟨t, -, ht⟩ := Derives.denotes hv
    exact ⟨t, j, k, spaces_strict.1 hw, ht, spaces_strict.1 hw'⟩
  · rintro ⟨t, j, k, hw, hv, hw'⟩
    exact ⟨j, k, spaces_strict.2 hw, hv.derives, spaces_strict.2 hw'⟩

end JsonText

end Qjs
