import Qjs.Proofs.JsonParse
import Qjs.Proofs.StringifyRun

/-!
# The JSON round trip

A finite tree of JSON has a text (`JVal.text`), which `JSON.stringify` writes for a value that stands
for the tree (`stringifies_text`) and `JSON.parse` reads back, with `-0` as `0`
(`jsParseJsonValue_text`). Together with the cycles this is `json_round_trip`.
-/

namespace Qjs

namespace Json

open Wtf8 JsonText

variable {n : ℕ} {D : Type}

/-! ### Trees -/

section Trees

variable (N : Numbers D)

mutual

/-- The text of a tree. -/
def JVal.text : JVal D → List ℕ
  | .null => nullText
  | .bool b => boolText b
  | .num d => N.text d
  | .str us => jsToQuotedString us
  | .arr vs => 0x5b :: (joinComma (textElements vs) ++ [0x5d])
  | .obj ps => 0x7b :: (joinComma (textMembers ps) ++ [0x7d])

def textElements : List (JVal D) → List (List ℕ)
  | [] => []
  | v :: vs => v.text :: textElements vs

def textMembers : List (PropKey × JVal D) → List (List ℕ)
  | [] => []
  | (k, v) :: ps => (jsToQuotedString (keyText k) ++ 0x3a :: v.text) :: textMembers ps

end

open Classical in
/-- A number with `0` in place of `-0`. -/
noncomputable def Numbers.plusZero (d : D) : D := if d = N.negZero then N.zero else d

mutual

/-- A tree with `0` in place of `-0`. -/
noncomputable def JVal.plusZero : JVal D → JVal D
  | .null => .null
  | .bool b => .bool b
  | .num d => .num (N.plusZero d)
  | .str us => .str us
  | .arr vs => .arr (plusZeroElements vs)
  | .obj ps => .obj (plusZeroMembers ps)

noncomputable def plusZeroElements : List (JVal D) → List (JVal D)
  | [] => []
  | v :: vs => v.plusZero :: plusZeroElements vs

noncomputable def plusZeroMembers : List (PropKey × JVal D) → List (PropKey × JVal D)
  | [] => []
  | (k, v) :: ps => (k, v.plusZero) :: plusZeroMembers ps

end

mutual

/-- Finite numbers, strings of 16-bit units, and distinct string keys. -/
def JVal.WellFormed : JVal D → Prop
  | .null => True
  | .bool _ => True
  | .num d => N.isFinite d = true
  | .str us => Units us
  | .arr vs => WellFormedElements vs
  | .obj ps => (ps.map Prod.fst).Nodup ∧ WellFormedMembers ps

def WellFormedElements : List (JVal D) → Prop
  | [] => True
  | v :: vs => v.WellFormed ∧ WellFormedElements vs

def WellFormedMembers : List (PropKey × JVal D) → Prop
  | [] => True
  | (k, v) :: ps => (∃ us, Units us ∧ k = toPropertyKey us) ∧ v.WellFormed ∧ WellFormedMembers ps

end

end Trees

section Denotes

variable (h : Fin n → Obj n D)

mutual

/-- The value `v` stands for a tree. -/
def Denotes (v : Val n D) : JVal D → Prop
  | .null => v = .null
  | .bool b => v = .bool b
  | .num d => v = .num d
  | .str us => v = .str us
  | .arr vs => ∃ id els, v = .ref id ∧ h id = .array els ∧ DenotesElements els vs
  | .obj ps => ∃ id props, v = .ref id ∧ h id = .object props ∧ DenotesMembers props.list ps

def DenotesElements : List (Val n D) → List (JVal D) → Prop
  | [], [] => True
  | e :: es, v :: vs => Denotes e v ∧ DenotesElements es vs
  | _, _ => False

def DenotesMembers : List (PropKey × Val n D) → List (PropKey × JVal D) → Prop
  | [], [] => True
  | (k, e) :: es, (k', v) :: vs => k = k' ∧ Denotes e v ∧ DenotesMembers es vs
  | _, _ => False

end

end Denotes

/-! ### Numbers -/

/-- A number as `js_dtoa` writes it: a sign, digits, digits after a point and an exponent. -/
structure Decimal where
  neg : Bool
  int : List ℕ
  frac : List ℕ
  exp : Option (Bool × List ℕ)
  int_digits : Digits int
  frac_digits : ∀ c ∈ frac, IsDigit c
  exp_digits : ∀ e ∈ exp, Digits e.2

namespace Decimal

def fracText (m : Decimal) : List ℕ := if m.frac = [] then [] else 0x2e :: m.frac

def expText (m : Decimal) : List ℕ :=
  match m.exp with
  | none => []
  | some (neg, ds) => 0x65 :: (if neg then 0x2d else 0x2b) :: ds

def text (m : Decimal) : List ℕ :=
  (if m.neg then [0x2d] else []) ++ (m.int ++ (m.fracText ++ m.expText))

/-- The number that `js_atod` makes of it. -/
def value (conv : Conv D) (m : Decimal) : D :=
  conv.decimal m.neg m.int m.frac ((m.exp.map Prod.fst).getD false) ((m.exp.map Prod.snd).getD [])

variable (m : Decimal) {r : List ℕ}

theorem exponent_expText : Exponent m.expText := by
  unfold expText
  cases he : m.exp with
  | none => exact .inl rfl
  | some e =>
    obtain ⟨neg, ds⟩ := e
    refine .inr ⟨0x65, [if neg then 0x2d else 0x2b], ds, .inl rfl, ?_, m.exp_digits _ he, rfl⟩
    cases neg
    · exact .inr (.inl rfl)
    · exact .inr (.inr rfl)

theorem atodExponent_expText (hr : Stop r) : atodExponent (m.expText ++ r)
    = some ((m.exp.map Prod.fst).getD false, (m.exp.map Prod.snd).getD [], r) := by
  unfold expText
  cases he : m.exp with
  | none =>
    rw [atodExponent, if_neg]
    · rfl
    · rintro (h | h)
      · exact hr.2.2.1 h
      · exact hr.2.2.2 h
  | some e =>
    obtain ⟨neg, ds⟩ := e
    have hds : Digits ds := m.exp_digits _ he
    have hdig := cur_digits hds r
    have htake : (ds ++ r).takeWhile isNum = ds := by
      rw [List.takeWhile_append_of_pos fun c hc => isNum_iff.2 (hds.2 c hc)]
      cases r with
      | nil => rw [List.takeWhile_nil, List.append_nil]
      | cons c r =>
        have hc : ¬ isNum c = true := mt isNum_iff.1 hr.1
        rw [List.takeWhile_cons_of_neg hc, List.append_nil]
    have hskip : skipSign ((if neg then 0x2d else 0x2b) :: (ds ++ r)) = ds ++ r := by
      cases neg
      · exact if_pos (.inl rfl)
      · exact if_pos (.inr rfl)
    rw [atodExponent, if_pos (.inl (by rfl))]
    simp only [List.cons_append, List.tail_cons, hskip, isNum_iff.2 hdig, if_true, htake,
      dropWhile_digits hds.2 hr.1, Option.map_some, Option.getD_some]
    cases neg <;> rfl

theorem atodDigits_text (hr : Stop r) :
    atodDigits true false (m.int ++ (m.fracText ++ (m.expText ++ r)))
      = (m.int, m.frac, m.expText ++ r) := by
  obtain ⟨hxd, hxp⟩ := Exponent.cur_ne m.exponent_expText hr
  unfold fracText
  split_ifs with hf
  · rw [hf]
    exact atodDigits_int hxd hxp true m.int m.int_digits.2
  · exact atodDigits_point m.frac_digits hxd true m.int m.int_digits.2 (.inl m.int_digits.1)

theorem cur_int (t : List ℕ) : IsDigit (cur (m.int ++ t)) := cur_digits m.int_digits t

theorem jsAtod_text (conv : Conv D) (hr : Stop r) :
    jsAtod conv (m.text ++ r) = some (m.value conv, r) := by
  have hdig := m.cur_int (m.fracText ++ (m.expText ++ r))
  rw [IsDigit] at hdig
  have htext : m.text ++ r
      = (if m.neg then [0x2d] else []) ++ (m.int ++ (m.fracText ++ (m.expText ++ r))) := by
    simp only [text, List.append_assoc]
  have hsign : (cur (m.text ++ r) == 0x2d) = m.neg := by
    rw [htext]
    cases m.neg
    · exact beq_eq_false_iff_ne.2 (by simp; omega)
    · rfl
  have hskip : skipSign (m.text ++ r) = m.int ++ (m.fracText ++ (m.expText ++ r)) := by
    rw [htext]
    refine skipSign_append ?_ (by omega)
    cases m.neg
    · exact .inl rfl
    · exact .inr (.inr rfl)
  have hlen : (m.expText ++ r).length ≠ (m.int ++ (m.fracText ++ (m.expText ++ r))).length := by
    have := List.length_pos_of_ne_nil m.int_digits.1
    simp only [List.length_append]
    omega
  rw [jsAtod_eq, hskip, atodDigits_text m hr, if_neg, if_neg hlen]
  · simp only [m.atodExponent_expText hr, hsign]
    rfl
  · rintro ⟨-, hp⟩
    rw [isPrefixOf_infinity] at hp
    rw [hp] at hdig
    exact absurd hdig (by simp [cur, infinityText])

theorem numberStart_text (t : List ℕ) : NumberStart (m.text ++ t) := by
  rw [text]
  cases m.neg
  · refine .inl ?_
    simpa only [Bool.false_eq_true, if_false, List.nil_append, List.append_assoc]
      using m.cur_int (m.fracText ++ (m.expText ++ t))
  · exact .inr rfl

end Decimal

/-- What the arithmetic of `js_dtoa` and `js_atod` is for: a finite number is written so that it is
read back, `-0` as `0`. -/
def Numbers.RoundTrip (N : Numbers D) : Prop :=
  ∀ d, N.isFinite d = true → ∃ m : Decimal, N.text d = m.text ∧ m.value N.toConv = N.plusZero d

/-! ### What is written -/

section Written

variable {N : Numbers D} {h : Fin n → Obj n D}

/-- A value that stands for a tree is written. -/
theorem DenotesMembers.filter_isDefined : ∀ {es : List (PropKey × Val n D)}
    {ps : List (PropKey × JVal D)}, DenotesMembers h es ps → es.filter isDefined = es
  | [], _, _ => rfl
  | (k, e) :: es, [], hd => by
    rw [DenotesMembers] at hd
    · exact hd.elim
    all_goals simp
  | (k, e) :: es, (k', v) :: ps, hd => by
    rw [DenotesMembers] at hd
    have he : isDefined (k, e) = true := by
      obtain ⟨-, hd, -⟩ := hd
      cases v <;> rw [Denotes] at hd
      case arr =>
        obtain ⟨id, els, rfl, -⟩ := hd
        rfl
      case obj =>
        obtain ⟨id, props, rfl, -⟩ := hd
        rfl
      all_goals
        subst hd
        rfl
    rw [List.filter_cons_of_pos he, DenotesMembers.filter_isDefined hd.2.2]

mutual

/-- The recursion gives the text of the tree. -/
theorem ser_eq_text {depth : ℕ} {path : List (Fin n)} {e : Val n D} {out : List ℕ} :
    ∀ {v : JVal D}, Denotes h e v → v.WellFormed N → ser N h depth path e = some out →
      out = v.text N
  | .null, hd, _, hs => by
    rw [Denotes] at hd
    subst hd
    rw [ser_leaf depth path (by simp)] at hs
    rw [JVal.text]
    exact (Option.some.inj hs).symm
  | .bool b, hd, _, hs => by
    rw [Denotes] at hd
    subst hd
    rw [ser_leaf depth path (by simp)] at hs
    rw [JVal.text]
    exact (Option.some.inj hs).symm
  | .num d, hd, hwf, hs => by
    rw [Denotes] at hd
    rw [JVal.WellFormed] at hwf
    subst hd
    rw [ser_leaf depth path (by simp), leafText, if_pos hwf] at hs
    rw [JVal.text]
    exact (Option.some.inj hs).symm
  | .str us, hd, _, hs => by
    rw [Denotes] at hd
    subst hd
    rw [ser_leaf depth path (by simp)] at hs
    rw [JVal.text]
    exact (Option.some.inj hs).symm
  | .arr vs, hd, hwf, hs => by
    rw [Denotes] at hd
    rw [JVal.WellFormed] at hwf
    obtain ⟨id, els, rfl, hid, hels⟩ := hd
    cases depth with
    | zero => cases hs
    | succ depth =>
      rw [ser_array hid, Option.map_eq_some_iff] at hs
      obtain ⟨ts, hts, rfl⟩ := hs
      rw [JVal.text, serElements_eq_text hels hwf (mapM_eq_some.1 hts)]
  | .obj ps, hd, hwf, hs => by
    rw [Denotes] at hd
    rw [JVal.WellFormed] at hwf
    obtain ⟨id, props, rfl, hid, hprops⟩ := hd
    cases depth with
    | zero => cases hs
    | succ depth =>
      rw [ser_object hid, defined_eq, hprops.filter_isDefined, Option.map_eq_some_iff] at hs
      obtain ⟨ts, hts, rfl⟩ := hs
      rw [JVal.text, serMembers_eq_text hprops hwf.2 (mapM_eq_some.1 hts)]

theorem serElements_eq_text {depth : ℕ} {path : List (Fin n)} : ∀ {vs : List (JVal D)}
    {es : List (Val n D)} {ts : List (List ℕ)}, DenotesElements h es vs →
    WellFormedElements N vs →
    List.Forall₂ (fun e t => serChild N h depth path e = some t) es ts → ts = textElements N vs
  | [], [], ts, _, _, hs => by
    cases hs
    rw [textElements]
  | [], e :: es, ts, hd, _, _ => by
    rw [DenotesElements] at hd
    · exact hd.elim
    all_goals simp
  | v :: vs, [], ts, hd, _, _ => by
    rw [DenotesElements] at hd
    · exact hd.elim
    all_goals simp
  | v :: vs, e :: es, ts, hd, hwf, hs => by
    rw [DenotesElements] at hd
    rw [WellFormedElements] at hwf
    cases hs with
    | cons ht hts =>
      unfold serChild at ht
      split_ifs at ht
      rw [textElements, ser_eq_text hd.1 hwf.1 ht, serElements_eq_text hd.2 hwf.2 hts]

theorem serMembers_eq_text {depth : ℕ} {path : List (Fin n)} : ∀ {vs : List (PropKey × JVal D)}
    {es : List (PropKey × Val n D)} {ts : List (List ℕ)}, DenotesMembers h es vs →
    WellFormedMembers N vs →
    List.Forall₂ (fun p t => serProp N h depth path p = some t) es ts → ts = textMembers N vs
  | [], [], ts, _, _, hs => by
    cases hs
    rw [textMembers]
  | [], e :: es, ts, hd, _, _ => by
    rw [DenotesMembers] at hd
    · exact hd.elim
    all_goals simp
  | v :: vs, [], ts, hd, _, _ => by
    rw [DenotesMembers] at hd
    · exact hd.elim
    all_goals simp
  | (k, v) :: vs, (k', e) :: es, ts, hd, hwf, hs => by
    rw [DenotesMembers] at hd
    rw [WellFormedMembers] at hwf
    obtain ⟨rfl, hd, hds⟩ := hd
    cases hs with
    | cons ht hts =>
      rw [serProp, Option.map_eq_some_iff] at ht
      obtain ⟨t, ht, rfl⟩ := ht
      unfold serChild at ht
      split_ifs at ht
      rw [textMembers, ser_eq_text hd hwf.2.1 ht, serMembers_eq_text hds hwf.2.2 hts]

end

mutual

/-- Nothing below a tree goes on for ever. -/
theorem acc_of_denotes : ∀ {v : JVal D} {id : Fin n}, Denotes h (.ref id) v →
    Acc (Function.swap (Edge h)) id
  | .null, _, hd => by
    rw [Denotes] at hd
    cases hd
  | .bool _, _, hd => by
    rw [Denotes] at hd
    cases hd
  | .num _, _, hd => by
    rw [Denotes] at hd
    cases hd
  | .str _, _, hd => by
    rw [Denotes] at hd
    cases hd
  | .arr vs, id, hd => by
    rw [Denotes] at hd
    obtain ⟨id', els, heq, hid, hels⟩ := hd
    cases heq
    refine Acc.intro id fun b hb => ?_
    rw [Function.swap, Edge, Child, hid] at hb
    exact acc_of_denotesElements hels hb
  | .obj ps, id, hd => by
    rw [Denotes] at hd
    obtain ⟨id', props, heq, hid, hprops⟩ := hd
    cases heq
    refine Acc.intro id fun b hb => ?_
    rw [Function.swap, Edge, Child, hid] at hb
    obtain ⟨k, hk⟩ := hb
    exact acc_of_denotesMembers hprops hk

theorem acc_of_denotesElements : ∀ {vs : List (JVal D)} {es : List (Val n D)} {b : Fin n},
    DenotesElements h es vs → .ref b ∈ es → Acc (Function.swap (Edge h)) b
  | [], [], _, _, hb => by cases hb
  | [], e :: es, _, hd, _ => by
    rw [DenotesElements] at hd
    · exact hd.elim
    all_goals simp
  | v :: vs, [], _, _, hb => by cases hb
  | v :: vs, e :: es, b, hd, hb => by
    rw [DenotesElements] at hd
    rcases List.mem_cons.1 hb with rfl | hb
    · exact acc_of_denotes hd.1
    · exact acc_of_denotesElements hd.2 hb

theorem acc_of_denotesMembers : ∀ {vs : List (PropKey × JVal D)} {es : List (PropKey × Val n D)}
    {k : PropKey} {b : Fin n}, DenotesMembers h es vs → (k, .ref b) ∈ es →
    Acc (Function.swap (Edge h)) b
  | [], [], _, _, _, hb => by cases hb
  | [], e :: es, _, _, hd, _ => by
    rw [DenotesMembers] at hd
    · exact hd.elim
    all_goals simp
  | v :: vs, [], _, _, _, hb => by cases hb
  | (k', v) :: vs, (k'', e) :: es, k, b, hd, hb => by
    rw [DenotesMembers] at hd
    rcases List.mem_cons.1 hb with heq | hb
    · cases heq
      exact acc_of_denotes hd.2.1
    · exact acc_of_denotesMembers hd.2.2 hb

end

theorem not_cyclic_of_denotes {v : JVal D} {e : Val n D} (hd : Denotes h e v) : ¬ Cyclic h e := by
  intro hc
  obtain ⟨a, b, rfl, -⟩ := id hc
  exact not_cyclic_of_acc (acc_of_denotes hd) hc

/-- A value that stands for a tree is written as the text of the tree. -/
theorem stringifies_text {v : JVal D} {e : Val n D} (hd : Denotes h e v) (hwf : v.WellFormed N) :
    Stringifies N h e (.ok (v.text N)) := by
  rw [stringifies_ser]
  cases hs : ser N h n [] e with
  | none => exact absurd ((ser_eq_none_iff N h e).1 hs) (not_cyclic_of_denotes hd)
  | some t => rw [ser_eq_text hd hwf hs]

end Written

/-! ### What is read -/

section Read

variable {N : Numbers D}

theorem joinComma_cons_cons (t u : List ℕ) (ts : List (List ℕ)) :
    joinComma (t :: u :: ts) = t ++ 0x2c :: joinComma (u :: ts) := by
  simp [joinComma]

theorem start_of_cur {p : List ℕ} (c : ℕ) (hp : cur p = c) (hc : isSpace c = false ∧ c ≠ 0x5d) :
    ¬ isSpace (cur p) = true ∧ cur p ≠ 0x5d := by
  rw [hp, hc.1]
  exact ⟨Bool.false_ne_true, hc.2⟩

theorem text_start (hN : N.RoundTrip) : ∀ {v : JVal D}, v.WellFormed N → ∀ r,
    ¬ isSpace (cur (v.text N ++ r)) = true ∧ cur (v.text N ++ r) ≠ 0x5d
  | .null, _, r => by
    rw [JVal.text]
    exact start_of_cur 0x6e rfl (by decide)
  | .bool b, _, r => by
    rw [JVal.text]
    cases b
    · exact start_of_cur 0x66 rfl (by decide)
    · exact start_of_cur 0x74 rfl (by decide)
  | .num d, hwf, r => by
    rw [JVal.WellFormed] at hwf
    obtain ⟨m, hm, -⟩ := hN d hwf
    rw [JVal.text, hm, isSpace_iff]
    have hstart := m.numberStart_text r
    simp only [NumberStart, IsDigit] at hstart
    simp only [tokenizer]
    omega
  | .str us, _, r => by
    rw [JVal.text]
    exact start_of_cur 0x22 rfl (by decide)
  | .arr vs, _, r => by
    rw [JVal.text]
    exact start_of_cur 0x5b rfl (by decide)
  | .obj ps, _, r => by
    rw [JVal.text]
    exact start_of_cur 0x7b rfl (by decide)

theorem definePropertyValue_new {ps : List (PropKey × JVal D)} {k : PropKey} (v : JVal D)
    (hk : k ∉ ps.map Prod.fst) : definePropertyValue ps k v = ps ++ [(k, v)] := by
  refine if_neg ?_
  rw [List.any_eq_true]
  rintro ⟨p, hp, hpk⟩
  exact hk (of_decide_eq_true hpk ▸ List.mem_map_of_mem hp)

/-- A string at the start. -/
theorem value_quoted {us : List ℕ} (hus : Units us) (fuel : ℕ) (r : List ℕ) :
    jsParseJsonValue N.toConv (fuel + 1) (jsToQuotedString us ++ r) = .ok (.str us, r) := by
  have htext : jsToQuotedString us ++ r
      = 0x22 :: ((codePoints us).flatMap quoteChar ++ 0x22 :: r) := by
    simp only [jsToQuotedString_eq hus, List.cons_append, List.append_assoc, List.nil_append]
  have hskip : skipSpaces (0x22 :: ((codePoints us).flatMap quoteChar ++ 0x22 :: r))
      = 0x22 :: ((codePoints us).flatMap quoteChar ++ 0x22 :: r) := rfl
  rw [htext, jsParseJsonValue]
  simp only [hskip, List.tail_cons, jsParseString_quoted hus r, unitsAll_codePoints hus]
  rfl

/-- What the loop does with a key and a value. -/
theorem members_quoted {us : List ℕ} (hus : Units us) (fuel : ℕ) (ps : List (PropKey × JVal D))
    (p : List ℕ) :
    jsonMembers N.toConv (fuel + 1) ps (jsToQuotedString us ++ 0x3a :: p) =
      match jsParseJsonValue N.toConv fuel p with
      | .error msg => .error msg
      | .ok (v, p) =>
        if cur (skipSpaces p) = 0x2c then
          jsonMembers N.toConv fuel (definePropertyValue ps (toPropertyKey us) v)
            (skipSpaces p).tail
        else .ok (definePropertyValue ps (toPropertyKey us) v, skipSpaces p) := by
  have htext : jsToQuotedString us ++ 0x3a :: p
      = 0x22 :: ((codePoints us).flatMap quoteChar ++ 0x22 :: 0x3a :: p) := by
    simp only [jsToQuotedString_eq hus, List.cons_append, List.append_assoc, List.nil_append]
  have hskip : skipSpaces (0x22 :: ((codePoints us).flatMap quoteChar ++ 0x22 :: 0x3a :: p))
      = 0x22 :: ((codePoints us).flatMap quoteChar ++ 0x22 :: 0x3a :: p) := rfl
  have hskip' : skipSpaces (0x3a :: p) = 0x3a :: p := rfl
  rw [htext, jsonMembers]
  simp only [hskip, hskip', List.tail_cons, jsParseString_quoted hus, unitsAll_codePoints hus]
  rfl

theorem stop_cons {c : ℕ} (hc : c = 0x2c ∨ c = 0x5d ∨ c = 0x7d) (r : List ℕ) : Stop (c :: r) :=
  stop_of_cur (.inr hc)

theorem skipSpaces_cons {c : ℕ} (hc : c = 0x2c ∨ c = 0x5d ∨ c = 0x7d) (r : List ℕ) :
    skipSpaces (c :: r) = c :: r := by
  refine skipSpaces_eq_self (not_isSpace_cur ?_)
  simp only [cur, List.headD_cons]
  omega

theorem elements_start (hN : N.RoundTrip) {v : JVal D} {vs : List (JVal D)}
    (hwf : WellFormedElements N (v :: vs)) (r : List ℕ) :
    ¬ isSpace (cur (joinComma (textElements N (v :: vs)) ++ r)) = true
      ∧ cur (joinComma (textElements N (v :: vs)) ++ r) ≠ 0x5d := by
  rw [WellFormedElements] at hwf
  rw [textElements, joinComma, List.append_assoc]
  exact text_start hN hwf.1 _

variable (N) in
theorem members_cur (p : PropKey × JVal D) (ps : List (PropKey × JVal D)) (r : List ℕ) :
    cur (joinComma (textMembers N (p :: ps)) ++ r) = 0x22 := by
  obtain ⟨k, v⟩ := p
  rw [textMembers]
  rfl

theorem key_not_mem {acc ps : List (PropKey × JVal D)} {k : PropKey} {v : JVal D}
    (h : (acc.map Prod.fst ++ ((k, v) :: ps).map Prod.fst).Nodup) : k ∉ acc.map Prod.fst := by
  rw [List.map_cons, List.nodup_append] at h
  intro hk
  exact h.2.2 k hk k List.mem_cons_self rfl

mutual

/-- The parser reads a tree back from its text. -/
theorem jsParseJsonValue_text (hN : N.RoundTrip) : ∀ {v : JVal D}, v.WellFormed N →
    ∀ (fuel : ℕ) (r : List ℕ), 2 * (v.text N).length + 1 ≤ fuel → Stop r →
    jsParseJsonValue N.toConv fuel (v.text N ++ r) = .ok (v.plusZero N, r)
  | .null, _, fuel + 1, r, _, _ => by
    rw [JVal.text, JVal.plusZero, jsParseJsonValue]
    rfl
  | .bool b, _, fuel + 1, r, _, _ => by
    rw [JVal.text, JVal.plusZero, jsParseJsonValue]
    cases b <;> rfl
  | .num d, hwf, fuel + 1, r, _, hr => by
    have hskip := skipSpaces_eq_self (text_start hN hwf r).1
    rw [JVal.WellFormed] at hwf
    obtain ⟨m, hm, hval⟩ := hN d hwf
    have hstart := m.numberStart_text r
    rw [NumberStart, ← isNum_iff] at hstart
    rw [JVal.text, hm] at hskip ⊢
    rw [JVal.plusZero, jsParseJsonValue]
    simp only [hskip]
    rw [if_pos hstart, m.jsAtod_text _ hr, hval]
  | .str us, hwf, fuel + 1, r, _, _ => by
    rw [JVal.WellFormed] at hwf
    rw [JVal.text, JVal.plusZero, value_quoted hwf]
  | .arr [], _, fuel + 1, r, _, _ => by
    rw [JVal.text, JVal.plusZero, textElements, plusZeroElements, jsParseJsonValue]
    rfl
  | .arr (v :: vs), hwf, fuel + 1, r, hf, _ => by
    rw [JVal.WellFormed] at hwf
    simp only [JVal.text, List.length_cons, List.length_append, List.length_nil] at hf
    obtain ⟨hspace, hne⟩ := elements_start hN hwf (0x5d :: r)
    have hels := jsonElements_text hN (List.cons_ne_nil v vs) hwf fuel [] r (by omega)
    have htext : JVal.text N (.arr (v :: vs)) ++ r
        = 0x5b :: (joinComma (textElements N (v :: vs)) ++ 0x5d :: r) := by
      simp only [JVal.text, List.cons_append, List.append_assoc, List.nil_append]
    rw [htext, value_bracket fuel rfl, skipSpaces_eq_self hspace, if_pos hne, hels, JVal.plusZero]
    rfl
  | .obj [], _, fuel + 1, r, _, _ => by
    rw [JVal.text, JVal.plusZero, textMembers, plusZeroMembers, jsParseJsonValue]
    rfl
  | .obj (p :: ps), hwf, fuel + 1, r, hf, _ => by
    rw [JVal.WellFormed] at hwf
    simp only [JVal.text, List.length_cons, List.length_append, List.length_nil] at hf
    have hmem := jsonMembers_text hN (List.cons_ne_nil p ps) hwf.2 fuel [] r hwf.1 (by omega)
    have htext : JVal.text N (.obj (p :: ps)) ++ r
        = 0x7b :: (joinComma (textMembers N (p :: ps)) ++ 0x7d :: r) := by
      simp only [JVal.text, List.cons_append, List.append_assoc, List.nil_append]
    have hcur := members_cur N p ps (0x7d :: r)
    rw [htext, value_brace fuel rfl, skipSpaces_eq_self (not_isSpace_cur (by omega)),
      if_pos (by omega), hmem, JVal.plusZero]
    rfl

theorem jsonElements_text (hN : N.RoundTrip) : ∀ {vs : List (JVal D)}, vs ≠ [] →
    WellFormedElements N vs → ∀ (fuel : ℕ) (acc : List (JVal D)) (r : List ℕ),
    2 * (joinComma (textElements N vs)).length + 2 ≤ fuel →
    jsonElements N.toConv fuel acc (joinComma (textElements N vs) ++ 0x5d :: r)
      = .ok (acc ++ plusZeroElements N vs, 0x5d :: r)
  | [], hne, _, _, _, _, _ => absurd rfl hne
  | [v], _, hwf, fuel + 1, acc, r, hf => by
    rw [WellFormedElements] at hwf
    have htext : joinComma (textElements N [v]) = v.text N := by
      simp [textElements, joinComma]
    rw [htext] at hf ⊢
    have hval := jsParseJsonValue_text hN hwf.1 fuel (0x5d :: r) (by omega)
      (stop_cons (.inr (.inl rfl)) r)
    rw [jsonElements, hval]
    simp only [skipSpaces_cons (.inr (.inl rfl))]
    rw [if_neg (by simp [cur]), plusZeroElements, plusZeroElements]
  | v :: v' :: vs, _, hwf, fuel + 1, acc, r, hf => by
    rw [WellFormedElements] at hwf
    have htext : joinComma (textElements N (v :: v' :: vs))
        = v.text N ++ 0x2c :: joinComma (textElements N (v' :: vs)) := by
      simp only [textElements, joinComma_cons_cons]
    rw [htext] at hf ⊢
    rw [List.length_append, List.length_cons] at hf
    rw [List.append_assoc, List.cons_append]
    have hval := jsParseJsonValue_text hN hwf.1 fuel
      (0x2c :: (joinComma (textElements N (v' :: vs)) ++ 0x5d :: r)) (by omega)
      (stop_cons (.inl rfl) _)
    have hrest := jsonElements_text hN (List.cons_ne_nil v' vs) hwf.2 fuel
      (acc ++ [v.plusZero N]) r (by omega)
    rw [jsonElements, hval]
    simp only [skipSpaces_cons (.inl rfl)]
    rw [if_pos (by rfl), List.tail_cons, hrest, List.append_assoc, List.singleton_append]
    rfl

theorem jsonMembers_text (hN : N.RoundTrip) : ∀ {ps : List (PropKey × JVal D)}, ps ≠ [] →
    WellFormedMembers N ps → ∀ (fuel : ℕ) (acc : List (PropKey × JVal D)) (r : List ℕ),
    (acc.map Prod.fst ++ ps.map Prod.fst).Nodup →
    2 * (joinComma (textMembers N ps)).length + 2 ≤ fuel →
    jsonMembers N.toConv fuel acc (joinComma (textMembers N ps) ++ 0x7d :: r)
      = .ok (acc ++ plusZeroMembers N ps, 0x7d :: r)
  | [], hne, _, _, _, _, _, _ => absurd rfl hne
  | [(k, v)], _, hwf, fuel + 1, acc, r, hnodup, hf => by
    rw [WellFormedMembers] at hwf
    obtain ⟨⟨us, hus, rfl⟩, hv, -⟩ := hwf
    have htext : joinComma (textMembers N [(toPropertyKey us, v)])
        = jsToQuotedString us ++ 0x3a :: v.text N := by
      simp [textMembers, joinComma, keyText_toPropertyKey]
    rw [htext] at hf ⊢
    rw [List.length_append, List.length_cons] at hf
    have hval := jsParseJsonValue_text hN hv fuel (0x7d :: r) (by omega)
      (stop_cons (.inr (.inr rfl)) r)
    rw [List.append_assoc, List.cons_append, members_quoted hus, hval]
    simp only [skipSpaces_cons (.inr (.inr rfl))]
    rw [if_neg (by simp [cur]), definePropertyValue_new _ (key_not_mem hnodup), plusZeroMembers,
      plusZeroMembers]
  | (k, v) :: p :: ps, _, hwf, fuel + 1, acc, r, hnodup, hf => by
    rw [WellFormedMembers] at hwf
    obtain ⟨⟨us, hus, rfl⟩, hv, hps⟩ := hwf
    have htext : joinComma (textMembers N ((toPropertyKey us, v) :: p :: ps))
        = jsToQuotedString us ++ 0x3a :: (v.text N ++ 0x2c :: joinComma (textMembers N (p :: ps))) := by
      obtain ⟨k, w⟩ := p
      simp only [textMembers, joinComma_cons_cons, keyText_toPropertyKey, List.append_assoc,
        List.cons_append]
    rw [htext] at hf ⊢
    simp only [List.length_append, List.length_cons] at hf
    have hval := jsParseJsonValue_text hN hv fuel
      (0x2c :: (joinComma (textMembers N (p :: ps)) ++ 0x7d :: r)) (by omega)
      (stop_cons (.inl rfl) _)
    have hrest := jsonMembers_text hN (List.cons_ne_nil p ps) hps fuel
      (acc ++ [(toPropertyKey us, v.plusZero N)]) r ?_ (by omega)
    · rw [List.append_assoc, List.cons_append, List.append_assoc, List.cons_append,
        members_quoted hus, hval]
      simp only [skipSpaces_cons (.inl rfl)]
      rw [if_pos (by rfl), List.tail_cons, definePropertyValue_new _ (key_not_mem hnodup), hrest,
        List.append_assoc, List.singleton_append]
      rfl
    · simpa using hnodup

end

end Read

/-! ### The round trip -/

theorem jsParseJson_text {N : Numbers D} (hN : N.RoundTrip) {v : JVal D} (hwf : v.WellFormed N) :
    jsParseJson N.toConv (v.text N) = .ok (v.plusZero N) := by
  have hread := jsParseJsonValue_text hN hwf (2 * (v.text N).length + 1) [] le_rfl
    (stop_of_cur (.inl rfl))
  rw [List.append_nil] at hread
  rw [jsParseJson, hread]
  rfl

/-- A value that stands for a finite tree is written and read back as this tree, with `0` for `-0`.
The run on a value ends, with an error exactly when a cycle can be reached from it. -/
theorem json_round_trip (N : Numbers D) (hN : N.RoundTrip) (h : Fin n → Obj n D) (e : Val n D) :
    (∀ v, Denotes h e v → v.WellFormed N → ∃ out, Stringifies N h e (.ok out)
      ∧ jsParseJson N.toConv out = .ok (v.plusZero N))
    ∧ (Stringifies N h e .circular ↔ Cyclic h e)
    ∧ ((∃ out, Stringifies N h e (.ok out)) ↔ ¬ Cyclic h e) := by
  refine ⟨?_, stringifies_circular_iff N h e, stringifies_ok_iff N h e⟩
  intro v hd hwf
  exact ⟨v.text N, stringifies_text hd hwf, jsParseJson_text hN hwf⟩

/-- The natural numbers, with `none` for `-0`. -/
def natNumbers : Numbers (Option ℕ) where
  infinity _ := none
  decimal neg ds _ _ _ := if neg ∧ digitsValue 0 ds = 0 then none else some (digitsValue 0 ds)
  isFinite _ := true
  zero := some 0
  negZero := none
  text d := natText (d.getD 0)

theorem natText_digits (m : ℕ) : Digits (natText m) := by
  unfold natText
  split_ifs with hm
  · exact ⟨by simp, by simp [IsDigit]⟩
  · refine ⟨by simpa [Nat.digits_eq_nil_iff_eq_zero] using hm, ?_⟩
    intro c hc
    rw [List.mem_map] at hc
    obtain ⟨d, hd, rfl⟩ := hc
    have := Nat.digits_lt_base (by norm_num : 1 < 10) (List.mem_reverse.1 hd)
    rw [IsDigit]
    omega

theorem digitsValue_natText (m : ℕ) : digitsValue 0 (natText m) = m := by
  unfold natText
  split_ifs with hm
  · exact hm.symm
  · rw [digitsValue_eq_ofDigits, List.map_map, Nat.mul_zero, Nat.add_zero, ← List.map_reverse,
      List.reverse_reverse]
    have hid : ((· - 0x30) ∘ (0x30 + ·) : ℕ → ℕ) = id := by
      funext d
      simp
    rw [hid, List.map_id, Nat.ofDigits_digits]

theorem natNumbers_roundTrip : natNumbers.RoundTrip := by
  intro d _
  refine ⟨⟨false, natText (d.getD 0), [], none, natText_digits _, by simp, by simp⟩, ?_, ?_⟩
  · simp [natNumbers, Decimal.text, Decimal.fracText, Decimal.expText]
  · cases d with
    | none => simp [natNumbers, Decimal.value, Numbers.plusZero, digitsValue_natText]
    | some m => simp [natNumbers, Decimal.value, Numbers.plusZero, digitsValue_natText]

theorem key_one : ∃ us, Units us ∧ PropKey.int 1 = toPropertyKey us :=
  ⟨[0x31], by simp [Units], rfl⟩

/-- An array of `-0`, an unpaired surrogate and an object with the key `1` twice, and an array that
holds itself. -/
def sampleHeap : Fin 3 → Obj 3 (Option ℕ)
  | 0 => .array [.num none, .str [0xd800], .ref 1, .ref 1]
  | 1 => .object
    { list := [(.int 1, .null)]
      nodup := List.nodup_singleton _
      keys := by simpa using key_one.imp fun _ h => h.2 }
  | 2 => .array [.ref 2]

theorem json_round_trip_sample :
    (∃ out, Stringifies natNumbers sampleHeap (.ref 0) (.ok out)
      ∧ jsParseJson natNumbers.toConv out = .ok (.arr [.num (some 0), .str [0xd800],
        .obj [(.int 1, .null)], .obj [(.int 1, .null)]]))
    ∧ Stringifies natNumbers sampleHeap (.ref 2) .circular := by
  have hround := json_round_trip natNumbers natNumbers_roundTrip sampleHeap
  refine ⟨?_, (hround (.ref 2)).2.1.2 ⟨2, 2, rfl, .refl, .single ?_⟩⟩
  · have hd : Denotes sampleHeap (.ref 0) (.arr [.num none, .str [0xd800],
        .obj [(.int 1, .null)], .obj [(.int 1, .null)]]) := by
      simp [Denotes, DenotesElements, DenotesMembers, sampleHeap]
    have hwf : JVal.WellFormed natNumbers (.arr [.num none, .str [0xd800],
        .obj [(.int 1, .null)], .obj [(.int 1, .null)]]) := by
      simp [JVal.WellFormed, WellFormedElements, WellFormedMembers, natNumbers, Units]
      exact key_one
    simpa [JVal.plusZero, plusZeroElements, plusZeroMembers, Numbers.plusZero, natNumbers]
      using (hround (.ref 0)).1 _ hd hwf
  · exact List.mem_singleton_self _

end Json

end Qjs
