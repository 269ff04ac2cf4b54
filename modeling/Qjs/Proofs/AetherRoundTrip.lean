import Qjs.Proofs.AetherFormat

/-!
# The JSON writer and the JSON parser

What is written of a value that the program can build denotes the value's own tree, with the numbers
to six significant digits (`emit_value`). The parser reads that tree back, so the value comes back as
it is just when six digits are enough for each of its numbers (`jsonParseRaw_jsonStringifyRaw`).
-/

namespace Qjs

namespace Aether

open Wtf8 JsonText

/-! ### What is asked of each part of a value -/

/-- Conditions on the numbers, on the strings and keys, and on the counts of entries. -/
structure Conds where
  number : Double → Prop
  str : List ℕ → ℕ → Prop
  count : ℕ → Prop

mutual

def JsonValue.All (c : Conds) : JsonValue → Prop
  | .null => True
  | .bool _ => True
  | .number d => c.number d
  | .str data length => c.str data length
  | .arr items => c.count items.length ∧ AllItems c items
  | .obj members => c.count members.length ∧ AllMembers c members

def AllItems (c : Conds) : List JsonValue → Prop
  | [] => True
  | v :: vs => v.All c ∧ AllItems c vs

def AllMembers (c : Conds) : List (List ℕ × ℕ × JsonValue) → Prop
  | [] => True
  | (k, l, v) :: ps => c.str k l ∧ v.All c ∧ AllMembers c ps

end

mutual

/-- How many containers stand around the innermost values. -/
def JsonValue.depth : JsonValue → ℕ
  | .arr items => depthItems items
  | .obj members => depthMembersOf members
  | _ => 0

def depthItems : List JsonValue → ℕ
  | [] => 0
  | v :: vs => max (v.depth + 1) (depthItems vs)

def depthMembersOf : List (List ℕ × ℕ × JsonValue) → ℕ
  | [] => 0
  | (_, _, v) :: ps => max (v.depth + 1) (depthMembersOf ps)

end

/-- A sequence of characters in UTF-8. -/
def Utf8Text (bs : List ℕ) : Prop := ∃ cs : List ℕ, (∀ c ∈ cs, IsScalar c) ∧ bs = cs.flatMap encode

/-- A string whose length is in a 32-bit field. -/
def Held (data : List ℕ) (length : ℕ) : Prop := length ≤ data.length ∧ length < 2 ^ 32

/-- The fields of a value hold what they are about. -/
def held : Conds := ⟨fun _ => True, Held, fun _ => True⟩

/-- Finite numbers, strings in UTF-8, and capacities that the parser can grow to. -/
def clean : Conds :=
  ⟨IsFinite, fun data length => Utf8Text (data.take length), fun n => n ≤ maxEntries⟩

/-- Six significant digits are enough for the numbers. -/
def short : Conds := ⟨SixDigits, fun _ _ => True, fun _ => True⟩

mutual

/-- The value that is read back. -/
def printed : JsonValue → JsonValue
  | .null => .null
  | .bool b => .bool b
  | .number d => .number (sixDouble d)
  | .str data length => .str (data.take length) length
  | .arr items => .arr (printedItems items)
  | .obj members => .obj (printedMembers members)

def printedItems : List JsonValue → List JsonValue
  | [] => []
  | v :: vs => printed v :: printedItems vs

def printedMembers : List (List ℕ × ℕ × JsonValue) → List (List ℕ × ℕ × JsonValue)
  | [] => []
  | (k, l, v) :: ps => (k.take l, l, printed v) :: printedMembers ps

end

/-! ### Strings -/

/-- What is written for a byte. -/
def escaped (c : ℕ) : List ℕ :=
  match emitEscape c with
  | some esc => esc
  | none => if c < 0x20 then [0x5c, 0x75, 0x30, 0x30, hexUpper (c / 0x10), hexUpper (c % 0x10)]
    else [c]

theorem emitStringLoop_eq : ∀ p b run : List ℕ,
    emitStringLoop b run p = b ++ run ++ p.flatMap escaped
  | [], b, run => by simp [emitStringLoop]
  | c :: p, b, run => by
    rw [emitStringLoop.eq_def, List.flatMap_cons, escaped]
    cases he : emitEscape c with
    | some esc => simp [he, emitStringLoop_eq p]
    | none =>
      simp only [he]
      split_ifs with hc
      · simp [emitStringLoop_eq p]
      · simp [emitStringLoop_eq p]

theorem sbEmitString_eq (b s : List ℕ) (n : ℕ) :
    sbEmitString b s n = b ++ 0x22 :: ((s.take n).flatMap escaped ++ [0x22]) := by
  rw [sbEmitString, emitStringLoop_eq]
  simp

theorem emitEscape_some {c : ℕ} {esc : List ℕ} (h : emitEscape c = some esc) :
    ∃ e, esc = [0x5c, e] ∧ shortEscape e = some c := by
  unfold emitEscape at h
  split at h <;> cases h <;> exact ⟨_, rfl, rfl⟩

theorem emitEscape_none {c : ℕ} (h : emitEscape c = none) : c ≠ 0x22 ∧ c ≠ 0x5c := by
  constructor <;> rintro rfl <;> cases h

theorem hex4_control : ∀ c < 0x20, Hex4 [0x30, 0x30, hexUpper (c / 0x10), hexUpper (c % 0x10)] c := by
  have hhex : ∀ d < 0x10, IsHex (hexUpper d) ∧ hexDigit (hexUpper d) = d := by
    intro d hd
    unfold hexUpper IsHex IsDigit hexDigit
    split_ifs <;> omega
  intro c hc
  obtain ⟨h1, h2⟩ := hhex (c / 0x10) (by omega)
  obtain ⟨h3, h4⟩ := hhex (c % 0x10) (by omega)
  have hzero : IsHex 0x30 := by
    unfold IsHex IsDigit
    omega
  have h := Hex4.mk hzero hzero h1 h3
  rw [h2, h4] at h
  have hval : ((hexDigit 0x30 * 16 + hexDigit 0x30) * 16 + c / 0x10) * 16 + c % 0x10 = c := by
    unfold hexDigit
    simp only [if_true, Nat.reduceLeDiff]
    omega
  rwa [hval] at h

theorem encode_high {c : ℕ} (h : 0x80 ≤ c) : ∀ b ∈ encode c, 0x80 ≤ b := by
  unfold encode
  split_ifs <;> simp only [List.mem_cons, List.not_mem_nil, or_false, forall_eq_or_imp, forall_eq]
    <;> omega

theorem escaped_high {c : ℕ} (h : 0x80 ≤ c) : escaped c = [c] := by
  unfold escaped
  cases he : emitEscape c with
  | some esc =>
    unfold emitEscape at he
    split at he <;> first | omega | cases he
  | none => simp only [if_neg (show ¬ c < 0x20 by omega)]

theorem flatMap_escaped_high : ∀ bs : List ℕ, (∀ b ∈ bs, 0x80 ≤ b) → bs.flatMap escaped = bs
  | [], _ => rfl
  | b :: bs, h => by
    obtain ⟨hb, hbs⟩ := List.forall_mem_cons.1 h
    rw [List.flatMap_cons, escaped_high hb, flatMap_escaped_high bs hbs]
    rfl

/-- A character is written as a character. -/
theorem charText_escaped {c : ℕ} (hs : IsScalar c) (r : List ℕ) :
    CharText ((encode c).flatMap escaped ++ r) (encode c) r := by
  rcases Nat.lt_or_ge c 0x80 with hlt | hge
  · rw [encode_ascii hlt, List.flatMap_singleton, escaped]
    cases he : emitEscape c with
    | some esc =>
      obtain ⟨e, rfl, hshort⟩ := emitEscape_some he
      exact .short hshort
    | none =>
      obtain ⟨hq, hb⟩ := emitEscape_none he
      simp only
      split_ifs with hctl
      · have hchar := CharText.unicode (r := r) (hex4_control c hctl) hs
        rwa [encode_ascii hlt] at hchar
      · exact charText_safe (isStrSafeByte_iff.2 ⟨by omega, hlt, hq, hb⟩) r
  · rw [flatMap_escaped_high _ (encode_high hge)]
    exact .unescaped (by omega) hs (by omega) (by omega)

theorem charsText_escaped {bs : List ℕ} (h : Utf8Text bs) (r : List ℕ) :
    CharsText (bs.flatMap escaped ++ r) bs r := by
  obtain ⟨cs, hcs, rfl⟩ := h
  induction cs with
  | nil => exact .nil r
  | cons c cs ih =>
    obtain ⟨hc, hcs⟩ := List.forall_mem_cons.1 hcs
    rw [List.flatMap_cons, List.flatMap_append, List.append_assoc]
    exact .cons (charText_escaped hc _) (ih hcs)

/-! ### Values -/

/-- The text denotes a tree that the parser gives the value `v` of. -/
def Writes (t : List ℕ) (v w : JsonValue) : Prop :=
  ∃ u : Tree, (∀ r, Denotes .value (t ++ r) u r) ∧ coded u = some w ∧ u.depth = v.depth

def WritesItems (t : List ℕ) (vs ws : List JsonValue) : Prop :=
  ∃ us : List Tree, (∀ r, Denotes .elements (t ++ r) (.arr us) r) ∧ codedElements us = some ws
    ∧ depthElements us = depthItems vs ∧ us.length = vs.length

def WritesMembers (t : List ℕ) (ps ws : List (List ℕ × ℕ × JsonValue)) : Prop :=
  ∃ us : List (List ℕ × Tree), (∀ r, Denotes .members (t ++ r) (.obj us) r)
    ∧ codedMembers us = some ws ∧ depthMembers us = depthMembersOf ps ∧ us.length = ps.length

theorem take_length {data : List ℕ} {length : ℕ} (h : Held data length) :
    (data.take length).length % 2 ^ 32 = length := by
  rw [List.length_take, Nat.min_eq_left h.1]
  exact Nat.mod_eq_of_lt h.2

mutual

/-- What is written after the bytes `b`. -/
theorem emit_value : ∀ (v : JsonValue) (b : List ℕ) (depth : ℕ), v.All held → v.All clean →
    depth + v.depth ≤ jsonMaxDepth →
    ∃ t, sbEmitValue b depth v = b ++ t ∧ Writes t v (printed v)
  | .null, b, depth, _, _, _ => ⟨nullText, rfl, .null, fun _ => .null, rfl, rfl⟩
  | .bool x, b, depth, _, _, hd => by
    rw [sbEmitValue, if_neg (by omega)]
    cases x
    · exact ⟨_, rfl, .bool false, fun _ => .false, rfl, rfl⟩
    · exact ⟨_, rfl, .bool true, fun _ => .true, rfl, rfl⟩
  | .number d, b, depth, _, hc, hd => by
    obtain ⟨D, hD, hsmall, htext⟩ := numberText_formatG (show IsFinite d from hc)
    rw [sbEmitValue, if_neg (by omega)]
    refine ⟨_, rfl, .num D, fun r => .number (htext r), ?_, rfl⟩
    rw [coded, if_pos hsmall, hD, printed]
  | .str data length, b, depth, hh, hc, hd => by
    have hu : Utf8Text (data.take length) := hc
    rw [sbEmitValue, if_neg (by omega), sbEmitString_eq]
    refine ⟨_, rfl, .str (data.take length), fun r => ?_, ?_, rfl⟩
    · rw [List.cons_append, List.append_assoc]
      exact .string (charsText_escaped hu _)
    · rw [coded, printed, take_length hh]
  | .arr [], b, depth, _, _, hd => by
    rw [sbEmitValue, if_neg (by omega), sbEmitItems]
    exact ⟨[0x5b, 0x5d], by simp, .arr [], fun r => .emptyArray (.nil _), rfl, rfl⟩
  | .arr (v :: vs), b, depth, hh, hc, hd => by
    rw [JsonValue.depth] at hd
    have hpos : 0 < depthItems (v :: vs) := by
      rw [depthItems]
      omega
    obtain ⟨t, ht, us, hden, hcoded, hdepth, hlen⟩ :=
      emit_items (v :: vs) (b ++ [0x5b]) (depth + 1) true (by simp) hh.2 hc.2 (by omega)
    rw [sbEmitValue, if_neg (by omega), ht]
    refine ⟨0x5b :: (t ++ [0x5d]), by simp, .arr us, fun r => ?_, ?_, ?_⟩
    · rw [List.cons_append, List.append_assoc]
      exact .array (hden _)
    · rw [coded, if_pos (by rw [hlen]; exact hc.1), hcoded, printed]
      rfl
    · rw [Tree.depth, JsonValue.depth, hdepth]
  | .obj [], b, depth, _, _, hd => by
    rw [sbEmitValue, if_neg (by omega), sbEmitMembers]
    exact ⟨[0x7b, 0x7d], by simp, .obj [], fun r => .emptyObject (.nil _), rfl, rfl⟩
  | .obj ((k, l, v) :: ps), b, depth, hh, hc, hd => by
    rw [JsonValue.depth] at hd
    have hpos : 0 < depthMembersOf ((k, l, v) :: ps) := by
      rw [depthMembersOf]
      omega
    obtain ⟨t, ht, us, hden, hcoded, hdepth, hlen⟩ :=
      emit_members ((k, l, v) :: ps) (b ++ [0x7b]) (depth + 1) true (by simp) hh.2 hc.2 (by omega)
    rw [sbEmitValue, if_neg (by omega), ht]
    refine ⟨0x7b :: (t ++ [0x7d]), by simp, .obj us, fun r => ?_, ?_, ?_⟩
    · rw [List.cons_append, List.append_assoc]
      exact .object (hden _)
    · rw [coded, if_pos (by rw [hlen]; exact hc.1), hcoded, printed]
      rfl
    · rw [Tree.depth, JsonValue.depth, hdepth]

theorem emit_items : ∀ (vs : List JsonValue) (b : List ℕ) (depth : ℕ) (first : Bool),
    vs ≠ [] → AllItems held vs → AllItems clean vs → depth + depthItems vs ≤ jsonMaxDepth + 1 →
    ∃ t, sbEmitItems b depth first vs = (if first then b else b ++ [0x2c]) ++ t
      ∧ WritesItems t vs (printedItems vs)
  | [], _, _, _, hne, _, _, _ => absurd rfl hne
  | [v], b, depth, first, _, hh, hc, hd => by
    simp only [depthItems] at hd
    obtain ⟨t, ht, u, hden, hcoded, hdepth⟩ :=
      emit_value v (if first then b else b ++ [0x2c]) depth hh.1 hc.1 (by omega)
    rw [sbEmitItems, ht, sbEmitItems]
    refine ⟨t, rfl, [u], fun r => .element (.nil _) (hden r) (.nil _), ?_, ?_, rfl⟩
    · rw [codedElements, hcoded]
      rfl
    · rw [depthElements, depthItems, hdepth]
      rfl
  | v :: w :: ws, b, depth, first, _, hh, hc, hd => by
    rw [depthItems] at hd
    obtain ⟨t, ht, u, hden, hcoded, hdepth⟩ :=
      emit_value v (if first then b else b ++ [0x2c]) depth hh.1 hc.1 (by omega)
    obtain ⟨t', ht', us, hden', hcoded', hdepth', hlen⟩ :=
      emit_items (w :: ws) ((if first then b else b ++ [0x2c]) ++ t) depth false (by simp) hh.2 hc.2
        (by omega)
    rw [sbEmitItems, ht, ht']
    refine ⟨t ++ 0x2c :: t', by simp, u :: us, fun r => ?_, ?_, ?_, ?_⟩
    · rw [List.append_assoc, List.cons_append]
      exact .elements (.nil _) (hden _) (.nil _) (hden' r)
    · rw [codedElements, hcoded, hcoded']
      rfl
    · rw [depthElements, depthItems, hdepth, hdepth']
    · rw [List.length_cons, hlen]
      rfl

theorem emit_members : ∀ (ps : List (List ℕ × ℕ × JsonValue)) (b : List ℕ) (depth : ℕ)
    (first : Bool), ps ≠ [] → AllMembers held ps → AllMembers clean ps →
    depth + depthMembersOf ps ≤ jsonMaxDepth + 1 →
    ∃ t, sbEmitMembers b depth first ps = (if first then b else b ++ [0x2c]) ++ t
      ∧ WritesMembers t ps (printedMembers ps)
  | [], _, _, _, hne, _, _, _ => absurd rfl hne
  | [(k, l, v)], b, depth, first, _, hh, hc, hd => by
    simp only [depthMembersOf] at hd
    have hkey : Utf8Text (k.take l) := hc.1
    have hcut := take_length (show Held k l from hh.1)
    obtain ⟨t, ht, u, hden, hcoded, hdepth⟩ :=
      emit_value v (sbEmitString (if first then b else b ++ [0x2c]) k l ++ [0x3a]) depth hh.2.1
        hc.2.1 (by omega)
    rw [sbEmitMembers, ht, sbEmitString_eq, sbEmitMembers]
    refine ⟨0x22 :: ((k.take l).flatMap escaped ++ 0x22 :: 0x3a :: t), by simp,
      [(k.take l, u)], fun r => ?_, ?_, ?_, rfl⟩
    · rw [List.cons_append, List.append_assoc]
      exact .member (.nil _) (charsText_escaped hkey _) (.nil _) (.nil _) (hden r) (.nil _)
    · rw [codedMembers, hcoded, hcut]
      rfl
    · rw [depthMembers, depthMembersOf, hdepth]
      rfl
  | (k, l, v) :: p :: ps, b, depth, first, _, hh, hc, hd => by
    rw [depthMembersOf] at hd
    have hkey : Utf8Text (k.take l) := hc.1
    have hcut := take_length (show Held k l from hh.1)
    obtain ⟨t, ht, u, hden, hcoded, hdepth⟩ :=
      emit_value v (sbEmitString (if first then b else b ++ [0x2c]) k l ++ [0x3a]) depth hh.2.1
        hc.2.1 (by omega)
    obtain ⟨t', ht', us, hden', hcoded', hdepth', hlen⟩ :=
      emit_members (p :: ps) (sbEmitString (if first then b else b ++ [0x2c]) k l ++ [0x3a] ++ t)
        depth false (by simp) hh.2.2 hc.2.2 (by omega)
    rw [sbEmitMembers, ht, ht', sbEmitString_eq]
    refine ⟨0x22 :: ((k.take l).flatMap escaped ++ 0x22 :: 0x3a :: (t ++ 0x2c :: t')), by simp,
      (k.take l, u) :: us, fun r => ?_, ?_, ?_, ?_⟩
    · simp only [List.cons_append, List.append_assoc]
      exact .members (.nil _) (charsText_escaped hkey _) (.nil _) (.nil _) (hden _) (.nil _)
        (hden' r)
    · rw [codedMembers, hcoded, hcoded', hcut]
      rfl
    · rw [depthMembers, depthMembersOf, hdepth, hdepth']
    · rw [List.length_cons, hlen]
      rfl

end

/-! ### Bytes -/

/-- A byte of a text. -/
def IsTextByte (b : ℕ) : Prop := b ≠ 0 ∧ b < 0x100

theorem isTextByte_of_spaces {i r : List ℕ} (h : Spaces rfc8259 i r) (hr : ∀ b ∈ r, IsTextByte b) :
    ∀ b ∈ i, IsTextByte b := by
  induction h with
  | nil => exact hr
  | cons hc _ ih =>
    refine List.forall_mem_cons.2 ⟨?_, ih hr⟩
    unfold IsTextByte
    simp only [rfc8259] at hc
    omega

theorem isTextByte_encode {c : ℕ} (hc : IsScalar c) (h0 : c ≠ 0) : ∀ b ∈ encode c, IsTextByte b := by
  obtain ⟨h1, -⟩ := hc
  unfold encode IsTextByte
  split_ifs <;> simp only [List.mem_cons, List.not_mem_nil, or_false, forall_eq_or_imp, forall_eq]
    <;> omega

theorem isTextByte_hex4 {x : List ℕ} {c : ℕ} (h : Hex4 x c) : ∀ b ∈ x, IsTextByte b := by
  have hhex : ∀ {d : ℕ}, IsHex d → IsTextByte d := by
    intro d hd
    unfold IsHex IsDigit at hd
    unfold IsTextByte
    omega
  cases h with
  | mk ha hb hc hd =>
    simp only [List.forall_mem_cons]
    exact ⟨hhex ha, hhex hb, hhex hc, hhex hd, by simp⟩

theorem isTextByte_of_char {i b j : List ℕ} (h : CharText i b j) (hj : ∀ c ∈ j, IsTextByte c) :
    ∀ c ∈ i, IsTextByte c := by
  have hlit : ∀ {c : ℕ}, c ≠ 0 ∧ c < 0x100 → IsTextByte c := id
  cases h with
  | unescaped h hs hq hb =>
    exact List.forall_mem_append.2 ⟨isTextByte_encode hs (by omega), hj⟩
  | @short c d r h =>
    have hc : IsTextByte c := by
      unfold shortEscape at h
      unfold IsTextByte
      split at h <;> first | omega | cases h
    exact List.forall_mem_cons.2 ⟨hlit (by omega), List.forall_mem_cons.2 ⟨hc, hj⟩⟩
  | unicode h hs =>
    exact List.forall_mem_cons.2 ⟨hlit (by omega), List.forall_mem_cons.2 ⟨hlit (by omega),
      List.forall_mem_append.2 ⟨isTextByte_hex4 h, hj⟩⟩⟩
  | pair hx hy hl ht =>
    exact List.forall_mem_cons.2 ⟨hlit (by omega), List.forall_mem_cons.2 ⟨hlit (by omega),
      List.forall_mem_append.2 ⟨isTextByte_hex4 hx, List.forall_mem_cons.2 ⟨hlit (by omega),
        List.forall_mem_cons.2 ⟨hlit (by omega),
          List.forall_mem_append.2 ⟨isTextByte_hex4 hy, hj⟩⟩⟩⟩⟩⟩

theorem isTextByte_of_chars {i bs r : List ℕ} (h : CharsText i bs r) (hr : ∀ b ∈ r, IsTextByte b) :
    ∀ b ∈ i, IsTextByte b := by
  induction h with
  | nil => exact hr
  | cons hc _ ih => exact isTextByte_of_char hc (ih hr)

theorem isTextByte_of_number {i r : List ℕ} {d : Decimal} (h : NumberText i d r)
    (hr : ∀ b ∈ r, IsTextByte b) : ∀ b ∈ i, IsTextByte b := by
  have hdig : ∀ {ds : List ℕ}, (∀ c ∈ ds, IsDigit c) → ∀ c ∈ ds, IsTextByte c := by
    intro ds hds c hc
    have := hds c hc
    unfold IsDigit at this
    unfold IsTextByte
    omega
  have hlit : ∀ {c : ℕ}, c ≠ 0 ∧ c < 0x100 → IsTextByte c := id
  have hsign : ∀ {s : List ℕ} {neg : Bool}, SignText s neg → ∀ c ∈ s, IsTextByte c := by
    intro s neg hs
    cases hs with
    | none => simp
    | minus => simpa using hlit (by omega)
  obtain ⟨neg, n, fr, eneg, es⟩ := d
  cases h with
  | @mk s f x r d hs hn hf hx =>
    dsimp only at hs hn hf hx ⊢
    have hf' : ∀ c ∈ f, IsTextByte c := by
      cases hf with
      | none => simp
      | some h => exact List.forall_mem_cons.2 ⟨hlit (by omega), hdig h.2⟩
    have hx' : ∀ c ∈ x, IsTextByte c := by
      cases hx with
      | none => simp
      | @some e t ds neg he hs h =>
        refine List.forall_mem_cons.2 ⟨hlit (by omega), List.forall_mem_append.2 ⟨?_, hdig h.2⟩⟩
        rcases hs with hs | ⟨rfl, -⟩
        · exact hsign hs
        · simpa using hlit (by omega)
    exact List.forall_mem_append.2 ⟨hsign hs, List.forall_mem_append.2
      ⟨hdig (intText_digits hn).2, List.forall_mem_append.2 ⟨hf', List.forall_mem_append.2
        ⟨hx', hr⟩⟩⟩⟩

/-- A text has no zeros. -/
theorem isTextByte_of_denotes {n : Nonterminal} {i r : List ℕ} {t : Tree} (h : Denotes n i t r)
    (hr : ∀ b ∈ r, IsTextByte b) : ∀ b ∈ i, IsTextByte b := by
  have hlit : ∀ {c : ℕ} {j : List ℕ}, c ≠ 0 ∧ c < 0x100 → (∀ b ∈ j, IsTextByte b) →
      ∀ b ∈ c :: j, IsTextByte b := fun hc hj => List.forall_mem_cons.2 ⟨hc, hj⟩
  induction h with
  | null | true =>
    exact hlit (by omega) (hlit (by omega) (hlit (by omega) (hlit (by omega) hr)))
  | false =>
    exact hlit (by omega) (hlit (by omega) (hlit (by omega) (hlit (by omega) (hlit (by omega) hr))))
  | number h => exact isTextByte_of_number h hr
  | string h => exact hlit (by omega) (isTextByte_of_chars h (hlit (by omega) hr))
  | emptyArray hw | emptyObject hw =>
    exact hlit (by omega) (isTextByte_of_spaces hw (hlit (by omega) hr))
  | array _ ih | object _ ih => exact hlit (by omega) (ih (hlit (by omega) hr))
  | element hw _ hw' ih => exact isTextByte_of_spaces hw (ih (isTextByte_of_spaces hw' hr))
  | elements hw _ hw' _ ihv ih =>
    exact isTextByte_of_spaces hw (ihv (isTextByte_of_spaces hw' (hlit (by omega) (ih hr))))
  | member hw hs hc hw' _ hw'' ih =>
    exact isTextByte_of_spaces hw (hlit (by omega) (isTextByte_of_chars hs (hlit (by omega)
      (isTextByte_of_spaces hc (hlit (by omega) (isTextByte_of_spaces hw'
        (ih (isTextByte_of_spaces hw'' hr))))))))
  | members hw hs hc hw' _ hw'' _ ihv ih =>
    exact isTextByte_of_spaces hw (hlit (by omega) (isTextByte_of_chars hs (hlit (by omega)
      (isTextByte_of_spaces hc (hlit (by omega) (isTextByte_of_spaces hw'
        (ihv (isTextByte_of_spaces hw'' (hlit (by omega) (ih hr))))))))))

/-- What is written comes back. -/
theorem parse_stringify (sc : Scanner) {v : JsonValue} (hh : v.All held) (hc : v.All clean)
    (hd : v.depth ≤ jsonMaxDepth) : jsonParseRaw sc (jsonStringifyRaw v) = .ok (printed v) := by
  obtain ⟨t, ht, u, hden, hcoded, hdepth⟩ := emit_value v [] 0 hh hc (by omega)
  have hden' := hden []
  rw [List.append_nil] at hden'
  have hbytes := isTextByte_of_denotes hden' (by simp)
  have hmap : (jsonStringifyRaw v).map UInt8.toNat = t := by
    rw [jsonStringifyRaw, ht, List.nil_append, List.map_map]
    refine (List.map_congr_left fun b hb => ?_).trans (List.map_id t)
    exact UInt8.toNat_ofNat_of_lt' (hbytes b hb).2
  have hcut : (jsonStringifyRaw v).takeWhile (· != 0) = jsonStringifyRaw v := by
    rw [List.takeWhile_eq_self_iff]
    intro c hc
    have hmem : c.toNat ∈ t := by
      rw [← hmap]
      exact List.mem_map_of_mem hc
    rw [bne_iff_ne]
    rintro rfl
    exact (hbytes _ hmem).1 rfl
  rw [jsonParseRaw, hcut, ← toOption_eq_some, ← hcoded]
  refine jsonParseRawN_complete sc ⟨⟨t, [], ?_, hden', .nil []⟩, by omega⟩
  rw [hmap]
  exact .nil t

/-! ### Built values -/

/-- The values that a program gets: parsed, created, put into others, changed in place, or taken out
of others. -/
inductive Built : JsonValue → Prop
  | parse {sc : Scanner} {s : List UInt8} {v : JsonValue} (h : jsonParseRawN sc s = .ok v) : Built v
  | null : Built jsonCreateNull
  | bool (b : Bool) : Built (jsonCreateBool b)
  | number (d : Double) : Built (jsonCreateNumber d)
  | string (s : List UInt8) : Built (jsonCreateString s)
  | array : Built jsonCreateArray
  | object : Built jsonCreateObject
  | add {arena : Bool} {capacity : ℕ} {arr value w : JsonValue} (ha : Built arr)
      (hv : Built value) (h : jsonArrayAddRaw arena capacity arr value = .ok (some w)) : Built w
  | set {arena : Bool} {capacity : ℕ} {obj value w : JsonValue} {key : List UInt8} (ho : Built obj)
      (hv : Built value) (h : jsonObjectSetRaw arena capacity obj key value = .ok (some w)) :
      Built w
  | inItem {xs ys : List JsonValue} {v w : JsonValue} (h : Built (.arr (xs ++ v :: ys)))
      (hw : Built w) : Built (.arr (xs ++ w :: ys))
  | inMember {ps qs : List (List ℕ × ℕ × JsonValue)} {k : List ℕ} {l : ℕ} {v w : JsonValue}
      (h : Built (.obj (ps ++ (k, l, v) :: qs))) (hw : Built w) :
      Built (.obj (ps ++ (k, l, w) :: qs))
  | item {items : List JsonValue} {v : JsonValue} (h : Built (.arr items)) (hv : v ∈ items) :
      Built v
  | member {members : List (List ℕ × ℕ × JsonValue)} {k : List ℕ} {l : ℕ} {v : JsonValue}
      (h : Built (.obj members)) (hv : (k, l, v) ∈ members) : Built v

theorem allItems_iff {c : Conds} : ∀ {vs : List JsonValue}, AllItems c vs ↔ ∀ v ∈ vs, v.All c
  | [] => by simp [AllItems]
  | v :: vs => by rw [AllItems, allItems_iff, List.forall_mem_cons]

theorem allMembers_iff {c : Conds} : ∀ {ps : List (List ℕ × ℕ × JsonValue)},
    AllMembers c ps ↔ ∀ p ∈ ps, c.str p.1 p.2.1 ∧ p.2.2.All c
  | [] => by simp [AllMembers]
  | (k, l, v) :: ps => by
    rw [AllMembers, allMembers_iff, List.forall_mem_cons, and_assoc]

theorem held_take {data : List ℕ} {length : ℕ} (h : Held data length) :
    Held (data.take length) length :=
  ⟨by rw [List.length_take]; exact le_min le_rfl h.1, h.2⟩

theorem held_mod (data : List ℕ) : Held data (data.length % 2 ^ 32) :=
  ⟨Nat.mod_le _ _, Nat.mod_lt _ (by norm_num)⟩

mutual

theorem held_deepCopy : ∀ {v : JsonValue}, v.All held → (deepCopy v).All held
  | .null, _ => trivial
  | .bool _, _ => trivial
  | .number _, _ => trivial
  | .str _ _, h => held_take h
  | .arr _, h => ⟨trivial, held_deepCopyItems h.2⟩
  | .obj _, h => ⟨trivial, held_deepCopyMembers h.2⟩

theorem held_deepCopyItems : ∀ {vs : List JsonValue}, AllItems held vs →
    AllItems held (deepCopyItems vs)
  | [], _ => trivial
  | _ :: _, h => ⟨held_deepCopy h.1, held_deepCopyItems h.2⟩

theorem held_deepCopyMembers : ∀ {ps : List (List ℕ × ℕ × JsonValue)}, AllMembers held ps →
    AllMembers held (deepCopyMembers ps)
  | [], _ => trivial
  | (_, _, _) :: _, h => ⟨held_take h.1, held_deepCopy h.2.1, held_deepCopyMembers h.2.2⟩

end

mutual

theorem coded_held : ∀ {t : Tree} {v : JsonValue}, coded t = some v →
    v.All held ∧ v.depth = t.depth
  | .null, v, h => by cases h; exact ⟨trivial, rfl⟩
  | .bool b, v, h => by cases h; exact ⟨trivial, rfl⟩
  | .num d, v, h => by
    rw [coded] at h
    split_ifs at h
    cases h
    exact ⟨trivial, rfl⟩
  | .str bs, v, h => by
    cases h
    exact ⟨held_mod bs, rfl⟩
  | .arr vs, v, h => by
    rw [coded] at h
    split_ifs at h
    obtain ⟨us, hus, rfl⟩ := Option.map_eq_some_iff.1 h
    obtain ⟨hheld, hdepth⟩ := codedElements_held hus
    exact ⟨⟨trivial, hheld⟩, hdepth⟩
  | .obj ps, v, h => by
    rw [coded] at h
    split_ifs at h
    obtain ⟨us, hus, rfl⟩ := Option.map_eq_some_iff.1 h
    obtain ⟨hheld, hdepth⟩ := codedMembers_held hus
    exact ⟨⟨trivial, hheld⟩, hdepth⟩

theorem codedElements_held : ∀ {ts : List Tree} {vs : List JsonValue},
    codedElements ts = some vs → AllItems held vs ∧ depthItems vs = depthElements ts
  | [], vs, h => by cases h; exact ⟨trivial, rfl⟩
  | t :: ts, vs, h => by
    obtain ⟨u, hu, h⟩ := Option.bind_eq_some_iff.1 h
    obtain ⟨us, hus, rfl⟩ := Option.map_eq_some_iff.1 h
    obtain ⟨h1, h2⟩ := coded_held hu
    obtain ⟨h3, h4⟩ := codedElements_held hus
    exact ⟨⟨h1, h3⟩, by rw [depthItems, depthElements, h2, h4]⟩

theorem codedMembers_held : ∀ {ts : List (List ℕ × Tree)} {ps : List (List ℕ × ℕ × JsonValue)},
    codedMembers ts = some ps → AllMembers held ps ∧ depthMembersOf ps = depthMembers ts
  | [], ps, h => by cases h; exact ⟨trivial, rfl⟩
  | (k, t) :: ts, ps, h => by
    obtain ⟨u, hu, h⟩ := Option.bind_eq_some_iff.1 h
    obtain ⟨us, hus, rfl⟩ := Option.map_eq_some_iff.1 h
    obtain ⟨h1, h2⟩ := coded_held hu
    obtain ⟨h3, h4⟩ := codedMembers_held hus
    exact ⟨⟨held_mod k, h1, h3⟩, by rw [depthMembersOf, depthMembers, h2, h4]⟩

end

/-- What is parsed is within the limit. -/
theorem parsed_held {sc : Scanner} {s : List UInt8} {v : JsonValue}
    (h : jsonParseRawN sc s = .ok v) : v.All held ∧ v.depth ≤ jsonMaxDepth := by
  obtain ⟨t, ht⟩ := jsonParseRawN_sound h
  have hc := jsonParseRawN_complete sc ht
  rw [h] at hc
  obtain ⟨hheld, hdepth⟩ := coded_held hc.symm
  exact ⟨hheld, by rw [hdepth]; exact ht.2⟩

theorem push_items {α : Type} {reserve : ℕ → ℕ → Except Failure ℕ} {a b : Entries α} {x : α}
    (h : a.push reserve x = .ok b) : b.items = a.items ++ [x] := by
  obtain ⟨_, -, h⟩ := bind_eq_ok.1 h
  cases h
  rfl

theorem held_ensureArena {arena : Bool} {v : JsonValue} (h : v.All held) :
    (ensureArena arena v).All held := by
  unfold ensureArena
  split_ifs
  · exact h
  · exact held_deepCopy h

theorem held_add {arena : Bool} {capacity : ℕ} {arr value w : JsonValue} (ha : arr.All held)
    (hv : value.All held) (h : jsonArrayAddRaw arena capacity arr value = .ok (some w)) :
    w.All held := by
  have ha' := @held_ensureArena arena _ ha
  unfold jsonArrayAddRaw at h
  split at h
  · rename_i items hitems
    obtain ⟨a, hp, h⟩ := bind_eq_ok.1 h
    cases h
    rw [hitems] at ha'
    refine ⟨trivial, ?_⟩
    rw [push_items hp, allItems_iff, List.forall_mem_append]
    exact ⟨allItems_iff.1 ha'.2, by simpa using held_deepCopy hv⟩
  · cases h

theorem held_replaceMember {key : List ℕ} {value : JsonValue} (hv : value.All held) :
    ∀ {ps qs : List (List ℕ × ℕ × JsonValue)}, AllMembers held ps →
      replaceMember key value ps = some qs → AllMembers held qs
  | [], _, _, h => by cases h
  | (k, l, v) :: ps, qs, hp, h => by
    rw [replaceMember] at h
    split_ifs at h with hk
    · cases h
      exact ⟨hp.1, hv, hp.2.2⟩
    · obtain ⟨qs', hq, rfl⟩ := Option.map_eq_some_iff.1 h
      exact ⟨hp.1, hp.2.1, held_replaceMember hv hp.2.2 hq⟩

theorem held_set {arena : Bool} {capacity : ℕ} {obj value w : JsonValue} {key : List UInt8}
    (ho : obj.All held) (hv : value.All held)
    (h : jsonObjectSetRaw arena capacity obj key value = .ok (some w)) : w.All held := by
  have ho' := @held_ensureArena arena _ ho
  have hv' := held_deepCopy hv
  unfold jsonObjectSetRaw at h
  split at h
  · rename_i members hmembers
    rw [hmembers] at ho'
    split_ifs at h with hk
    · cases h
    · cases hr : replaceMember (key.map UInt8.toNat) (deepCopy value) members with
      | some qs =>
        rw [hr] at h
        cases h
        exact ⟨trivial, held_replaceMember hv' ho'.2 hr⟩
      | none =>
        rw [hr] at h
        obtain ⟨a, hp, h⟩ := bind_eq_ok.1 h
        cases h
        refine ⟨trivial, ?_⟩
        have hkey : Held (key.map UInt8.toNat) key.length := ⟨by simp, by omega⟩
        rw [push_items hp, allMembers_iff, List.forall_mem_append]
        exact ⟨allMembers_iff.1 ho'.2, by simpa using ⟨hkey, hv'⟩⟩
  · cases h

theorem Built.held {v : JsonValue} (h : Built v) : v.All held := by
  induction h with
  | parse h => exact (parsed_held h).1
  | null | bool | number => exact trivial
  | string s =>
    refine ⟨?_, Nat.mod_lt _ (by norm_num)⟩
    rw [List.length_map]
    exact Nat.mod_le _ _
  | array | object => exact ⟨trivial, trivial⟩
  | add _ _ h ha hv => exact held_add ha hv h
  | set _ _ h ho hv => exact held_set ho hv h
  | inItem _ _ ih ihw =>
    refine ⟨trivial, ?_⟩
    have hall := allItems_iff.1 ih.2
    rw [List.forall_mem_append, List.forall_mem_cons] at hall
    rw [allItems_iff, List.forall_mem_append, List.forall_mem_cons]
    exact ⟨hall.1, ihw, hall.2.2⟩
  | inMember _ _ ih ihw =>
    refine ⟨trivial, ?_⟩
    have hall := allMembers_iff.1 ih.2
    rw [List.forall_mem_append, List.forall_mem_cons] at hall
    rw [allMembers_iff, List.forall_mem_append, List.forall_mem_cons]
    exact ⟨hall.1, ⟨hall.2.1.1, ihw⟩, hall.2.2⟩
  | item _ hv ih => exact allItems_iff.1 ih.2 _ hv
  | member _ hv ih => exact (allMembers_iff.1 ih.2 _ hv).2

/-! ### The round trip -/

mutual

/-- The value comes back as it is where six digits are enough. -/
theorem printed_eq_iff : ∀ v : JsonValue, v.All clean → (printed v = deepCopy v ↔ v.All short)
  | .null, _ => by simp [printed, deepCopy, JsonValue.All]
  | .bool b, _ => by simp [printed, deepCopy, JsonValue.All]
  | .number d, h => by
    rw [printed, deepCopy, JsonValue.number.injEq, sixDouble_eq_iff (show IsFinite d from h)]
    rfl
  | .str data length, _ => by simp [printed, deepCopy, JsonValue.All, short]
  | .arr items, h => by
    rw [printed, deepCopy, JsonValue.arr.injEq, printedItems_eq_iff items h.2, JsonValue.All]
    simp [short]
  | .obj members, h => by
    rw [printed, deepCopy, JsonValue.obj.injEq, printedMembers_eq_iff members h.2, JsonValue.All]
    simp [short]

theorem printedItems_eq_iff : ∀ vs : List JsonValue, AllItems clean vs →
    (printedItems vs = deepCopyItems vs ↔ AllItems short vs)
  | [], _ => by simp [printedItems, deepCopyItems, AllItems]
  | v :: vs, h => by
    rw [printedItems, deepCopyItems, List.cons.injEq, printed_eq_iff v h.1,
      printedItems_eq_iff vs h.2, AllItems]

theorem printedMembers_eq_iff : ∀ ps : List (List ℕ × ℕ × JsonValue), AllMembers clean ps →
    (printedMembers ps = deepCopyMembers ps ↔ AllMembers short ps)
  | [], _ => by simp [printedMembers, deepCopyMembers, AllMembers]
  | (k, l, v) :: ps, h => by
    rw [printedMembers, deepCopyMembers, List.cons.injEq, Prod.mk.injEq, Prod.mk.injEq,
      printed_eq_iff v h.2.1, printedMembers_eq_iff ps h.2.2, AllMembers]
    simp [short]

end

/-- A value within the limit, and every parsed value, comes back with the numbers to six significant
digits; just where these are enough it comes back as it is. -/
theorem jsonParseRaw_jsonStringifyRaw (sc : Scanner) :
    (∀ v, Built v → v.All clean → v.depth ≤ jsonMaxDepth →
      jsonParseRaw sc (jsonStringifyRaw v) = .ok (printed v)
        ∧ (printed v = deepCopy v ↔ v.All short))
      ∧ ∀ sc' s v, jsonParseRawN sc' s = .ok v → v.All clean →
        jsonParseRaw sc (jsonStringifyRaw v) = .ok (printed v)
          ∧ (printed v = deepCopy v ↔ v.All short) := by
  refine ⟨fun v hb hc hd => ?_, fun sc' s v hp hc => ?_⟩
  · exact ⟨parse_stringify sc hb.held hc hd, printed_eq_iff v hc⟩
  · obtain ⟨hh, hd⟩ := parsed_held hp
    exact ⟨parse_stringify sc hh hc hd, printed_eq_iff v hc⟩

/-- An array of a string, an integer and a literal comes back. -/
theorem jsonParseRaw_jsonStringifyRaw_array :
    jsonParseRaw .sse2 (jsonStringifyRaw (.arr [.str [0x61] 1, .number 0#64, .null]))
        = .ok (printed (.arr [.str [0x61] 1, .number 0#64, .null]))
      ∧ (printed (.arr [.str [0x61] 1, .number 0#64, .null])
          = deepCopy (.arr [.str [0x61] 1, .number 0#64, .null])
        ↔ JsonValue.All short (.arr [.str [0x61] 1, .number 0#64, .null])) := by
  have hfin : IsFinite 0#64 := ⟨false, 0, -1074, by decide +kernel⟩
  have hstr : Utf8Text [0x61] := ⟨[0x61], by simp [IsScalar], by simp [encode]⟩
  refine (jsonParseRaw_jsonStringifyRaw .sse2).1 _ ?_ ?_ (by decide)
  · have h : Built (.arr [.str [0x61] 1, .number 0#64]) :=
      @Built.add true 8 _ _ _ (@Built.add false 0 _ _ _ .array (.string [0x61]) rfl)
        (.number 0#64) rfl
    exact @Built.add true 8 _ _ _ h .null rfl
  · exact ⟨by simp [clean, maxEntries], hstr, hfin, trivial, trivial⟩

section Lossy

open Double

theorem sigValue_million : sigValue 6 ((1234567 : ℕ) : ℚ) = ((1234570 : ℕ) : ℚ) := by
  have hlog : Int.log 10 ((1234567 : ℕ) : ℚ) = 6 := by
    rw [Int.log_natCast]
    norm_num
  have hround : roundEven (1234567 / 10) = 123457 := by
    refine (roundEven_eq_iff (by norm_num)).2 (.inl ?_)
    rw [abs_of_neg (by norm_num)]
    norm_num
  rw [sigValue_eq (by norm_num), hlog]
  norm_num
  rw [hround]
  norm_num

/-- 1234567 comes back as 1234570. -/
theorem number_not_kept :
    Built (jsonCreateNumber (ofScaled false 1234567 0))
      ∧ (jsonCreateNumber (ofScaled false 1234567 0)).All clean
      ∧ (jsonCreateNumber (ofScaled false 1234567 0)).depth ≤ jsonMaxDepth
      ∧ jsonParseRaw .scalar (jsonStringifyRaw (jsonCreateNumber (ofScaled false 1234567 0)))
        ≠ .ok (jsonCreateNumber (ofScaled false 1234567 0)) := by
  have hx := exact_ofScaled_natCast false (m := 1234567) (by norm_num)
  have hy := exact_ofScaled_natCast false (m := 1234570) (by norm_num)
  have hclean : (jsonCreateNumber (ofScaled false 1234567 0)).All clean := by
    obtain ⟨m, e, h, -⟩ := hx
    exact ⟨false, m, e, h⟩
  refine ⟨.number _, hclean, Nat.zero_le _, fun h => ?_⟩
  rw [parse_stringify .scalar (Built.number _).held hclean (Nat.zero_le _)] at h
  have hsix : sixDouble (ofScaled false 1234567 0) = ofScaled false 1234567 0 := by
    simpa [jsonCreateNumber, printed] using h
  rw [sixDouble_of_exact hx, sigValue_million, ofRat_natCast] at hsix
  rw [← hsix] at hx
  obtain ⟨m, e, hdec, hval⟩ := hx
  obtain ⟨m', e', hdec', hval'⟩ := hy
  rw [hdec] at hdec'
  cases hdec'
  rw [hval] at hval'
  norm_num at hval'

end Lossy

end Aether

end Qjs
