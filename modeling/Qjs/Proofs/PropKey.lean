import Qjs.PropKey
import Qjs.Proofs.Atoms
import Qjs.Proofs.Arith

/-!
# Equal strings, equal keys

In every context whose tables are in order, two values with the same string have the same key
exactly when their representations agree (`toPropertyKey_eq_iff`): a small integer computed by a
fast path may have zeros above its sign, and one code point may be a block.
-/

namespace Qjs.PropertyKey

open Wtf8

/-! ### Integers as strings -/

theorem isNum_digit {d : ℕ} (h : d < 10) : Json.isNum (d + 0x30) = true := by
  simp only [Json.isNum, Bool.and_eq_true, decide_eq_true_eq]
  omega

theorem length_u32toaLoop : ∀ (fuel n : ℕ) (q : List ℕ),
    (u32toaLoop fuel n q).length ≤ fuel + q.length
  | 0, _, q => by simp [u32toaLoop]
  | fuel + 1, n, q => by
    rw [u32toaLoop]
    split_ifs with h
    · simp only [List.length_cons]
      omega
    · have := length_u32toaLoop fuel (n / 10) ((n % 10 + 0x30) :: q)
      rw [List.length_cons] at this
      omega

/-- Reading the digits from 0 on is reading the ones that were there before, from `n` on. -/
theorem numDigits_u32toaLoop {max : ℕ} : ∀ (fuel : ℕ) {n : ℕ} (q : List ℕ), n < 10 ^ fuel →
    0 < fuel → n ≤ max →
    Json.numDigits max 0 (u32toaLoop fuel n q) = Json.numDigits max n q
  | fuel + 1, n, q, hlt, _, hmax => by
    have hd := isNum_digit (Nat.mod_lt n (by norm_num : 10 > 0))
    rw [u32toaLoop]
    split_ifs with h
    · have hn : n % 10 = n := by omega
      rw [Json.numDigits, if_pos hd, Nat.zero_mul, Nat.zero_add, Nat.add_sub_cancel, hn,
        if_neg (by omega)]
    · have hfuel : 0 < fuel := by
        rcases fuel with _ | fuel
        · simp only [zero_add, pow_one] at hlt
          omega
        · exact Nat.succ_pos fuel
      rw [numDigits_u32toaLoop fuel _ (by rw [pow_succ] at hlt; omega) hfuel (by omega),
        Json.numDigits, if_pos hd, Nat.add_sub_cancel, if_neg (by omega)]
      congr 1
      omega

/-- The first character is a digit, and not zero unless the number is. -/
theorem u32toaLoop_cons : ∀ (fuel : ℕ) {n : ℕ} (q : List ℕ), n < 10 ^ fuel → 0 < fuel →
    ∃ d ds, u32toaLoop fuel n q = (d + 0x30) :: ds ∧ d < 10 ∧ (d = 0 → n = 0 ∧ ds = q)
  | fuel + 1, n, q, hlt, _ => by
    rw [u32toaLoop]
    split_ifs with h
    · exact ⟨n % 10, q, rfl, by omega, fun h0 => ⟨by omega, rfl⟩⟩
    · have hfuel : 0 < fuel := by
        rcases fuel with _ | fuel
        · simp only [zero_add, pow_one] at hlt
          omega
        · exact Nat.succ_pos fuel
      obtain ⟨d, ds, hds, hd, hz⟩ :=
        u32toaLoop_cons fuel ((n % 10 + 0x30) :: q) (n := n / 10)
          (by rw [pow_succ] at hlt; omega) hfuel
      exact ⟨d, ds, hds, hd, fun h0 => absurd (hz h0).1 h⟩

theorem u32toaLoop_ascii : ∀ (fuel n : ℕ) {q : List ℕ}, (∀ c ∈ q, c ≤ 0x7f) →
    ∀ c ∈ u32toaLoop fuel n q, c ≤ 0x7f
  | 0, _, _, hq => hq
  | fuel + 1, n, q, hq => by
    have hcons : ∀ c ∈ (n % 10 + 0x30) :: q, c ≤ 0x7f := by
      intro c hc
      rcases List.mem_cons.1 hc with rfl | hc
      · omega
      · exact hq c hc
    rw [u32toaLoop]
    split_ifs with h
    · exact hcons
    · exact u32toaLoop_ascii fuel (n / 10) hcons

theorem numDigits_cons {max d : ℕ} (hd : d < 10) (h : d ≤ max) (ds : List ℕ) :
    Json.numDigits max 0 ((d + 0x30) :: ds) = Json.numDigits max d ds := by
  rw [Json.numDigits, if_pos (isNum_digit hd), Nat.zero_mul, Nat.zero_add, Nat.add_sub_cancel,
    if_neg (not_lt.2 h)]

theorem cur_cons (c : ℕ) (p : List ℕ) : Json.cur (c :: p) = c := rfl

/-- Digits are read back, after a minus sign too. -/
theorem isNumString_u32toa {n : ℕ} {neg : Bool} (hn : n ≤ jsShortIntMax.toNat + neg.toNat)
    (hz : neg = true → n ≠ 0) :
    Json.isNumString (if neg then 0x2d :: u32toa n else u32toa n)
      = some (if neg then -(n : ℤ) else n) := by
  have hmax : jsShortIntMax.toNat = 2 ^ 30 - 1 := by simp [jsShortIntMax]
  have hneg : neg.toNat ≤ 1 := Bool.toNat_le neg
  obtain ⟨d, ds, hds, hd, h0⟩ := u32toaLoop_cons 10 [] (n := n) (by omega) (by norm_num)
  have hlen := length_u32toaLoop 10 n []
  have hascii := u32toaLoop_ascii 10 n (q := []) (by simp)
  have hread := numDigits_u32toaLoop 10 [] (by omega) (by norm_num) hn
  rw [hds] at hlen hascii hread
  rw [numDigits_cons hd (by omega)] at hread
  have hall : ((d + 0x30) :: ds).all (fun c => decide (c ≤ 0x7f)) = true :=
    List.all_eq_true.2 fun c hc => decide_eq_true (hascii c hc)
  simp only [List.length_cons, List.length_nil] at hlen
  have hminus : (d + 0x30 == 0x2d) = false := by simp
  have hdone : (if d + 0x30 = 0x30 then if ds ≠ [] ∨ neg then none else some 0
      else (Json.numDigits (jsShortIntMax.toNat + neg.toNat) (d + 0x30 - 0x30) ds).map
        fun n : ℕ => if neg then -(n : ℤ) else (n : ℤ))
      = some (if neg then -(n : ℤ) else (n : ℤ)) := by
    rw [Nat.add_sub_cancel, hread]
    by_cases hd0 : d = 0
    · obtain ⟨hn0, rfl⟩ := h0 hd0
      have hpos : neg = false := by
        rcases neg with _ | _
        · rfl
        · exact absurd hn0 (hz rfl)
      simp [hd0, hn0, hpos]
    · rw [if_neg (by omega), Json.numDigits, Option.map_some]
  rw [u32toa, hds]
  rcases neg with _ | _
  · simp only [Bool.false_eq_true, if_false]
    rw [Json.isNumString, if_neg (by rw [hall]; simp; omega)]
    simp only [cur_cons, hminus, Bool.false_eq_true, if_false, List.tail_cons, isNum_digit hd]
    rw [if_neg (by simp)]
    simpa only [Bool.false_eq_true, if_false] using hdone
  · simp only [if_true]
    rw [Json.isNumString, if_neg (by rw [List.all_cons, hall]; simp; omega)]
    simp only [cur_cons, beq_self_eq_true, if_true, List.tail_cons, isNum_digit hd]
    rw [if_neg (by simp)]
    simpa only [if_true] using hdone

/-- A short integer is read back from its digits. -/
theorem isNumString_i32toa {z : ℤ} (hlo : jsShortIntMin ≤ z) (hhi : z ≤ jsShortIntMax) :
    Json.isNumString (i32toa z) = some z := by
  have hmax : jsShortIntMax.toNat = 2 ^ 30 - 1 := by simp [jsShortIntMax]
  simp only [jsShortIntMin, jsShortIntMax] at hlo hhi
  unfold i32toa
  split_ifs with hz
  · have h := @isNumString_u32toa z.toNat false (by simp [hmax]; omega) (by simp)
    simp only [Bool.false_eq_true, if_false] at h
    rw [h, Int.toNat_of_nonneg hz]
  · have h := @isNumString_u32toa z.natAbs true (by simp [hmax]; omega) (by omega)
    simp only [if_true] at h
    rw [h]
    congr 1
    omega

/-! ### The contexts -/

variable {c c' : AtomCtx}

/-- What every context keeps: a table in order, a flag that tells whether a string is ASCII, and no
unique string beside one of a ROM table with the same contents. -/
structure KeyInv (c : AtomCtx) : Prop where
  table : ∃ tbl, AtomInv c tbl
  ascii : ∀ id p, c.heap.strings id = some p → p.isAscii = isAsciiString p.buf
  rom : ∀ id p v, c.heap.strings id = some p → p.isUnique = true →
    findRomAtom c.heap p.buf c.romAtomTables = some v → v = .ref id

/-- A string of `c'` is one of `c` with the same contents, made unique only if no ROM table has
them, or a new one. -/
def StringsFrom (c c' : AtomCtx) : Prop :=
  ∀ id p', c'.heap.strings id = some p' →
    (∃ p, c.heap.strings id = some p ∧ p'.buf = p.buf ∧ p'.isAscii = p.isAscii
      ∧ (p'.isUnique = true → p.isUnique = true
        ∨ findRomAtom c.heap p.buf c.romAtomTables = none))
    ∨ (p'.isAscii = isAsciiString p'.buf ∧ p'.isUnique = false)

theorem findRomAtom_keeps {tbl tbl' : List ℕ} (hk : Keeps c c') (hi : AtomInv c tbl)
    (hi' : AtomInv c' tbl') (buf : List ℕ) :
    findRomAtom c'.heap buf c'.romAtomTables = findRomAtom c.heap buf c.romAtomTables := by
  rw [hk.tables]
  apply findRomAtom_congr
  intro arr ha v hv
  obtain ⟨id, rfl, -, p, hp⟩ := hi.romTables arr ha v hv
  obtain ⟨id', h, -, p', hp'⟩ := hi'.romTables arr (hk.tables ▸ ha) _ hv
  obtain rfl := StrVal.ref.inj h
  obtain ⟨q, hq, hb, -⟩ := hk.strings id p' hp' (hi.lt_next hp)
  rw [stringBytes_ref hp', stringBytes_ref hq, hb]

theorem KeyInv.step (hi : KeyInv c) (hk : Keeps c c') (ht : ∃ tbl, AtomInv c' tbl)
    (hs : StringsFrom c c') : KeyInv c' := by
  obtain ⟨tbl, hi₀⟩ := hi.table
  obtain ⟨tbl', hi'⟩ := ht
  refine ⟨⟨tbl', hi'⟩, ?_, ?_⟩
  · intro id p' hp'
    rcases hs id p' hp' with ⟨p, hp, hb, ha, -⟩ | ⟨h, -⟩
    · rw [ha, hb]
      exact hi.ascii id p hp
    · exact h
  · intro id p' v hp' hu hf
    rw [findRomAtom_keeps hk hi₀ hi'] at hf
    rcases hs id p' hp' with ⟨p, hp, hb, -, hu'⟩ | ⟨-, h⟩
    · rw [hb] at hf
      rcases hu' hu with hu' | hnone
      · exact hi.rom id p v hp hu' hf
      · rw [hnone] at hf
        cases hf
    · rw [h] at hu
      cases hu

theorem StringsFrom.of_sub (h : ∀ id p, c'.heap.strings id = some p → c.heap.strings id = some p) :
    StringsFrom c c' :=
  fun id p hp => .inl ⟨p, h id p hp, rfl, rfl, .inl⟩

theorem runGcs_strings (pins : AtomCtx → List StrVal) : ∀ (gcs : List (ℕ → Bool)) {c : AtomCtx}
    {id : ℕ} {p : JSString}, (runGcs pins gcs c).heap.strings id = some p →
    c.heap.strings id = some p
  | [], _, _, _, h => h
  | _ :: gcs, _, _, _, h => (jsGc_strings.1 (runGcs_strings pins gcs h)).1

/-- How a function that may throw ends. -/
def EndsIn {α : Type} (o : Outcome α) (c : AtomCtx) : Prop := o = .exception c ∨ ∃ r, o = .ok r c

variable {numeric : List ℕ → Bool} {v : StrVal} {e e1 e2 : AllocEvent}

theorem jsIsNumericString_strings (h : EndsIn (jsIsNumericString numeric c v e) c') :
    ∀ id p, c'.heap.strings id = some p → c.heap.strings id = some p := by
  intro id p hp
  simp only [jsIsNumericString] at h
  split_ifs at h with hs ho
  · rcases h with h | ⟨_, h⟩
    · cases h
    · injection h with _ h
      exact runGcs_strings _ _ (h ▸ hp)
  · rcases h with h | ⟨_, h⟩
    · injection h with h
      exact runGcs_strings _ _ (h ▸ hp)
    · cases h
  · rcases h with h | ⟨_, h⟩
    · cases h
    · injection h with _ h
      exact h ▸ hp

theorem resizeUniqueStrings_strings (h : EndsIn (resizeUniqueStrings c v e) c') :
    ∀ id p, c'.heap.strings id = some p → c.heap.strings id = some p := by
  intro id p hp
  simp only [resizeUniqueStrings] at h
  split_ifs at h with hs ho hl
  · rcases h with h | ⟨_, h⟩ <;> cases h
  · rcases h with h | ⟨_, h⟩
    · cases h
    · injection h with _ h
      subst h
      exact runGcs_strings _ _ hp
  · rcases h with h | ⟨_, h⟩
    · injection h with h
      exact runGcs_strings _ _ (h ▸ hp)
    · cases h
  · rcases h with h | ⟨_, h⟩
    · cases h
    · injection h with _ h
      exact h ▸ hp

/-- Interning changes one string, which no ROM table had. -/
theorem jsMakeUniqueString_from {tbl : List ℕ} (hi : AtomInv c tbl)
    (hcov : CoveredAtom c (.makeUnique v e1 e2))
    (h : EndsIn (jsMakeUniqueString numeric c v e1 e2) c') : StringsFrom c c' := by
  have hsame : ∀ {r : StrVal}, EndsIn (.ok r c) c' → StringsFrom c c' := by
    rintro r (h | ⟨_, h⟩)
    · cases h
    · cases h
      exact .of_sub fun _ _ hp => hp
  obtain ⟨hlive, hnew⟩ := hcov
  rcases v with d | id
  · exact hsame h
  obtain ⟨p, hp⟩ := hlive
  simp only [jsMakeUniqueString, getStringPtr_ref hp] at h
  by_cases hu : p.isUnique = true
  · rw [if_pos hu] at h
    exact hsame h
  rw [if_neg hu] at h
  rcases hrom : findRomAtom c.heap p.buf c.romAtomTables with _ | v1
  · rw [hrom] at h
    obtain ⟨m, i, hf, -⟩ | ⟨a, hf, ha, hlo, hhi⟩ := hi.findAtom_spec (hi.valid id p hp)
    · rw [hf] at h
      exact hsame h
    · rw [hf] at h
      simp only at h
      obtain ⟨hn, hbelow⟩ := hnew ⟨by rw [getStringPtr_ref hp]; simpa using hu,
        by rw [stringBytes_ref hp, hrom], by rw [stringBytes_ref hp, hf]⟩
      rw [getStringPtr_ref hp] at hbelow
      rw [← List.take_append_drop a tbl] at hi
      obtain ⟨c₁, r, hi₁, -, -, hp₁, hn₁, h₁⟩ :=
        jsIsNumericString_spec numeric hi hp (fun hg => hn (.inl hg)) hlo hbelow
      have hends : EndsIn (jsIsNumericString numeric c (.ref id) e1) c₁ := h₁
      have hsub₁ := jsIsNumericString_strings hends
      rcases h₁ with h₁ | ⟨b, h₁⟩
      · rw [h₁] at h
        rcases h with h | ⟨_, h⟩
        · cases h
          exact .of_sub hsub₁
        · cases h
      · rw [h₁] at h
        simp only at h
        rcases h₂ : resizeUniqueStrings c₁ (.ref id) e2 with _ | c₂ | ⟨_, c₂⟩
        · rw [h₂] at h
          rcases h with h | ⟨_, h⟩ <;> cases h
        · rw [h₂] at h
          have hsub₂ := resizeUniqueStrings_strings (.inl h₂)
          rcases h with h | ⟨_, h⟩
          · cases h
            exact .of_sub fun i q hq => hsub₁ i q (hsub₂ i q hq)
          · cases h
        · rw [h₂] at h
          have hsub₂ := resizeUniqueStrings_strings (.inr ⟨_, h₂⟩)
          have hp₂ : c₂.heap.strings id = some p := by
            obtain ⟨_, h₃, -⟩ | ⟨_, _, h₃, -, -, h₄, -⟩ :=
              resizeUniqueStrings_spec hi₁ (fun hg => hn₁ (hn (.inr hg))) hp₁ (e := e2)
            · rw [h₂] at h₃
              cases h₃
            · rw [h₂] at h₃
              cases h₃
              exact h₄
          simp only at h
          split_ifs at h with hlen
          · rcases h with h | ⟨_, h⟩ <;> cases h
          · rcases h with h | ⟨_, h⟩
            · cases h
            · injection h with _ h
              subst h
              intro i q hq
              simp only at hq
              by_cases hid : i = id
              · subst hid
                rw [Function.update_self, getStringPtr_ref hp₂] at hq
                obtain rfl := Option.some.inj hq
                exact .inl ⟨p, hp, rfl, rfl, fun _ => .inr hrom⟩
              · rw [Function.update_of_ne hid] at hq
                exact .inl ⟨q, hsub₁ i q (hsub₂ i q hq), rfl, rfl, .inl⟩
  · rw [hrom] at h
    exact hsame h

theorem KeyInv.makeUnique (hi : KeyInv c) (hcov : CoveredAtom c (.makeUnique v e1 e2))
    (h : EndsIn (jsMakeUniqueString numeric c v e1 e2) c') : KeyInv c' ∧ Keeps c c' := by
  obtain ⟨tbl, hi₀⟩ := hi.table
  have hs := jsMakeUniqueString_from hi₀ hcov h
  obtain ⟨c₁, h₁, ht, hk⟩ | ⟨r, c₁, h₁, hint⟩ := jsMakeUniqueString_spec numeric hi₀ hcov
  · rw [h₁] at h
    rcases h with h | ⟨_, h⟩
    · cases h
      exact ⟨hi.step hk ht hs, hk⟩
    · cases h
  · rw [h₁] at h
    rcases h with h | ⟨_, h⟩
    · cases h
    · cases h
      exact ⟨hi.step hint.keeps hint.inv hs, hint.keeps⟩

theorem KeyInv.gcs {gcs : List (ℕ → Bool)} (hi : KeyInv c) (hn : gcs ≠ [] → NoRomEntry c)
    (pins : List StrVal) :
    KeyInv (runGcs (fun _ => pins) gcs c) ∧ Keeps c (runGcs (fun _ => pins) gcs c) := by
  obtain ⟨tbl, hi₀⟩ := hi.table
  obtain ⟨h1, h2, -, -⟩ := runGcs_spec pins gcs hi₀ hn
  exact ⟨hi.step h2 ⟨_, h1⟩ (.of_sub fun _ _ hp => runGcs_strings _ _ hp), h2⟩

theorem KeyInv.newString {asc : Bool} {buf : List ℕ} (hi : KeyInv c) (hb : Valid buf)
    (hasc : asc = isAsciiString buf)
    (h : atomStep numeric c (.newString asc buf) = some c') : KeyInv c' ∧ Keeps c c' := by
  obtain ⟨tbl, hi₀⟩ := hi.table
  obtain ⟨c₁, h₁, h₂, hk⟩ := hi₀.newString numeric asc hb
  rw [h] at h₁
  cases h₁
  refine ⟨hi.step hk ⟨_, h₂⟩ ?_, hk⟩
  obtain rfl := Option.some.inj h
  intro id p hp
  simp only at hp
  by_cases hid : id = c.heap.next
  · rw [hid, Function.update_self] at hp
    obtain rfl := Option.some.inj hp
    exact .inr ⟨hasc, rfl⟩
  · rw [Function.update_of_ne hid] at hp
    exact .inl ⟨p, hp, rfl, rfl, .inl⟩

/-- The events of a run that the claim of a key's word is made for: those of `CoveredAtom`, and
strings that are told to be ASCII exactly when they are. -/
def CoveredEvent (c : AtomCtx) (e : AtomEvent) : Prop :=
  CoveredAtom c e ∧ ∀ asc buf, e = .newString asc buf → asc = isAsciiString buf

def CoveredRun (numeric : List ℕ → Bool) (c : AtomCtx) : List AtomEvent → Prop
  | [] => True
  | e :: es => CoveredEvent c e ∧ ∀ c', atomStep numeric c e = some c' → CoveredRun numeric c' es

theorem KeyInv.atomStep {e : AtomEvent} (hi : KeyInv c) (hcov : CoveredEvent c e)
    (h : Qjs.atomStep numeric c e = some c') : KeyInv c' ∧ Keeps c c' := by
  obtain ⟨hcov, hasc⟩ := hcov
  rcases e with ⟨asc, buf⟩ | reach | ⟨v, e1, e2⟩
  · exact hi.newString hcov (hasc asc buf rfl) h
  · obtain rfl := Option.some.inj h
    have hgcs : [reach] ≠ [] → NoRomEntry c := fun _ => hcov
    exact hi.gcs hgcs []
  · simp only [Qjs.atomStep] at h
    rcases hm : jsMakeUniqueString numeric c v e1 e2 with _ | c₁ | ⟨r, c₁⟩
    · rw [hm] at h
      cases h
    · rw [hm] at h
      cases h
      exact hi.makeUnique hcov (.inl hm)
    · rw [hm] at h
      cases h
      exact hi.makeUnique hcov (.inr ⟨r, hm⟩)

/-- A covered run keeps the contexts well-formed. -/
theorem KeyInv.atomRun : ∀ (es : List AtomEvent) {c c' : AtomCtx}, KeyInv c →
    CoveredRun numeric c es → Qjs.atomRun numeric c es = some c' → KeyInv c' ∧ Keeps c c'
  | [], c, c', hi, _, h => by
    obtain rfl := Option.some.inj h
    exact ⟨hi, .refl c⟩
  | e :: es, c, c', hi, hcov, h => by
    rw [Qjs.atomRun, Option.bind_eq_some_iff] at h
    obtain ⟨c₁, h₁, h⟩ := h
    obtain ⟨hi₁, hk₁⟩ := hi.atomStep hcov.1 h₁
    obtain ⟨hi', hk'⟩ := KeyInv.atomRun es hi₁ (hcov.2 c₁ h₁) h
    exact ⟨hi', hk₁.trans hk'⟩

/-! ### Strings of values -/

variable {a : Arch} {dtoa : Double → NumText} {val : PropVal a} {s : StrVal}

/-- The flag of a string is right, so only its contents matter. -/
theorem isNumString_eq {p : JSString} (h : p.isAscii = isAsciiString p.buf) :
    isNumString p = Json.isNumString p.buf := by
  rw [isNumString, h]
  split_ifs with hasc
  · rfl
  · rw [Json.isNumString, if_pos]
    right; right
    exact hasc

theorem ascii_char {d : ℕ} (hd : d < 0x110000) :
    decide (d ≤ 0x7f) = isAsciiString (unicodeToUtf8 d) := by
  by_cases h : d < 0x80
  · have hle : d ≤ 0x7f := by omega
    simp [unicodeToUtf8, h, hle, isAsciiString]
  · have hle : ¬ d ≤ 0x7f := by omega
    have hlead : ∀ x y : ℕ, 0x80 ≤ y → ¬ x ||| y ≤ 0x7f := by
      intro x y hy hle
      have := Nat.right_le_or (n := x) (m := y)
      omega
    have h1 : ∀ x : ℕ, ¬ x ||| 0xc0 ≤ 0x7f := fun x => hlead x _ (by norm_num)
    have h2 : ∀ x : ℕ, ¬ x ||| 0xe0 ≤ 0x7f := fun x => hlead x _ (by norm_num)
    have h3 : ∀ x : ℕ, ¬ x ||| 0xf0 ≤ 0x7f := fun x => hlead x _ (by norm_num)
    unfold unicodeToUtf8
    rw [if_neg h]
    split_ifs <;> first | omega | simp [isAsciiString, hle, h1, h2, h3]

theorem KeyInv.ascii_live (hi : KeyInv c) (hl : Live c s) :
    (getStringPtr c.heap s).isAscii = isAsciiString (getStringPtr c.heap s).buf := by
  rcases s with d | id
  · exact ascii_char hl
  · obtain ⟨p, hp⟩ := hl
    rw [getStringPtr_ref hp]
    exact hi.ascii id p hp

/-- The calls of `JS_ToPropertyKey` that do not meet the defects of the table. -/
def CoveredKey (dtoa : Double → NumText) (c : AtomCtx) (e : KeyAllocs) : PropVal a → Prop
  | .int _ => True
  | .float d =>
    (e.toStr.gcs ≠ [] → NoRomEntry c) ∧ ∀ s c', jsDtoa2 c (dtoa d) e.toStr = .ok s c' →
      isNumString (getStringPtr c'.heap s) = none →
      CoveredAtom c' (.makeUnique s e.numeric e.resize)
  | .str s =>
    Live c s ∧ (isNumString (getStringPtr c.heap s) = none →
      CoveredAtom c (.makeUnique s e.numeric e.resize))

theorem valid_ascii {buf : List ℕ} (h : ∀ c ∈ buf, c ≤ 0x7f) : Valid buf := by
  have hlt : ∀ c ∈ buf, c < 0x80 := fun c hc => Nat.lt_succ_of_le (h c hc)
  refine ⟨buf, ⟨fun c hc => (hlt c hc).trans (by norm_num), ?_⟩, (encodeAll_ascii hlt).1.symm⟩
  have hall : buf.Pairwise fun _ _ => True := List.pairwise_of_forall fun _ _ => trivial
  refine (hall.imp_of_mem ?_).isChain
  intro c d hc _ _ hl
  have := hlt c hc
  have := hl.1.1
  omega

def IsChar : StrVal → Prop
  | .char _ => True
  | .ref _ => False

/-- `js_dtoa2` gives a live string with the digits, immediate when there is one. -/
theorem jsDtoa2_spec {t : NumText} (hi : KeyInv c) (hn : e.gcs ≠ [] → NoRomEntry c)
    (h : jsDtoa2 c t e = .ok s c') : KeyInv c' ∧ Keeps c c' ∧ Live c' s
      ∧ stringBytes c'.heap s = t.buf ∧ (IsChar s ↔ t.buf.length = 1) := by
  obtain ⟨hi₁, hk₁⟩ := hi.gcs hn []
  obtain ⟨b, bs, hbuf⟩ := List.exists_cons_of_ne_nil t.ne_nil
  have hb : b ≤ 0x7f := t.ascii b (by simp [hbuf])
  have hlen : utf8CharLen (byteAt t.buf 0) = 1 := by
    rw [hbuf]
    simp only [byteAt, List.getD_cons_zero, utf8CharLen]
    rw [if_pos (by omega)]
  simp only [jsDtoa2, hlen] at h
  split_ifs at h with hok h1
  · cases h
    have hnil : bs = [] := by simpa [hbuf] using h1
    have hget : utf8Get t.buf = b := by
      rw [hbuf]
      simp only [utf8Get, byteAt, List.getD_cons_zero]
      rw [if_pos (by omega)]
    refine ⟨hi₁, hk₁, ?_, ?_, by simp [IsChar, ← h1]⟩
    · rw [hget]
      exact lt_of_le_of_lt hb (by norm_num)
    · rw [hget, hbuf, hnil]
      simp only [stringBytes, getStringPtr, unicodeToUtf8]
      rw [if_pos (by omega)]
  · cases h
    have hasc : true = isAsciiString t.buf :=
      (List.all_eq_true.2 fun c hc => decide_eq_true (t.ascii c hc)).symm
    have hnew : atomStep (fun _ => false) (runGcs (fun _ => []) e.gcs c)
        (.newString true t.buf) = some _ := rfl
    obtain ⟨hi₂, hk₂⟩ := hi₁.newString (valid_ascii t.ascii) hasc hnew
    refine ⟨hi₂, hk₁.trans hk₂, ⟨_, Function.update_self ..⟩, ?_, by simp [IsChar, Ne.symm h1]⟩
    rw [stringBytes_ref (Function.update_self ..)]

/-- What `JS_ToPropertyKey` does with a value that is not an integer. -/
theorem toPropertyKey_spec {e : KeyAllocs} {k : PropWord a} (hi : KeyInv c)
    (hcov : CoveredKey dtoa c e val) (hint : ∀ w, val ≠ .int w)
    (h : jsToPropertyKey dtoa numeric c val e = .ok k c') :
    ∃ s c₁, KeyInv c₁ ∧ Keeps c c₁ ∧ Live c₁ s ∧ stringBytes c₁.heap s = toStringBytes dtoa c val
      ∧ (IsChar s ↔ Immediate dtoa val)
      ∧ ((∃ n, Json.isNumString (toStringBytes dtoa c val) = some n ∧ k = .int (jsNewShortInt n)
          ∧ c' = c₁)
        ∨ (Json.isNumString (toStringBytes dtoa c val) = none ∧ ∃ r, k = .str r
          ∧ CoveredAtom c₁ (.makeUnique s e.numeric e.resize)
          ∧ jsMakeUniqueString numeric c₁ s e.numeric e.resize = .ok r c')) := by
  -- the string first
  have hstr : ∃ s c₁, jsToString dtoa c val e.toStr = .ok s c₁ ∧ KeyInv c₁ ∧ Keeps c c₁ ∧ Live c₁ s
      ∧ stringBytes c₁.heap s = toStringBytes dtoa c val ∧ (IsChar s ↔ Immediate dtoa val)
      ∧ (isNumString (getStringPtr c₁.heap s) = none →
        CoveredAtom c₁ (.makeUnique s e.numeric e.resize)) := by
    rcases val with w | d | s
    · exact absurd rfl (hint w)
    · rcases hd : jsDtoa2 c (dtoa d) e.toStr with _ | c₁ | ⟨s, c₁⟩
      · simp only [jsToPropertyKey, jsToString, hd] at h
        cases h
      · simp only [jsToPropertyKey, jsToString, hd] at h
        cases h
      · obtain ⟨h1, h2, h3, h4, h5⟩ := jsDtoa2_spec hi hcov.1 hd
        exact ⟨s, c₁, hd, h1, h2, h3, h4, h5, hcov.2 s c₁ hd⟩
    · refine ⟨s, c, rfl, hi, .refl c, hcov.1, rfl, ?_, hcov.2⟩
      rcases s with d | id <;> simp [IsChar, Immediate]
  obtain ⟨s, c₁, hs, h1, h2, h3, h4, h5, h6⟩ := hstr
  refine ⟨s, c₁, h1, h2, h3, h4, h5, ?_⟩
  have hnum : isNumString (getStringPtr c₁.heap s)
      = Json.isNumString (toStringBytes dtoa c val) := by
    rw [isNumString_eq (h1.ascii_live h3), ← h4]
    rfl
  have hkey : jsToPropertyKey dtoa numeric c val e = keyOfString numeric c₁ s e := by
    rcases val with w | d | s'
    · exact absurd rfl (hint w)
    · simp only [jsToPropertyKey, hs]
    · simp only [jsToPropertyKey, hs]
  rw [hkey, keyOfString] at h
  rcases hn : Json.isNumString (toStringBytes dtoa c val) with _ | n
  · rw [hnum, hn] at h
    simp only at h
    rcases hm : jsMakeUniqueString numeric c₁ s e.numeric e.resize with _ | c₂ | ⟨r, c₂⟩
    · rw [hm] at h
      cases h
    · rw [hm] at h
      cases h
    · rw [hm] at h
      cases h
      exact .inr ⟨rfl, r, rfl, h6 (hnum.trans hn), rfl⟩
  · rw [hnum, hn] at h
    cases h
    exact .inl ⟨n, rfl, rfl, rfl⟩

/-! ### Equal keys -/

/-- A key that is a string is still there. -/
def KeyLive (c : AtomCtx) : PropWord a → Prop
  | .int _ => True
  | .str r => Live c r

theorem Live.of_keeps (hk : Keeps c c') {r : StrVal}
    (hr : ∀ id, r = .ref id → id < c.heap.next) (h : Live c' r) : Live c r := by
  rcases r with d | id
  · exact h
  · obtain ⟨p', hp'⟩ := h
    obtain ⟨p, hp, -⟩ := hk.strings id p' hp' (hr id rfl)
    exact ⟨p, hp⟩

theorem findRomAtom_mem {h : StrHeap} {buf : List ℕ} {v₁ : StrVal} :
    ∀ (tables : List (Option (List StrVal))), findRomAtom h buf tables = some v₁ →
    ∃ arr, some arr ∈ tables ∧ v₁ ∈ arr
  | [], hf => by cases hf
  | none :: tables, hf => by
    obtain ⟨arr, ha, hv⟩ := findRomAtom_mem tables hf
    exact ⟨arr, List.mem_cons_of_mem _ ha, hv⟩
  | some arr :: tables, hf => by
    rw [findRomAtom] at hf
    rcases hfind : findAtom h (arr.map some) arr.length buf with ⟨m, _ | _⟩
    · rw [hfind] at hf
      obtain ⟨arr', ha, hv⟩ := findRomAtom_mem tables hf
      exact ⟨arr', List.mem_cons_of_mem _ ha, hv⟩
    · rw [hfind] at hf
      exact ⟨arr, List.mem_cons_self, List.mem_of_getElem? hf⟩

/-- Where a ROM table has the contents, its string is the answer. -/
theorem jsMakeUniqueString_rom {id : ℕ} {r v₁ : StrVal} (hi : KeyInv c) (hl : Live c (.ref id))
    (hrom : findRomAtom c.heap (stringBytes c.heap (.ref id)) c.romAtomTables = some v₁)
    (h : jsMakeUniqueString numeric c (.ref id) e1 e2 = .ok r c') : r = v₁ := by
  obtain ⟨p, hp⟩ := hl
  rw [stringBytes_ref hp] at hrom
  simp only [jsMakeUniqueString, getStringPtr_ref hp, hrom] at h
  split_ifs at h with hu
  · cases h
    exact (hi.rom id p v₁ hp hu hrom).symm
  · cases h
    rfl

/-- The answer for a block is a block. -/
theorem jsMakeUniqueString_ref {id : ℕ} {r : StrVal} (hi : KeyInv c)
    (hcov : CoveredAtom c (.makeUnique (.ref id) e1 e2))
    (h : jsMakeUniqueString numeric c (.ref id) e1 e2 = .ok r c') :
    ∃ i, r = .ref i ∧ i < c'.heap.next := by
  obtain ⟨tbl, hi₀⟩ := hi.table
  obtain ⟨_, h', -⟩ | ⟨_, _, h', hint⟩ := jsMakeUniqueString_spec numeric hi₀ hcov
  · rw [h] at h'
    cases h'
  rw [h] at h'
  cases h'
  obtain ⟨tbl', hi'⟩ := hint.inv
  rcases hrom : findRomAtom c.heap (stringBytes c.heap (.ref id)) c.romAtomTables with _ | v₁
  · obtain ⟨i, p, rfl, hp, -⟩ := hint.unique id rfl hrom
    exact ⟨i, rfl, hi'.lt_next hp⟩
  · obtain rfl := jsMakeUniqueString_rom hi hcov.1 hrom h
    obtain ⟨arr, harr, hmem⟩ := findRomAtom_mem _ hrom
    obtain ⟨i, rfl, -, p, hp⟩ := hi₀.romTables arr harr _ hmem
    exact ⟨i, rfl, (hi₀.lt_next hp).trans_le hint.keeps.next_le⟩

/-- The key of a value whose string reads as an integer. -/
theorem key_of_num {e : KeyAllocs} {k : PropWord a} {z : ℤ} (hi : KeyInv c)
    (hcov : CoveredKey dtoa c e val) (hint : ∀ w, val ≠ .int w)
    (h : jsToPropertyKey dtoa numeric c val e = .ok k c')
    (hz : Json.isNumString (toStringBytes dtoa c val) = some z) : k = .int (jsNewShortInt z) := by
  obtain ⟨s, c₁, -, -, -, -, -, ⟨n, hn, rfl, -⟩ | ⟨hn, -⟩⟩ := toPropertyKey_spec hi hcov hint h
  · rw [hz] at hn
    cases hn
    rfl
  · rw [hz] at hn
    cases hn

/-- Interning two live strings with the same contents, at two moments. -/
theorem interned_iff {c₁ c₂ c₃ : AtomCtx} {v w r r' : StrVal} {e1' e2' : AllocEvent}
    (hi : KeyInv c) (hcov : CoveredAtom c (.makeUnique v e1 e2))
    (hv : jsMakeUniqueString numeric c v e1 e2 = .ok r c₁) (hk₂ : Keeps c₁ c₂) (hi₂ : KeyInv c₂)
    (hcov' : CoveredAtom c₂ (.makeUnique w e1' e2'))
    (hw : jsMakeUniqueString numeric c₂ w e1' e2' = .ok r' c₃) (hlive : Live c₃ r)
    (hb : stringBytes c₂.heap w = stringBytes c.heap v) :
    r' = r ↔ (IsChar v ↔ IsChar w) := by
  obtain ⟨hi₁, hk₁⟩ := hi.makeUnique hcov (.inr ⟨r, hv⟩)
  obtain ⟨hi₃, hk₃⟩ := hi₂.makeUnique hcov' (.inr ⟨r', hw⟩)
  obtain ⟨tbl, ht⟩ := hi.table
  obtain ⟨tbl₁, ht₁⟩ := hi₁.table
  obtain ⟨tbl₂, ht₂⟩ := hi₂.table
  rcases v with d | id <;> rcases w with d' | id'
  · -- two immediates
    obtain rfl : StrVal.char d = r := by injection hv
    obtain rfl : StrVal.char d' = r' := by injection hw
    have hd : d < 0x110000 := hcov.1
    have hd' : d' < 0x110000 := hcov'.1
    simp only [stringBytes, getStringPtr, unicodeToUtf8_eq hd, unicodeToUtf8_eq hd'] at hb
    simp only [IsChar, iff_true]
    rw [encode_prefixFree hd' hd (hb ▸ List.prefix_rfl)]
  · obtain rfl : StrVal.char d = r := by injection hv
    obtain ⟨i, rfl, -⟩ := jsMakeUniqueString_ref hi₂ hcov' hw
    simp [IsChar]
  · obtain rfl : StrVal.char d' = r' := by injection hw
    obtain ⟨i, rfl, -⟩ := jsMakeUniqueString_ref hi hcov hv
    simp [IsChar]
  · -- two blocks
    simp only [IsChar, iff_true]
    obtain ⟨i, rfl, hlt⟩ := jsMakeUniqueString_ref hi hcov hv
    have hk := hk₁.trans hk₂
    have hfind : ∀ buf, findRomAtom c₂.heap buf c₂.romAtomTables
        = findRomAtom c.heap buf c.romAtomTables := findRomAtom_keeps hk ht ht₂
    rcases hrom : findRomAtom c.heap (stringBytes c.heap (.ref id)) c.romAtomTables with _ | v₁
    · refine interned_eq_of_keeps ht hcov hrom hv hk₂ ht₂ ?_ hcov' ?_ hw hb trivial
      · refine Live.of_keeps hk₃ ?_ hlive
        rintro _ ⟨⟩
        exact hlt.trans_le hk₂.next_le
      · rw [hb, hfind, hrom]
    · rw [jsMakeUniqueString_rom hi hcov.1 hrom hv]
      exact jsMakeUniqueString_rom hi₂ hcov'.1 (by rw [hb, hfind, hrom]) hw

theorem KeyInv.toPropertyKey {e : KeyAllocs} {k : PropWord a} (hi : KeyInv c)
    (hcov : CoveredKey dtoa c e val) (h : jsToPropertyKey dtoa numeric c val e = .ok k c') :
    KeyInv c' ∧ Keeps c c' := by
  by_cases hint : ∃ w, val = .int w
  · obtain ⟨w, rfl⟩ := hint
    cases h
    exact ⟨hi, .refl c⟩
  · obtain ⟨s, c₁, h1, h2, -, -, -, ⟨n, -, -, rfl⟩ | ⟨-, r, -, hc, hr⟩⟩ :=
      toPropertyKey_spec hi hcov (fun w hw => hint ⟨w, hw⟩) h
    · exact ⟨h1, h2⟩
    · obtain ⟨h3, h4⟩ := h1.makeUnique hc (.inr ⟨r, hr⟩)
      exact ⟨h3, h2.trans h4⟩

theorem sameRepr_int_left {text : List ℕ} (x : JSValue a) {w : PropVal a}
    (hw : ∀ y, w ≠ .int y) : SameRepr dtoa text (.int x) w ↔ SignExtended x := by
  rcases w with y | d | s
  · exact absurd rfl (hw y)
  · exact Iff.rfl
  · exact Iff.rfl

theorem sameRepr_int_right {text : List ℕ} (y : JSValue a) {v : PropVal a}
    (hv : ∀ x, v ≠ .int x) : SameRepr dtoa text v (.int y) ↔ SignExtended y := by
  rcases v with x | d | s
  · exact absurd rfl (hv x)
  · exact Iff.rfl
  · exact Iff.rfl

theorem sameRepr_of_not_int {text : List ℕ} {v w : PropVal a} (hv : ∀ x, v ≠ .int x)
    (hw : ∀ y, w ≠ .int y) : SameRepr dtoa text v w
      ↔ (Json.isNumString text).isSome ∨ (Immediate dtoa v ↔ Immediate dtoa w) := by
  rcases v with x | d | s
  · exact absurd rfl (hv x)
  all_goals
    rcases w with y | d' | s'
    · exact absurd rfl (hw y)
    · exact Iff.rfl
    · exact Iff.rfl

/-- From a well-formed context on, through any run that does not meet the defects of the table, two
values with the same string get the same key exactly when their representations agree. -/
theorem toPropertyKey_eq_iff (dtoa : Double → NumText) (numeric : List ℕ → Bool)
    {c c₁ c₂ c₃ : AtomCtx} (v w : PropVal a) {e e' : KeyAllocs} {k k' : PropWord a}
    {es : List AtomEvent} (hi : KeyInv c) (hcov : CoveredKey dtoa c e v)
    (hv : jsToPropertyKey dtoa numeric c v e = .ok k c₁) (hrun : CoveredRun numeric c₁ es)
    (hc₂ : Qjs.atomRun numeric c₁ es = some c₂) (hcov' : CoveredKey dtoa c₂ e' w)
    (hw : jsToPropertyKey dtoa numeric c₂ w e' = .ok k' c₃) (hlive : KeyLive c₃ k)
    (htext : toStringBytes dtoa c₂ w = toStringBytes dtoa c v) :
    k' = k ↔ SameRepr dtoa (toStringBytes dtoa c v) v w := by
  obtain ⟨hi₁, -⟩ := hi.toPropertyKey hcov hv
  obtain ⟨hi₂, hk₂⟩ := KeyInv.atomRun es hi₁ hrun hc₂
  by_cases hvi : ∃ x, v = .int x
  · obtain ⟨x, rfl⟩ := hvi
    have hk : k = .int x := by injection hv with h _; exact h.symm
    obtain ⟨hlo, hhi⟩ := jsValueGetInt_bounds x
    by_cases hwi : ∃ y, w = .int y
    · obtain ⟨y, rfl⟩ := hwi
      have hk' : k' = .int y := by injection hw with h _; exact h.symm
      rw [hk, hk', PropWord.int.injEq]
      exact eq_comm
    · have hwn : ∀ y, w ≠ .int y := fun y hy => hwi ⟨y, hy⟩
      have hk' := key_of_num hi₂ hcov' hwn hw (by rw [htext]; exact isNumString_i32toa hlo hhi)
      rw [hk, hk', sameRepr_int_left x hwn, PropWord.int.injEq]
      exact eq_comm
  · have hvn : ∀ x, v ≠ .int x := fun x hx => hvi ⟨x, hx⟩
    by_cases hwi : ∃ y, w = .int y
    · obtain ⟨y, rfl⟩ := hwi
      have hk' : k' = .int y := by injection hw with h _; exact h.symm
      obtain ⟨hlo, hhi⟩ := jsValueGetInt_bounds y
      have hk := key_of_num hi hcov hvn hv (by rw [← htext]; exact isNumString_i32toa hlo hhi)
      rw [hk, hk', sameRepr_int_right y hvn, PropWord.int.injEq]
      rfl
    · have hwn : ∀ y, w ≠ .int y := fun y hy => hwi ⟨y, hy⟩
      rw [sameRepr_of_not_int hvn hwn]
      obtain ⟨s, c₄, hi₄, hk₄, hl₄, hb₄, him₄, hkey₄⟩ := toPropertyKey_spec hi hcov hvn hv
      obtain ⟨s', c₅, hi₅, hk₅, hl₅, hb₅, him₅, hkey₅⟩ := toPropertyKey_spec hi₂ hcov' hwn hw
      rw [htext] at hb₅ hkey₅
      rcases hkey₄ with ⟨n, hn, rfl, -⟩ | ⟨hn, r, rfl, hc₄, hr⟩
      · -- both strings read as the integer
        rcases hkey₅ with ⟨n', hn', rfl, -⟩ | ⟨hn', -⟩
        · rw [hn] at hn'
          cases hn'
          simp [hn]
        · rw [hn] at hn'
          cases hn'
      · rcases hkey₅ with ⟨n', hn', -⟩ | ⟨-, r', rfl, hc₅, hr'⟩
        · rw [hn] at hn'
          cases hn'
        · have hone := interned_iff hi₄ hc₄ hr (hk₂.trans hk₅) hi₅ hc₅ hr' hlive
            (hb₅.trans hb₄.symm)
          rw [PropWord.str.injEq, hone, him₄, him₅, hn]
          simp

/-! ### Words with an integer -/

theorem signExtended_iff {w : JSValue a} (h : jsIsInt w = true) :
    SignExtended w ↔ w = ofInt32 (toInt32 w) := by
  obtain ⟨hlo, hhi⟩ := toInt32_bounds w
  rw [SignExtended, jsNewShortInt, ← toInt32_of_jsIsInt h, int32_eq_self hlo hhi]

theorem signExtended_newShortInt {z : ℤ} (hlo : jsShortIntMin ≤ z) (hhi : z ≤ jsShortIntMax) :
    SignExtended (jsNewShortInt z : JSValue a) := by
  rw [SignExtended, jsValueGetInt_of_toInt32 (toInt32_jsNewShortInt (le_bits a) hlo hhi)]

/-- In a 32-bit word there is no upper half. -/
theorem signExtended_jsw4 {w : JSValue .jsw4} (h : jsIsInt w = true) : SignExtended w := by
  rw [signExtended_iff h]
  change w = BitVec.ofInt 32 (BitVec.setWidth 32 w).toInt
  rw [BitVec.ofInt_toInt]
  exact (BitVec.setWidth_eq w).symm

/-- `OP_add`, `OP_sub` and `OP_mul` leave zeros above the low half, which is wrong for the negative
results only. -/
theorem signExtended_ofUint32 {r : ℤ} (hlo : -2 ^ 31 ≤ r) (hhi : r < 2 ^ 31) (heven : r % 2 = 0) :
    SignExtended (ofUint32 r : JSValue .jsw8) ↔ 0 ≤ r := by
  have hr : toInt32 (ofUint32 r : JSValue .jsw8) = r := by
    rw [toInt32_ofUint32 (le_bits _), int32_eq_self hlo hhi]
  have hint : jsIsInt (ofUint32 r : JSValue .jsw8) = true :=
    jsIsInt_of_toInt32 (z := r / 2) (by rw [hr]; omega)
  rw [signExtended_iff hint, hr]
  change (BitVec.ofInt 32 r).setWidth 64 = BitVec.ofInt 64 r ↔ 0 ≤ r
  rw [← BitVec.toNat_inj]
  simp only [BitVec.toNat_setWidth, BitVec.toNat_ofInt]
  omega

/-! ### Two keys of one string -/

/-- A stand-in for the digits of a double. -/
def oneText (_ : Double) : NumText := ⟨[0x31], by simp, by simp⟩

def KeyAllocs.quiet : KeyAllocs := ⟨.quiet, .quiet, .quiet⟩

theorem KeyInv.new : KeyInv .new := by
  have hone : ∀ id p, AtomCtx.new.heap.strings id = some p → id = 0 ∧ p = emptyString := by
    intro id p hp
    simp only [AtomCtx.new, StrHeap.init] at hp
    split_ifs at hp with h
    exact ⟨h, (Option.some.inj hp).symm⟩
  refine ⟨⟨[], AtomCtx.new_inv⟩, ?_, ?_⟩
  · intro id p hp
    obtain ⟨-, rfl⟩ := hone id p hp
    rfl
  · intro id p v hp _ hf
    obtain ⟨rfl, -⟩ := hone id p hp
    obtain ⟨arr, ha, hv⟩ := findRomAtom_mem _ hf
    simp only [AtomCtx.new, List.mem_singleton, Option.some.injEq] at ha
    rw [ha, List.mem_singleton] at hv
    exact hv

/-- The integer 7 and the character. -/
theorem toPropertyKey_eq_iff_seven :
    PropWord.int (jsNewShortInt 7 : JSValue .jsw8) = .int (jsNewShortInt 7)
      ↔ SameRepr oneText [0x37] (.int (jsNewShortInt 7 : JSValue .jsw8)) (.str (.char 0x37)) := by
  have hcov : CoveredKey (a := .jsw8) oneText .new .quiet (.str (.char 0x37)) :=
    ⟨by simp [Live], fun h => absurd h (by decide)⟩
  have hrun : CoveredRun (fun _ => false) .new [] := trivial
  exact toPropertyKey_eq_iff oneText (fun _ => false) (.int (jsNewShortInt 7)) (.str (.char 0x37))
    KeyInv.new (e := .quiet) trivial rfl hrun rfl hcov rfl trivial rfl

/-- `0 - 1` and the literal -1 are written with the same digits and are two keys. -/
theorem minusOne_has_two_keys :
    ∃ x y : JSValue .jsw8, opSub (jsNewShortInt 0) (jsNewShortInt 1) = some (.word x)
      ∧ y = jsNewShortInt (-1)
      ∧ toStringBytes oneText .new (.int x) = toStringBytes oneText .new (.int y)
      ∧ jsToPropertyKey oneText (fun _ => false) .new (.int x) .quiet = .ok (.int x) .new
      ∧ jsToPropertyKey oneText (fun _ => false) .new (.int y) .quiet = .ok (.int y) .new
      ∧ PropWord.int x ≠ .int y := by
  refine ⟨ofUint32 (-2), jsNewShortInt (-1), ?_, rfl, ?_, rfl, rfl, ?_⟩
  · decide
  · decide
  · rw [Ne, PropWord.int.injEq]
    decide

end Qjs.PropertyKey
