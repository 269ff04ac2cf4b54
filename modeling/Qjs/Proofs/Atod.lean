import Qjs.Atod
import Qjs.Proofs.Str

/-!
# Strings of one character as numbers

What `js_atod` makes of a single character: nothing unless it is a digit of the radix. The
immediate form of a string does not ask `js_atod`, so it agrees with the same string in the heap
but for white space, and for digits and letters that the radix decides about
(`jsAtod1_agrees_iff`).
-/

namespace Qjs

namespace Atod

open Json (cur infinityText isSpace skipSpaces)

variable {radix flags : ℕ}

/-- The radix that counts. -/
def effRadix (radix : ℕ) : ℕ := if radix = 0 then 10 else radix

/-! ### One digit -/

/-- A number that fits the significand is not rounded. -/
theorem packDouble_roundToD {v : ℕ} (h0 : 0 < v) (hv : v < 2 ^ 53) :
    packDouble (roundToD v 0 .rndn) = (Double.ofInt v).toNat := by
  have hv0 : v ≠ 0 := by omega
  obtain ⟨hl, hlo, hhi⟩ := Double.full_width hv0 hv
  have hint := Double.toNat_ofInt_of_pos (z := v) (by omega) (by simpa using hv)
  rw [Int.natAbs_natCast] at hint
  have hround : roundToD v 0 .rndn = (v * 2 ^ (52 - Nat.log2 v), (Nat.log2 v : ℤ) + 1) := by
    have hprec : ¬(Nat.log2 v : ℤ) + 1 < -1021 := by omega
    have hshift : (Nat.log2 v : ℤ) + 1 - 53 ≤ 0 := by omega
    have hcount : (-((Nat.log2 v : ℤ) + 1 - 53)).toNat = 52 - Nat.log2 v := by omega
    have hm : ¬v * 2 ^ (52 - Nat.log2 v) ≥ 2 ^ 53 := by omega
    simp only [roundToD, mpbFloorLog2, if_neg hv0, sub_zero, add_zero, if_neg hprec, mpbShrRound,
      if_pos hshift, hcount, Nat.shiftLeft_eq, sub_self, Int.toNat_zero, pow_zero, mul_one,
      if_neg hm]
  have hexp : ((Nat.log2 v : ℤ) + 1 + 1022).toNat = Nat.log2 v + 1023 := by omega
  have hlow : v * 2 ^ (52 - Nat.log2 v) % 2 ^ 52 = v * 2 ^ (52 - Nat.log2 v) - 2 ^ 52 := by omega
  rw [hround, hint]
  simp only [packDouble]
  rw [if_neg (by omega), if_neg (by omega), if_neg (by omega), if_neg (by omega), hexp, hlow,
    ← Nat.shiftLeft_add_eq_or_of_lt (by omega), Nat.shiftLeft_eq]
  omega

theorem exponents_in_range : ∀ r < 35, (1 : ℤ) < maxExponent.getD r 0 + 1
    ∧ minExponent.getD r 0 < (1 : ℤ) := by decide

/-- The number of one digit. -/
theorem digitsToBits_one {R v : ℕ} (hR : 2 ≤ R ∧ R ≤ 36) (h0 : 0 < v) (hv : v < 36) :
    withSign false (digitsToBits R 1 v 0 0 false) = Double.ofInt v := by
  have hpack := packDouble_roundToD h0 (by omega)
  have hbits : digitsToBits R 1 v 0 0 false = packDouble (roundToD v 0 .rndn) := by
    obtain ⟨h1, h2⟩ := exponents_in_range (R - 2) (by omega)
    unfold digitsToBits
    simp only [zero_mul, sub_zero, zero_add, Nat.cast_one, one_mul, neg_zero, Bool.false_eq_true,
      if_false]
    split_ifs with hb h3 h4 h5 h6
    · omega
    · omega
    · rfl
    · omega
    · omega
    · simp [mulPowRoundToD, mulPow, hb]
  rw [withSign, hbits, hpack]
  simp

/-! ### One character -/

section Scan

variable {p : List ℕ} {c : Cfg}

/-- At the start nothing is skipped but a digit may follow a point. -/
theorem skipDot_start (hstart : c.start = p.length)
    (hdot : cur p = 0x2e → c.radix ≤ toDigit (cur p.tail)) (pos : ℕ) (dotPos : Option ℕ) :
    skipDot c p pos dotPos = .ok (some (p, dotPos)) := by
  unfold skipDot
  rw [if_neg]
  rintro ⟨h1, h2, -⟩
  have := hdot h1
  omega

theorem skipZeros_start (hstart : c.start = p.length)
    (hdot : cur p = 0x2e → c.radix ≤ toDigit (cur p.tail)) (hzero : cur p ≠ 0x30) (fuel pos : ℕ) :
    skipZeros c (fuel + 1) p pos none = .ok (p, pos, none) := by
  have hsep : ¬(cur p = c.sep ∧ p.length < c.start ∧ cur p.tail = 0x30) := by omega
  rw [skipZeros, skipDot_start hstart hdot]
  simp only [if_neg hsep]
  rw [if_pos hzero]

theorem readDigits_start {s : Digits} (hstart : c.start = s.p.length)
    (hdot : cur s.p = 0x2e → c.radix ≤ toDigit (cur s.p.tail))
    (hdigit : c.radix ≤ toDigit (cur s.p)) (fuel : ℕ) : readDigits c (fuel + 1) s = .ok s := by
  have hsep : ¬(cur s.p = c.sep ∧ s.p.length < c.start ∧ toDigit (cur s.p.tail) < c.radix) := by
    omega
  rw [readDigits, skipDot_start hstart hdot]
  simp only [if_neg hsep]
  rw [if_pos hdigit]

end Scan

theorem effRadix_eq (radix : ℕ) : (if radix = 0 then 10 else radix) = effRadix radix := rfl

/-- A text whose first character is not a digit of the radix, after a sign, is not a number. -/
theorem jsAtod_notDigit {str p : List ℕ}
    (hp : p = if cur str = 0x2b ∨ cur str = 0x2d then str.tail else str) (hzero : cur p ≠ 0x30)
    (hinf : infinityText.isPrefixOf p = false) (hdigit : effRadix radix ≤ toDigit (cur p))
    (hdot : cur p = 0x2e → effRadix radix ≤ toDigit (cur p.tail)) :
    jsAtod str radix flags = (Double.qnan, p) := by
  have hprefix : ∀ sep, readPrefix p radix flags sep = .digits p radix sep := by
    intro sep
    unfold readPrefix
    rw [if_neg hzero, if_neg (by simp [hinf])]
  have hexp : ∀ c : Cfg, c.start = p.length → ¬atExponent c p := by
    rintro c hc ⟨-, -, h⟩
    omega
  simp only [jsAtod, ← hp, hprefix, effRadix_eq]
  rw [skipZeros_start rfl hdot hzero]
  simp only
  rw [readDigits_start rfl hdot hdigit]
  simp only [flushLimb, finish, ne_eq, not_true_eq_false, if_false]
  rw [if_neg (hexp _ rfl), if_pos trivial]

theorem tables_in_range : ∀ r < 35, 0 < atodMaxDigitsTable.getD r 0
    ∧ 1 < digitsPerLimbTable.getD r 0 := by decide

/-- The first digit stays in the limb. -/
theorem putDigit_first {R d b : ℕ} (hR : 2 ≤ R ∧ R ≤ 36) :
    flushLimb R (putDigit R ⟨[b], 0, none, 0, 0, 0, 0, 0⟩ d) = ⟨[], 1, none, d, 1, 1, d, 0⟩ := by
  obtain ⟨h1, h2⟩ := tables_in_range (R - 2) (by omega)
  simp only [putDigit, List.tail_cons, if_pos h1]
  rw [if_neg (by omega)]
  simp [flushLimb, mpbMul1Base]

/-- After the end there is nothing more. -/
theorem readDigits_end {c : Cfg} {s : Digits} (hs : s.p = []) (hR : c.radix ≤ 36)
    (hsep : c.sep = 0x5f ∨ c.sep = 256) (fuel : ℕ) : readDigits c fuel s = .ok s := by
  have hcur : cur s.p = 0 := by
    rw [hs]
    rfl
  have hdigit : toDigit 0 = 36 := by decide
  rcases fuel with _ | fuel
  · rfl
  · have hno : ¬(0 = c.sep ∧ s.p.length < c.start ∧ toDigit (cur s.p.tail) < c.radix) := by omega
    have hdot : skipDot c s.p s.pos s.dotPos = .ok (some (s.p, s.dotPos)) := by
      unfold skipDot
      rw [hcur, if_neg (by omega)]
    rw [readDigits, hdot]
    simp only [hcur, if_neg hno]
    rw [if_pos (by omega)]

theorem putDigit_p (R : ℕ) (s : Digits) (d : ℕ) : (putDigit R s d).p = s.p.tail := by
  simp only [putDigit]
  split_ifs <;> rfl

theorem atExponent_end (c : Cfg) : ¬atExponent c [] := by
  rintro ⟨-, h, -⟩
  rcases h with ⟨-, h | h⟩ | ⟨-, h | ⟨-, h | h⟩⟩ <;> cases h

theorem sep_cases (flags : ℕ) : (if acceptUnderscores flags = true then 0x5f else 256) = 0x5f
    ∨ (if acceptUnderscores flags = true then 0x5f else 256) = 256 := by
  split_ifs
  · exact .inl rfl
  · exact .inr rfl

theorem readDigits_one {c : Cfg} {b : ℕ} (hstart : c.start = [b].length) (hR : c.radix ≤ 36)
    (hsep : c.sep = 0x5f ∨ c.sep = 256) (hdot : b ≠ 0x2e) (hlt : toDigit b < c.radix) (fuel : ℕ) :
    readDigits c (fuel + 1) ⟨[b], 0, none, 0, 0, 0, 0, 0⟩
      = .ok (putDigit c.radix ⟨[b], 0, none, 0, 0, 0, 0, 0⟩ (toDigit b)) := by
  have hcur : cur [b] = b := rfl
  have hno : ¬(b = c.sep ∧ [b].length < c.start ∧ toDigit (cur [b].tail) < c.radix) := by omega
  have hskip := @skipDot_start [b] c hstart (fun h => absurd h hdot) 0 none
  rw [readDigits, hskip]
  simp only [hcur, if_neg hno]
  rw [if_neg (by omega)]
  exact readDigits_end (putDigit_p _ _ _) hR hsep _

/-- A digit other than zero. -/
theorem jsAtod_digit {b : ℕ} (hR : 2 ≤ effRadix radix ∧ effRadix radix ≤ 36) (hb : 0 < toDigit b)
    (hlt : toDigit b < effRadix radix) :
    jsAtod [b] radix flags = (Double.ofInt (toDigit b), []) := by
  have hchar : b ≠ 0x30 ∧ b ≠ 0x2b ∧ b ≠ 0x2d ∧ b ≠ 0x2e := by
    refine ⟨?_, ?_, ?_, ?_⟩ <;> rintro rfl <;> revert hb hlt <;> simp [toDigit] <;> omega
  have hcur : cur [b] = b := rfl
  have hzero : cur [b] ≠ 0x30 := hchar.1
  have hprefix : ∀ sep, readPrefix [b] radix flags sep = .digits [b] radix sep := by
    intro sep
    unfold readPrefix
    rw [if_neg hzero, if_neg (by simp [infinityText, List.isPrefixOf])]
  have hsign : (if cur [b] = 0x2b ∨ cur [b] = 0x2d then [b].tail else [b]) = [b] :=
    if_neg (by rw [hcur]; tauto)
  have hneg : decide (cur [b] = 0x2d) = false := decide_eq_false hchar.2.2.1
  have hv := digitsToBits_one hR hb (by omega)
  simp only [jsAtod, hsign, hneg, hprefix, effRadix_eq]
  have hdot : ∀ R, cur [b] = 0x2e → R ≤ toDigit (cur [b].tail) := by
    intro R h
    exact absurd (hcur.symm.trans h) hchar.2.2.2
  rw [skipZeros_start rfl (hdot _) hzero]
  simp only
  rw [readDigits_one rfl hR.2 (sep_cases flags) hchar.2.2.2 hlt]
  simp only [putDigit_first hR, finish]
  rw [if_neg (atExponent_end _), if_neg (by simp), if_neg (by simp)]
  simp [hv]

theorem skipZeros_zero {c : Cfg} (hstart : c.start = 1) :
    skipZeros c 2 [0x30] 0 none = .ok ([], 1, none) := by
  have h1 : skipDot c [0x30] 0 none = .ok (some ([0x30], none)) := by
    unfold skipDot
    rw [if_neg (by simp [cur])]
  have h2 : skipDot c [] 1 none = .ok (some ([], none)) := by
    unfold skipDot
    rw [if_neg (by simp [cur])]
  have hno1 : ¬(cur [0x30] = c.sep ∧ [0x30].length < c.start ∧ cur [0x30].tail = 0x30) := by
    simp [hstart]
  have hno2 : ∀ n : ℕ, ¬(cur [] = c.sep ∧ n < c.start ∧ cur ([] : List ℕ).tail = 0x30) := by
    simp [cur]
  rw [skipZeros, h1]
  simp only [if_neg hno1]
  rw [if_neg (by simp [cur]), List.tail_cons, skipZeros, h2]
  simp only [if_neg (hno2 _)]
  rw [if_pos (by simp [cur])]

theorem jsAtod_zero (hR : effRadix radix ≤ 36) : jsAtod [0x30] radix flags = (0#64, []) := by
  have hcur : cur [0x30] = 0x30 := rfl
  have hprefix : ∀ sep, readPrefix [0x30] radix flags sep = .digits [0x30] radix sep := by
    intro sep
    simp [readPrefix, cur]
  have hsign : (if cur [0x30] = 0x2b ∨ cur [0x30] = 0x2d then [0x30].tail else [0x30]) = [0x30] :=
    if_neg (by rw [hcur]; norm_num)
  simp only [jsAtod, hsign, hprefix, effRadix_eq, List.length_singleton]
  rw [skipZeros_zero rfl]
  simp only
  rw [readDigits_end rfl hR (sep_cases flags)]
  have hflush : ∀ R, flushLimb R ⟨[], 1, none, 0, 0, 0, 0, 0⟩ = ⟨[], 1, none, 0, 0, 0, 0, 0⟩ := by
    simp [flushLimb]
  simp only [hflush, finish]
  rw [if_neg (atExponent_end _)]
  simp [withSign, cur]

/-! ### The two representations -/

/-- What the immediate form leaves out: white space that counts as zero, and the radix of digits and
letters. -/
def CharAgrees (c radix flags : ℕ) : Prop :=
  ¬(isSpace c = true ∧ atodToString flags = true)
    ∧ (0x30 ≤ c → c ≤ 0x39 → c ≠ 0x30 → toDigit c < effRadix radix)
    ∧ (10 ≤ toDigit c → effRadix radix ≤ toDigit c)

theorem effRadix_bounds (hr : radix = 0 ∨ 2 ≤ radix ∧ radix ≤ 36) :
    2 ≤ effRadix radix ∧ effRadix radix ≤ 36 := by
  unfold effRadix
  split_ifs <;> omega

/-- What `js_atod1` makes of a string in the heap. -/
def atodHeap (buf : List ℕ) (radix flags : ℕ) : Double :=
  if skipSpaces buf = [] then if atodToString flags then 0 else Double.qnan
  else if atodToString flags ∧ skipSpaces (jsAtod (skipSpaces buf) radix flags).2 ≠ [] then
    Double.qnan
  else (jsAtod (skipSpaces buf) radix flags).1

theorem jsAtod1_ref {h : StrHeap} {id : ℕ} {cs : List ℕ} (hv : Holds h (.ref id) cs) :
    jsAtod1 true h (.ref id) radix flags = some (atodHeap (Wtf8.encodeAll cs) radix flags) := by
  have hbuf := hv.rep.buf_eq
  simp only [jsAtod1, hbuf, atodHeap, if_true]
  split_ifs <;> rfl

theorem skipSpaces_of_not {b : ℕ} {bs : List ℕ} (hb : isSpace b = false) :
    skipSpaces (b :: bs) = b :: bs := by
  simp [skipSpaces, hb]

/-- A text that is not a number, whatever is left of it. -/
theorem atodHeap_notDigit {b : ℕ} {bs p : List ℕ} (hb : isSpace b = false)
    (h : jsAtod (b :: bs) radix flags = (Double.qnan, p)) :
    atodHeap (b :: bs) radix flags = Double.qnan := by
  rw [atodHeap, skipSpaces_of_not hb, h]
  simp

theorem atodHeap_digit {b : ℕ} {d : Double} (hb : isSpace b = false)
    (h : jsAtod [b] radix flags = (d, [])) : atodHeap [b] radix flags = d := by
  have hnil : skipSpaces [] = [] := rfl
  rw [atodHeap, skipSpaces_of_not hb, h]
  simp [hnil]

theorem ofInt_ne_qnan {v : ℕ} (hv : v < 2 ^ 53) : Double.ofInt v ≠ Double.qnan := by
  intro h
  have h1 := Double.value?_ofInt (z := v) (by simpa using hv)
  have h2 : Double.value? Double.qnan = none := by decide
  rw [h, h2] at h1
  cases h1

/-- The first byte of a character that is not ASCII. -/
theorem encode_first {c : ℕ} (hc : 0x80 ≤ c) : ∃ b bs, Wtf8.encode c = b :: bs ∧ 0xc0 ≤ b := by
  unfold Wtf8.encode
  rw [if_neg (by omega)]
  split_ifs
  · exact ⟨_, _, rfl, by omega⟩
  · exact ⟨_, _, rfl, by omega⟩
  · exact ⟨_, _, rfl, by omega⟩

theorem toDigit_other {c : ℕ} (h : c < 0x30 ∨ 0x7a < c) : toDigit c = 36 := by
  unfold toDigit
  rw [if_neg (by omega), if_neg (by omega), if_neg (by omega)]

theorem toDigit_num {c : ℕ} (h : 0x30 ≤ c ∧ c ≤ 0x39) : toDigit c = c - 0x30 := if_pos h

theorem le_toDigit {c : ℕ} (h : ¬(0x30 ≤ c ∧ c ≤ 0x39)) : 10 ≤ toDigit c := by
  unfold toDigit
  rw [if_neg h]
  split_ifs <;> omega

theorem isSpace_range {c : ℕ} : isSpace c = true ↔ 0x09 ≤ c ∧ c ≤ 0x0d ∨ c = 0x20 := by
  simp [isSpace]

/-- A character that is not a digit of the radix, or a sign. -/
theorem atodHeap_notDigit_char {b : ℕ} {bs : List ℕ} (hb : isSpace b = false) (h30 : b ≠ 0x30)
    (hinf : infinityText.isPrefixOf (b :: bs) = false) (hdigit : effRadix radix ≤ toDigit b)
    (hR : effRadix radix ≤ 36) (hbs : b < 0x80 → bs = []) :
    atodHeap (b :: bs) radix flags = Double.qnan := by
  have hend : effRadix radix ≤ toDigit (cur []) := hR
  have hcur : cur (b :: bs) = b := rfl
  by_cases hsign : b = 0x2b ∨ b = 0x2d
  · obtain rfl := hbs (by omega)
    refine atodHeap_notDigit hb (jsAtod_notDigit (if_pos hsign).symm ?_ rfl hend ?_)
    · simp [cur]
    · intro _
      exact hend
  · refine atodHeap_notDigit hb (jsAtod_notDigit (if_neg hsign).symm h30 hinf hdigit ?_)
    intro hdot
    obtain rfl := hbs (by rw [hcur] at hdot; omega)
    exact hend

end Atod

open Atod Json in
/-- When a string of one character is the same number in both representations. -/
theorem jsAtod1_agrees_iff (h : StrHeap) (id c radix flags : ℕ) (hv : Holds h (.ref id) [c])
    (hr : radix = 0 ∨ 2 ≤ radix ∧ radix ≤ 36) :
    jsAtod1 true h (.ref id) radix flags = jsAtod1 true h (.char c) radix flags
      ↔ CharAgrees c radix flags := by
  have hR := effRadix_bounds hr
  rw [jsAtod1_ref hv, Wtf8.encodeAll_singleton]
  simp only [jsAtod1, Option.some.injEq, CharAgrees]
  by_cases hascii : 0x80 ≤ c
  · obtain ⟨b, bs, he, hb⟩ := encode_first hascii
    have hspace : ¬isSpace b = true := by
      rw [isSpace_range]
      omega
    have hinf : infinityText.isPrefixOf (b :: bs) = false := by
      have : (0x49 == b) = false := by
        rw [beq_eq_false_iff_ne]
        omega
      simp [infinityText, List.isPrefixOf, this]
    have hb36 := toDigit_other (c := b) (by omega)
    have hc36 := toDigit_other (c := c) (by omega)
    rw [he, atodHeap_notDigit_char (Bool.not_eq_true _ ▸ hspace) (by omega) hinf (by omega) hR.2
      (by omega), if_neg (by omega), isSpace_range]
    exact iff_of_true rfl ⟨by omega, by omega, by omega⟩
  have he : Wtf8.encode c = [c] := if_pos (by omega)
  rw [he]
  by_cases hspace : isSpace c = true
  · have hskip : skipSpaces [c] = [] := by simp [skipSpaces, hspace]
    have hc := isSpace_range.1 hspace
    have hc36 := toDigit_other (c := c) (by omega)
    have hchar : (if 0x30 ≤ c ∧ c ≤ 0x39 then Double.ofInt (c - 0x30 : ℕ) else Double.qnan)
        = Double.qnan := if_neg (by omega)
    rw [atodHeap, if_pos hskip, hchar]
    by_cases hflag : atodToString flags = true
    · rw [if_pos hflag]
      refine iff_of_false (by decide) fun h => h.1 ⟨hspace, hflag⟩
    · rw [if_neg hflag]
      exact iff_of_true rfl ⟨fun h => hflag h.2, by omega, by omega⟩
  have hspace' : isSpace c = false := by simpa using hspace
  have hinf : infinityText.isPrefixOf [c] = false := by simp [infinityText, List.isPrefixOf]
  have hnot : effRadix radix ≤ toDigit c → c ≠ 0x30 →
      atodHeap [c] radix flags = Double.qnan := fun hd h30 =>
    atodHeap_notDigit_char hspace' h30 hinf hd hR.2 fun _ => rfl
  have hdig : 0 < toDigit c → toDigit c < effRadix radix →
      atodHeap [c] radix flags = Double.ofInt (toDigit c) := fun h0 hlt =>
    atodHeap_digit hspace' (jsAtod_digit hR h0 hlt)
  by_cases hnum : 0x30 ≤ c ∧ c ≤ 0x39
  · have hd := toDigit_num hnum
    rw [if_pos hnum]
    by_cases h30 : c = 0x30
    · subst h30
      rw [atodHeap_digit hspace' (jsAtod_zero hR.2)]
      exact iff_of_true Double.ofInt_zero.symm ⟨fun h => hspace h.1, by omega, by omega⟩
    · by_cases hlt : toDigit c < effRadix radix
      · rw [hdig (by omega) hlt, hd]
        exact iff_of_true rfl ⟨fun h => hspace h.1, by omega, by omega⟩
      · rw [hnot (by omega) h30]
        refine iff_of_false (fun h => ofInt_ne_qnan (by omega) h.symm) ?_
        rintro ⟨-, h2, -⟩
        exact hlt (h2 hnum.1 hnum.2 h30)
  · have hd := le_toDigit hnum
    rw [if_neg hnum]
    by_cases hlt : toDigit c < effRadix radix
    · rw [hdig (by omega) hlt]
      refine iff_of_false (ofInt_ne_qnan (by omega)) ?_
      rintro ⟨-, -, h3⟩
      exact absurd (h3 hd) (by omega)
    · rw [hnot (by omega) (by omega)]
      exact iff_of_true rfl ⟨fun h => hspace h.1, by omega, by omega⟩

/-- A heap whose strings are all the one ASCII character. -/
def oneCharHeap (c : ℕ) : StrHeap :=
  ⟨fun _ => some ⟨false, true, false, [c]⟩, 0, fun _ => ⟨none, 0, 0⟩, 0⟩

theorem holds_oneCharHeap {c : ℕ} (hc : c < 0x80) (id : ℕ) :
    Holds (oneCharHeap c) (.ref id) [c] := by
  refine ⟨⟨false, true, false, [c]⟩, rfl, .singleton (by omega), ?_, by simpa using hc⟩
  rw [Wtf8.encodeAll_singleton]
  exact (if_pos hc).symm

/-- The letter a as a decimal number. -/
theorem jsAtod1_agrees_letter :
    jsAtod1 true (oneCharHeap 0x61) (.ref 1) 10 0
      = jsAtod1 true (oneCharHeap 0x61) (.char 0x61) 10 0 := by
  have hv := holds_oneCharHeap (c := 0x61) (by norm_num) 1
  refine (jsAtod1_agrees_iff (oneCharHeap 0x61) 1 0x61 10 0 hv (.inr (by norm_num))).2 ?_
  exact ⟨by decide, by decide, by decide⟩

/-- A space is 0 from the heap and not a number as an immediate string, for `JS_ToNumber`. -/
theorem space_disagrees :
    ¬∀ (h : StrHeap) (id c radix flags : ℕ), Holds h (.ref id) [c] →
      (radix = 0 ∨ 2 ≤ radix ∧ radix ≤ 36) →
      jsAtod1 true h (.ref id) radix flags = jsAtod1 true h (.char c) radix flags := by
  intro h
  have := h (oneCharHeap 0x20) 1 0x20 0 0x102 (holds_oneCharHeap (by norm_num) 1) (.inl rfl)
  revert this
  decide

end Qjs
