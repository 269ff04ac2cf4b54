import Qjs.AetherStringify
import Qjs.Proofs.AetherParse

/-!
# The numbers of the JSON writer

What `%g` prints of a finite double is a number of the grammar, whose value is the double's to six
significant digits (`numberText_formatG`). The double of that value is the printed one just when it
is the nearest double of a decimal of six digits (`sixDouble_eq_iff`).
-/

namespace Qjs

namespace Aether

open JsonText Double

/-! ### Digits -/

@[simp] theorem decDigits_length : ∀ w m : ℕ, (decDigits w m).length = w
  | 0, _ => rfl
  | w + 1, m => by rw [decDigits, List.length_append, decDigits_length w, List.length_singleton]

theorem decDigits_digit : ∀ w m : ℕ, ∀ c ∈ decDigits w m, IsDigit c
  | 0, _, c, h => by simp [decDigits] at h
  | w + 1, m, c, h => by
    rw [decDigits, List.mem_append, List.mem_singleton] at h
    rcases h with h | rfl
    · exact decDigits_digit w _ c h
    · unfold IsDigit
      omega

theorem digitsValue_decDigits : ∀ w m : ℕ, m < 10 ^ w → digitsValue (decDigits w m) = m
  | 0, m, h => by
    rw [decDigits, digitsValue_nil]
    omega
  | w + 1, m, h => by
    rw [pow_succ] at h
    rw [decDigits, digitsValue_concat, digitsValue_decDigits w (m / 10) (by omega)]
    omega

/-- Digits with a large enough number do not start with a zero. -/
theorem decDigits_head : ∀ w m : ℕ, 10 ^ w ≤ m → m < 10 ^ (w + 1) →
    (decDigits (w + 1) m).head? ≠ some 0x30
  | 0, m, h1, h2 => by
    have : m ≠ 0 := by omega
    simp only [decDigits, List.nil_append, List.head?_cons, ne_eq, Option.some.injEq]
    omega
  | w + 1, m, h1, h2 => by
    have ih := decDigits_head w (m / 10) (by rw [pow_succ] at h1; omega)
      (by rw [pow_succ] at h2; omega)
    have hne : decDigits (w + 1) (m / 10) ≠ [] := by
      intro h0
      have := decDigits_length (w + 1) (m / 10)
      rw [h0] at this
      cases this
    rw [decDigits, List.head?_append_of_ne_nil _ hne]
    exact ih

theorem replicate_zeros (k : ℕ) : digitsValue (List.replicate k 0x30) = 0 := by
  induction k with
  | zero => rfl
  | succ k ih => rw [List.replicate_succ', digitsValue_concat, ih]

/-- What is stripped are zeros. -/
theorem stripZeros_append (ds : List ℕ) :
    ∃ k, ds = stripZeros ds ++ List.replicate k 0x30 := by
  induction ds using List.reverseRecOn with
  | nil => exact ⟨0, rfl⟩
  | append_singleton ds c ih =>
    obtain ⟨k, hk⟩ := ih
    by_cases hc : c = 0x30
    · refine ⟨k + 1, ?_⟩
      have hstrip : stripZeros (ds ++ [c]) = stripZeros ds := by
        simp [stripZeros, hc]
      rw [hstrip, List.replicate_succ', ← List.append_assoc, ← hk, hc]
    · refine ⟨0, ?_⟩
      have hstrip : stripZeros (ds ++ [c]) = ds ++ [c] := by
        simp [stripZeros, hc]
      rw [hstrip, List.replicate_zero, List.append_nil]

theorem stripZeros_subset (ds : List ℕ) : ∀ c ∈ stripZeros ds, c ∈ ds := by
  obtain ⟨k, hk⟩ := stripZeros_append ds
  intro c hc
  rw [hk]
  exact List.mem_append_left _ hc

theorem stripZeros_length (ds : List ℕ) : (stripZeros ds).length ≤ ds.length := by
  obtain ⟨k, hk⟩ := stripZeros_append ds
  have h := congrArg List.length hk
  rw [List.length_append] at h
  omega

/-- Zeros at the end of a fraction make no difference. -/
theorem digitsValue_strip (a ds : List ℕ) (e : ℤ) :
    (digitsValue (a ++ stripZeros ds) : ℚ) * 10 ^ (e - (stripZeros ds).length)
      = digitsValue (a ++ ds) * 10 ^ (e - ds.length) := by
  obtain ⟨k, hk⟩ := stripZeros_append ds
  generalize stripZeros ds = s at hk
  subst hk
  have hexp : e - s.length = e - ((s ++ List.replicate k 0x30).length : ℕ) + (k : ℤ) := by
    rw [List.length_append, List.length_replicate]
    push_cast
    ring
  rw [← List.append_assoc, digitsValue_append (a ++ s), replicate_zeros, List.length_replicate, hexp,
    ten_zpow_add]
  push_cast
  ring

theorem fracText_pointText {ds : List ℕ} (h : ∀ c ∈ ds, IsDigit c) : FracText (pointText ds) ds := by
  unfold pointText
  split_ifs with h0
  · subst h0
    exact .none
  · exact .some ⟨h0, h⟩

/-! ### The formats -/

/-- A text of a number, with counters that are small enough. -/
def Prints (t : List ℕ) (neg : Bool) (q : ℚ) : Prop :=
  ∃ d : Decimal, d.neg = neg ∧ d.magnitude = q ∧ NumberSmall d ∧ ∀ r, NumberText (t ++ r) d r

theorem numberSmall_of_length {d : Decimal} (hl : d.int.length + d.frac.length ≤ 100)
    (hx : ∀ c ∈ d.exp, IsDigit c) : NumberSmall d := by
  have he := (expOf_value hx).1
  unfold NumberSmall intMax
  omega

theorem signText_signText (neg : Bool) : SignText (signText neg) neg := by
  cases neg
  · exact .none
  · exact .minus

/-- The text that is put together of its parts. -/
theorem prints_of_parts {neg eneg : Bool} {n fr x es : List ℕ} {q : ℚ} (hn : IntText n)
    (hf : ∀ c ∈ fr, IsDigit c) (hx : ExpText x eneg es) (hl : n.length + fr.length ≤ 100)
    (hq : Decimal.magnitude ⟨neg, n, fr, eneg, es⟩ = q) :
    Prints (signText neg ++ (n ++ (pointText fr ++ x))) neg q := by
  have hes : ∀ c ∈ es, IsDigit c := by
    cases hx with
    | none => simp
    | some _ _ h => exact h.2
  refine ⟨⟨neg, n, fr, eneg, es⟩, rfl, hq, numberSmall_of_length hl hes, fun r => ?_⟩
  simp only [List.append_assoc]
  exact .mk (d := ⟨neg, n, fr, eneg, es⟩) (signText_signText neg) hn (fracText_pointText hf) hx

section Digits

variable {n m : ℕ} {x : ℤ} (h1 : 10 ^ n ≤ m) (h2 : m < 10 ^ (n + 1)) (neg : Bool)

include h1 h2

/-- The first digits of `n + 1`. -/
theorem intText_take {k : ℕ} (hk : 0 < k) : IntText ((decDigits (n + 1) m).take k) := by
  have hhead := decDigits_head n m h1 h2
  have hdig := decDigits_digit (n + 1) m
  have hlen := decDigits_length (n + 1) m
  generalize decDigits (n + 1) m = ds at hhead hdig hlen
  cases ds with
  | nil => cases hlen
  | cons c ds =>
    obtain ⟨k, rfl⟩ : ∃ j, k = j + 1 := ⟨k - 1, by omega⟩
    refine .inr ⟨⟨by simp, fun b hb => hdig b (List.mem_of_mem_take hb)⟩, ?_⟩
    rw [List.take_succ_cons]
    exact hhead

theorem prints_textF (hn : n ≤ 20) (hx : -4 ≤ x) (hxn : x ≤ n) :
    Prints (signText neg ++ textF (decDigits (n + 1) m) x) neg (m * 10 ^ (x - n)) := by
  have hval := digitsValue_decDigits (n + 1) m h2
  have hdig := decDigits_digit (n + 1) m
  have hlen := decDigits_length (n + 1) m
  unfold textF
  split_ifs with h0
  · obtain ⟨k, rfl⟩ : ∃ k : ℕ, x = k := ⟨x.toNat, by omega⟩
    have hint : IntText ((decDigits (n + 1) m).take (k + 1)) := intText_take h1 h2 (Nat.succ_pos k)
    rw [Int.toNat_natCast]
    generalize decDigits (n + 1) m = ds at hval hdig hlen hint
    have htl : (ds.take (k + 1)).length + (ds.drop (k + 1)).length = n + 1 := by
      rw [← List.length_append, List.take_append_drop, hlen]
    have hdl : (ds.drop (k + 1)).length = n - k := by
      rw [List.length_drop, hlen]
      omega
    have hst := stripZeros_length (ds.drop (k + 1))
    have hq : Decimal.magnitude ⟨neg, ds.take (k + 1), stripZeros (ds.drop (k + 1)), false, []⟩
        = m * 10 ^ ((k : ℤ) - n) := by
      rw [Decimal.magnitude]
      simp only [Decimal.exponent, digitsValue_nil, Bool.false_eq_true, if_false, Nat.cast_zero]
      rw [digitsValue_strip, List.take_append_drop, hval, hdl]
      congr 2
      omega
    have hp := prints_of_parts hint
      (fun c hc => hdig c (List.mem_of_mem_drop (stripZeros_subset _ c hc))) .none (by omega) hq
    rwa [List.append_nil] at hp
  · obtain ⟨z, rfl⟩ : ∃ z : ℕ, x = -z - 1 := ⟨(-x - 1).toNat, by omega⟩
    have hz : (-(-(z : ℤ) - 1) - 1).toNat = z := by omega
    rw [hz]
    have hst := stripZeros_length (List.replicate z 0x30 ++ decDigits (n + 1) m)
    rw [List.length_append, List.length_replicate, hlen] at hst
    have hdig' : ∀ c ∈ stripZeros (List.replicate z 0x30 ++ decDigits (n + 1) m), IsDigit c := by
      intro c hc
      rcases List.mem_append.1 (stripZeros_subset _ c hc) with hc | hc
      · rw [List.eq_of_mem_replicate hc]
        unfold IsDigit
        omega
      · exact hdig c hc
    have hzeros : [0x30] ++ List.replicate z 0x30 = List.replicate (z + 1) 0x30 := rfl
    have hq : Decimal.magnitude
        ⟨neg, [0x30], stripZeros (List.replicate z 0x30 ++ decDigits (n + 1) m), false, []⟩
        = m * 10 ^ (-(z : ℤ) - 1 - n) := by
      rw [Decimal.magnitude]
      simp only [Decimal.exponent, digitsValue_nil, Bool.false_eq_true, if_false, Nat.cast_zero]
      rw [digitsValue_strip, ← List.append_assoc, digitsValue_append, hval, hzeros, replicate_zeros,
        List.length_append, List.length_replicate, hlen, Nat.zero_mul, Nat.zero_add]
      congr 2
      push_cast
      ring
    have hp := prints_of_parts (.inl rfl) hdig' .none
      (by rw [List.length_singleton]; omega) hq
    rwa [List.append_nil] at hp

omit h1 h2 in
theorem expDigits_spec (n : ℕ) : Digits (expDigits n) ∧ digitsValue (expDigits n) = n := by
  unfold expDigits
  refine ⟨⟨?_, decDigits_digit _ _⟩, digitsValue_decDigits _ _ ?_⟩
  · intro h0
    have h := congrArg List.length h0
    rw [decDigits_length, List.length_nil] at h
    omega
  · calc n < 10 ^ (Nat.log 10 n + 1) := Nat.lt_pow_succ_log_self (by norm_num) n
      _ ≤ 10 ^ max 2 (Nat.log 10 n + 1) := Nat.pow_le_pow_right (by norm_num) (le_max_right _ _)

theorem prints_textE (hn : n ≤ 20) :
    Prints (signText neg ++ textE (decDigits (n + 1) m) x) neg (m * 10 ^ (x - n)) := by
  have hval := digitsValue_decDigits (n + 1) m h2
  have hdig := decDigits_digit (n + 1) m
  have hlen := decDigits_length (n + 1) m
  have hint := intText_take h1 h2 Nat.one_pos
  obtain ⟨hed, hev⟩ := expDigits_spec x.natAbs
  have hx : ExpText (0x65 :: (if x < 0 then 0x2d else 0x2b) :: expDigits x.natAbs)
      (decide (x < 0)) (expDigits x.natAbs) := by
    by_cases h0 : x < 0
    · rw [if_pos h0, decide_eq_true h0]
      exact .some (s := [0x2d]) (.inl rfl) (.inl .minus) hed
    · rw [if_neg h0, decide_eq_false h0]
      exact .some (s := [0x2b]) (.inl rfl) (.inr ⟨rfl, rfl⟩) hed
  generalize decDigits (n + 1) m = ds at hval hdig hlen hint
  have hdl : (ds.drop 1).length = n := by
    rw [List.length_drop, hlen]
    rfl
  have hst := stripZeros_length (ds.drop 1)
  unfold textE
  refine prints_of_parts hint
    (fun c hc => hdig c (List.mem_of_mem_drop (stripZeros_subset _ c hc))) hx ?_ ?_
  · rw [List.length_take]
    omega
  · have hexp : Decimal.exponent ⟨neg, ds.take 1, stripZeros (ds.drop 1), decide (x < 0),
        expDigits x.natAbs⟩ = x := by
      rw [Decimal.exponent]
      simp only [hev, decide_eq_true_eq]
      split_ifs <;> omega
    rw [Decimal.magnitude, hexp]
    simp only
    rw [digitsValue_strip, List.take_append_drop, hval, hdl]

end Digits

/-! ### Doubles -/

/-- Six digits of a magnitude that is no zero. -/
theorem prints_textG (neg : Bool) {q : ℚ} (hq : 0 ≤ q) :
    Prints (signText neg ++ textG q) neg (sigValue 6 q) := by
  unfold textG
  split_ifs with h0
  · subst h0
    have hq : Decimal.magnitude ⟨neg, [0x30], [], false, []⟩ = sigValue 6 0 := by
      simp [Decimal.magnitude, digitsValue]
    exact prints_of_parts (.inl rfl) (by simp) .none (by simp) hq
  · have hpos : 0 < q := lt_of_le_of_ne hq (Ne.symm h0)
    obtain ⟨hm1, hm2⟩ := sigDigits_bounds (n := 6) (by norm_num) hpos
    have hv : sigValue 6 q = (sixDigits q).1 * 10 ^ ((sixDigits q).2 - 5) := by
      unfold sigValue sixDigits
      norm_num
    rw [hv]
    unfold sixDigits
    generalize sigDigits 6 q = s at hm1 hm2
    obtain ⟨m, x⟩ := s
    simp only at hm1 hm2 ⊢
    split_ifs with hx
    · exact prints_textF hm1 hm2 neg (by norm_num) hx.1 (by push_cast; omega)
    · exact prints_textE hm1 hm2 neg (by norm_num)

/-- A number, and no infinity. -/
def IsFinite (d : Double) : Prop := ∃ neg m e, d.decode = .fin neg m e

/-- The double of the number to six significant digits. -/
def sixDouble (d : Double) : Double :=
  match d.decode with
  | .fin neg m e => ofRat neg (sigValue 6 (m * 2 ^ e))
  | _ => d

/-- The nearest double of a decimal with at most six digits. -/
def SixDigits (d : Double) : Prop := ∃ q, SigDecimal 6 q ∧ d = ofRat d.msb q

theorem sixDouble_of_exact {d : Double} {neg : Bool} {q : ℚ} (h : Exact d neg q) :
    sixDouble d = ofRat neg (sigValue 6 q) := by
  obtain ⟨m, e, h, rfl⟩ := h
  rw [sixDouble, h]

theorem exact_msb {d : Double} {neg : Bool} {q : ℚ} (h : Exact d neg q) : d.msb = neg := by
  obtain ⟨m, e, h, -⟩ := h
  unfold decode at h
  split_ifs at h <;> cases h <;> rfl

/-- A finite double is printed as a number. -/
theorem numberText_formatG {d : Double} (h : IsFinite d) :
    ∃ D : Decimal, D.double = sixDouble d ∧ NumberSmall D ∧
      ∀ r, NumberText (formatG d ++ r) D r := by
  obtain ⟨neg, m, e, h⟩ := h
  obtain ⟨D, hneg, hmag, hsmall, htext⟩ :=
    prints_textG neg (q := m * 2 ^ e) (by positivity)
  refine ⟨D, ?_, hsmall, ?_⟩
  · rw [Decimal.double, hneg, hmag, sixDouble, h]
  · rw [formatG, h]
    exact htext

theorem exact_ofRat_zero (neg : Bool) : Exact (ofRat neg 0) neg 0 := by
  refine ⟨0, -1074, ?_, by norm_num⟩
  cases neg <;> decide +kernel

/-- The magnitude of a finite double that is the nearest one of a number. -/
theorem exact_of_eq_ofRat {d : Double} {neg : Bool} {c : ℚ} (hd : IsFinite d) (hc : 0 < c)
    (h : d = ofRat neg c) : Exact d neg (rounded c) := by
  rw [h]
  refine exact_ofRat neg hc ?_
  by_contra hinf
  obtain ⟨_, _, _, hfin⟩ := hd
  rw [h, decode_ofRat_inf neg hinf] at hfin
  cases hfin

/-- The doubles that are kept. -/
theorem sixDouble_eq_iff {d : Double} (h : IsFinite d) : sixDouble d = d ↔ SixDigits d := by
  constructor
  · intro heq
    obtain ⟨neg, m, e, hdec⟩ := h
    have hx : Exact d neg (m * 2 ^ e) := ⟨m, e, hdec, rfl⟩
    rw [sixDouble_of_exact hx] at heq
    refine ⟨sigValue 6 (m * 2 ^ e), ?_, by rw [exact_msb hx, heq]⟩
    have hnonneg : (0 : ℚ) ≤ m * 2 ^ e := by positivity
    rcases hnonneg.eq_or_lt with h0 | hpos
    · exact ⟨0, 0, by norm_num, by rw [← h0, sigValue_zero]; norm_num⟩
    · exact sigValue_sigDecimal (by norm_num) hpos
  · rintro ⟨c, hsig, hd⟩
    have hnonneg : 0 ≤ c := by
      obtain ⟨m, e, -, rfl⟩ := hsig
      positivity
    rcases hnonneg.eq_or_lt with h0 | hpos
    · rw [← h0] at hd
      have hx := exact_ofRat_zero d.msb
      rw [← hd] at hx
      rw [sixDouble_of_exact hx, sigValue_zero, ← hd]
    · have hround : ofRat d.msb (sigValue 6 (rounded c)) = ofRat d.msb c := by
        unfold ofRat
        rw [ratMagnitude_sigValue (by norm_num) (by norm_num) hpos hsig]
      rw [sixDouble_of_exact (exact_of_eq_ofRat h hpos hd), hround, ← hd]

end Aether

end Qjs
