import Qjs.Proofs.AetherString

/-!
# The numbers of the JSON parser

`parse_number` takes the numbers of the grammar and gives the nearest double on each of its three
paths, unless one of its `int` counters overflows (`parseNumber_complete`, `parseNumber_sound`).
-/

namespace Qjs

namespace Aether

open JsonText

theorem isDigit_iff {c : ℕ} : isDigit c = true ↔ IsDigit c := by simp [isDigit, IsDigit]

/-- What follows does not go on with a digit. -/
def NoDigit (r : List ℕ) : Prop := ¬ isDigit (peek r) = true

/-- What follows does not go on with the number. -/
def Stop (r : List ℕ) : Prop :=
  NoDigit r ∧ peek r ≠ 0x2e ∧ peek r ≠ 0x65 ∧ peek r ≠ 0x45

theorem takeWhile_digits {ds r : List ℕ} (h : ∀ c ∈ ds, IsDigit c) (hr : NoDigit r) :
    (ds ++ r).takeWhile isDigit = ds ∧ (ds ++ r).dropWhile isDigit = r := by
  have hr' : r.takeWhile isDigit = [] ∧ r.dropWhile isDigit = r := by
    cases r with
    | nil => exact ⟨rfl, rfl⟩
    | cons c r =>
      have hc : ¬ isDigit c = true := hr
      exact ⟨by rw [List.takeWhile_cons, if_neg hc], by rw [List.dropWhile_cons, if_neg hc]⟩
  have hds : ∀ c ∈ ds, isDigit c = true := fun c hc => isDigit_iff.2 (h c hc)
  constructor
  · rw [List.takeWhile_append_of_pos hds, hr'.1, List.append_nil]
  · rw [List.dropWhile_append_of_pos hds, hr'.2]

theorem forall_takeWhile (p : List ℕ) : ∀ c ∈ p.takeWhile isDigit, IsDigit c :=
  fun _ hc => isDigit_iff.1 (List.mem_takeWhile_imp hc)

/-! ### Digits -/

/-- The digits `ds` after `a`. -/
def accOf (a : Acc) (ds : List ℕ) : Acc := ds.foldl (fun a c => a.push (c - 0x30)) a

theorem push_digits (a : Acc) (d : ℕ) : (a.push d).digits = a.digits + 1 := by
  unfold Acc.push
  split_ifs <;> rfl

theorem accOf_digits : ∀ (ds : List ℕ) (a : Acc), (accOf a ds).digits = a.digits + ds.length
  | [], a => rfl
  | c :: ds, a => by
    rw [accOf, List.foldl_cons, ← accOf, accOf_digits ds, push_digits, List.length_cons]
    omega

theorem scanDigits_eq : ∀ (p : List ℕ) (a : Acc), a.digits ≤ intMax →
    scanDigits a p = if a.digits + (p.takeWhile isDigit).length ≤ intMax
      then .ok (accOf a (p.takeWhile isDigit), p.dropWhile isDigit) else .error .overflow
  | [], a, h => by
    rw [scanDigits, if_pos (by simpa using h)]
    rfl
  | c :: p, a, h => by
    rw [scanDigits, List.takeWhile_cons, List.dropWhile_cons]
    by_cases hc : isDigit c = true
    · simp only [hc, if_true, List.length_cons]
      by_cases hmax : a.digits = intMax
      · rw [if_pos hmax, if_neg (by omega)]
      · rw [if_neg hmax, scanDigits_eq p (a.push (c - 0x30)) (by rw [push_digits]; omega),
          push_digits]
        simp only [Nat.add_assoc, Nat.add_comm 1]
        rfl
    · simp only [hc, Bool.false_eq_true, if_false, List.length_nil, add_zero, h, if_true]
      rfl

theorem scanDigits_append {ds r : List ℕ} (h : ∀ c ∈ ds, IsDigit c) (hr : NoDigit r) :
    scanDigits .zero (ds ++ r)
      = if ds.length ≤ intMax then .ok (accOf .zero ds, r) else .error .overflow := by
  obtain ⟨h1, h2⟩ := takeWhile_digits h hr
  rw [scanDigits_eq _ _ (Nat.zero_le _), h1, h2]
  simp only [Acc.zero, Nat.zero_add]

theorem scanDigits_ok {p r : List ℕ} {a b : Acc} (h : scanDigits a p = .ok (b, r))
    (ha : a.digits ≤ intMax) : p = p.takeWhile isDigit ++ r := by
  rw [scanDigits_eq p a ha] at h
  split_ifs at h
  cases h
  exact (List.takeWhile_append_dropWhile).symm

/-- Digits that are there are taken. -/
theorem digits_takeWhile {p : List ℕ} (h : isDigit (peek p) = true) : Digits (p.takeWhile isDigit) := by
  refine ⟨?_, forall_takeWhile p⟩
  cases p with
  | nil => simp [peek, isDigit] at h
  | cons c p =>
    have hc : isDigit c = true := h
    rw [List.takeWhile_cons, if_pos hc]
    simp

theorem head?_takeWhile {p : List ℕ} (h : peek p ≠ 0x30) :
    (p.takeWhile isDigit).head? ≠ some 0x30 := by
  cases p with
  | nil => simp
  | cons c p =>
    have hc : c ≠ 0x30 := h
    rw [List.takeWhile_cons]
    split_ifs <;> simp [hc]

theorem peek_digits {ds : List ℕ} (h : Digits ds) (r : List ℕ) : IsDigit (peek (ds ++ r)) := by
  obtain ⟨hne, hds⟩ := h
  cases ds with
  | nil => exact absurd rfl hne
  | cons c ds => exact hds c List.mem_cons_self

theorem intText_digits {n : List ℕ} (h : IntText n) : Digits n := by
  rcases h with rfl | ⟨h, -⟩
  · exact ⟨by simp, by simp [IsDigit]⟩
  · exact h

/-! ### The parts of a number -/

theorem scanInt_text {n r : List ℕ} (h : IntText n) (hr : NoDigit r) :
    scanInt (n ++ r)
      = if n.length ≤ intMax then .ok (accOf .zero n, r) else .error .overflow := by
  have hd := isDigit_iff.2 (peek_digits (intText_digits h) r)
  unfold scanInt
  rw [if_neg (by simpa using hd)]
  rcases h with rfl | ⟨hn, hz⟩
  · have hr' : ¬ isDigit (peek ([0x30] ++ r).tail) = true := hr
    rw [if_pos (by rfl), if_neg hr', if_pos (by simp [intMax])]
    rfl
  · have hne : peek (n ++ r) ≠ 0x30 := by
      intro hp
      cases n with
      | nil => exact hn.1 rfl
      | cons c n =>
        have hc : c = 0x30 := hp
        simp [hc] at hz
    rw [if_neg hne, scanDigits_append hn.2 hr]

theorem scanInt_ok {p r : List ℕ} {a : Acc} (h : scanInt p = .ok (a, r)) :
    ∃ n, IntText n ∧ p = n ++ r := by
  unfold scanInt at h
  split_ifs at h with h1 h2 h3
  · cases h
    exact ⟨[0x30], .inl rfl, peek_eq_cons h2 (by norm_num)⟩
  · exact ⟨_, .inr ⟨digits_takeWhile h1, head?_takeWhile h2⟩, scanDigits_ok h (Nat.zero_le _)⟩

theorem scanFrac_text {f ds r : List ℕ} (h : FracText f ds) (hr : NoDigit r)
    (hdot : peek r ≠ 0x2e) :
    scanFrac (f ++ r) = if ds.length ≤ intMax then .ok (!ds.isEmpty, accOf .zero ds, r)
      else .error .overflow := by
  unfold scanFrac
  cases h with
  | none =>
    rw [List.nil_append, if_neg hdot]
    rfl
  | some h =>
    have hd := isDigit_iff.2 (peek_digits h r)
    have hne : ds.isEmpty = false := by simpa using h.1
    rw [List.cons_append, if_pos (by rfl), List.tail_cons, if_neg (by simpa using hd),
      scanDigits_append h.2 hr, hne]
    split_ifs <;> rfl

theorem scanFrac_ok {p r : List ℕ} {has : Bool} {a : Acc} (h : scanFrac p = .ok (has, a, r)) :
    ∃ f ds, FracText f ds ∧ p = f ++ r := by
  unfold scanFrac at h
  split_ifs at h with h1 h2
  · obtain ⟨⟨f, q⟩, hs, h⟩ := bind_eq_ok.1 h
    cases h
    refine ⟨_, _, .some (digits_takeWhile h2), ?_⟩
    rw [List.cons_append, ← scanDigits_ok hs (Nat.zero_le _)]
    exact peek_eq_cons h1 (by norm_num)
  · cases h
    exact ⟨[], [], .none, rfl⟩

/-- The exponent as far as it is read: it stays once it is above 10000. -/
def expOf (s : ℕ × Bool) (ds : List ℕ) : ℕ × Bool :=
  ds.foldl (fun s c => if s.1 > 10000 then (s.1, true) else (s.1 * 10 + (c - 0x30), s.2)) s

theorem expLoop_eq : ∀ (p : List ℕ) (e : ℕ) (overflow : Bool),
    expLoop e overflow p = ((expOf (e, overflow) (p.takeWhile isDigit)).1,
      (expOf (e, overflow) (p.takeWhile isDigit)).2, p.dropWhile isDigit)
  | [], e, overflow => rfl
  | c :: p, e, overflow => by
    rw [expLoop, List.takeWhile_cons, List.dropWhile_cons]
    by_cases hc : isDigit c = true
    · simp only [hc, if_true, expOf, List.foldl_cons]
      split_ifs with he
      · exact expLoop_eq p e true
      · exact expLoop_eq p _ overflow
    · simp only [hc, Bool.false_eq_true, if_false]
      rfl

/-- The bytes of the sign of an exponent. -/
theorem skipSign_eq {s : List ℕ} {neg : Bool} (hs : SignText s neg ∨ s = [0x2b] ∧ neg = false)
    {t : List ℕ} (ht : IsDigit (peek t)) :
    (peek (s ++ t) == 0x2d) = neg
      ∧ skipSign (s ++ t) = t := by
  unfold skipSign
  rcases hs with hs | ⟨rfl, rfl⟩
  · cases hs with
    | none =>
      have h1 : peek t ≠ 0x2d := by
        unfold IsDigit at ht
        omega
      have h2 : peek t ≠ 0x2b := by
        unfold IsDigit at ht
        omega
      simp [h1, h2]
    | minus => exact ⟨rfl, rfl⟩
  · exact ⟨rfl, rfl⟩

theorem scanExp_text {x ds r : List ℕ} {neg : Bool} (h : ExpText x neg ds) (hr : Stop r) :
    scanExp (x ++ r) = .ok (⟨!ds.isEmpty, neg, (expOf (0, false) ds).1, (expOf (0, false) ds).2⟩, r)
    := by
  unfold scanExp
  cases h with
  | none =>
    rw [List.nil_append, if_neg (by rintro (h | h); exacts [hr.2.2.1 h, hr.2.2.2 h])]
    rfl
  | @some e s ds neg he hs h =>
    have hd := peek_digits h r
    obtain ⟨hneg, hskip⟩ := skipSign_eq hs hd
    obtain ⟨h1, h2⟩ := takeWhile_digits h.2 hr.1
    have hne : ds.isEmpty = false := by simpa using h.1
    have he' : peek (e :: (s ++ (ds ++ r))) = 0x65 ∨ peek (e :: (s ++ (ds ++ r))) = 0x45 := he
    rw [List.cons_append, List.append_assoc, if_pos he']
    simp only [List.tail_cons, hneg, hskip]
    rw [if_neg (by simpa using isDigit_iff.2 hd), expLoop_eq, h1, h2, hne]
    rfl

theorem scanExp_ok {p r : List ℕ} {x : Expo} (h : scanExp p = .ok (x, r)) :
    ∃ t neg ds, ExpText t neg ds ∧ p = t ++ r := by
  unfold scanExp at h
  split_ifs at h with h1
  · simp only at h
    generalize hq : p.tail = q at h
    have hp : p = peek p :: q := by
      rw [← hq]
      exact peek_eq_cons rfl (by rcases h1 with h1 | h1 <;> rw [h1] <;> norm_num)
    have hsign : ∃ s neg, (SignText s neg ∨ s = [0x2b] ∧ neg = false)
        ∧ q = s ++ skipSign q := by
      unfold skipSign
      by_cases hplus : peek q = 0x2b
      · rw [if_pos (.inl hplus)]
        exact ⟨[0x2b], false, .inr ⟨rfl, rfl⟩, peek_eq_cons hplus (by norm_num)⟩
      by_cases hminus : peek q = 0x2d
      · rw [if_pos (.inr hminus)]
        exact ⟨[0x2d], true, .inl .minus, peek_eq_cons hminus (by norm_num)⟩
      · rw [if_neg (by simp [hplus, hminus])]
        exact ⟨[], false, .inl .none, rfl⟩
    obtain ⟨s, neg, hs, hqs⟩ := hsign
    generalize skipSign q = t at h hqs
    split_ifs at h with h2
    rw [expLoop_eq] at h
    cases h
    refine ⟨_, _, _, .some h1 hs (digits_takeWhile h2), ?_⟩
    rw [List.cons_append, List.append_assoc, List.takeWhile_append_dropWhile, ← hqs]
    exact hp
  · cases h
    exact ⟨[], _, [], .none, rfl⟩

theorem parseNumber_sound {p r : List ℕ} {v : JsonValue} (h : parseNumber p = .ok (v, r)) :
    ∃ d, NumberText p d r := by
  obtain ⟨⟨i, p₁⟩, h₁, h⟩ := bind_eq_ok.1 h
  obtain ⟨⟨has, f, p₂⟩, h₂, h⟩ := bind_eq_ok.1 h
  obtain ⟨⟨x, p₃⟩, h₃, h⟩ := bind_eq_ok.1 h
  obtain ⟨val, -, h⟩ := bind_eq_ok.1 h
  cases h
  obtain ⟨n, hn, hp⟩ := scanInt_ok h₁
  obtain ⟨ft, ds, hf, hp₁⟩ := scanFrac_ok h₂
  obtain ⟨xt, eneg, es, hx, hp₂⟩ := scanExp_ok h₃
  subst hp₂ hp₁
  by_cases hm : (peek p == 0x2d) = true
  · rw [if_pos hm] at hp
    have hm' : peek p = 0x2d := by simpa using hm
    rw [peek_eq_cons hm' (by norm_num), hp]
    exact ⟨⟨true, n, ds, eneg, es⟩, .mk (d := ⟨true, n, ds, eneg, es⟩) .minus hn hf hx⟩
  · rw [if_neg hm] at hp
    rw [hp]
    exact ⟨⟨false, n, ds, eneg, es⟩, .mk (d := ⟨false, n, ds, eneg, es⟩) .none hn hf hx⟩

/-! ### The arithmetic -/

theorem digitsValue_nil : digitsValue [] = 0 := rfl

theorem digitsValue_concat (ds : List ℕ) (c : ℕ) :
    digitsValue (ds ++ [c]) = 10 * digitsValue ds + (c - 0x30) := by
  simp [digitsValue, List.foldl_append]

theorem digitsValue_append (ds es : List ℕ) :
    digitsValue (ds ++ es) = digitsValue ds * 10 ^ es.length + digitsValue es := by
  induction es using List.reverseRecOn with
  | nil => simp [digitsValue_nil]
  | append_singleton es c ih =>
    rw [← List.append_assoc, digitsValue_concat, ih, digitsValue_concat, List.length_append,
      List.length_singleton, pow_succ]
    ring

theorem digitsValue_lt {ds : List ℕ} (h : ∀ c ∈ ds, IsDigit c) :
    digitsValue ds < 10 ^ ds.length := by
  induction ds using List.reverseRecOn with
  | nil => simp [digitsValue_nil]
  | append_singleton ds c ih =>
    have hc : IsDigit c := h c (by simp)
    have hds := ih fun d hd => h d (by simp [hd])
    rw [digitsValue_concat, List.length_append, List.length_singleton, pow_succ]
    unfold IsDigit at hc
    omega

theorem accOf_concat (a : Acc) (ds : List ℕ) (c : ℕ) :
    accOf a (ds ++ [c]) = (accOf a ds).push (c - 0x30) := by
  simp [accOf, List.foldl_append]

/-- Without an overflow the accumulator is the number of the digits. -/
theorem accOf_acc {ds : List ℕ} (h : ∀ c ∈ ds, IsDigit c) :
    (accOf .zero ds).acc ≤ uint64Max
      ∧ ((accOf .zero ds).overflow = false → (accOf .zero ds).acc = digitsValue ds) := by
  induction ds using List.reverseRecOn with
  | nil => simp [accOf, Acc.zero, digitsValue_nil, uint64Max]
  | append_singleton ds c ih =>
    have hc : IsDigit c := h c (by simp)
    obtain ⟨hle, hval⟩ := ih fun d hd => h d (by simp [hd])
    unfold IsDigit at hc
    rw [accOf_concat, digitsValue_concat]
    unfold Acc.push
    split_ifs with hov
    · exact ⟨hle, fun h => by simp at h⟩
    · refine ⟨?_, fun h => ?_⟩
      · unfold uint64Max at *
        simp only
        omega
      · have := hval h
        simp only
        omega

theorem expOf_concat (s : ℕ × Bool) (ds : List ℕ) (c : ℕ) :
    expOf s (ds ++ [c]) = if (expOf s ds).1 > 10000 then ((expOf s ds).1, true)
      else ((expOf s ds).1 * 10 + (c - 0x30), (expOf s ds).2) := by
  simp [expOf, List.foldl_append]

/-- Where the exponent is not cut off it is the number of its digits. -/
theorem expOf_value {ds : List ℕ} (h : ∀ c ∈ ds, IsDigit c) :
    (expOf (0, false) ds).1 ≤ 100009
      ∧ ((expOf (0, false) ds).2 = false → (expOf (0, false) ds).1 = digitsValue ds) := by
  induction ds using List.reverseRecOn with
  | nil => simp [expOf, digitsValue_nil]
  | append_singleton ds c ih =>
    have hc : IsDigit c := h c (by simp)
    obtain ⟨hle, hval⟩ := ih fun d hd => h d (by simp [hd])
    unfold IsDigit at hc
    rw [expOf_concat, digitsValue_concat]
    split_ifs with hbig
    · exact ⟨hle, fun h => by simp at h⟩
    · refine ⟨?_, fun h => ?_⟩
      · simp only
        omega
      · have := hval h
        simp only
        omega

theorem exact_pow10Pos {k : ℕ} (h : k ≤ 22) : Double.Exact (pow10Pos k) false (10 ^ k) := by
  refine Double.exact_ten_pow ?_
  calc 5 ^ k ≤ 5 ^ 22 := Nat.pow_le_pow_right (by norm_num) h
    _ < 2 ^ 53 := by norm_num

theorem trunc_pow10Pos {k : ℕ} (h : k ≤ 22) : (Double.trunc (pow10Pos k)).toNat = 10 ^ k := by
  have hx := exact_pow10Pos h
  have hcast : (10 : ℚ) ^ k = ((10 ^ k : ℕ) : ℚ) := by push_cast; rfl
  rw [hcast] at hx
  rw [hx.trunc_natCast, Int.toNat_natCast]

/-- The mantissa times a power of ten is rounded once. -/
theorem scale_eq {m : ℕ} (hm : m < 2 ^ 53) {e : ℤ} (h1 : -22 ≤ e) (h2 : e ≤ 22) :
    (if 0 < e then Double.mul (Double.ofScaled false m 0) (pow10Pos e.toNat)
      else if e < 0 then Double.div (Double.ofScaled false m 0) (pow10Pos (-e).toNat)
      else Double.ofScaled false m 0) = Double.ofRat false (m * 10 ^ e) := by
  have hx := Double.exact_ofScaled_natCast false hm
  split_ifs with hpos hneg
  · have he : (10 : ℚ) ^ e = 10 ^ e.toNat := by
      rw [← zpow_natCast, Int.toNat_of_nonneg hpos.le]
    rw [hx.mul (exact_pow10Pos (by omega)), he]
    rfl
  · have he : (10 : ℚ) ^ e = (10 ^ (-e).toNat)⁻¹ := by
      rw [← zpow_natCast, Int.toNat_of_nonneg (by omega), zpow_neg, inv_inv]
    rw [hx.div (exact_pow10Pos (by omega)) (by positivity), he, div_eq_mul_inv]
    rfl
  · obtain rfl : e = 0 := by omega
    rw [zpow_zero, mul_one, Double.ofRat_natCast]

section Value

variable {d : Decimal}

/-- The digits of a decimal, and an exponent that has digits if it has a sign. -/
structure Formed (d : Decimal) : Prop where
  int : Digits d.int
  frac : ∀ c ∈ d.frac, IsDigit c
  exp : ∀ c ∈ d.exp, IsDigit c
  noExp : d.exp = [] → d.expNeg = false

/-- The exponent as it is read, cut off above 10000. -/
def Decimal.readExp (d : Decimal) : ℤ :=
  if d.expNeg then -((expOf (0, false) d.exp).1 : ℤ) else (expOf (0, false) d.exp).1

theorem fastDouble_eq (hd : Formed d) (hi : (accOf .zero d.int).overflow = false)
    (hf : (accOf .zero d.frac).overflow = false) (hlen : d.int.length + d.frac.length ≤ 15)
    (he1 : -22 ≤ d.exponent - d.frac.length) (he2 : d.exponent - d.frac.length ≤ 22) :
    fastDouble d.neg (accOf .zero d.int) (accOf .zero d.frac) (d.exponent - d.frac.length)
      = d.double := by
  have hai := (accOf_acc hd.int.2).2 hi
  have haf := (accOf_acc hd.frac).2 hf
  have hdig : (accOf .zero d.frac).digits = d.frac.length := by
    rw [accOf_digits]
    simp [Acc.zero]
  have hlt : digitsValue (d.int ++ d.frac) < 10 ^ 15 := by
    have h := @digitsValue_lt (d.int ++ d.frac) (fun c hc => by
      rcases List.mem_append.1 hc with hc | hc
      exacts [hd.int.2 c hc, hd.frac c hc])
    rw [List.length_append] at h
    exact h.trans_le (Nat.pow_le_pow_right (by norm_num) hlen)
  have hmant : (if 0 < (accOf .zero d.frac).digits then
      ((accOf .zero d.int).acc * (Double.trunc (pow10Pos (accOf .zero d.frac).digits)).toNat
        + (accOf .zero d.frac).acc) % 2 ^ 64
      else (accOf .zero d.int).acc) = digitsValue (d.int ++ d.frac) := by
    rw [hdig, hai, haf, digitsValue_append] at *
    split_ifs with h0
    · rw [trunc_pow10Pos (by omega)]
      exact Nat.mod_eq_of_lt (by omega)
    · have hnil : d.frac = [] := List.eq_nil_of_length_eq_zero (by omega)
      simp [hnil, digitsValue_nil]
  unfold fastDouble
  simp only [hmant]
  rw [scale_eq (by omega) he1 he2, Decimal.double, Decimal.magnitude]
  cases d.neg
  · rfl
  · exact Double.neg_ofRat false _

/-- The counters of the digits fit an `int`, and so does the exponent of the last digit. -/
def NumberSmall (d : Decimal) : Prop :=
  d.int.length + d.frac.length ≤ intMax
    ∧ (d.expNeg = true → (expOf (0, false) d.exp).1 + d.frac.length ≤ 2 ^ 31)

instance : DecidablePred NumberSmall := fun _ => inferInstanceAs (Decidable (_ ∧ _))

theorem intMin_le_iff (h : d.int.length + d.frac.length ≤ intMax) :
    intMin ≤ Decimal.readExp d - d.frac.length ↔ NumberSmall d := by
  unfold NumberSmall Decimal.readExp
  simp only [h, true_and]
  unfold intMin intMax at *
  cases d.expNeg
  · simp only [Bool.false_eq_true, if_false, false_implies, iff_true]
    omega
  · simp only [if_true, true_implies]
    omega

theorem double_of_int (hf : d.frac = []) (hx : d.exp = []) :
    d.double = Double.ofScaled d.neg (digitsValue d.int) 0 := by
  have hexp : d.exponent = 0 := by simp [Decimal.exponent, hx, digitsValue_nil]
  rw [Decimal.double, Decimal.magnitude, hexp, hf, List.append_nil, List.length_nil]
  simp only [Nat.cast_zero, sub_zero, zpow_zero, mul_one]
  exact Double.ofRat_natCast _ _

theorem ofInt_natCast (m : ℕ) : Double.ofInt m = Double.ofScaled false m 0 := by
  have h : decide ((m : ℤ) < 0) = false := decide_eq_false (by omega)
  rw [Double.ofInt, h, Int.natAbs_natCast]

theorem ofInt_neg_natCast {m : ℕ} (hm : 0 < m) : Double.ofInt (-m) = Double.ofScaled true m 0 := by
  have h : decide (-(m : ℤ) < 0) = true := decide_eq_true (by omega)
  rw [Double.ofInt, h, Int.natAbs_neg, Int.natAbs_natCast]

/-- The negative integers on the path for integers. -/
theorem negative_int (m : ℕ) :
    (if m = int64Max + 1 then Double.ofInt (-2 ^ 63) else Double.neg (Double.ofScaled false m 0))
      = Double.ofScaled true m 0 := by
  split_ifs with h
  · have hm : ((m : ℕ) : ℤ) = 2 ^ 63 := by
      rw [h]
      rfl
    rw [← hm]
    exact ofInt_neg_natCast (by omega)
  · exact Double.neg_ofScaled false m 0

theorem numberValue_eq (hd : Formed d) (hi : d.int.length ≤ intMax) {text : List ℕ}
    (htext : strtod text = (d.double, [])) :
    numberValue d.neg (accOf .zero d.int) (!d.frac.isEmpty) (accOf .zero d.frac)
      ⟨!d.exp.isEmpty, d.expNeg, (expOf (0, false) d.exp).1, (expOf (0, false) d.exp).2⟩ text
      = if NumberSmall d then .ok d.double else .error .overflow := by
  have hidig : (accOf .zero d.int).digits = d.int.length := by
    rw [accOf_digits]
    simp [Acc.zero]
  have hfdig : (accOf .zero d.frac).digits = d.frac.length := by
    rw [accOf_digits]
    simp [Acc.zero]
  have hexp : (if (!d.exp.isEmpty) = true then
      if d.expNeg = true then -((expOf (0, false) d.exp).1 : ℤ) else (expOf (0, false) d.exp).1
      else 0) = Decimal.readExp d := by
    cases hx : d.exp with
    | nil =>
      rw [Decimal.readExp, hd.noExp hx, hx]
      rfl
    | cons c ds =>
      rw [Decimal.readExp, hx]
      rfl
  have hai := (accOf_acc hd.int.2).2
  unfold numberValue
  simp only [hexp, hidig, hfdig]
  generalize hE : Decimal.readExp d - (d.frac.length : ℤ) = E
  by_cases h1 : E < intMin
  · have hns : ¬ NumberSmall d := fun h => by
      have := (intMin_le_iff h.1).2 h
      omega
    rw [if_pos h1, if_neg hns]
  rw [if_neg h1]
  simp only [negative_int, Bool.and_eq_true, Bool.not_eq_true', decide_eq_true_eq,
    Bool.not_eq_false', List.isEmpty_iff]
  have htot : NumberSmall d ↔ d.int.length + d.frac.length ≤ intMax :=
    ⟨And.left, fun h => (intMin_le_iff h).1 (by omega)⟩
  have hlen : d.frac = [] → NumberSmall d := fun h => htot.2 (by simpa [h] using hi)
  by_cases hs : NumberSmall d
  · rw [if_pos hs]
    have htot' := htot.1 hs
    split_ifs with h2 h3 h4 h5 h6
    · obtain ⟨⟨⟨⟨hf, hx⟩, hov⟩, hneg⟩, -⟩ := h2
      rw [double_of_int hf hx, hneg, hai hov]
    · obtain ⟨⟨⟨⟨hf, hx⟩, hov⟩, hneg⟩, -⟩ := h3
      rw [double_of_int hf hx, hneg, hai hov, ofInt_natCast]
    · omega
    · obtain ⟨⟨⟨⟨⟨hiov, hfov⟩, hxov⟩, h15⟩, he1⟩, he2⟩ := h5
      have hread : Decimal.readExp d = d.exponent := by
        rw [Decimal.readExp, Decimal.exponent, (expOf_value hd.exp).2 hxov]
      rw [← hE, hread] at he1 he2 ⊢
      rw [fastDouble_eq hd hiov hfov h15 he1 he2]
    · rw [htext] at h6
      exact absurd rfl h6
    · rw [htext]
  · rw [if_neg hs]
    have htot' : ¬ d.int.length + d.frac.length ≤ intMax := fun h => hs (htot.2 h)
    split_ifs with h2 h3 h4
    · exact absurd (hlen h2.1.1.1.1) hs
    · exact absurd (hlen h3.1.1.1.1) hs
    · rfl
    all_goals omega

end Value

/-! ### The number as a whole -/

theorem stop_nil : Stop [] := by
  refine ⟨by simp [NoDigit, peek, isDigit], ?_, ?_, ?_⟩ <;> simp [peek]

/-- An exponent does not start with a digit or a point. -/
theorem peek_exp {x ds r : List ℕ} {neg : Bool} (h : ExpText x neg ds) (hr : Stop r) :
    NoDigit (x ++ r) ∧ peek (x ++ r) ≠ 0x2e := by
  cases h with
  | none => exact ⟨hr.1, hr.2.1⟩
  | some he hs h =>
    rcases he with rfl | rfl <;> simp [NoDigit, peek, isDigit]

theorem peek_frac {f ds r : List ℕ} (h : FracText f ds) (hr : NoDigit r) : NoDigit (f ++ r) := by
  cases h with
  | none => exact hr
  | some h => simp [NoDigit, peek, isDigit]

theorem formed_of_text {f x : List ℕ} {d : Decimal} (hn : IntText d.int) (hf : FracText f d.frac)
    (hx : ExpText x d.expNeg d.exp) : Formed d := by
  refine ⟨intText_digits hn, ?_, ?_, ?_⟩
  · generalize d.frac = ds at hf
    cases hf with
    | none => simp
    | some h => exact h.2
  · generalize d.exp = ds, d.expNeg = b at hx
    cases hx with
    | none => simp
    | some he hs h => exact h.2
  · generalize d.exp = ds, d.expNeg = b at hx
    cases hx with
    | none => simp
    | some he hs h => exact fun h0 => absurd h0 h.1

/-- `strtod` from the exponent on. -/
theorem strtod_exp {neg eneg : Bool} {n f x es : List ℕ} (hx : ExpText x eneg es) :
    (if (peek x = 0x65 ∨ peek x = 0x45) ∧ isDigit (peek (skipSign x.tail)) = true then
      (Decimal.double ⟨neg, n, f, peek x.tail == 0x2d, (skipSign x.tail).takeWhile isDigit⟩,
        (skipSign x.tail).dropWhile isDigit)
      else (Decimal.double ⟨neg, n, f, false, []⟩, x)) = (Decimal.double ⟨neg, n, f, eneg, es⟩, [])
    := by
  cases hx with
  | none =>
    rw [if_neg]
    simp [peek]
  | @some e s ds neg' he hs h =>
    have hd := peek_digits h []
    obtain ⟨hneg, hskip⟩ := skipSign_eq hs hd
    obtain ⟨h1, h2⟩ := takeWhile_digits h.2 stop_nil.1
    rw [List.append_nil] at *
    rw [List.tail_cons, hskip, hneg, h1, h2, if_pos ⟨he, isDigit_iff.2 hd⟩]

theorem strtod_text {s f x : List ℕ} {d : Decimal} (hs : SignText s d.neg) (hn : IntText d.int)
    (hf : FracText f d.frac) (hx : ExpText x d.expNeg d.exp) :
    strtod (s ++ (d.int ++ (f ++ x))) = (d.double, []) := by
  obtain ⟨neg, n, ds, eneg, es⟩ := d
  dsimp only at hs hn hf hx ⊢
  have hx0 := peek_exp hx stop_nil
  rw [List.append_nil] at hx0
  obtain ⟨hneg, hskip⟩ := skipSign_eq (.inl hs) (peek_digits (intText_digits hn) (f ++ x))
  obtain ⟨h1, h2⟩ := takeWhile_digits (intText_digits hn).2 (peek_frac hf hx0.1)
  have hne : n ≠ [] := (intText_digits hn).1
  have hfrac : (if peek (f ++ x) = 0x2e then
      ((f ++ x).tail.takeWhile isDigit, (f ++ x).tail.dropWhile isDigit) else ([], f ++ x))
      = (ds, x) := by
    cases hf with
    | none => rw [List.nil_append, if_neg hx0.2]
    | some hds =>
      obtain ⟨h3, h4⟩ := takeWhile_digits hds.2 hx0.1
      rw [List.cons_append, if_pos (by rfl), List.tail_cons, h3, h4]
  unfold strtod
  simp only [hneg, hskip, h1, h2, hne, false_and, if_false, hfrac]
  exact strtod_exp hx

/-- A number is taken; it is rounded once, or one of the counters overflows. -/
theorem parseNumber_complete {i r : List ℕ} {d : Decimal} (h : NumberText i d r) (hr : Stop r) :
    parseNumber i = if NumberSmall d then .ok (.number d.double, r) else .error .overflow := by
  cases h with
  | @mk s f x r d hs hn hf hx =>
    have hx0 := peek_exp hx hr
    have hf0 := peek_frac hf hx0.1
    obtain ⟨hneg, hskip⟩ := skipSign_eq (.inl hs) (peek_digits (intText_digits hn) (f ++ (x ++ r)))
    have hstart : (if d.neg = true then (s ++ (d.int ++ (f ++ (x ++ r)))).tail
        else s ++ (d.int ++ (f ++ (x ++ r)))) = d.int ++ (f ++ (x ++ r)) := by
      generalize d.neg = b at hs
      cases hs <;> rfl
    have htake : (s ++ (d.int ++ (f ++ (x ++ r)))).take
        ((s ++ (d.int ++ (f ++ (x ++ r)))).length - r.length) = s ++ (d.int ++ (f ++ x)) := by
      have happ : s ++ (d.int ++ (f ++ (x ++ r))) = (s ++ (d.int ++ (f ++ x))) ++ r := by
        simp only [List.append_assoc]
      rw [happ, List.length_append, Nat.add_sub_cancel, List.take_left]
    unfold parseNumber
    simp only [hneg, hstart, scanInt_text hn hf0]
    by_cases hi : d.int.length ≤ intMax
    · rw [if_pos hi, ok_bind]
      simp only [scanFrac_text hf hx0.1 hx0.2]
      by_cases hfl : d.frac.length ≤ intMax
      · rw [if_pos hfl, ok_bind]
        simp only [scanExp_text hx hr, ok_bind, htake]
        rw [numberValue_eq (formed_of_text hn hf hx) hi (strtod_text hs hn hf hx)]
        split_ifs <;> rfl
      · have hs' : ¬ NumberSmall d := fun h => by
          have := h.1
          omega
        rw [if_neg hfl, if_neg hs']
        rfl
    · have hs' : ¬ NumberSmall d := fun h => by
        have := h.1
        omega
      rw [if_neg hi, if_neg hs']
      rfl

/-- The double is that of the numeral, rounded once, exactly as long as the counters last. -/
theorem parseNumber_rounds_iff {i r : List ℕ} {d : Decimal} (h : NumberText i d r) (hr : Stop r) :
    parseNumber i = .ok (.number d.double, r) ↔ NumberSmall d := by
  rw [parseNumber_complete h hr]
  split_ifs with hs
  · exact iff_of_true rfl hs
  · refine iff_of_false ?_ hs
    intro hok
    cases hok

theorem parseNumber_rounds_seven :
    parseNumber [0x37] = .ok (.number (Decimal.double ⟨false, [0x37], [], false, []⟩), []) := by
  have h : NumberText [0x37] ⟨false, [0x37], [], false, []⟩ [] := by
    refine @NumberText.mk [] [] [] [] ⟨false, [0x37], [], false, []⟩ .none (.inr ⟨?_, ?_⟩) .none .none
    · exact ⟨by simp, by simp [IsDigit]⟩
    · simp
  exact (parseNumber_rounds_iff h stop_nil).2 ⟨by decide, by simp⟩

/-- `1.` with `n` zeros after the point. -/
def onePointZeros (n : ℕ) : Decimal := ⟨false, [0x31], List.replicate n 0x30, false, []⟩

theorem onePointZeros_text {n : ℕ} (hn : 0 < n) :
    NumberText (0x31 :: 0x2e :: List.replicate n 0x30) (onePointZeros n) [] := by
  have hdigits : Digits (List.replicate n 0x30) := by
    refine ⟨?_, fun c hc => ?_⟩
    · rw [Ne, List.replicate_eq_nil_iff]
      omega
    · rw [List.eq_of_mem_replicate hc]
      simp [IsDigit]
  have h := @NumberText.mk [] (0x2e :: List.replicate n 0x30) [] [] (onePointZeros n) .none
    (.inr ⟨⟨by simp [onePointZeros], by simp [onePointZeros, IsDigit]⟩, by simp [onePointZeros]⟩)
    (.some hdigits) .none
  rwa [List.append_nil, List.append_nil] at h

theorem parseNumber_onePointZeros {n : ℕ} (hn : intMax ≤ n) :
    parseNumber (0x31 :: 0x2e :: List.replicate n 0x30) = .error .overflow := by
  have hpos : 0 < n := lt_of_lt_of_le (by decide) hn
  rw [parseNumber_complete (onePointZeros_text hpos) stop_nil, if_neg]
  intro h
  have hlen := h.1
  rw [onePointZeros, List.length_replicate, List.length_singleton] at hlen
  omega

/-- With 2 ^ 31 digits after the point their counter overflows. -/
theorem parseNumber_longZeros :
    NumberText (0x31 :: 0x2e :: List.replicate (2 ^ 31) 0x30) (onePointZeros (2 ^ 31)) [] ∧
      parseNumber (0x31 :: 0x2e :: List.replicate (2 ^ 31) 0x30)
        ≠ .ok (.number (onePointZeros (2 ^ 31)).double, []) := by
  refine ⟨onePointZeros_text (by norm_num), ?_⟩
  rw [parseNumber_onePointZeros (by norm_num [intMax])]
  exact fun h => nomatch h

theorem numberText_start {i r : List ℕ} {d : Decimal} (h : NumberText i d r) :
    peek i = 0x2d ∨ IsDigit (peek i) := by
  obtain ⟨neg, n, ds, eneg, es⟩ := d
  cases h with
  | @mk s f x r d hs hn hf hx =>
    dsimp only at hs hn
    cases hs with
    | none => exact .inr (peek_digits (intText_digits hn) (f ++ (x ++ r)))
    | minus => exact .inl rfl

end Aether

end Qjs
