import Qjs.Proofs.ConstFoldText

/-!
# Constant folding keeps values

What a tree becomes once its parts are well folded (`Sound`): a constant with its value and the
double that stands for it, or a tree of the same value. At the root of such a tree, that the folded
tree has the value says no more than that the operation is folded to it (`wellAt_iff`), and the
claim is the condition at every part (`foldsWell_iff`).
-/

namespace Qjs

namespace Aether

open JsonText Double ASTNode

/-! ### `(long long)` -/

theorem longLong_range (d : Double) : -2 ^ 63 ≤ longLong d ∧ longLong d < 2 ^ 63 := by
  unfold longLong
  rcases d.value? with _ | q
  · norm_num
  · dsimp only
    split_ifs with h
    · exact h
    · norm_num

theorem longLong_of_trunc {d : Double} {z : ℤ} (hv : d.value?.isSome) (h : trunc d = z)
    (hlo : -2 ^ 63 ≤ z) (hhi : z < 2 ^ 63) : longLong d = z := by
  obtain ⟨q, hq⟩ := Option.isSome_iff_exists.1 hv
  unfold longLong
  rw [hq]
  dsimp only
  rw [h, if_pos ⟨hlo, hhi⟩]

theorem longLong_of_value? {d : Double} {z : ℤ} (h : value? d = some (z : ℚ)) (hlo : -2 ^ 63 ≤ z)
    (hhi : z < 2 ^ 63) : longLong d = z :=
  longLong_of_trunc (by rw [h]; rfl) (trunc_of_value? h) hlo hhi

/-- The integer is a double. -/
theorem value?_ofInt_longLong (d : Double) :
    value? (ofInt (longLong d)) = some (longLong d : ℚ) := by
  have hmin : value? (ofInt (-2 ^ 63)) = some ((-2 ^ 63 : ℤ) : ℚ) :=
    value?_ofInt_of_scaled (m := 1) (k := 63) (by norm_num) (by norm_num) (by norm_num)
  unfold longLong
  rcases hd : d.value? with _ | q
  · exact hmin
  · dsimp only
    split_ifs with h
    · exact value?_ofInt_trunc hd (by omega)
    · exact hmin

theorem longLong_ofInt_longLong (d : Double) : longLong (ofInt (longLong d)) = longLong d :=
  longLong_of_value? (value?_ofInt_longLong d) (longLong_range d).1 (longLong_range d).2

theorem ofInt_longLong_eq_zero {d : Double} (h : (ofInt (longLong d)).eq 0#64 = true) :
    longLong d = 0 := by
  have hz : value? 0#64 = some 0 := by
    rw [value?_fin decode_zero]
    simp [signed]
  rw [eq_of_value? (value?_ofInt_longLong d) hz, decide_eq_true_eq] at h
  exact_mod_cast h

theorem createNumericLiteral_int (d : Double) : createNumericLiteral (ofInt (longLong d)) true =
    node .literal (some (formatLld (longLong d))) (some .int) [] := by
  have heq := eq_of_value? (value?_ofInt_longLong d) (value?_ofInt_longLong d)
  rw [createNumericLiteral, longLong_ofInt_longLong, heq]
  simp

/-! ### Two ints -/

theorem longLong_ofScaled {k : ℕ} (neg : Bool) (h : k < 2 ^ 53) :
    longLong (ofScaled neg k 0) = if neg then -(k : ℤ) else k := by
  have hv := (exact_ofScaled_natCast neg h).value?
  cases neg
  · exact longLong_of_value? (by simpa using hv) (by omega) (by simp; omega)
  · exact longLong_of_value? (by simpa using hv) (by simp; omega) (by simp; omega)

theorem signed_mul_natAbs (a b : ℤ) :
    (if decide (a < 0) ^^ decide (b < 0) then -((a * b).natAbs : ℤ) else (a * b).natAbs)
      = a * b := by
  rcases lt_or_ge a 0 with ha | ha <;> rcases lt_or_ge b 0 with hb | hb
  · have := (mul_pos_of_neg_of_neg ha hb).le
    simp [ha, hb, abs_of_nonneg this]
  · have := mul_nonpos_of_nonpos_of_nonneg ha.le hb
    simp [ha, not_lt.2 hb, abs_of_nonpos this]
  · have := mul_nonpos_of_nonneg_of_nonpos ha hb.le
    simp [not_lt.2 ha, hb, abs_of_nonpos this]
  · have := mul_nonneg ha hb
    simp [not_lt.2 ha, not_lt.2 hb, abs_of_nonneg this]

theorem signed_tmod (a b : ℤ) :
    (if a < 0 then -((a.natAbs % b.natAbs : ℕ) : ℤ) else (a.natAbs % b.natAbs : ℕ)) = a.tmod b := by
  have hpos : ∀ n : ℕ, ¬ ((n : ℤ) < 0) := fun n => by omega
  obtain ⟨n, rfl | rfl⟩ := Int.eq_nat_or_neg a
  · obtain ⟨m, rfl | rfl⟩ := Int.eq_nat_or_neg b <;> simp [hpos, Int.tmod_eq_emod_of_nonneg]
  · rcases Nat.eq_zero_or_pos n with rfl | hn
    · simp
    · obtain ⟨m, rfl | rfl⟩ := Int.eq_nat_or_neg b <;> simp [hn, Int.tmod_eq_emod_of_nonneg]

theorem fmod_exact {x y : Double} {n n' : Bool} {q q' : ℚ} (hx : Exact x n q) (hy : Exact y n' q')
    (hq : q' ≠ 0) : fmod x y = ofRat n (q - q' * ⌊q / q'⌋) := by
  obtain ⟨m, e, hd, rfl⟩ := hx
  obtain ⟨m', e', hd', rfl⟩ := hy
  have hne : m' ≠ 0 := by
    rintro rfl
    simp at hq
  simp only [fmod, hd, hd', hne, if_false]

theorem fmod_ofInt {a b : ℤ} (ha : a.natAbs < 2 ^ 53) (hb : b.natAbs < 2 ^ 53) (hb0 : b ≠ 0) :
    fmod (ofInt a) (ofInt b) = ofScaled (decide (a < 0)) (a.natAbs % b.natAbs) 0 := by
  have hbpos : (0 : ℚ) < b.natAbs := by exact_mod_cast Int.natAbs_pos.2 hb0
  have hfloor : ⌊(a.natAbs : ℚ) / b.natAbs⌋ = ((a.natAbs / b.natAbs : ℕ) : ℤ) := by
    have h := Nat.floor_div_eq_div (K := ℚ) a.natAbs b.natAbs
    rw [← Int.natCast_floor_eq_floor (by positivity), h]
  have hrest : (a.natAbs : ℚ) - b.natAbs * ((a.natAbs / b.natAbs : ℕ) : ℤ)
      = (a.natAbs % b.natAbs : ℕ) := by
    have h := congrArg (Nat.cast (R := ℚ)) (Nat.div_add_mod a.natAbs b.natAbs)
    rw [Nat.cast_add, Nat.cast_mul] at h
    rw [Int.cast_natCast]
    linarith
  rw [fmod_exact (exact_ofInt ha) (exact_ofInt hb) hbpos.ne', hfloor, hrest, ofRat_natCast]

theorem isArithmetic_cases {op : List ℕ} (h : isArithmetic op = true) :
    op = plus ∨ op = minus ∨ op = times ∨ op = slash ∨ op = percent := by
  simpa [isArithmetic, or_assoc] using h

/-- What `fits` lets through. -/
theorem fits_eq_some {bits : ℕ} {m n : ℤ}
    (h : (if -2 ^ (bits - 1) ≤ m ∧ m < 2 ^ (bits - 1) then some m else none) = some n) :
    m = n ∧ -2 ^ (bits - 1) ≤ n ∧ n < 2 ^ (bits - 1) := by
  split_ifs at h with hfits
  cases h
  exact ⟨rfl, hfits⟩

theorem cInteger_plus {bits : ℕ} {a b n : ℤ} (h : cInteger bits plus a b = some n) :
    a + b = n ∧ -2 ^ (bits - 1) ≤ n ∧ n < 2 ^ (bits - 1) := fits_eq_some h

theorem cInteger_minus {bits : ℕ} {a b n : ℤ} (h : cInteger bits minus a b = some n) :
    a - b = n ∧ -2 ^ (bits - 1) ≤ n ∧ n < 2 ^ (bits - 1) := fits_eq_some h

theorem cInteger_times {bits : ℕ} {a b n : ℤ} (h : cInteger bits times a b = some n) :
    a * b = n ∧ -2 ^ (bits - 1) ≤ n ∧ n < 2 ^ (bits - 1) := fits_eq_some h

theorem cInteger_slash {bits : ℕ} {a b n : ℤ} (h : cInteger bits slash a b = some n) :
    b ≠ 0 ∧ a.tdiv b = n ∧ -2 ^ (bits - 1) ≤ n ∧ n < 2 ^ (bits - 1) := by
  have hb : b ≠ 0 := by
    rintro rfl
    cases h
  rw [cInteger, if_neg (by decide), if_neg (by decide), if_neg (by decide), if_pos rfl,
    if_neg hb] at h
  exact ⟨hb, fits_eq_some h⟩

theorem cInteger_percent {bits : ℕ} {a b n : ℤ} (h : cInteger bits percent a b = some n) :
    b ≠ 0 ∧ a.tmod b = n := by
  have hb : b ≠ 0 := by
    rintro rfl
    cases h
  rw [cInteger, if_neg (by decide), if_neg (by decide), if_neg (by decide), if_neg (by decide),
    if_pos rfl, if_neg hb, Option.map_eq_some_iff] at h
  obtain ⟨_, -, h⟩ := h
  exact ⟨hb, h⟩

theorem foldOp_slash (l r : Double) :
    foldOp slash l r = if r.eq 0 then none else some (l.div r) := rfl

theorem foldOp_percent (l r : Double) :
    foldOp percent l r = if r.eq 0 then none else some (fmod l r) := rfl

/-- On ints the computation in doubles is exact where that on ints does not overflow. -/
theorem foldOp_ints {op : List ℕ} {a b n : ℤ} (ha : a.natAbs ≤ 2 ^ 31) (hb : b.natAbs ≤ 2 ^ 31)
    (hop : isArithmetic op = true) (h : cInteger 32 op a b = some n) {res : Double}
    (hres : foldOp op (ofInt a) (ofInt b) = some res) : longLong res = n := by
  have hv : ∀ z : ℤ, z.natAbs < 2 ^ 53 → longLong (ofInt z) = z := fun z hz =>
    longLong_of_value? (value?_ofInt hz) (by omega) (by omega)
  have ha53 : a.natAbs < 2 ^ 53 := by omega
  have hb53 : b.natAbs < 2 ^ 53 := by omega
  rcases isArithmetic_cases hop with rfl | rfl | rfl | rfl | rfl
  · obtain ⟨rfl, -⟩ := cInteger_plus h
    cases hres
    rw [add_ofInt ha53 hb53, hv _ (by omega)]
  · obtain ⟨rfl, -⟩ := cInteger_minus h
    cases hres
    rw [sub_ofInt ha53 hb53, hv _ (by omega)]
  · obtain ⟨rfl, hlo, hhi⟩ := cInteger_times h
    cases hres
    norm_num at hlo hhi
    rw [mul_ofInt ha53 hb53, longLong_ofScaled _ (by omega), signed_mul_natAbs]
  · obtain ⟨hb0, rfl, hlo, hhi⟩ := cInteger_slash h
    obtain ⟨hfin, htrunc⟩ := trunc_div_ofInt hb0 (by omega : a.natAbs < 2 ^ 32) (by omega)
    rw [foldOp_slash] at hres
    split_ifs at hres
    cases hres
    norm_num at hlo hhi
    exact longLong_of_trunc hfin htrunc (by omega) (by omega)
  · obtain ⟨hb0, rfl⟩ := cInteger_percent h
    have hlt := Nat.mod_lt a.natAbs (Int.natAbs_pos.2 hb0)
    rw [foldOp_percent] at hres
    split_ifs at hres
    cases hres
    rw [fmod_ofInt ha53 hb53 hb0, longLong_ofScaled _ (by omega), ← signed_tmod]
    simp only [decide_eq_true_eq]

/-! ### Trees with a value -/

/-- The trees of literals and arithmetic. -/
inductive Valued : ASTNode → CVal → Prop
  | literal {s : List ℕ} {ty : Option TypeKind} {cs : List ASTNode} {x : CVal}
    (hty : ty ≠ some .string) (h : cRead s = some x) : Valued (node .literal (some s) ty cs) x
  | long {s : List ℕ} {ty : Option TypeKind} {cs : List ASTNode} {x : CVal}
    (h : (cRead s).bind CVal.toLong = some x) : Valued (node .longLiteral (some s) ty cs) x
  | binary {op : List ℕ} {ty : Option TypeKind} {l r : ASTNode} {cs : List ASTNode} {x y v : CVal}
    (hl : cEval l = some x) (hr : cEval r = some y) (h : cOp op x y = some v) :
    Valued (node .binaryExpression (some op) ty (l :: r :: cs)) v

theorem valued {t : ASTNode} {x : CVal} (h : cEval t = some x) : Valued t x := by
  rcases t with _ | ⟨k, v, ty, cs⟩
  · cases h
  rcases v with _ | s
  · cases k <;> cases h
  by_cases hk : k = .literal
  · subst hk
    have h' : (if ty = some .string then none else cRead s) = some x := h
    split_ifs at h' with hty
    exact .literal hty h'
  by_cases hk' : k = .longLiteral
  · subst hk'
    exact .long h
  by_cases hb : k = .binaryExpression
  · subst hb
    rcases cs with _ | ⟨l, _ | ⟨r, cs⟩⟩
    · cases h
    · cases h
    · have h' : ((cEval l).bind fun x => (cEval r).bind fun y => cOp s x y) = some x := h
      obtain ⟨a, ha, h'⟩ := Option.bind_eq_some_iff.1 h'
      obtain ⟨b, hb, h'⟩ := Option.bind_eq_some_iff.1 h'
      exact .binary ha hb h'
  · cases k <;> first | cases h | contradiction

theorem cEval_literal {s : List ℕ} {ty : Option TypeKind} (cs : List ASTNode)
    (hty : ty ≠ some .string) : cEval (node .literal (some s) ty cs) = cRead s := if_neg hty

theorem cEval_binary {op : List ℕ} {l r : ASTNode} {x y : CVal} (ty : Option TypeKind)
    (cs : List ASTNode) (hl : cEval l = some x) (hr : cEval r = some y) :
    cEval (node .binaryExpression (some op) ty (l :: r :: cs)) = cOp op x y := by
  rw [cEval, hl, Option.bind_some, hr, Option.bind_some]

/-- The type of a value, whatever its width. -/
def CVal.kind : CVal → TypeKind
  | int _ | long _ => .int
  | dbl _ => .float

theorem num_of_kind {x : CVal} (h : x.kind = .int) : ∃ n, x.num = .inl n := by
  cases x with
  | int n => exact ⟨n, rfl⟩
  | long n => exact ⟨n, rfl⟩
  | dbl d => cases h

theorem kind_of_inl {x : CVal} {n : ℤ} (h : x.num = .inl n) : x.kind = .int := by
  cases x <;> first | rfl | cases h

theorem num_inr {x : CVal} {d : Double} (h : x.num = .inr d) : x = .dbl d := by
  cases x <;> cases h
  rfl

theorem dbl_of_kind {x : CVal} (h : x.kind ≠ .int) : ∃ d, x = .dbl d := by
  cases x with
  | int n => exact absurd rfl h
  | long n => exact absurd rfl h
  | dbl d => exact ⟨d, rfl⟩

theorem toDouble_of_num {x : CVal} {n : ℤ} (h : x.num = .inl n) : x.toDouble = ofInt n := by
  cases x <;> cases h <;> rfl

theorem cOp_int {op : List ℕ} {x y : CVal} {n : ℤ} (h : cOp op x y = some (.int n)) :
    ∃ a b, x = .int a ∧ y = .int b ∧ cInteger 32 op a b = some n := by
  cases x <;> cases y <;> simp only [cOp, Option.map_eq_some_iff, reduceCtorEq, and_false,
    exists_false, CVal.int.injEq, exists_eq_right] at h
  exact ⟨_, _, rfl, rfl, h⟩

theorem isArithmetic_of_cOp {op : List ℕ} {x y v : CVal} (h : cOp op x y = some v) :
    isArithmetic op = true := by
  by_contra hno
  have hno' : op ≠ plus ∧ op ≠ minus ∧ op ≠ times ∧ op ≠ slash ∧ op ≠ percent := by
    simpa [isArithmetic, not_or, and_assoc] using hno
  obtain ⟨h1, h2, h3, h4, h5⟩ := hno'
  cases x <;> cases y <;> simp [cOp, cInteger, cDouble, h1, h2, h3, h4, h5] at h

/-- Two integers have an integer as their result, and others a double. -/
theorem kind_cOp {op : List ℕ} {x y v : CVal} (h : cOp op x y = some v) :
    v.kind = if x.kind = .int ∧ y.kind = .int then .int else .float := by
  cases x <;> cases y <;> simp only [cOp, Option.map_eq_some_iff] at h <;>
    (obtain ⟨_, -, rfl⟩ := h) <;> rfl

theorem cInteger_range {op : List ℕ} {a b n : ℤ} (ha : a.natAbs ≤ 2 ^ 31)
    (h : cInteger 32 op a b = some n) (hop : isArithmetic op = true) : n.natAbs ≤ 2 ^ 31 := by
  rcases isArithmetic_cases hop with rfl | rfl | rfl | rfl | rfl
  · obtain ⟨-, hlo, hhi⟩ := cInteger_plus h
    norm_num at hlo hhi
    omega
  · obtain ⟨-, hlo, hhi⟩ := cInteger_minus h
    norm_num at hlo hhi
    omega
  · obtain ⟨-, hlo, hhi⟩ := cInteger_times h
    norm_num at hlo hhi
    omega
  · obtain ⟨-, -, hlo, hhi⟩ := cInteger_slash h
    norm_num at hlo hhi
    omega
  · obtain ⟨-, rfl⟩ := cInteger_percent h
    rw [Int.natAbs_tmod]
    exact (Nat.mod_le _ _).trans ha

theorem cConstant_range {s : List ℕ} {n : ℤ} (h : cConstant s = some (.int n)) :
    n.natAbs ≤ 2 ^ 31 := by
  unfold cConstant at h
  by_cases h1 : s ≠ [] ∧ s.all isDigit
  · rw [if_pos h1] at h
    by_cases h2 : s.head? = some 0x30 ∧ 1 < s.length
    · rw [if_pos h2] at h
      split_ifs at h with h3
      cases h
      rw [Int.natAbs_natCast]
      exact h3.2.le
    · rw [if_neg h2] at h
      split_ifs at h with h3 h4
      · cases h
        rw [Int.natAbs_natCast]
        exact h3.le
      · cases h
  · rw [if_neg h1] at h
    split_ifs at h
    cases h

theorem cRead_range {s : List ℕ} {n : ℤ} (h : cRead s = some (.int n)) : n.natAbs ≤ 2 ^ 31 := by
  unfold cRead at h
  split_ifs at h
  · obtain ⟨v, hv, hneg⟩ := Option.map_eq_some_iff.1 h
    cases v with
    | int m =>
      cases hneg
      rw [Int.natAbs_neg]
      exact cConstant_range hv
    | long m => cases hneg
    | dbl d => cases hneg
  · exact cConstant_range h

/-- An `int` has 32 bits. -/
theorem int_range (t : ASTNode) : ∀ n, cEval t = some (.int n) → n.natAbs ≤ 2 ^ 31 := by
  induction t using ASTNode.induct with
  | hnull => intro n h; cases h
  | hnode k v ty cs ih =>
    intro n h
    cases valued h with
    | literal _ h => exact cRead_range h
    | @long s _ _ _ h =>
      obtain ⟨v, -, hv⟩ := Option.bind_eq_some_iff.1 h
      cases v with
      | int m => cases hv
      | long m => cases hv
      | dbl d =>
        simp only [CVal.toLong] at hv
        split_ifs at hv
        cases hv
    | binary hl hr hop =>
      obtain ⟨a, b, rfl, rfl, hab⟩ := cOp_int hop
      exact cInteger_range (ih _ (by simp) a hl) hab (isArithmetic_of_cOp hop)

/-! ### Folded constants -/

/-- A literal that stands for the value `x`, and `p` for it in the next operation. -/
structure Constant (t : ASTNode) (p : Double) (x : CVal) : Prop where
  isConst : isConstant t = true
  value : getConstantValue t = p
  type : t.nodeType = some x.kind
  eval : ∃ y, cEval t = some y ∧ y.num = x.num
  zero : ∀ n, x.num = .inl n → p.eq 0 = true → n = 0

/-- What becomes of a tree whose parts are folded to their values. -/
structure Sound (t : ASTNode) (x : CVal) : Prop where
  type : (optimizeConstantFolding t).nodeType = t.nodeType
  folded : Folds t → Constant (optimizeConstantFolding t) (operandDouble t x) x
  kept : ¬ Folds t → isConstant (optimizeConstantFolding t) = false ∧
    cEval (optimizeConstantFolding t) = some x ∧ ∀ n, x ≠ .int n

/-- The claim at the root. -/
def WellAt (t : ASTNode) : Prop :=
  ∀ x, cEval t = some x → (optimizeConstantFolding t).nodeType = t.nodeType ∧
    ∃ y, cEval (optimizeConstantFolding t) = some y ∧ y.num = x.num

theorem Sound.value {t : ASTNode} {x : CVal} (h : Sound t x) :
    ∃ y, cEval (optimizeConstantFolding t) = some y ∧ y.num = x.num := by
  by_cases hf : Folds t
  · exact (h.folded hf).eval
  · exact ⟨x, (h.kept hf).2.1, rfl⟩

theorem isConstant_text {s : List ℕ} {k : TypeKind} (cs : List ASTNode) (hs : k ≠ .string)
    (hb : k ≠ .bool) (ht : s ≠ trueText) (hf : s ≠ falseText) :
    isConstant (node .literal (some s) (some k) cs) = true
      ∧ getConstantValue (node .literal (some s) (some k) cs) = atof s := by
  constructor
  · simp [isConstant, hs, hb, ht, hf]
  · simp [getConstantValue, ht, hf]

theorem kind_ne (x : CVal) : x.kind ≠ .string ∧ x.kind ≠ .bool := by
  cases x <;> simp [CVal.kind]

/-- A sign or a digit comes first. -/
theorem Parts.ne_word {t f x : List ℕ} {d : Decimal} (h : Parts t d f x) :
    t ≠ trueText ∧ t ≠ falseText := by
  have hpeek : peek t = 0x2d ∨ IsDigit (peek t) := by
    rw [h.text]
    cases d.neg
    · exact .inr (peek_digits (intText_digits h.int) _)
    · exact .inl rfl
  constructor <;> rintro rfl <;> simp [trueText, falseText, peek, IsDigit] at hpeek

/-! ### Literals -/

theorem octalValue_zero {ds : List ℕ} (h : ds.any (· != 0x30) = false) : octalValue ds = 0 := by
  unfold octalValue
  induction ds with
  | nil => rfl
  | cons d ds ih =>
    simp only [List.any_cons, Bool.or_eq_false_iff, bne_eq_false_iff_eq] at h
    rw [List.foldl_cons, h.1]
    exact ih h.2

theorem takeWhile_no_digit {s : List ℕ} (h : ∀ c ∈ s, ¬ isDigit c = true) :
    s.takeWhile isDigit = [] ∧ s.dropWhile isDigit = s := by
  cases s with
  | nil => exact ⟨rfl, rfl⟩
  | cons c s =>
    have hc := h c List.mem_cons_self
    simp [hc]

theorem strtod_no_digit {s : List ℕ} (h : ∀ c ∈ s, ¬ isDigit c = true) (hsign : skipSign s = s) :
    (strtod s).2 = s := by
  obtain ⟨h1, h2⟩ := takeWhile_no_digit h
  obtain ⟨h3, -⟩ := takeWhile_no_digit fun c hc => h c (List.mem_of_mem_tail hc)
  unfold strtod
  simp only [hsign, h1, h2, h3, true_and]
  split_ifs <;> simp_all

/-- A constant of digits and points: an integer is all digits, and what is not has a point. -/
theorem cConstant_cases {s : List ℕ} {x : CVal} (h : cConstant s = some x)
    (hs : ∀ c ∈ s, c = 0x2e ∨ isDigit c = true) :
    (s ≠ [] ∧ s.all isDigit = true ∧ x.kind = .int) ∨
      (s.any isDigit = true ∧ 0x2e ∈ s ∧ x.kind = .float) := by
  unfold cConstant at h
  by_cases h1 : s ≠ [] ∧ s.all isDigit
  · rw [if_pos h1] at h
    refine .inl ⟨h1.1, h1.2, ?_⟩
    split_ifs at h <;> cases h <;> rfl
  · rw [if_neg h1] at h
    by_cases h2 : (isDigit (peek s) ∨ peek s = 0x2e) ∧ (strtod s).2 = []
    · rw [if_pos h2] at h
      cases h
      have hne : s ≠ [] := by
        rintro rfl
        simp [peek, isDigit] at h2
      refine .inr ⟨?_, ?_, rfl⟩
      · by_contra hno
        rw [Bool.not_eq_true, List.any_eq_false] at hno
        have hsign : skipSign s = s := by
          rcases s with _ | ⟨c, s⟩
          · rfl
          · rcases hs c List.mem_cons_self with rfl | hd
            · rfl
            · exact absurd hd (hno c List.mem_cons_self)
        exact hne ((strtod_no_digit hno hsign).symm.trans h2.2)
      · by_contra hno
        refine h1 ⟨hne, List.all_eq_true.2 fun c hc => ?_⟩
        rcases hs c hc with rfl | hd
        · exact absurd hc hno
        · exact hd
    · rw [if_neg h2] at h
      cases h

theorem inferFromLiteral_int {s : List ℕ} (hne : s ≠ []) (h : s.all isDigit = true) :
    inferFromLiteral s = .int := by
  have hall := List.all_eq_true.1 h
  have hany : s.any isDigit = true := by
    obtain ⟨c, hc⟩ := List.exists_mem_of_ne_nil s hne
    exact List.any_eq_true.2 ⟨c, hc, hall c hc⟩
  have hpoint : 0x2e ∉ s := fun hp => absurd (hall _ hp) (by decide)
  have hok : (s.all fun c => c == 0x2e || isDigit c || c == 0x2d || c == 0x2b) = true :=
    List.all_eq_true.2 fun c hc => by simp [hall c hc]
  rw [inferFromLiteral, if_pos (by rw [hok, hany]; rfl), if_neg hpoint]

theorem inferFromLiteral_float {s : List ℕ} (hs : ∀ c ∈ s, c = 0x2e ∨ isDigit c = true)
    (hany : s.any isDigit = true) (hpoint : 0x2e ∈ s) : inferFromLiteral s = .float := by
  have hok : (s.all fun c => c == 0x2e || isDigit c || c == 0x2d || c == 0x2b) = true :=
    List.all_eq_true.2 fun c hc => by rcases hs c hc with rfl | hd <;> simp [*]
  rw [inferFromLiteral, if_pos (by rw [hok, hany]; rfl), if_pos hpoint]

theorem inferFromLiteral_eq {s : List ℕ} {x : CVal} (h : cConstant s = some x)
    (hs : ∀ c ∈ s, c = 0x2e ∨ isDigit c = true) : inferFromLiteral s = x.kind := by
  rcases cConstant_cases h hs with ⟨hne, hd, hk⟩ | ⟨hany, hp, hk⟩
  · rw [hk, inferFromLiteral_int hne hd]
  · rw [hk, inferFromLiteral_float hs hany hp]

/-- An integer that is read as zero in decimal is zero, also in octal. -/
theorem zero_of_atof {s : List ℕ} {x : CVal} {n : ℤ} (h : cConstant s = some x)
    (hd : s.all isDigit = true) (hn : x.num = .inl n) (h0 : (atof s).eq 0#64 = true) : n = 0 := by
  unfold cConstant at h
  rcases s with _ | ⟨c, s⟩
  · simp [peek, isDigit] at h
  rw [if_pos ⟨by simp, hd⟩] at h
  have hdec : digitsValue (c :: s) = 0 := by
    by_contra hne
    rw [atof_digits hd, eq_zero_ofRat hne] at h0
    cases h0
  have hany : (c :: s).any (· != 0x30) = false := ((digitsValue_foldl (c :: s) 0 hd).1 hdec).2
  by_cases ho : (c :: s).head? = some 0x30 ∧ 1 < (c :: s).length
  · rw [if_pos ho, octalValue_zero hany] at h
    split_ifs at h
    cases h
    cases hn
    rfl
  · rw [if_neg ho, hdec] at h
    cases h
    cases hn
    rfl

theorem typed_literal {s : List ℕ} {ty : Option TypeKind} {cs : List ASTNode} {x : CVal}
    (ht : Typed (node .literal (some s) ty cs)) (hty : ty ≠ some .string) (h : cRead s = some x) :
    (∀ c ∈ s, c = 0x2e ∨ isDigit c = true) ∧ cConstant s = some x ∧ ty = some x.kind := by
  rcases ht.1 s rfl rfl with h1 | ⟨-, rfl | rfl⟩ | ⟨hall, h1⟩
  · exact absurd h1 hty
  · simp [trueText, cRead, cConstant, peek, isDigit] at h
  · simp [falseText, cRead, cConstant, peek, isDigit] at h
  · have hs : ∀ c ∈ s, c = 0x2e ∨ isDigit c = true := by
      simpa [List.all_eq_true] using hall
    have hpeek : peek s ≠ 0x2d := by
      rcases s with _ | ⟨c, s⟩
      · decide
      · intro hc
        have hc' : c = 0x2d := hc
        subst hc'
        rcases hs _ List.mem_cons_self with h2 | h2 <;> revert h2 <;> decide
    rw [cRead, if_neg hpeek] at h
    exact ⟨hs, h, by rw [h1, inferFromLiteral_eq h hs]⟩

theorem foldChildren_literal (k : ASTNodeType) (v : Option (List ℕ)) (ty : Option TypeKind)
    (cs : List ASTNode) (hk : k ≠ .binaryExpression) :
    optimizeConstantFolding (node k v ty cs) = node k v ty (foldChildren cs) := by
  rcases cs with _ | ⟨l, _ | ⟨r, cs⟩⟩ <;> simp only [optimizeConstantFolding, if_neg hk]

/-- A literal of the source is the constant it is. -/
theorem constant_literal {s : List ℕ} {ty : Option TypeKind} {cs : List ASTNode} {x : CVal}
    (ht : Typed (node .literal (some s) ty cs)) (hty : ty ≠ some .string) (h : cRead s = some x)
    (ds : List ASTNode) : Constant (node .literal (some s) ty ds) (atof s) x := by
  obtain ⟨hs, hc, rfl⟩ := typed_literal ht hty h
  have hword : s ≠ trueText ∧ s ≠ falseText := by
    constructor <;> rintro rfl
    · exact absurd (hs 0x74 (by simp [trueText])) (by decide)
    · exact absurd (hs 0x66 (by simp [falseText])) (by decide)
  obtain ⟨h1, h2⟩ := isConstant_text ds (kind_ne x).1 (kind_ne x).2 hword.1 hword.2
  refine ⟨h1, h2, rfl, ⟨x, ?_, rfl⟩, fun n hn h0 => ?_⟩
  · rw [cEval_literal ds hty, h]
  · rcases cConstant_cases hc hs with ⟨-, hd, -⟩ | ⟨-, -, hk⟩
    · exact zero_of_atof hc hd hn h0
    · rw [kind_of_inl hn] at hk
      cases hk

theorem sound_literal {s : List ℕ} {ty : Option TypeKind} {cs : List ASTNode} {x : CVal}
    (ht : Typed (node .literal (some s) ty cs)) (hty : ty ≠ some .string) (h : cRead s = some x) :
    Sound (node .literal (some s) ty cs) x := by
  have hfold := foldChildren_literal .literal (some s) ty cs (by decide)
  refine ⟨by rw [hfold]; rfl, fun _ => ?_, fun hno => ?_⟩
  · rw [hfold]
    exact constant_literal ht hty h _
  · exact absurd (.literal (constant_literal ht hty h cs).isConst) hno

theorem sound_long {s : List ℕ} {ty : Option TypeKind} {cs : List ASTNode} {x : CVal}
    (h : (cRead s).bind CVal.toLong = some x) : Sound (node .longLiteral (some s) ty cs) x := by
  have hfold := foldChildren_literal .longLiteral (some s) ty cs (by decide)
  refine ⟨by rw [hfold]; rfl, fun hf => ?_, fun _ => ⟨?_, ?_, ?_⟩⟩
  · cases hf with
    | literal h => cases h
  · rw [hfold]
    rfl
  · rw [hfold]
    exact h
  · rintro n rfl
    obtain ⟨v, -, hv⟩ := Option.bind_eq_some_iff.1 h
    cases v with
    | int m => cases hv
    | long m => cases hv
    | dbl d =>
      simp only [CVal.toLong] at hv
      split_ifs at hv
      cases hv

/-! ### Operations -/

theorem foldOp_isSome {op : List ℕ} {p q : Double} (hop : isArithmetic op = true)
    (hdiv : op = slash ∨ op = percent → q.eq 0 = false) : ∃ res, foldOp op p q = some res := by
  rcases isArithmetic_cases hop with rfl | rfl | rfl | rfl | rfl
  · exact ⟨_, rfl⟩
  · exact ⟨_, rfl⟩
  · exact ⟨_, rfl⟩
  · rw [foldOp_slash, hdiv (.inl rfl)]
    exact ⟨_, rfl⟩
  · rw [foldOp_percent, hdiv (.inr rfl)]
    exact ⟨_, rfl⟩

theorem foldOp_none {op : List ℕ} {p q : Double} (h : op = slash ∨ op = percent)
    (h0 : q.eq 0 = true) : foldOp op p q = none := by
  rcases h with rfl | rfl
  · rw [foldOp_slash, h0]
    rfl
  · rw [foldOp_percent, h0]
    rfl

theorem cInteger_zero {op : List ℕ} (h : op = slash ∨ op = percent) (bits : ℕ) (a : ℤ) :
    cInteger bits op a 0 = none := by
  rcases h with rfl | rfl <;> rfl

/-- Integers are not divided by zero. -/
theorem cOp_zero {op : List ℕ} {x y : CVal} {a : ℤ} (h : op = slash ∨ op = percent)
    (hx : x.num = .inl a) (hy : y.num = .inl 0) : cOp op x y = none := by
  cases x <;> cases y <;> cases hx <;> cases hy <;>
    simp only [cOp, cInteger_zero h, Option.map_none]

/-- The width of an integer does not matter next to a `long` or a `double`. -/
theorem cOp_congr {op : List ℕ} {x y x' y' : CVal} (hx : x'.num = x.num) (hy : y'.num = y.num)
    (h : ¬ ((∃ a, x = .int a) ∧ ∃ b, y = .int b)) (h' : ¬ ((∃ a, x' = .int a) ∧ ∃ b, y' = .int b)) :
    cOp op x' y' = cOp op x y := by
  cases x <;> cases x' <;> cases hx <;> cases y <;> cases y' <;> cases hy <;>
    first | rfl | exact absurd ⟨⟨_, rfl⟩, _, rfl⟩ h | exact absurd ⟨⟨_, rfl⟩, _, rfl⟩ h'

theorem fold_binary (op : Option (List ℕ)) (ty : Option TypeKind) (l r : ASTNode)
    (cs : List ASTNode) : optimizeConstantFolding (node .binaryExpression op ty (l :: r :: cs)) =
      foldBinaryExpression op ty (optimizeConstantFolding l) (optimizeConstantFolding r) cs := by
  rw [optimizeConstantFolding, if_pos rfl]

section Binary

variable {op : List ℕ} {ty : Option TypeKind} {l r : ASTNode} {cs : List ASTNode} {x y v : CVal}
  (hl : cEval l = some x) (hr : cEval r = some y) (hop : cOp op x y = some v) (sl : Sound l x)
  (sr : Sound r y)

include hl hr hop sl sr

/-- A tree that is not folded keeps its value; it is no `int`. -/
theorem sound_kept (hno : ¬ Folds (node .binaryExpression (some op) ty (l :: r :: cs))) :
    Sound (node .binaryExpression (some op) ty (l :: r :: cs)) v := by
  obtain ⟨x', hx', hxn⟩ := sl.value
  obtain ⟨y', hy', hyn⟩ := sr.value
  -- a quotient by zero where both are folded
  have hzero : Folds l → Folds r →
      (op = slash ∨ op = percent) ∧ (operandDouble r y).eq 0 = true := by
    intro fl fr
    by_contra hz
    refine hno (.binary fl fr (isArithmetic_of_cOp hop) fun hd b hb => ?_)
    rw [hr] at hb
    cases hb
    by_contra h0
    exact hz ⟨hd, by simpa using h0⟩
  have hkeep : optimizeConstantFolding (node .binaryExpression (some op) ty (l :: r :: cs))
      = node .binaryExpression (some op) ty
        (optimizeConstantFolding l :: optimizeConstantFolding r :: cs) := by
    rw [fold_binary, foldBinaryExpression]
    by_cases hc : (isConstant (optimizeConstantFolding l) && isConstant (optimizeConstantFolding r))
        = true
    · rw [if_pos hc]
      rw [Bool.and_eq_true] at hc
      have fl : Folds l := by
        by_contra h
        rw [(sl.kept h).1] at hc
        cases hc.1
      have fr : Folds r := by
        by_contra h
        rw [(sr.kept h).1] at hc
        cases hc.2
      obtain ⟨hd, h0⟩ := hzero fl fr
      rw [Option.getD_some, (sr.folded fr).value, foldOp_none hd h0]
    · rw [if_neg hc]
  have hints : ∀ {u w : CVal}, u.num = x.num → w.num = y.num → (¬ Folds l → u = x) →
      (¬ Folds r → w = y) → ¬ ((∃ a, u = .int a) ∧ ∃ b, w = .int b) := by
    rintro u w hu hw hul hwr ⟨⟨a, rfl⟩, b, rfl⟩
    by_cases fl : Folds l
    · by_cases fr : Folds r
      · obtain ⟨hd, h0⟩ := hzero fl fr
        have hb := (sr.folded fr).zero b hw.symm h0
        subst hb
        rw [cOp_zero hd hu.symm hw.symm] at hop
        cases hop
      · exact (sr.kept fr).2.2 b (hwr fr).symm
    · exact (sl.kept fl).2.2 a (hul fl).symm
  have hxy := hints rfl rfl (fun _ => rfl) fun _ => rfl
  refine ⟨by rw [hkeep]; rfl, fun hf => absurd hf hno, fun _ => ⟨?_, ?_, ?_⟩⟩
  · rw [hkeep]
    rfl
  · have hx'y' := hints hxn hyn
      (fun fl => Option.some.inj (hx'.symm.trans (sl.kept fl).2.1))
      (fun fr => Option.some.inj (hy'.symm.trans (sr.kept fr).2.1))
    rw [hkeep, cEval_binary ty cs hx' hy', cOp_congr hxn hyn hxy hx'y', hop]
  · rintro n rfl
    obtain ⟨a, b, rfl, rfl, -⟩ := cOp_int hop
    exact hxy ⟨⟨a, rfl⟩, b, rfl⟩

variable {res : Double} (hres : foldOp op (operandDouble l x) (operandDouble r y) = some res)

include hres

omit hl hr in
theorem fold_eq (fl : Folds l) (fr : Folds r) :
    optimizeConstantFolding (node .binaryExpression (some op) ty (l :: r :: cs)) =
    if v.kind = .int then node .literal (some (formatLld (longLong res))) (some .int) []
    else node .literal (some (formatG10 res)) (some .float) [] := by
  have cl := sl.folded fl
  have cr := sr.folded fr
  rw [fold_binary, foldBinaryExpression, if_pos (by rw [cl.isConst, cr.isConst]; rfl),
    Option.getD_some, cl.value, cr.value, hres, cl.type, cr.type, kind_cOp hop]
  simp only [Option.some.injEq]
  by_cases hk : x.kind = .int ∧ y.kind = .int
  · simp only [hk, and_self, if_true, decide_true]
    exact createNumericLiteral_int res
  · have hb : (decide (x.kind = .int) && decide (y.kind = .int)) = false := by
      rw [← Bool.decide_and, decide_eq_false hk]
    rw [if_neg hk, hb]
    rfl

omit hl hr hop sl sr in
theorem foldExact_unique (h : FoldExact op (operandDouble l x) (operandDouble r y) x y v) {n : ℤ}
    (hn : v.num = .inl n) : (∃ a b, x = .int a ∧ y = .int b ∧ operandDouble l x = ofInt a ∧
      operandDouble r y = ofInt b) ∨ (longLong res = n ∧ -2 ^ 63 < n) := by
  cases h with
  | ints hp hq => exact .inl ⟨_, _, rfl, rfl, hp, hq⟩
  | exact hv hres' hn' hmin =>
    rw [hn] at hv
    cases hv
    rw [hres] at hres'
    cases hres'
    exact .inr ⟨hn', hmin⟩
  | shown => cases hn

omit sl sr in
/-- Integers: the text of the folded literal is of the value. -/
theorem foldExact_int {n : ℤ} (hn : v.num = .inl n) :
    FoldExact op (operandDouble l x) (operandDouble r y) x y v ↔
      longLong res = n ∧ -2 ^ 63 < n := by
  constructor
  · intro h
    rcases foldExact_unique hres h hn with ⟨a, b, rfl, rfl, hp, hq⟩ | h
    · obtain ⟨w, hw, rfl⟩ := Option.map_eq_some_iff.1 hop
      cases hn
      have hop' := isArithmetic_of_cOp hop
      rw [hp, hq] at hres
      have ha := int_range l a hl
      have hb := int_range r b hr
      have hrange := cInteger_range ha hw hop'
      exact ⟨foldOp_ints ha hb hop' hw hres, by omega⟩
    · exact h
  · rintro ⟨h, hmin⟩
    exact .exact hn hres h hmin

omit hl hr sl sr in
/-- Doubles: the ten digits are of the value, with a point or an exponent. -/
theorem foldExact_dbl {d : Double} (hd : v = .dbl d) :
    FoldExact op (operandDouble l x) (operandDouble r y) x y v ↔
      tenDouble res = d ∧ Pointed res := by
  subst hd
  constructor
  · intro h
    cases h with
    | ints =>
      obtain ⟨w, -, hw⟩ := Option.map_eq_some_iff.1 hop
      cases hw
    | exact hv => cases hv
    | shown hres' hd hp =>
      rw [hres] at hres'
      cases hres'
      exact ⟨hd, hp⟩
  · rintro ⟨h, hp⟩
    exact .shown hres h hp

theorem fold_value_iff (fl : Folds l) (fr : Folds r) :
    (∃ w, cEval (optimizeConstantFolding (node .binaryExpression (some op) ty (l :: r :: cs)))
      = some w ∧ w.num = v.num) ↔ FoldExact op (operandDouble l x) (operandDouble r y) x y v := by
  rw [fold_eq hop sl sr hres fl fr]
  by_cases hk : v.kind = .int
  · obtain ⟨n, hn⟩ := num_of_kind hk
    rw [if_pos hk, cEval_literal [] (by simp), foldExact_int hl hr hop hres hn, hn]
    constructor
    · rintro ⟨w, hw, hwn⟩
      obtain ⟨hlo, hhi⟩ := longLong_range res
      by_cases hmin : longLong res = -2 ^ 63
      · rw [hmin, cRead_formatLld_min] at hw
        cases hw
      · obtain ⟨u, hu, hun⟩ := cRead_formatLld (lt_of_le_of_ne hlo (Ne.symm hmin)) hhi
        rw [hw] at hu
        cases hu
        have hres' : longLong res = n := Sum.inl.inj (hun.symm.trans hwn)
        exact ⟨hres', hres' ▸ lt_of_le_of_ne hlo (Ne.symm hmin)⟩
    · rintro ⟨h, hmin⟩
      rw [h]
      exact cRead_formatLld hmin (h ▸ (longLong_range res).2)
  · obtain ⟨d, rfl⟩ := dbl_of_kind hk
    rw [if_neg hk, cEval_literal [] (by simp), foldExact_dbl hop hres rfl]
    constructor
    · rintro ⟨w, hw, hwn⟩
      rw [num_inr hwn] at hw
      by_cases hp : Pointed res
      · rw [cRead_formatG10 hp] at hw
        cases hw
        exact ⟨rfl, hp⟩
      · exact absurd hw (cRead_not_pointed hp d)
    · rintro ⟨rfl, hp⟩
      exact ⟨_, cRead_formatG10 hp, rfl⟩

/-- A tree that is folded to its value is the constant of it. -/
theorem sound_folded (ht : Typed (node .binaryExpression (some op) ty (l :: r :: cs)))
    (fl : Folds l) (fr : Folds r) (hf : Folds (node .binaryExpression (some op) ty (l :: r :: cs)))
    (h : FoldExact op (operandDouble l x) (operandDouble r y) x y v) :
    Sound (node .binaryExpression (some op) ty (l :: r :: cs)) v := by
  have hkind := kind_cOp hop
  have hty : ty = some v.kind := by
    have hlt : l.nodeType = some x.kind := sl.type.symm.trans (sl.folded fl).type
    have hrt : r.nodeType = some y.kind := sr.type.symm.trans (sr.folded fr).type
    have hinfer : inferFromBinaryOp x.kind y.kind op = v.kind := by
      rw [hkind]
      cases x <;> cases y <;> simp [CVal.kind, inferFromBinaryOp]
    rw [← hinfer]
    refine ht.2.2.1 op l r cs rfl rfl rfl (isArithmetic_of_cOp hop) _ _ hlt hrt ?_
    rw [hinfer]
    cases v <;> simp [CVal.kind]
  have hvalue := (@fold_value_iff op ty l r cs x y v hl hr hop sl sr res hres fl fr).2 h
  rw [fold_eq hop sl sr hres fl fr] at hvalue
  have hconst : Constant (if v.kind = .int then
      node .literal (some (formatLld (longLong res))) (some .int) []
      else node .literal (some (formatG10 res)) (some .float) []) v.toDouble v := by
    by_cases hk : v.kind = .int
    · obtain ⟨n, hn⟩ := num_of_kind hk
      obtain ⟨rfl, -⟩ := (foldExact_int hl hr hop hres hn).1 h
      rw [if_pos hk] at hvalue ⊢
      obtain ⟨ht, hf⟩ := (parts_formatLld (longLong res)).ne_word
      obtain ⟨h1, h2⟩ := isConstant_text (k := .int) [] (by simp) (by simp) ht hf
      refine ⟨h1, ?_, by rw [hk]; rfl, hvalue, fun m hm h0 => ?_⟩
      · rw [h2, atof_formatLld, toDouble_of_num hn]
      · rw [hn] at hm
        cases hm
        rw [toDouble_of_num hn] at h0
        exact ofInt_longLong_eq_zero h0
    · obtain ⟨d, rfl⟩ := dbl_of_kind hk
      obtain ⟨rfl, hp⟩ := (foldExact_dbl hop hres rfl).1 h
      rw [if_neg hk] at hvalue ⊢
      obtain ⟨neg, m, e, hdec, -⟩ := id hp
      obtain ⟨D, f, z, hparts, -⟩ := parts_formatG10 hdec
      obtain ⟨h1, h2⟩ := isConstant_text (k := .float) [] (by simp) (by simp)
        hparts.ne_word.1 hparts.ne_word.2
      refine ⟨h1, ?_, rfl, hvalue, fun m hm => ?_⟩
      · rw [h2, atof_formatG10 hp]
        rfl
      · cases hm
  refine ⟨?_, fun _ => ?_, fun hno => absurd hf hno⟩
  · rw [fold_eq hop sl sr hres fl fr, hconst.type]
    exact hty.symm
  · rw [fold_eq hop sl sr hres fl fr]
    exact hconst

end Binary

/-! ### Whole trees -/

theorem typedAll_iff {cs : List ASTNode} : TypedAll cs ↔ ∀ c ∈ cs, Typed c := by
  induction cs with
  | nil => simp [TypedAll]
  | cons c cs ih => simp [TypedAll, ih]

theorem Typed.child {k : ASTNodeType} {v : Option (List ℕ)} {ty : Option TypeKind}
    {cs : List ASTNode} (h : Typed (node k v ty cs)) {c : ASTNode} (hc : c ∈ cs) : Typed c :=
  typedAll_iff.1 h.2.2.2 c hc

section Tree

variable {k : ASTNodeType} {val : Option (List ℕ)} {ty : Option TypeKind} {cs : List ASTNode}
  (ht : Typed (node k val ty cs)) (hcs : ∀ c ∈ cs, ∀ x, cEval c = some x → Sound c x)

include ht hcs

theorem sound_of_cond (h : CondAt (node k val ty cs)) {v : CVal}
    (hv : cEval (node k val ty cs) = some v) : Sound (node k val ty cs) v := by
  cases valued hv with
  | literal hty hs => exact sound_literal ht hty hs
  | long hs => exact sound_long hs
  | @binary op _ l r ds x y _ hl hr hop =>
    have sl := hcs l (by simp) x hl
    have sr := hcs r (by simp) y hr
    by_cases hf : Folds (node .binaryExpression (some op) ty (l :: r :: ds))
    · obtain ⟨fl, fr, hdiv⟩ : Folds l ∧ Folds r ∧ (op = slash ∨ op = percent →
          ∀ y, cEval r = some y → (operandDouble r y).eq 0 = false) := by
        cases hf with
        | literal h => cases h
        | binary fl fr _ hdiv => exact ⟨fl, fr, hdiv⟩
      obtain ⟨res, hres⟩ := foldOp_isSome (p := operandDouble l x) (isArithmetic_of_cOp hop)
        fun hd => hdiv hd y hr
      exact sound_folded hl hr hop sl sr hres ht fl fr hf
        (h op ty l r ds x y v rfl hf hl hr hop)
    · exact sound_kept hl hr hop sl sr hf

omit ht in
theorem cond_of_wellAt (h : WellAt (node k val ty cs)) : CondAt (node k val ty cs) := by
  rintro op ty' l r ds x y v heq hf hl hr hop
  rw [heq] at h hf
  cases heq
  have hv := (cEval_binary ty ds hl hr).trans hop
  cases hf with
  | literal h => cases h
  | binary fl fr hop' hdiv =>
    obtain ⟨res, hres⟩ := foldOp_isSome (p := operandDouble l x) hop' fun hd => hdiv hd y hr
    exact (fold_value_iff hl hr hop (hcs l (by simp) x hl) (hcs r (by simp) y hr) hres fl fr).1
      (h v hv).2

end Tree

theorem sound_of_conds (t : ASTNode) : Typed t → (∀ s, Sub s t → CondAt s) →
    ∀ x, cEval t = some x → Sound t x := by
  induction t using ASTNode.induct with
  | hnull => intro _ _ x h; cases h
  | hnode k v ty cs ih =>
    intro ht hcond x hx
    exact sound_of_cond ht
      (fun c hc => ih c hc (ht.child hc) fun s hs => hcond s (.child hc hs)) (hcond _ (.refl _)) hx

theorem conds_of_wellAt (t : ASTNode) : Typed t → (∀ s, Sub s t → WellAt s) →
    ∀ s, Sub s t → CondAt s := by
  induction t using ASTNode.induct with
  | hnull =>
    intro _ _ s hs
    cases hs
    rintro _ _ _ _ _ _ _ _ h
    cases h
  | hnode k v ty cs ih =>
    intro ht hwell s hs
    have hconds : ∀ c ∈ cs, ∀ s, Sub s c → CondAt s := fun c hc =>
      ih c hc (ht.child hc) fun s hs => hwell s (.child hc hs)
    cases hs with
    | refl =>
      exact cond_of_wellAt (fun c hc => sound_of_conds c (ht.child hc) (hconds c hc))
        (hwell _ (.refl _))
    | child hc hs => exact hconds _ hc s hs

theorem Sub.trans {s t u : ASTNode} (h : Sub s t) (h' : Sub t u) : Sub s u := by
  induction h' with
  | refl => exact h
  | child hc _ ih => exact .child hc ih

theorem Typed.sub {s t : ASTNode} (h : Sub s t) (ht : Typed t) : Typed s := by
  induction h with
  | refl => exact ht
  | child hc _ ih => exact ih (ht.child hc)

theorem condAt_literal (v : Option (List ℕ)) (ty : Option TypeKind) (cs : List ASTNode) :
    CondAt (node .literal v ty cs) := by
  rintro _ _ _ _ _ _ _ _ h
  cases h

theorem typed_integer {s : List ℕ} (hne : s ≠ []) (h : s.all isDigit = true) :
    Typed (node .literal (some s) (some .int) []) := by
  refine ⟨fun t _ ht => .inr (.inr ?_), fun hk => (by cases hk),
    fun _ _ _ _ hk => (by cases hk), trivial⟩
  cases ht
  rw [inferFromLiteral_int hne h]
  refine ⟨?_, rfl⟩
  have hall := List.all_eq_true.1 h
  exact List.all_eq_true.2 fun c hc => by simp [hall c hc]

/-- The sum of two integers. -/
def sumTree (a b : ℕ) : ASTNode :=
  node .binaryExpression (some plus) (some .int)
    [node .literal (some (natText a)) (some .int) [],
      node .literal (some (natText b)) (some .int) []]

theorem typed_natText (n : ℕ) : Typed (node .literal (some (natText n)) (some .int) []) :=
  typed_integer (intText_digits (intText_natText n)).1
    (all_isDigit (intText_digits (intText_natText n)).2)

theorem typed_sumTree (a b : ℕ) : Typed (sumTree a b) := by
  refine ⟨fun _ hk => (by cases hk), fun hk => (by cases hk), ?_, ?_⟩
  · rintro op l r ds - hop hcs - lk rk hl hr -
    cases hcs
    cases hl
    cases hr
    rfl
  · exact ⟨typed_natText a, typed_natText b, trivial⟩

theorem longLong_scaled (d : Double) :
    ∃ m k : ℕ, (longLong d).natAbs = m * 2 ^ k ∧ m < 2 ^ 53 := by
  have h := trunc_scaled (value?_ofInt_longLong d)
  rwa [trunc_of_value? (value?_ofInt_longLong d)] at h

/-- An odd number above `2 ^ 53` is no double. -/
theorem longLong_ne (d : Double) : longLong d ≠ 2 ^ 53 + 1 := by
  intro h
  obtain ⟨m, k, hmk, hm⟩ := longLong_scaled d
  rw [h] at hmk
  rcases k with _ | k
  · omega
  · have hm2 : m * 2 ^ (k + 1) = 2 * (m * 2 ^ k) := by ring
    omega

theorem sound_natText {n : ℕ} {x : CVal}
    (h : cEval (node .literal (some (natText n)) (some .int) []) = some x) :
    Sound (node .literal (some (natText n)) (some .int) []) x :=
  sound_literal (typed_natText n) (by simp) h

theorem constant_natText {n : ℕ} {x : CVal} (h : cRead (natText n) = some x) :
    isConstant (node .literal (some (natText n)) (some .int) []) = true :=
  (constant_literal (typed_natText n) (by simp) h []).isConst

end Aether

end Qjs
