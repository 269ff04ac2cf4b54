import Qjs.DeadCode

/-!
# Dead code elimination keeps the roles of the children exactly when nothing shifts

The loop of `optimize_dead_code` over the children moves what is left to the front, so a child of a
`for` whose init is absent takes the role before its own. `preserved_iff` says which trees the pass
is right on; `Keeps.meaning_eq` is the half that is about what a tree means.
-/

namespace Qjs

namespace Aether

open ASTNode JsonText

attribute [simp] optimizeDeadCode optimizeChildren

/-! ### Conditions -/

theorem eq_zero_ofRat {n : ℕ} (hn : n ≠ 0) : Double.eq (Double.ofRat false n) 0#64 = false := by
  rw [← Bool.not_eq_true]
  intro h
  have hmsb := Double.msb_ofRat false n
  have hzero : Double.ofRat false n = 0#64 := by
    refine (Double.eq_zero_cases h).resolve_right fun hm => ?_
    rw [hm] at hmsb
    exact absurd hmsb (by decide)
  have hq : (1 : ℚ) ≤ n := by exact_mod_cast Nat.one_le_iff_ne_zero.2 hn
  have hlog : 0 ≤ Int.log 2 (n : ℚ) := by
    rw [Int.log_natCast]
    positivity
  have hpos := Double.ratMagnitude_of_pos (q := n) (by linarith)
  have hnat := Double.toNat_ofRat false n
  rw [hzero, Bool.toNat_false, zero_mul, zero_add, hpos] at hnat
  have hexp : 1 ≤ (Double.ratUlpExp (n : ℚ) + 1074).toNat := by
    unfold Double.ratUlpExp
    omega
  have hmin := min_le_iff.1 hnat.symm.le
  simp only [BitVec.toNat_ofNat] at hmin
  omega

theorem digitsValue_foldl (ds : List ℕ) (n : ℕ) (h : ds.all isDigit = true) :
    ds.foldl (fun n d => 10 * n + (d - 0x30)) n = 0 ↔ n = 0 ∧ ds.any (· != 0x30) = false := by
  induction ds generalizing n with
  | nil => simp
  | cons d ds ih =>
    simp only [List.all_cons, Bool.and_eq_true] at h
    have hd : 0x30 ≤ d := by
      have := h.1
      simp only [isDigit, Bool.and_eq_true, decide_eq_true_eq] at this
      exact this.1
    rw [List.foldl_cons, ih _ h.2, List.any_cons, Bool.or_eq_false_iff]
    simp only [bne_eq_false_iff_eq]
    constructor
    · rintro ⟨h0, ha⟩
      exact ⟨by omega, by omega, ha⟩
    · rintro ⟨h0, hd, ha⟩
      exact ⟨by omega, ha⟩

/-- `atof` of an integer constant. -/
theorem atof_digits {d : ℕ} {ds : List ℕ} (hv : (d :: ds).all isDigit = true) :
    atof (d :: ds) = Double.ofRat false (digitsValue (d :: ds) : ℕ) := by
  have hd : isDigit d = true := by simp only [List.all_cons, Bool.and_eq_true] at hv; exact hv.1
  have hrange : 0x30 ≤ d ∧ d ≤ 0x39 := by
    simpa only [isDigit, Bool.and_eq_true, decide_eq_true_eq] using hd
  have hpeek : peek (d :: ds) = d := rfl
  have hsign : skipSign (d :: ds) = d :: ds := by
    rw [skipSign, hpeek, if_neg (by omega)]
  have hall : (d :: ds).takeWhile isDigit = d :: ds := by
    rw [List.takeWhile_eq_self_iff]
    simpa only [List.all_eq_true] using hv
  have hrest : (d :: ds).dropWhile isDigit = [] := by
    rw [List.dropWhile_eq_nil_iff]
    simpa only [List.all_eq_true] using hv
  have hword : ∀ c w, c = 0x69 ∨ c = 0x6e → ¬ (d :: ds).take 3 = c :: w := by
    intro c w hc h
    have := congrArg List.head? h
    simp at this
    omega
  have hneg : (d == 0x2d) = false := by
    rw [beq_eq_false_iff_ne]
    omega
  unfold atof
  simp only [hsign, if_neg (hword 0x69 _ (.inl rfl)), if_neg (hword 0x6e _ (.inr rfl))]
  unfold strtod
  simp [hsign, hall, hrest, hneg, peek, Decimal.double, Decimal.magnitude, Decimal.exponent,
    digitsValue]

/-- The double of an integer constant is zero when its digits are. -/
theorem numberTruth_eq (v : List ℕ) : numberTruth v = !Double.eq (atof v) 0#64 := by
  unfold numberTruth
  split_ifs with hv
  · rcases v with _ | ⟨d, ds⟩
    · decide +kernel
    · rw [atof_digits hv]
      have hiff := digitsValue_foldl (d :: ds) 0 hv
      by_cases h0 : digitsValue (d :: ds) = 0
      · rw [h0, (hiff.1 h0).2]
        decide +kernel
      · have hany : (d :: ds).any (· != 0x30) = true := by
          by_contra hne
          exact h0 (hiff.2 ⟨rfl, by simpa using hne⟩)
        rw [eq_zero_ofRat h0, hany]
        rfl
  · rfl

theorem literalTruth_eq {c : ASTNode} (h : isString c = false) :
    literalTruth c = isConstantCondition c := by
  unfold literalTruth isConstantCondition
  split
  · rename_i v ty cs
    have hty : ty ≠ some .string := by
      rintro rfl
      simp [isString] at h
    simp only [if_neg hty, numberTruth_eq]
  · rfl

theorem literalTruth_string {c : ASTNode} (h : isString c = true) : literalTruth c = none := by
  unfold literalTruth
  split
  · rename_i v ty cs
    have hty : ty = some .string := by simpa [isString] using h
    rw [if_pos hty]
  · rfl

theorem isConstantCondition_of_literalTruth {c : ASTNode} {b : Bool}
    (h : literalTruth c = some b) : isConstantCondition c = some b := by
  rw [← literalTruth_eq, h]
  by_contra hs
  rw [literalTruth_string (by simpa using hs)] at h
  cases h

/-! ### What the pass leaves -/

theorem optimizeChildren_eq (cs : List ASTNode) :
    optimizeChildren cs = (cs.map optimizeDeadCode).filter fun d => !d.isNull := by
  induction cs with
  | nil => rfl
  | cons c cs ih =>
    rw [optimizeChildren, ih, List.map_cons]
    cases hr : optimizeDeadCode c <;> simp [isNull]

theorem optimizeChildren_ne_null {cs : List ASTNode} {d : ASTNode}
    (h : d ∈ optimizeChildren cs) : d ≠ null := by
  rw [optimizeChildren_eq] at h
  rintro rfl
  simp [isNull] at h

mutual

theorem ASTNode.induct {P : ASTNode → Prop} (hnull : P null)
    (hnode : ∀ k v ty cs, (∀ c ∈ cs, P c) → P (node k v ty cs)) : ∀ t, P t
  | null => hnull
  | node k v ty cs => hnode k v ty cs (ASTNode.inductAll hnull hnode cs)

theorem ASTNode.inductAll {P : ASTNode → Prop} (hnull : P null)
    (hnode : ∀ k v ty cs, (∀ c ∈ cs, P c) → P (node k v ty cs)) : ∀ cs : List ASTNode, ∀ c ∈ cs, P c
  | [], _, h => by cases h
  | d :: ds, c, h => by
    rcases List.mem_cons.1 h with h | h
    · exact h ▸ ASTNode.induct hnull hnode d
    · exact ASTNode.inductAll hnull hnode ds c h

end

theorem parsedAll_iff {cs : List ASTNode} : ParsedAll cs ↔ ∀ c ∈ cs, Parsed c := by
  induction cs with
  | nil => simp [ParsedAll]
  | cons c cs ih => simp [ParsedAll, ih]

theorem alignedAll_iff {cs : List ASTNode} : alignedAll cs = true ↔ ∀ c ∈ cs, aligned c = true := by
  induction cs with
  | nil => simp [alignedAll]
  | cons c cs ih => simp [alignedAll, ih]

/-- A node that the pass treats by its children alone. -/
def Plain (k : ASTNodeType) (cs : List ASTNode) : Prop :=
  (∀ c a ds, k = .ifStatement → cs ≠ c :: a :: ds) ∧ ∀ c ds, k = .whileLoop → cs ≠ c :: ds

inductive View : ASTNodeType → List ASTNode → Prop
  | ite (c a : ASTNode) (cs : List ASTNode) : View .ifStatement (c :: a :: cs)
  | loop (c : ASTNode) (cs : List ASTNode) : View .whileLoop (c :: cs)
  | plain {k cs} : Plain k cs → View k cs

theorem view (k : ASTNodeType) (cs : List ASTNode) : View k cs := by
  by_cases hi : ∃ c a ds, k = .ifStatement ∧ cs = c :: a :: ds
  · obtain ⟨c, a, ds, rfl, rfl⟩ := hi
    exact .ite c a ds
  · by_cases hw : ∃ c ds, k = .whileLoop ∧ cs = c :: ds
    · obtain ⟨c, ds, rfl, rfl⟩ := hw
      exact .loop c ds
    · exact .plain ⟨fun c a ds hk hcs => hi ⟨c, a, ds, hk, hcs⟩, fun c ds hk hcs => hw ⟨c, ds, hk, hcs⟩⟩

section Equations

variable (v : Option (List ℕ)) (ty : Option TypeKind) (c a : ASTNode) (cs : List ASTNode)

theorem optimize_ite : optimizeDeadCode (node .ifStatement v ty (c :: a :: cs)) =
    match isConstantCondition c with
    | some true => optimizeDeadCode a
    | some false => optimizeElse cs
    | none => node .ifStatement v ty (optimizeChildren (c :: a :: cs)) := by
  rw [optimizeDeadCode] <;> rfl

theorem optimize_loop : optimizeDeadCode (node .whileLoop v ty (c :: cs)) =
    if isConstantCondition c = some false then null
    else node .whileLoop v ty (optimizeChildren (c :: cs)) := by
  rw [optimizeDeadCode]

theorem optimize_plain {k : ASTNodeType} {cs : List ASTNode} (h : Plain k cs) :
    optimizeDeadCode (node k v ty cs) = node k v ty (optimizeChildren cs) := by
  unfold optimizeDeadCode
  split
  · cases ‹node k v ty cs = null›
  · rename_i heq
    cases heq
    exact absurd rfl (h.1 _ _ _ rfl)
  · rename_i heq
    cases heq
    exact absurd rfl (h.2 _ _ rfl)
  · rename_i heq
    cases heq
    rfl

theorem removable_plain {k : ASTNodeType} {cs : List ASTNode} (h : Plain k cs) :
    removable (node k v ty cs) = false := by
  unfold removable
  split
  · cases ‹node k v ty cs = null›
  · rename_i heq
    cases heq
    exact absurd rfl (h.1 _ _ _ rfl)
  · rename_i heq
    cases heq
    exact absurd rfl (h.2 _ _ rfl)
  · rfl

theorem aligned_plain {k : ASTNodeType} {cs : List ASTNode} (h : Plain k cs) :
    aligned (node k v ty cs) = (aligned1 k v cs && alignedAll cs) := by
  unfold aligned
  split
  · cases ‹node k v ty cs = null›
  · rename_i heq
    cases heq
    exact absurd rfl (h.1 _ _ _ rfl)
  · rename_i heq
    cases heq
    exact absurd rfl (h.2 _ _ rfl)
  · rename_i heq
    cases heq
    rfl

end Equations

theorem optimizeElse_eq (cs : List ASTNode) : optimizeElse cs = optimizeDeadCode (child cs 0) := by
  rcases cs with _ | ⟨b, cs⟩
  · simp [optimizeElse, child, optimizeDeadCode]
  · rfl

theorem removableElse_eq (cs : List ASTNode) : removableElse cs = removable (child cs 0) := by
  rcases cs with _ | ⟨b, cs⟩
  · simp [removableElse, child, removable]
  · rfl

theorem alignedElse_eq (cs : List ASTNode) : alignedElse cs = aligned (child cs 0) := by
  rcases cs with _ | ⟨b, cs⟩
  · simp [alignedElse, child, aligned]
  · rfl

/-- What holds of every child and of the absent one holds in every role. -/
theorem forall_child {P : ASTNode → Prop} {cs : List ASTNode} (h : ∀ c ∈ cs, P c) (h0 : P null)
    (i : ℕ) : P (child cs i) := by
  rcases lt_or_ge i cs.length with hi | hi
  · rw [child, List.getD_eq_getElem _ _ hi]
    exact h _ (List.getElem_mem hi)
  · rwa [child, List.getD_eq_default _ _ hi]

theorem removable_iff (t : ASTNode) : removable t = true ↔ optimizeDeadCode t = null := by
  induction t using ASTNode.induct with
  | hnull => simp [removable, optimizeDeadCode]
  | hnode k v ty cs ih =>
    rcases view k cs with ⟨c, a, cs⟩ | ⟨c, cs⟩ | h
    · rw [removable, optimize_ite, removableElse_eq, optimizeElse_eq]
      rcases isConstantCondition c with _ | _ | _
      · simp
      · exact forall_child (fun b hb => ih b (by simp [hb])) (by simp [removable, optimizeDeadCode]) 0
      · exact ih a (by simp)
    · rw [removable, optimize_loop]
      split_ifs with hc <;> simp [hc]
    · rw [removable_plain v ty h, optimize_plain v ty h]
      simp

/-- The child in each role after the pass, where nothing goes before a child that stays. -/
theorem child_optimizeChildren {cs : List ASTNode} (h : inOrder cs = true) (i : ℕ) :
    child (optimizeChildren cs) i = optimizeDeadCode (child cs i) := by
  induction cs generalizing i with
  | nil => simp [child, optimizeChildren, optimizeDeadCode]
  | cons c cs ih =>
    by_cases hc : removable c = true
    · have hall : ∀ d ∈ c :: cs, optimizeDeadCode d = null := by
        intro d hd
        rw [inOrder, List.dropWhile_cons_of_neg (by simpa using hc), List.all_eq_true] at h
        exact (removable_iff d).1 (h d hd)
      have hnil : optimizeChildren (c :: cs) = [] := by
        rw [optimizeChildren_eq, List.filter_eq_nil_iff]
        intro d hd
        obtain ⟨e, he, rfl⟩ := List.mem_map.1 hd
        simp [hall e he, isNull]
      rw [hnil]
      rcases lt_or_ge i (c :: cs).length with hi | hi
      · rw [child, child, List.getD_eq_getElem _ _ hi, hall _ (List.getElem_mem hi)]
        simp
      · rw [child, child, List.getD_eq_default _ _ hi]
        simp [optimizeDeadCode]
    · have hne : optimizeDeadCode c ≠ null := fun h0 => hc ((removable_iff c).2 h0)
      have hcons : optimizeChildren (c :: cs) = optimizeDeadCode c :: optimizeChildren cs := by
        rw [optimizeChildren_eq, optimizeChildren_eq, List.map_cons]
        cases hr : optimizeDeadCode c with
        | null => exact absurd hr hne
        | node => simp [isNull]
      have h' : inOrder cs = true := by
        rwa [inOrder, List.dropWhile_cons_of_pos (by simpa using hc)] at h
      rw [hcons]
      cases i with
      | zero => rfl
      | succ i => exact ih h' i

/-! ### The trees of the parser -/

theorem Parsed.child {k : ASTNodeType} {v : Option (List ℕ)} {ty : Option TypeKind}
    {cs : List ASTNode} (h : Parsed (node k v ty cs)) {c : ASTNode} (hc : c ∈ cs) : Parsed c :=
  parsedAll_iff.1 h.2 c hc

theorem isExpr_optimize {c : ASTNode} (h : c.IsExpr) :
    ∃ k v ty cs, c = node k v ty cs ∧ optimizeDeadCode c = node k v ty (optimizeChildren cs) := by
  rcases c with _ | ⟨k, v, ty, cs⟩
  · exact h.elim
  · exact ⟨k, v, ty, cs, rfl, optimize_plain v ty ⟨fun _ _ _ hk => absurd hk h.1,
      fun _ _ hk => absurd hk h.2⟩⟩

theorem Parsed.plain_ne {k : ASTNodeType} {v : Option (List ℕ)} {ty : Option TypeKind}
    {cs : List ASTNode} (h : Parsed (node k v ty cs)) (hp : Plain k cs) :
    k ≠ .ifStatement ∧ k ≠ .whileLoop := by
  constructor
  · rintro rfl
    rcases cs with _ | ⟨c, _ | ⟨a, cs⟩⟩
    · exact h.1
    · exact h.1
    · exact hp.1 c a cs rfl rfl
  · rintro rfl
    rcases cs with _ | ⟨c, cs⟩
    · exact h.1
    · exact hp.2 c cs rfl rfl

/-- No statement on a constant condition is left at the root. -/
def Settled : ASTNode → Prop
  | node .ifStatement _ _ (c :: _) => isConstantCondition c = none
  | node .whileLoop _ _ (c :: _) => isConstantCondition c ≠ some false
  | _ => True

theorem isConstantCondition_congr {k : ASTNodeType} {v : Option (List ℕ)} {ty : Option TypeKind}
    (cs ds : List ASTNode) :
    isConstantCondition (node k v ty cs) = isConstantCondition (node k v ty ds) := by
  by_cases hk : k = .literal
  · subst hk
    cases v <;> rfl
  · have hnone : ∀ es, isConstantCondition (node k v ty es) = none := by
      intro es
      unfold isConstantCondition
      split
      · rename_i heq
        cases heq
        exact absurd rfl hk
      · rfl
    rw [hnone, hnone]

theorem isExpr_condition {c : ASTNode} (h : c.IsExpr) (cs : List ASTNode) :
    ∃ c' cs', optimizeChildren (c :: cs) = c' :: cs' ∧
      isConstantCondition c' = isConstantCondition c := by
  obtain ⟨k, v, ty, ds, rfl, hr⟩ := isExpr_optimize h
  refine ⟨node k v ty (optimizeChildren ds), optimizeChildren cs, ?_,
    isConstantCondition_congr _ ds⟩
  rw [optimizeChildren, hr]

theorem settled_optimize (t : ASTNode) (h : Parsed t) : Settled (optimizeDeadCode t) := by
  induction t using ASTNode.induct with
  | hnull => simp [optimizeDeadCode, Settled]
  | hnode k v ty cs ih =>
    rcases view k cs with ⟨c, a, cs⟩ | ⟨c, cs⟩ | hp
    · have hc : c.IsExpr := by
        rcases cs with _ | ⟨b, _ | ⟨_, _⟩⟩
        · exact h.1.1
        · exact h.1.1
        · exact h.1.elim
      rw [optimize_ite, optimizeElse_eq]
      rcases hcc : isConstantCondition c with _ | _ | _
      · obtain ⟨c', cs', heq, hc'⟩ := isExpr_condition hc (a :: cs)
        simp only [heq, Settled]
        rw [hc', hcc]
      · exact forall_child (P := fun b => Settled (optimizeDeadCode b))
          (fun b hb => ih b (by simp [hb]) (h.child (by simp [hb])))
          (by simp [optimizeDeadCode, Settled]) 0
      · exact ih a (by simp) (h.child (by simp))
    · have hc : c.IsExpr := by
        rcases cs with _ | ⟨b, _ | ⟨_, _⟩⟩
        · exact h.1.elim
        · exact h.1.1
        · exact h.1.elim
      rw [optimize_loop]
      split_ifs with hcc
      · trivial
      · obtain ⟨c', cs', heq, hc'⟩ := isExpr_condition hc cs
        simp only [heq, Settled]
        rwa [hc']
    · have hne := h.plain_ne hp
      rw [optimize_plain v ty hp]
      unfold Settled
      split
      · rename_i heq
        injection heq with hk
        exact absurd hk hne.1
      · rename_i heq
        injection heq with hk
        exact absurd hk hne.2
      · trivial

/-! ### Keeping the roles -/

theorem keeps_null {r : ASTNode} (h : Keeps null r) : r = null := by
  cases h
  rfl

theorem Keeps.isConstantCondition_eq {c d : ASTNode} {b : Bool} (h : Keeps c d)
    (hc : isConstantCondition c = some b) : isConstantCondition d = some b := by
  rcases c with _ | ⟨k, v, ty, cs⟩
  · cases hc
  · have hk : k = .literal := by
      unfold isConstantCondition at hc
      split at hc
      · rename_i heq
        cases heq
        rfl
      · cases hc
    subst hk
    cases h with
    | roles _ _ => rwa [isConstantCondition_congr _ cs]
    | listed hl => exact hl.elim

/-- A statement that the pass removes is kept as nothing, or as what the pass never leaves. -/
theorem Keeps.null_of_removable {t r : ASTNode} (h : Keeps t r) (ht : removable t = true)
    (hr : Settled r) : r = ASTNode.null := by
  induction h with
  | null | ifGone | whileGone => rfl
  | ifTrue hc _ ih =>
    rw [removable, isConstantCondition_of_literalTruth hc] at ht
    exact ih ht hr
  | ifElse hc _ ih =>
    rw [removable, isConstantCondition_of_literalTruth hc] at ht
    exact ih ht hr
  | @roles k v ty cs ds hl hroles _ =>
    exfalso
    rcases view k cs with ⟨c, a, cs⟩ | ⟨c, cs⟩ | hp
    · have h0 : Keeps c (ASTNode.child ds 0) := hroles 0
      rw [removable] at ht
      rcases hc : isConstantCondition c with _ | b
      · rw [hc] at ht
        cases ht
      · have hd := h0.isConstantCondition_eq hc
        rcases ds with _ | ⟨d, ds⟩
        · cases hd
        · exact absurd hr (by simp [Settled, show isConstantCondition d = some b from hd])
    · have h0 : Keeps c (ASTNode.child ds 0) := hroles 0
      have hc : isConstantCondition c = some false := by simpa [removable] using ht
      have hd := h0.isConstantCondition_eq hc
      rcases ds with _ | ⟨d, ds⟩
      · cases hd
      · exact hr hd
    · rw [removable_plain v ty hp] at ht
      cases ht
  | @listed k v ty cs ds hl =>
    have hp : Plain k cs := ⟨fun _ _ _ hk => by subst hk; exact hl.elim,
      fun _ _ hk => by subst hk; exact hl.elim⟩
    rw [removable_plain v ty hp] at ht
    cases ht

theorem Keeps.removable_of_null {t r : ASTNode} (h : Keeps t r) (hr : r = ASTNode.null) :
    removable t = true := by
  induction h with
  | null => rfl
  | ifTrue hc _ ih => rw [removable, isConstantCondition_of_literalTruth hc]; exact ih hr
  | ifElse hc _ ih => rw [removable, isConstantCondition_of_literalTruth hc]; exact ih hr
  | ifGone hc => rw [removable, isConstantCondition_of_literalTruth hc]; rfl
  | whileGone hc => rw [removable, isConstantCondition_of_literalTruth hc]; rfl
  | roles | listed => cases hr

theorem aligned1_eq {k : ASTNodeType} (h : ¬ Listed k) (v : Option (List ℕ)) (cs : List ASTNode) :
    aligned1 k v cs = inOrder cs := by
  unfold aligned1
  split <;> first | rfl | exact absurd trivial h

theorem aligned1_listed {k : ASTNodeType} (h : Listed k) (v : Option (List ℕ)) (cs : List ASTNode) :
    aligned1 k v cs = true ↔ ∀ d ∈ (cs.map optimizeDeadCode).take (lead k v), d ≠ null := by
  rw [← List.map_take]
  have hmap : ∀ ds : List ASTNode, (∀ d ∈ ds.map optimizeDeadCode, d ≠ null) ↔
      ∀ d ∈ ds, removable d = false := by
    intro ds
    simp only [List.forall_mem_map, ne_eq, ← removable_iff, Bool.not_eq_true]
  rw [hmap]
  unfold Listed at h
  split at h
  · simp [aligned1, lead]
  · simp [aligned1, lead]
  · simp [aligned1, lead]
  · exact h.elim

theorem child_map (cs : List ASTNode) (i : ℕ) :
    child (cs.map optimizeDeadCode) i = optimizeDeadCode (child cs i) := by
  simp only [child, List.getD_eq_getElem?_getD, List.getElem?_map]
  cases cs[i]? <;> simp [optimizeDeadCode]

theorem not_listed_ite : ¬ Listed .ifStatement := id

theorem not_listed_loop : ¬ Listed .whileLoop := id

theorem keeps_of_aligned (t : ASTNode) (h : Parsed t) (ha : aligned t = true) :
    Keeps t (optimizeDeadCode t) := by
  induction t using ASTNode.induct with
  | hnull => simpa [optimizeDeadCode] using Keeps.null
  | hnode k v ty cs ih =>
    have hroles : inOrder cs = true → alignedAll cs = true →
        ∀ i, Keeps (child cs i) (child (optimizeChildren cs) i) := by
      intro hin hall i
      rw [child_optimizeChildren hin]
      rw [alignedAll_iff] at hall
      exact forall_child (P := fun c => Keeps c (optimizeDeadCode c))
        (fun c hc => ih c hc (h.child hc) (hall c hc)) (by simpa [optimizeDeadCode] using Keeps.null) i
    rcases view k cs with ⟨c, a, cs⟩ | ⟨c, cs⟩ | hp
    · rw [optimize_ite]
      rw [aligned] at ha
      rcases hc : isConstantCondition c with _ | _ | _
      · simp only [hc, Bool.and_eq_true] at ha
        rw [aligned1_eq not_listed_ite] at ha
        exact .roles not_listed_ite (hroles ha.1 ha.2)
      · simp only [hc, Bool.and_eq_true, Bool.not_eq_true'] at ha
        have hl := (literalTruth_eq ha.1).trans hc
        rcases cs with _ | ⟨b, cs⟩
        · exact .ifGone hl
        · exact .ifElse hl (ih b (by simp) (h.child (by simp)) ha.2)
      · simp only [hc, Bool.and_eq_true, Bool.not_eq_true'] at ha
        have hl := (literalTruth_eq ha.1).trans hc
        exact .ifTrue hl (ih a (by simp) (h.child (by simp)) ha.2)
    · rw [optimize_loop]
      rw [aligned] at ha
      split_ifs at ha ⊢ with hc
      · exact .whileGone ((literalTruth_eq (by simpa using ha)).trans hc)
      · rw [Bool.and_eq_true, aligned1_eq not_listed_loop] at ha
        exact .roles not_listed_loop (hroles ha.1 ha.2)
    · rw [optimize_plain v ty hp]
      rw [aligned_plain v ty hp, Bool.and_eq_true] at ha
      by_cases hl : Listed k
      · rw [optimizeChildren_eq]
        refine .listed hl (by simp) (fun i => ?_) ((aligned1_listed hl v cs).1 ha.1)
        rw [child_map]
        have hall := alignedAll_iff.1 ha.2
        exact forall_child (P := fun c => Keeps c (optimizeDeadCode c))
          (fun c hc => ih c hc (h.child hc) (hall c hc)) (by simpa [optimizeDeadCode] using Keeps.null)
          i
      · rw [aligned1_eq hl] at ha
        exact .roles hl (hroles ha.1 ha.2)

/-! ### Only then -/

theorem Keeps.ite_const {v : Option (List ℕ)} {ty : Option TypeKind} {c a r : ASTNode}
    {cs : List ASTNode} {b : Bool} (h : Keeps (node .ifStatement v ty (c :: a :: cs)) r)
    (hs : Settled r) (hc : isConstantCondition c = some b) :
    literalTruth c = some b ∧ Keeps (if b then a else ASTNode.child cs 0) r := by
  cases h with
  | ifTrue hl hk =>
    obtain rfl : b = true := by
      simpa [hc] using isConstantCondition_of_literalTruth hl
    exact ⟨hl, hk⟩
  | ifElse hl hk =>
    obtain rfl : b = false := by
      simpa [hc] using isConstantCondition_of_literalTruth hl
    exact ⟨hl, hk⟩
  | ifGone hl =>
    obtain rfl : b = false := by
      simpa [hc] using isConstantCondition_of_literalTruth hl
    exact ⟨hl, .null⟩
  | @roles _ _ _ _ ds _ hroles =>
    have hd := (show Keeps c (ASTNode.child ds 0) from hroles 0).isConstantCondition_eq hc
    rcases ds with _ | ⟨d, ds⟩
    · cases hd
    · exact absurd hs (by simp [Settled, show isConstantCondition d = some b from hd])
  | listed hl => exact hl.elim

theorem inOrder_of_keeps {cs : List ASTNode} (hp : ∀ c ∈ cs, Parsed c)
    (h : ∀ i, Keeps (child cs i) (child (optimizeChildren cs) i)) : inOrder cs = true := by
  induction cs with
  | nil => rfl
  | cons c cs ih =>
    by_cases hc : removable c = true
    · have hr := (removable_iff c).1 hc
      have hcs : optimizeChildren (c :: cs) = optimizeChildren cs := by
        rw [optimizeChildren, hr]
      have hnil : optimizeChildren cs = [] := by
        rw [← List.head?_eq_none_iff]
        by_contra hne
        obtain ⟨d, hd⟩ := Option.ne_none_iff_exists'.1 hne
        have hmem : d ∈ optimizeChildren cs := List.mem_of_mem_head? hd
        have h0 : Keeps c d := by
          have := h 0
          rw [hcs] at this
          rcases hds : optimizeChildren cs with _ | ⟨d', ds⟩
          · rw [hds] at hd
            cases hd
          · rw [hds] at this hd
            cases hd
            exact this
        refine optimizeChildren_ne_null hmem (h0.null_of_removable hc ?_)
        rw [optimizeChildren_eq, List.mem_filter] at hmem
        obtain ⟨e, he, rfl⟩ := List.mem_map.1 hmem.1
        exact settled_optimize e (hp e (by simp [he]))
      rw [inOrder, List.dropWhile_cons_of_neg (by simpa using hc), List.all_eq_true]
      intro d hd
      rcases List.mem_cons.1 hd with rfl | hd
      · exact hc
      · rw [optimizeChildren_eq, List.filter_eq_nil_iff] at hnil
        have := hnil _ (List.mem_map_of_mem hd)
        rw [removable_iff]
        cases hd' : optimizeDeadCode d with
        | null => rfl
        | node => simp [hd', isNull] at this
    · have hne : optimizeDeadCode c ≠ null := fun h0 => hc ((removable_iff c).2 h0)
      have hcs : optimizeChildren (c :: cs) = optimizeDeadCode c :: optimizeChildren cs := by
        rw [optimizeChildren]
        cases hr : optimizeDeadCode c with
        | null => exact absurd hr hne
        | node => rfl
      rw [inOrder, List.dropWhile_cons_of_pos (by simpa using hc)]
      refine ih (fun d hd => hp d (by simp [hd])) fun i => ?_
      have := h (i + 1)
      rwa [hcs] at this

theorem eq_of_filter {ds es : List ASTNode} (hlen : ds.length = es.length)
    (hnull : ∀ i, child ds i = null ↔ child es i = null)
    (h : (ds.filter fun d => !d.isNull) = es.filter fun d => !d.isNull) : ds = es := by
  induction ds generalizing es with
  | nil => exact (List.length_eq_zero_iff.1 hlen.symm).symm
  | cons d ds ih =>
    rcases es with _ | ⟨e, es⟩
    · cases hlen
    · have h0 : d = null ↔ e = null := hnull 0
      have htail := fun i => hnull (i + 1)
      have hlen' : ds.length = es.length := Nat.succ.inj hlen
      rcases d with _ | ⟨k, v, ty, cs⟩
      · obtain rfl := h0.1 rfl
        rw [ih hlen' htail (by simpa [isNull] using h)]
      · rcases e with _ | ⟨k', v', ty', cs'⟩
        · cases h0.2 rfl
        · simp only [isNull, Bool.not_false, List.filter_cons_of_pos, List.cons.injEq] at h
          rw [h.1, ih hlen' htail h.2]

/-- A list has one way to be kept. -/
theorem kept_list {cs ds : List ASTNode} (hp : ∀ c ∈ cs, Parsed c) (hlen : cs.length = ds.length)
    (h : ∀ i, Keeps (child cs i) (child ds i))
    (hf : (ds.filter fun d => !d.isNull) = optimizeChildren cs) : ds = cs.map optimizeDeadCode := by
  have hsettled : ∀ i, Settled (child ds i) := by
    refine forall_child (fun d hd => ?_) trivial
    rcases hd' : d with _ | ⟨k, v, ty, es⟩
    · trivial
    · have hmem : d ∈ optimizeChildren cs := by
        rw [← hf, List.mem_filter]
        exact ⟨hd, by rw [hd']; rfl⟩
      rw [optimizeChildren_eq, List.mem_filter] at hmem
      obtain ⟨e, he, heq⟩ := List.mem_map.1 hmem.1
      rw [← hd', ← heq]
      exact settled_optimize e (hp e he)
  refine eq_of_filter (by simp [hlen]) (fun i => ?_) (by rw [hf, optimizeChildren_eq])
  rw [child_map, ← removable_iff]
  exact ⟨(h i).removable_of_null, fun hr => (h i).null_of_removable hr (hsettled i)⟩

theorem exists_child {cs : List ASTNode} {c : ASTNode} (h : c ∈ cs) : ∃ i, child cs i = c := by
  obtain ⟨i, hi, rfl⟩ := List.mem_iff_getElem.1 h
  exact ⟨i, by rw [child, List.getD_eq_getElem _ _ hi]⟩

theorem aligned_of_keeps (t : ASTNode) (h : Parsed t) (hk : Keeps t (optimizeDeadCode t)) :
    aligned t = true := by
  induction t using ASTNode.induct with
  | hnull => rfl
  | hnode k v ty cs ih =>
    have hsettled := settled_optimize _ h
    have hroles : (∀ i, Keeps (child cs i) (child (optimizeChildren cs) i)) →
        inOrder cs = true ∧ alignedAll cs = true := by
      intro hi
      have hin := inOrder_of_keeps (fun c hc => h.child hc) hi
      refine ⟨hin, alignedAll_iff.2 fun c hc => ih c hc (h.child hc) ?_⟩
      obtain ⟨i, rfl⟩ := exists_child hc
      rw [← child_optimizeChildren hin]
      exact hi i
    rcases view k cs with ⟨c, a, cs⟩ | ⟨c, cs⟩ | hp
    · rw [aligned]
      have hstr : ∀ b, literalTruth c = some b → isString c = false := by
        intro b hb
        by_contra hs
        rw [literalTruth_string (by simpa using hs)] at hb
        cases hb
      rcases hc : isConstantCondition c with _ | _ | _
      · rw [optimize_ite, hc] at hk
        simp only [Bool.and_eq_true]
        rw [aligned1_eq not_listed_ite]
        generalize hr : node .ifStatement v ty (optimizeChildren (c :: a :: cs)) = r at hk
        cases hk with
        | ifTrue hl => rw [isConstantCondition_of_literalTruth hl] at hc; cases hc
        | ifElse hl => rw [isConstantCondition_of_literalTruth hl] at hc; cases hc
        | ifGone hl => cases hr
        | roles _ hi => cases hr; exact hroles hi
        | listed hl => exact hl.elim
      · obtain ⟨hl, hb⟩ := hk.ite_const hsettled hc
        rw [optimize_ite, hc] at hb
        simp only [Bool.and_eq_true, Bool.not_eq_true']
        refine ⟨hstr _ hl, ?_⟩
        rw [alignedElse_eq]
        simp only [Bool.false_eq_true, if_false, optimizeElse_eq] at hb
        rcases cs with _ | ⟨b, cs⟩
        · rfl
        · exact ih b (by simp) (h.child (by simp)) hb
      · obtain ⟨hl, ha⟩ := hk.ite_const hsettled hc
        rw [optimize_ite, hc] at ha
        simp only [Bool.and_eq_true, Bool.not_eq_true']
        exact ⟨hstr _ hl, ih a (by simp) (h.child (by simp)) ha⟩
    · rw [aligned]
      rw [optimize_loop] at hk
      split_ifs at hk ⊢ with hc
      · cases hk with
        | whileGone hl =>
          rw [Bool.not_eq_true', ← Bool.not_eq_true]
          intro hs
          rw [literalTruth_string hs] at hl
          cases hl
      · rw [Bool.and_eq_true, aligned1_eq not_listed_loop]
        generalize hr : node .whileLoop v ty (optimizeChildren (c :: cs)) = r at hk
        cases hk with
        | whileGone hl => cases hr
        | roles _ hi => cases hr; exact hroles hi
        | listed hl => exact hl.elim
    · rw [aligned_plain v ty hp, Bool.and_eq_true]
      rw [optimize_plain v ty hp] at hk
      generalize hr : node k v ty (optimizeChildren cs) = r at hk
      cases hk with
      | ifTrue => exact absurd rfl (hp.1 _ _ _ rfl)
      | ifElse => exact absurd rfl (hp.1 _ _ _ rfl)
      | ifGone => cases hr
      | whileGone => cases hr
      | roles hl hi =>
        cases hr
        rw [aligned1_eq hl]
        exact hroles hi
      | listed hl hlen hi hlead =>
        injection hr with _ _ _ hr
        obtain rfl := kept_list (fun c hc => h.child hc) hlen hi hr.symm
        refine ⟨(aligned1_listed hl v cs).2 hlead, alignedAll_iff.2 fun c hc => ?_⟩
        obtain ⟨i, rfl⟩ := exists_child hc
        have := hi i
        rw [child_map] at this
        exact ih _ hc (h.child hc) this

/-! ### What the tree means -/

section Meaning

variable {σ V : Type} (S : Semantics σ V)

/-- A child in its role: absent, or what it means. -/
def role (c : ASTNode) : Option (Flow.Meaning σ V) := if c.isNull then none else some (meaning S c)

theorem meanings_eq (cs : List ASTNode) : meanings S cs = cs.map (role S) := by
  induction cs with
  | nil => rfl
  | cons c cs ih => rw [meanings, ih]; rfl

theorem meanings_getD (cs : List ASTNode) (i : ℕ) :
    (meanings S cs).getD i none = role S (child cs i) := by
  rw [meanings_eq]
  simp only [child, List.getD_eq_getElem?_getD, List.getElem?_map]
  cases cs[i]? <;> rfl

theorem role_stmt (c : ASTNode) : (role S c).getD Flow.skip = meaning S c := by
  rcases c with _ | _
  · simp [role, isNull, meaning]
  · rfl

theorem meaning_ite (v : Option (List ℕ)) (ty : Option TypeKind) (cs : List ASTNode) :
    meaning S (node .ifStatement v ty cs) = Flow.ite S.truth (role S (child cs 0))
      (meaning S (child cs 1)) (meaning S (child cs 2)) := by
  rw [meaning, nodeMeaning]
  · simp only [meanings_getD, role_stmt]
  · simp

theorem meaning_loop (v : Option (List ℕ)) (ty : Option TypeKind) (cs : List ASTNode) :
    meaning S (node .whileLoop v ty cs) = Flow.Loop S.truth (role S (child cs 0)) Flow.skip
      (meaning S (child cs 1)) := by
  rw [meaning, nodeMeaning]
  · simp only [meanings_getD, role_stmt]
  · simp

theorem role_literal {c : ASTNode} {b : Bool} (h : literalTruth c = some b) :
    ∃ w, role S c = some (Flow.pure w) ∧ S.truth w = b := by
  have h' := h
  unfold literalTruth at h
  split at h
  · rename_i v ty cs
    exact ⟨S.literal v ty, by simp [role, isNull, meaning], S.truth_literal v ty cs b h'⟩
  · cases h

/-- An expression, or a part that is absent, is kept as itself. -/
theorem role_eq {c d : ASTNode} (h : Keeps c d) (hc : c = null ∨ c.IsExpr)
    (hm : meaning S d = meaning S c) : role S d = role S c := by
  rcases hc with rfl | hc
  · rw [keeps_null h]
  · obtain ⟨k, v, ty, cs, rfl, -⟩ := isExpr_optimize hc
    have hp : Plain k cs := ⟨fun _ _ _ hk => absurd hk hc.1, fun _ _ hk => absurd hk hc.2⟩
    have hne : d ≠ null := by
      intro hd
      have := h.removable_of_null hd
      rw [removable_plain v ty hp] at this
      cases this
    rcases d with _ | _
    · exact absurd rfl hne
    · simpa [role, isNull] using hm

theorem nodeMeaning_congr {k : ASTNodeType} (hl : ¬ Listed k) (v : Option (List ℕ))
    (ty : Option TypeKind) {ms ns : List (Option (Flow.Meaning σ V))}
    (h : ∀ i, ms.getD i none = ns.getD i none) :
    nodeMeaning S k v ty ms = nodeMeaning S k v ty ns := by
  unfold nodeMeaning
  simp only [h]
  split <;> first | rfl | exact absurd trivial hl

theorem shape_expr {k : ASTNodeType} {cs : List ASTNode} (h : Shape k cs) (hl : ¬ Listed k)
    (hif : k ≠ .ifStatement) (hwhile : k ≠ .whileLoop) (hfor : k ≠ .forLoop)
    (hdefer : k ≠ .deferStatement) : ∀ c ∈ cs, c.IsExpr := by
  unfold Shape at h
  split at h <;> first | exact h | exact absurd trivial hl | exact absurd rfl ‹_›

/-- A node whose children mean the same in their roles means the same. -/
theorem meaning_roles {k : ASTNodeType} {v : Option (List ℕ)} {ty : Option TypeKind}
    {cs ds : List ASTNode} (hl : ¬ Listed k) (hs : Shape k cs)
    (hroles : ∀ i, Keeps (child cs i) (child ds i))
    (hm : ∀ i, meaning S (child ds i) = meaning S (child cs i)) :
    meaning S (node k v ty ds) = meaning S (node k v ty cs) := by
  have hexpr : ∀ i, child cs i = null ∨ (child cs i).IsExpr →
      role S (child ds i) = role S (child cs i) := fun i hi => role_eq S (hroles i) hi (hm i)
  by_cases hif : k = .ifStatement
  · subst hif
    have h0 : (child cs 0).IsExpr := by
      rcases cs with _ | ⟨c, _ | ⟨a, _ | ⟨b, _ | ⟨_, _⟩⟩⟩⟩
      exacts [hs.elim, hs.elim, hs.1, hs.1, hs.elim]
    rw [meaning_ite, meaning_ite, hexpr 0 (.inr h0), hm, hm]
  by_cases hwhile : k = .whileLoop
  · subst hwhile
    have h0 : (child cs 0).IsExpr := by
      rcases cs with _ | ⟨c, _ | ⟨a, _ | ⟨_, _⟩⟩⟩
      exacts [hs.elim, hs.elim, hs.1, hs.elim]
    rw [meaning_loop, meaning_loop, hexpr 0 (.inr h0), hm]
  by_cases hfor : k = .forLoop
  · subst hfor
    have h1 : child cs 1 = null ∨ (child cs 1).IsExpr := by
      rcases cs with _ | ⟨i, _ | ⟨c, _ | ⟨n, _ | ⟨b, _ | ⟨_, _⟩⟩⟩⟩⟩
      exacts [hs.elim, hs.elim, hs.elim, hs.elim, hs.2.1, hs.elim]
    rw [meaning, meaning, nodeMeaning, nodeMeaning]
    · simp only [meanings_getD, role_stmt, hm, hexpr 1 h1]
    all_goals simp
  by_cases hdefer : k = .deferStatement
  · subst hdefer
    rw [meaning, meaning, nodeMeaning, nodeMeaning]
    · simp only [meanings_getD, role_stmt, hm]
    all_goals simp
  have hall := shape_expr hs hl hif hwhile hfor hdefer
  have hrole : ∀ i, role S (child ds i) = role S (child cs i) := fun i =>
    hexpr i (forall_child (P := fun c => c = null ∨ c.IsExpr) (fun c hc => .inr (hall c hc))
      (.inl rfl) i)
  have hnode : nodeMeaning S k v ty (meanings S ds) = nodeMeaning S k v ty (meanings S cs) :=
    nodeMeaning_congr S hl v ty fun i => by rw [meanings_getD, meanings_getD, hrole]
  by_cases hlit : k = .literal
  · subst hlit
    cases v with
    | none => simpa [meaning] using hnode
    | some v => simp [meaning]
  · rw [meaning, meaning, hnode]
    all_goals simp [hlit]

/-! #### Lists -/

theorem seq_filter (ds : List ASTNode) :
    Flow.seq ((ds.filter fun d => !d.isNull).map (meaning S)) = Flow.seq (ds.map (meaning S)) := by
  induction ds with
  | nil => rfl
  | cons d ds ih =>
    rcases d with _ | _
    · simpa [isNull, meaning, Flow.seq_cons] using ih
    · rw [List.filter_cons_of_pos rfl, List.map_cons, List.map_cons, Flow.seq_cons, Flow.seq_cons, ih]

theorem map_meaning_eq {cs ds : List ASTNode} (hlen : cs.length = ds.length)
    (hm : ∀ i, meaning S (child ds i) = meaning S (child cs i)) :
    ds.map (meaning S) = cs.map (meaning S) := by
  refine List.ext_getElem (by simp [hlen]) fun i h1 h2 => ?_
  simp only [List.length_map] at h1 h2
  have := hm i
  rw [child, child, List.getD_eq_getElem _ _ h1, List.getD_eq_getElem _ _ h2] at this
  simpa using this

theorem stmts_eq (cs : List ASTNode) :
    (meanings S cs).map (fun m => m.getD Flow.skip) = cs.map (meaning S) := by
  rw [meanings_eq, List.map_map]
  exact List.map_congr_left fun c _ => role_stmt S c

theorem filter_drop {ds : List ASTNode} {n : ℕ} (h : ∀ d ∈ ds.take n, d ≠ null) :
    (ds.filter fun d => !d.isNull).drop n = (ds.drop n).filter fun d => !d.isNull := by
  induction n generalizing ds with
  | zero => rfl
  | succ n ih =>
    rcases ds with _ | ⟨d, ds⟩
    · rfl
    · rcases d with _ | _
      · exact absurd rfl (h null (by simp))
      · simp only [isNull, Bool.not_false, List.filter_cons_of_pos, List.drop_succ_cons]
        exact ih fun d hd => h d (by simp [hd])

theorem filter_child {ds : List ASTNode} {n i : ℕ} (h : ∀ d ∈ ds.take n, d ≠ null) (hi : i < n) :
    child (ds.filter fun d => !d.isNull) i = child ds i := by
  induction n generalizing ds i with
  | zero => omega
  | succ n ih =>
    rcases ds with _ | ⟨d, ds⟩
    · rfl
    · rcases d with _ | ⟨k, v, ty, cs⟩
      · exact absurd rfl (h null (by simp))
      · simp only [isNull, Bool.not_false, List.filter_cons_of_pos]
        rcases i with _ | i
        · rfl
        · exact ih (fun d hd => h d (by simp [hd])) (by omega)

theorem meaning_listed {k : ASTNodeType} {v : Option (List ℕ)} {ty : Option TypeKind}
    {cs ds : List ASTNode} (hl : Listed k) (hs : Shape k cs) (hlen : cs.length = ds.length)
    (hlead : ∀ d ∈ ds.take (lead k v), d ≠ null)
    (hm : ∀ i, meaning S (child ds i) = meaning S (child cs i)) :
    meaning S (node k v ty (ds.filter fun d => !d.isNull)) = meaning S (node k v ty cs) := by
  have hmap := map_meaning_eq S hlen hm
  have hbody : Flow.seq (((ds.filter fun d => !d.isNull).map (meaning S)).drop (lead k v)) =
      Flow.seq ((cs.map (meaning S)).drop (lead k v)) := by
    rw [← hmap, ← List.map_drop, ← List.map_drop, filter_drop hlead, seq_filter]
  have hparts : ∀ i < lead k v, role S (child (ds.filter fun d => !d.isNull) i) =
      role S (child cs i) := by
    intro i hi
    rw [filter_child hlead hi]
    rcases lt_or_ge i cs.length with hc | hc
    · have hd : i < ds.length := hlen ▸ hc
      have hne : child ds i ≠ null := by
        rw [child, List.getD_eq_getElem _ _ hd]
        exact hlead _ (List.mem_take_iff_getElem.2 ⟨i, by omega, rfl⟩)
      have hne' : child cs i ≠ null := by
        have hall : ∀ c ∈ cs, c ≠ null := by
          unfold Listed at hl
          split at hl <;> first | exact hs | exact hl.elim
        rw [child, List.getD_eq_getElem _ _ hc]
        exact hall _ (List.getElem_mem hc)
      have := hm i
      rcases hd' : child ds i with _ | _
      · exact absurd hd' hne
      · rcases hc' : child cs i with _ | _
        · exact absurd hc' hne'
        · rw [hd', hc'] at this
          simpa [role, isNull] using this
    · rw [child, child, List.getD_eq_default _ _ hc, List.getD_eq_default _ _ (hlen ▸ hc)]
  have hnode : nodeMeaning S k v ty (meanings S (ds.filter fun d => !d.isNull)) =
      nodeMeaning S k v ty (meanings S cs) := by
    have hother : (fun i => if i < lead k v then
          (meanings S (ds.filter fun d => !d.isNull)).getD i none
        else if i = lead k v then some (Flow.seq
          (((meanings S (ds.filter fun d => !d.isNull)).drop (lead k v)).map
            fun m => m.getD Flow.skip)) else none) =
        fun i => if i < lead k v then (meanings S cs).getD i none
        else if i = lead k v then some (Flow.seq
          (((meanings S cs).drop (lead k v)).map fun m => m.getD Flow.skip)) else none := by
      funext i
      rw [List.map_drop, List.map_drop, stmts_eq, stmts_eq, hbody, meanings_getD, meanings_getD]
      split_ifs with hi
      · exact hparts i hi
      · rfl
      · rfl
    unfold nodeMeaning
    unfold Listed at hl
    split at hl
    · simp only [stmts_eq]
      funext s e d s'
      simp only [Flow.block, seq_filter, hmap]
    · simp only [hother]
    · simp only [hother]
    · exact hl.elim
  have hlit : k ≠ .literal := by
    rintro rfl
    exact hl
  rw [meaning, meaning, hnode]
  all_goals simp [hlit]

/-- A tree that keeps its roles means what it meant. -/
theorem Keeps.meaning_eq {t r : ASTNode} (h : Keeps t r) (hp : Parsed t) :
    meaning S r = meaning S t := by
  induction h with
  | null => rfl
  | @ifTrue v ty c a cs r hc _ ih =>
    obtain ⟨w, hw, hb⟩ := role_literal S hc
    rw [ih (hp.child (by simp)), meaning_ite]
    exact (by rw [show role S (ASTNode.child (c :: a :: cs) 0) = some (Flow.pure w) from hw,
      Flow.ite_pure hb]; rfl)
  | @ifElse v ty c a b cs r hc _ ih =>
    obtain ⟨w, hw, hb⟩ := role_literal S hc
    rw [ih (hp.child (by simp)), meaning_ite]
    exact (by rw [show role S (ASTNode.child (c :: a :: b :: cs) 0) = some (Flow.pure w) from hw,
      Flow.ite_pure hb]; rfl)
  | @ifGone v ty c a hc =>
    obtain ⟨w, hw, hb⟩ := role_literal S hc
    rw [meaning_ite]
    exact (by rw [show role S (ASTNode.child [c, a] 0) = some (Flow.pure w) from hw,
      Flow.ite_pure hb]; rfl)
  | @whileGone v ty c cs hc =>
    obtain ⟨w, hw, hb⟩ := role_literal S hc
    rw [meaning_loop]
    exact (by rw [show role S (ASTNode.child (c :: cs) 0) = some (Flow.pure w) from hw,
      Flow.loop_pure_false hb]; rfl)
  | @roles k v ty cs ds hl hroles ih =>
    refine meaning_roles S hl hp.1 hroles fun i => ih i ?_
    exact forall_child (P := Parsed) (fun c hc => hp.child hc) trivial i
  | @listed k v ty cs ds hl hlen hroles hlead ih =>
    refine meaning_listed S hl hp.1 hlen hlead fun i => ih i ?_
    exact forall_child (P := Parsed) (fun c hc => hp.child hc) trivial i

end Meaning

/-- The pass is right exactly where nothing shifts and no string is taken for a constant. -/
theorem preserved_iff (t : ASTNode) (h : Parsed t) : Preserved t ↔ aligned t = true := by
  constructor
  · intro hp
    exact aligned_of_keeps t h hp.1
  · intro ha
    have hk := keeps_of_aligned t h ha
    exact ⟨hk, fun σ V S => hk.meaning_eq S h⟩

section Samples

/-- `i` -/
def sampleVar : ASTNode := node .identifier (some [0x69]) (some .unknown) []

/-- `{ f() }` -/
def sampleBody : ASTNode :=
  node .block none none [node .expressionStatement none none
    [node .functionCall (some [0x66]) (some .unknown) []]]

/-- `i < 3` -/
def sampleTest : ASTNode :=
  node .binaryExpression (some [0x3c]) none
    [sampleVar, node .literal (some [0x33]) (some .unknown) []]

/-- `i++` -/
def sampleNext : ASTNode := node .unaryExpression (some [0x2b, 0x2b]) none [sampleVar]

/-- `if (false) { f() }` -/
def sampleDead : ASTNode :=
  node .ifStatement none none [node .literal (some falseText) (some .bool) [], sampleBody]

/-- `while (i < 3) { if (false) { f() }; f() }` -/
theorem preserved_iff_while :
    Preserved (node .whileLoop none none [sampleTest,
      node .block none none [sampleDead, sampleBody]]) := by
  refine (preserved_iff _ ?_).2 (by decide)
  simp [Parsed, ParsedAll, Shape, IsExpr, sampleTest, sampleVar, sampleBody, sampleDead]

/-- `for (; i < 3; i++) { f() }`: the condition becomes the init, the body the increment. -/
theorem forLoop_shifted :
    Parsed (node .forLoop none none [null, sampleTest, sampleNext, sampleBody]) ∧
    optimizeDeadCode (node .forLoop none none [null, sampleTest, sampleNext, sampleBody]) =
      node .forLoop none none [sampleTest, sampleNext, sampleBody] ∧
    ¬ Preserved (node .forLoop none none [null, sampleTest, sampleNext, sampleBody]) := by
  have hp : Parsed (node .forLoop none none [null, sampleTest, sampleNext, sampleBody]) := by
    simp [Parsed, ParsedAll, Shape, IsExpr, sampleTest, sampleNext, sampleVar, sampleBody]
  refine ⟨hp, rfl, fun h => ?_⟩
  have ha := aligned_of_keeps _ hp h.1
  cases ha

end Samples

end Aether

end Qjs
