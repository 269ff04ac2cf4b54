import Qjs.Proofs.JsonLex
import Qjs.Proofs.RegexpCode

/-!
# Regular expressions: what the compiler writes

The code that is written for a term, an alternative or a disjunction is that of a tree
(`reParseDisjunction_emits`): moving code to make room for an instruction in front of it gives the
node around it.
-/

namespace Qjs.Regexp

open Json

variable {cc cc' : ℕ} {a b t : Node}

/-! ### Trees without registers -/

/-- Without registers the number in use does not matter. -/
theorem ops_const (r : ℕ) : ∀ (k k' : ℕ) (a : Node), a.ops (fun _ => r) k = a.ops (fun _ => r) k'
  | _, _, .nil | _, _, .op _ => rfl
  | k, k', .cat a b | k, k', .alt a b => by
    simp only [Node.ops, ops_const r k k' a, ops_const r k k' b]
  | k, k', .skip _ a | k, k', .star _ a | k, k', .plus _ a | k, k', .look _ a => by
    simp only [Node.ops, ops_const r k k' a]
  | k, k', .guard a | k, k', .times _ a => by
    simp only [Node.ops, ops_const r (k + 1) (k' + 1) a]
  | k, k', .counted checkAdv _ _ _ a => by
    simp only [Node.ops, ops_const r (k + 1 + checkAdv.toNat) (k' + 1 + checkAdv.toNat) a]

@[simp] theorem bytes_ops_raw (k : ℕ) (a : Node) : bytes (a.ops (fun _ => 0) k) = a.raw := by
  rw [Node.raw, ops_const 0 k 0 a]

@[simp] theorem length_raw (a : Node) : a.raw.length = a.size := length_bytes_ops _ 0 a

@[simp] theorem raw_nil : Node.nil.raw = [] := rfl

@[simp] theorem raw_op (o : Op) : (Node.op o).raw = o.encode := bytes_singleton o

@[simp] theorem raw_cat (a b : Node) : (Node.cat a b).raw = a.raw ++ b.raw := by
  rw [Node.raw, Node.ops, bytes_append, Node.raw, Node.raw]

theorem raw_alt (a b : Node) : (Node.alt a b).raw
    = (Op.split true (a.size + 5)).encode ++ a.raw ++ (Op.goto b.size).encode ++ b.raw := by
  simp only [Node.raw, Node.ops, bytes_append, bytes_singleton]

theorem raw_skip (greedy : Bool) (a : Node) :
    (Node.skip greedy a).raw = (Op.split greedy a.size).encode ++ a.raw := by
  simp only [Node.raw, Node.ops, bytes_append, bytes_singleton]

theorem raw_guard (a : Node) :
    (Node.guard a).raw = (Op.setCharPos 0).encode ++ a.raw ++ (Op.checkAdvance 0).encode := by
  rw [Node.raw, Node.ops]
  simp only [bytes_append, bytes_singleton, bytes_ops_raw]

theorem raw_star (greedy : Bool) (a : Node) : (Node.star greedy a).raw
    = (Op.split greedy (a.size + 5)).encode ++ a.raw ++ (Op.goto (-(5 + a.size + 5))).encode := by
  simp only [Node.raw, Node.ops, bytes_append, bytes_singleton]

theorem raw_plus (greedy : Bool) (a : Node) :
    (Node.plus greedy a).raw = a.raw ++ (Op.split (!greedy) (-(a.size + 5))).encode := by
  simp only [Node.raw, Node.ops, bytes_append, bytes_singleton]

theorem raw_times (n : ℕ) (a : Node) : (Node.times n a).raw
    = (Op.setI32 0 n).encode ++ a.raw ++ (Op.loop 0 (-(a.size + 6))).encode := by
  rw [Node.raw, Node.ops]
  simp only [bytes_append, bytes_singleton, bytes_ops_raw]

theorem raw_counted (checkAdv greedy : Bool) (max limit : ℕ) (a : Node) :
    (Node.counted checkAdv greedy max limit a).raw = (Op.setI32 0 max).encode
      ++ (if checkAdv then (Op.setCharPos 0).encode else []) ++ a.raw
      ++ (Op.loopSplit checkAdv (!greedy) 0 limit
        (-(2 * checkAdv.toNat + a.size + 10))).encode := by
  rw [Node.raw, Node.ops]
  simp only [bytes_append, bytes_singleton, bytes_ops_raw]
  cases checkAdv
  · rfl
  · rw [if_pos rfl, if_pos rfl, bytes_singleton]

theorem raw_look (neg : Bool) (a : Node) : (Node.look neg a).raw
    = (Op.lookahead neg (a.size + 1)).encode ++ a.raw ++ (Op.lookaheadMatch neg).encode := by
  simp only [Node.raw, Node.ops, bytes_append, bytes_singleton]

/-! ### More groups -/

theorem Op.Plain.mono {o : Op} (hcc : cc ≤ cc') (h : o.Plain cc) : o.Plain cc' := by
  cases o with
  | save isEnd i => exact lt_of_lt_of_le h hcc
  | saveReset i j => exact ⟨h.1, h.2.trans_le hcc⟩
  | _ => exact h

theorem Op.Plain.fits {o : Op} (h : o.Plain cc) : o.Fits := by
  cases o with
  | char bs => exact h
  | range8 tab => exact h
  | range tab => exact h
  | _ => trivial

theorem Node.Ok.mono (hcc : cc ≤ cc') : ∀ {a : Node}, a.Ok cc → a.Ok cc'
  | .nil, _ => trivial
  | .op _, h => Op.Plain.mono hcc h
  | .cat _ _, h | .alt _ _, h => ⟨Node.Ok.mono hcc h.1, Node.Ok.mono hcc h.2⟩
  | .skip _ a, h | .guard a, h | .look _ a, h => Node.Ok.mono (a := a) hcc h
  | .star _ _, h | .plus _ _, h | .times _ _, h | .counted _ _ _ _ _, h =>
    ⟨Node.Ok.mono hcc h.1, h.2⟩

/-! ### Does an atom go forward? -/

theorem reNeedCheckAdv_nil (fuel : ℕ) : reNeedCheckAdvAndCaptureInit fuel [] = (true, false) := by
  cases fuel <;> rfl

theorem reNeedCheckAdv_encode {o : Op} (h : o.Fits) (fuel : ℕ) (rest : List ℕ) :
    reNeedCheckAdvAndCaptureInit (fuel + 1) (o.encode ++ rest)
      = match o.scan with
        | some true => (false, (reNeedCheckAdvAndCaptureInit fuel rest).2)
        | some false => reNeedCheckAdvAndCaptureInit fuel rest
        | none => (true, true) := by
  have hne : o.encode ++ rest = o.code :: (o.operands ++ rest) := rfl
  rw [hne, reNeedCheckAdvAndCaptureInit, ← hne, Op.decode_encode h]
  · simp only [Op.size_wrap, Op.drop_size]
    cases o <;> rfl
  · intro h'
    cases h'

/-- If the scan stops at an instruction, nothing was found to go forward there. -/
theorem scan_false_of_stop {o : Op} (h : o.Fits) (ho : o.scan = none) {fuel : ℕ} {rest : List ℕ}
    (hs : (reNeedCheckAdvAndCaptureInit fuel (o.encode ++ rest)).1 = false) : False := by
  cases fuel with
  | zero => cases hs
  | succ fuel =>
    rw [reNeedCheckAdv_encode h, ho] at hs
    cases hs

/-- An instruction without effect is passed. -/
theorem scan_of_transparent {o : Op} (h : o.Fits) (ho : o.scan = some false) {fuel : ℕ}
    {rest : List ℕ}
    (hs : (reNeedCheckAdvAndCaptureInit fuel (o.encode ++ rest)).1 = false) :
    ∃ fuel', (reNeedCheckAdvAndCaptureInit fuel' rest).1 = false := by
  cases fuel with
  | zero => cases hs
  | succ fuel =>
    rw [reNeedCheckAdv_encode h, ho] at hs
    exact ⟨fuel, hs⟩

/-- If the scan finds that code goes forward, it found it in the node at its start, or after it. -/
theorem advances_of_scan : ∀ {a : Node} {rest : List ℕ} {fuel : ℕ}, a.Ok cc →
    (reNeedCheckAdvAndCaptureInit fuel (a.raw ++ rest)).1 = false →
    a.advances = true ∨ ∃ fuel', (reNeedCheckAdvAndCaptureInit fuel' rest).1 = false
  | .nil, rest, fuel, _, hs => .inr ⟨fuel, hs⟩
  | .op o, rest, fuel, h, hs => by
    rw [raw_op] at hs
    rcases ho : o.scan with _ | _ | _
    · exact absurd hs fun hs => scan_false_of_stop (Op.Plain.fits h) ho hs
    · exact .inr (scan_of_transparent (Op.Plain.fits h) ho hs)
    · exact .inl (by simp [Node.advances, ho])
  | .cat a b, rest, fuel, h, hs => by
    rw [raw_cat, List.append_assoc] at hs
    rcases advances_of_scan h.1 hs with ha | ⟨fuel', hs'⟩
    · exact .inl (by simp [Node.advances, ha])
    · rcases advances_of_scan h.2 hs' with hb | hs''
      · exact .inl (by simp [Node.advances, hb])
      · exact .inr hs''
  | .alt a b, rest, fuel, _, hs => by
    simp only [raw_alt, List.append_assoc] at hs
    exact absurd hs fun hs => scan_false_of_stop (o := .split true _) trivial rfl hs
  | .skip greedy a, rest, fuel, _, hs => by
    simp only [raw_skip, List.append_assoc] at hs
    exact absurd hs fun hs => scan_false_of_stop (o := .split greedy _) trivial rfl hs
  | .guard a, rest, fuel, _, _ => .inl rfl
  | .star greedy a, rest, fuel, _, hs => by
    simp only [raw_star, List.append_assoc] at hs
    exact absurd hs fun hs => scan_false_of_stop (o := .split greedy _) trivial rfl hs
  | .plus greedy a, rest, fuel, h, _ => .inl h.2
  | .times n a, rest, fuel, h, hs => by
    simp only [raw_times, List.append_assoc] at hs
    have hn : n < 2 ^ 32 := lt_of_le_of_lt h.2.2 (by norm_num [shortIntMax])
    obtain ⟨fuel', hs'⟩ := scan_of_transparent (o := .setI32 0 n) hn rfl hs
    rcases advances_of_scan h.1 hs' with ha | ⟨fuel'', hs''⟩
    · exact .inl ha
    · exact absurd hs'' fun hs => scan_false_of_stop (o := .loop 0 _) trivial rfl hs
  | .counted checkAdv greedy max limit a, rest, fuel, h, hs => by
    simp only [raw_counted, List.append_assoc] at hs
    have hn : max < 2 ^ 32 := lt_of_le_of_lt h.2.2.1 (by norm_num [shortIntMax])
    have hl : limit < 2 ^ 32 := lt_of_le_of_lt h.2.2.2 hn
    obtain ⟨fuel', hs'⟩ := scan_of_transparent (o := .setI32 0 max) hn rfl hs
    have hpos : ∀ code, (reNeedCheckAdvAndCaptureInit fuel'
        ((if checkAdv then (Op.setCharPos 0).encode else []) ++ code)).1 = false →
        ∃ fuel, (reNeedCheckAdvAndCaptureInit fuel code).1 = false := by
      intro code hs
      cases checkAdv with
      | false => exact ⟨fuel', hs⟩
      | true => exact scan_of_transparent (o := .setCharPos 0) trivial rfl hs
    obtain ⟨fuel'', hs''⟩ := hpos _ hs'
    rcases advances_of_scan h.1 hs'' with ha | ⟨fuel₃, hs₃⟩
    · exact .inl ha
    · exact absurd hs₃ fun hs =>
        scan_false_of_stop (o := .loopSplit checkAdv (!greedy) 0 limit _) hl
          (by cases checkAdv <;> rfl) hs
  | .look neg a, rest, fuel, _, hs => by
    simp only [raw_look, List.append_assoc] at hs
    exact absurd hs fun hs => scan_false_of_stop (o := .lookahead neg _) trivial rfl hs

/-- An atom for which no check is needed goes forward. -/
theorem advances_of_need {fuel : ℕ} (h : a.Ok cc)
    (hs : (reNeedCheckAdvAndCaptureInit fuel a.raw).1 = false) : a.advances = true := by
  have hs' : (reNeedCheckAdvAndCaptureInit fuel (a.raw ++ [])).1 = false := by
    rwa [List.append_nil]
  rcases advances_of_scan h hs' with ha | ⟨fuel', hf⟩
  · exact ha
  · rw [reNeedCheckAdv_nil] at hf
    cases hf

/-! ### Quantifiers -/

theorem insertAt_append (pre xs bs : List ℕ) :
    insertAt (pre ++ xs) pre.length bs = pre ++ (bs ++ xs) := by
  rw [insertAt, List.take_left, List.drop_left, List.append_assoc]

/-- An atom with a check, if one is needed. -/
def guarded (checkAdv : Bool) (a : Node) : Node := if checkAdv then .guard a else a

theorem raw_guarded (checkAdv : Bool) (a : Node) : (guarded checkAdv a).raw
    = (if checkAdv then (Op.setCharPos 0).encode else []) ++ a.raw
      ++ (if checkAdv then (Op.checkAdvance 0).encode else []) := by
  cases checkAdv
  · simp [guarded]
  · exact raw_guard a

theorem size_guarded (checkAdv : Bool) (a : Node) :
    (guarded checkAdv a).size = a.size + checkAdv.toNat * 2 * 2 := by
  cases checkAdv
  · rfl
  · change 2 + a.size + 2 = a.size + 1 * 2 * 2
    omega

theorem guarded_ok {checkAdv : Bool} (h : a.Ok cc) : (guarded checkAdv a).Ok cc := by
  cases checkAdv <;> exact h

theorem guarded_advances {checkAdv : Bool} (h : checkAdv = false → a.advances = true) :
    (guarded checkAdv a).advances = true := by
  cases checkAdv with
  | false => exact h rfl
  | true => rfl

variable {q : Quantifier} {checkAdv : Bool}

theorem quantifyFromZero_emits (pre : List ℕ) (ha : a.Ok cc)
    (hadv : checkAdv = false → a.advances = true) (hq : q.quantMax ≤ shortIntMax) :
    ∃ b : Node, b.Ok cc ∧
      quantifyFromZero (pre ++ a.raw) pre.length a.size checkAdv q = pre ++ b.raw := by
  unfold quantifyFromZero
  simp only [insertAt_append]
  by_cases h1 : q.quantMax = 0
  · rw [if_pos h1, List.take_left]
    exact ⟨.nil, trivial, by rw [raw_nil, List.append_nil]⟩
  rw [if_neg h1]
  by_cases h2 : q.quantMax = 1
  · rw [if_pos h2]
    refine ⟨.skip q.greedy (guarded checkAdv a), guarded_ok ha, ?_⟩
    rw [raw_skip, raw_guarded, size_guarded]
    push_cast
    simp only [List.append_assoc]
  rw [if_neg h2]
  by_cases h3 : q.quantMax = shortIntMax
  · rw [if_pos h3]
    refine ⟨.star q.greedy (guarded checkAdv a), ⟨guarded_ok ha, guarded_advances hadv⟩, ?_⟩
    have hrel : relTo (pre ++ ((Op.split q.greedy (a.size + 5 + checkAdv.toNat * 2 * 2)).encode
          ++ (if checkAdv then (Op.setCharPos 0).encode else []) ++ a.raw)
          ++ (if checkAdv then (Op.checkAdvance 0).encode else [])) 5 pre.length
        = -(5 + (a.size + checkAdv.toNat * 2 * 2) + 5) := by
      simp only [relTo, List.length_append, length_raw, Op.length_encode]
      cases checkAdv <;> simp [Op.size, Op.operands] <;> omega
    have hval : (a.size : ℤ) + 5 + checkAdv.toNat * 2 * 2 =
        a.size + checkAdv.toNat * 2 * 2 + 5 := by
      ring
    rw [hrel, hval, raw_star, raw_guarded, size_guarded]
    push_cast
    simp only [List.append_assoc]
  · rw [if_neg h3]
    refine ⟨.skip q.greedy (.counted checkAdv q.greedy q.quantMax q.quantMax a),
      ⟨ha, by omega, hq, le_rfl⟩, ?_⟩
    have hrel : relTo (pre ++ ((Op.split q.greedy (6 + checkAdv.toNat * 2 + a.size + 10)).encode
          ++ (Op.setI32 0 q.quantMax).encode
          ++ (if checkAdv then (Op.setCharPos 0).encode else []) ++ a.raw)) 10 (pre.length + 11)
        = -(2 * checkAdv.toNat + a.size + 10) := by
      simp only [relTo, List.length_append, length_raw, Op.length_encode]
      cases checkAdv <;> simp [Op.size, Op.operands] <;> omega
    have hsize : ((Node.counted checkAdv q.greedy q.quantMax q.quantMax a).size : ℤ)
        = 6 + checkAdv.toNat * 2 + a.size + 10 := by
      simp only [Node.size]
      push_cast
      ring
    rw [hrel, raw_skip, raw_counted, hsize]
    simp only [List.append_assoc]

theorem quantifyFromOne_emits (pre : List ℕ) (ha : a.Ok cc)
    (hadv : checkAdv = false → a.advances = true) (hmin : 1 ≤ q.quantMin)
    (hle : q.quantMin ≤ q.quantMax) (hq : q.quantMax ≤ shortIntMax) :
    ∃ b : Node, b.Ok cc ∧ quantifyFromOne (pre ++ a.raw) pre.length checkAdv q = pre ++ b.raw := by
  unfold quantifyFromOne
  simp only [insertAt_append]
  by_cases h1 : q.quantMin = 1 ∧ q.quantMax = shortIntMax ∧ (!checkAdv) = true
  · rw [if_pos h1]
    refine ⟨.plus q.greedy a, ⟨ha, hadv (by simpa using h1.2.2)⟩, ?_⟩
    have hrel : relTo (pre ++ a.raw) 5 pre.length = -(a.size + 5) := by
      simp only [relTo, List.length_append, length_raw]
      omega
    rw [hrel, raw_plus, List.append_assoc]
  rw [if_neg h1]
  by_cases h2 : q.quantMin = q.quantMax
  · rw [if_pos h2]
    refine ⟨.times q.quantMax a, ⟨ha, hmin.trans hle, hq⟩, ?_⟩
    have hrel : relTo (pre ++ ((Op.setI32 0 q.quantMax).encode ++ a.raw)) 6 (pre.length + 6)
        = -(a.size + 6) := by
      simp only [relTo, List.length_append, length_raw, Op.length_encode]
      simp [Op.size, Op.operands]
      omega
    rw [hrel, raw_times]
    simp only [List.append_assoc]
  · rw [if_neg h2]
    refine ⟨.counted checkAdv q.greedy q.quantMax (q.quantMax - q.quantMin) a,
      ⟨ha, hmin.trans hle, hq, Nat.sub_le _ _⟩, ?_⟩
    have hrel : relTo (pre ++ ((Op.setI32 0 q.quantMax).encode
          ++ (if checkAdv then (Op.setCharPos 0).encode else []) ++ a.raw)) 10 (pre.length + 6)
        = -(2 * checkAdv.toNat + a.size + 10) := by
      simp only [relTo, List.length_append, length_raw, Op.length_encode]
      cases checkAdv <;> simp [Op.size, Op.operands] <;> omega
    rw [hrel, raw_counted]
    simp only [List.append_assoc]

/-- A quantifier after an atom gives a node around it. -/
theorem quantify_emits (pre : List ℕ) {last : ℕ} (ha : a.Ok cc) (hlast : last ≤ cc)
    (hle : q.quantMin ≤ q.quantMax) (hq : q.quantMax ≤ shortIntMax) :
    ∃ b : Node, b.Ok cc ∧ quantify (pre ++ a.raw) pre.length last cc q = pre ++ b.raw := by
  unfold quantify
  rw [List.drop_left]
  have hneed := @advances_of_need _ _ (pre ++ a.raw).length ha
  rcases hscan : reNeedCheckAdvAndCaptureInit (pre ++ a.raw).length a.raw
    with ⟨checkAdv, captureInit⟩
  rw [hscan] at hneed
  simp only [insertAt_append, decide_eq_true_eq]
  have hreset : last ≠ cc → (Op.saveReset last (cc - 1)).Plain cc := fun h => ⟨by omega, by omega⟩
  -- the atom that is repeated, with the reset of its captures if this is done each time
  obtain ⟨a₁, ha₁, hadv, hcode⟩ : ∃ a₁ : Node, a₁.Ok cc ∧ (checkAdv = false → a₁.advances = true) ∧
      (if captureInit = true ∧ last ≠ cc then
        pre ++ ((Op.saveReset last (cc - 1)).encode ++ a.raw) else pre ++ a.raw)
          = pre ++ a₁.raw := by
    split_ifs with h
    · exact ⟨.cat (.op (.saveReset last (cc - 1))) a, ⟨hreset h.2, ha⟩, fun hc => by
        simp [Node.advances, hneed hc], by rw [raw_cat, raw_op]⟩
    · exact ⟨a, ha, hneed, rfl⟩
  rw [hcode]
  have hlen : (pre ++ a₁.raw).length - pre.length = a₁.size := by simp
  simp only [hlen]
  by_cases hmin : q.quantMin = 0
  · rw [if_pos hmin]
    split_ifs with h
    · -- once in front of the loop
      obtain ⟨b, hb, heq⟩ := quantifyFromZero_emits (pre ++ (Op.saveReset last (cc - 1)).encode)
        ha₁ hadv hq
      refine ⟨.cat (.op (.saveReset last (cc - 1))) b, ⟨hreset h.2, hb⟩, ?_⟩
      rw [raw_cat, raw_op]
      have hpre : (pre ++ (Op.saveReset last (cc - 1)).encode).length = pre.length + 3 := by
        rw [List.length_append]
        rfl
      rw [insertAt_append, ← List.append_assoc, ← hpre, heq, List.append_assoc]
    · exact quantifyFromZero_emits pre ha₁ hadv hq
  · rw [if_neg hmin]
    exact quantifyFromOne_emits pre ha₁ hadv (by omega) hle hq

end Qjs.Regexp
