import Qjs.Proofs.RegexpParse

/-!
# Regular expressions: the registers of a program

The last pass over the code of a tree gives each loop the registers after those of the loops around
it (`reComputeRegisterCount_node`), so a compiled program is the code of a tree with its registers
(`jsParseRegexp_tree`).
-/

namespace Qjs.Regexp

variable {src : Source} {cc pos : ℕ}

/-! ### One instruction -/

/-- The instruction with another register. -/
def Op.setReg (r : ℕ) : Op → Op
  | .setI32 _ v => .setI32 r v
  | .setCharPos _ => .setCharPos r
  | .checkAdvance _ => .checkAdvance r
  | .loop _ val => .loop r val
  | .loopSplit checkAdv nextFirst _ limit val => .loopSplit checkAdv nextFirst r limit val
  | op => op

/-- The pass goes over an instruction. -/
theorem reComputeRegisterCount_encode {o : Op} (ho : o.Fits) {fuel k m : ℕ} {rest : List ℕ}
    {out : List ℕ × ℕ} (hfuel : (o.encode ++ rest).length ≤ fuel)
    (h : reComputeRegisterCount cc pos fuel (o.encode ++ rest) k m = .ok out) :
    ∃ r k' m' fuel' code', rest.length ≤ fuel'
      ∧ allocRegister cc pos k m o.wrap = .ok (r, k', m')
      ∧ reComputeRegisterCount cc pos fuel' rest k' m' = .ok (code', out.2)
      ∧ out.1 = withRegister o.encode r ++ code' := by
  rw [List.length_append, Op.length_encode] at hfuel
  have hpos := o.size_pos
  cases fuel with
  | zero => omega
  | succ fuel =>
    have hne : o.encode ++ rest = o.code :: (o.operands ++ rest) := rfl
    rw [hne, reComputeRegisterCount, ← hne, Op.decode_encode ho] at h
    · obtain ⟨⟨r, k', m'⟩, h1, h⟩ := ok_of_bind h
      obtain ⟨⟨code', count⟩, h2, h⟩ := ok_of_bind h
      cases h
      rw [Op.size_wrap, Op.drop_size] at h2
      refine ⟨r, k', m', fuel, code', by omega, h1, h2, ?_⟩
      rw [Op.size_wrap, Op.take_size]
    · intro h'
      cases h'

/-- An instruction without a register. -/
theorem reCompute_plain {o : Op} (ho : o.Plain cc) {fuel k m : ℕ} {rest : List ℕ}
    {out : List ℕ × ℕ} (hfuel : (o.encode ++ rest).length ≤ fuel)
    (h : reComputeRegisterCount cc pos fuel (o.encode ++ rest) k m = .ok out) :
    ∃ fuel' code', rest.length ≤ fuel' ∧ (Node.op o).Refs cc
      ∧ reComputeRegisterCount cc pos fuel' rest k m = .ok (code', out.2)
      ∧ out.1 = o.encode ++ code' := by
  obtain ⟨r, k', m', fuel', code', hf, ha, hr, hout⟩ :=
    reComputeRegisterCount_encode ho.fits hfuel h
  have key : (Node.op o).Refs cc ∧ r = none ∧ k' = k ∧ m' = m := by
    cases o with
    | backReference ignoreCase i =>
      change (if cc ≤ i then _ else _) = _ at ha
      split_ifs at ha with hi
      cases ha
      exact ⟨by change i < cc; omega, rfl, rfl, rfl⟩
    | goto | split | match_ | lookaheadMatch | loop | loopSplit | setI32 | lookahead | setCharPos
    | checkAdvance | invalid => exact absurd ho id
    | _ =>
      cases ha
      exact ⟨trivial, rfl, rfl, rfl⟩
  obtain ⟨hrefs, rfl, rfl, rfl⟩ := key
  exact ⟨fuel', code', hf, hrefs, hr, hout⟩

/-- A jump without a register. -/
theorem reCompute_jump {o : Op} (ho : o.Fits)
    (hjump : ∀ k m, allocRegister cc pos k m o.wrap = .ok (none, k, m)) {fuel k m : ℕ}
    {rest : List ℕ} {out : List ℕ × ℕ} (hfuel : (o.encode ++ rest).length ≤ fuel)
    (h : reComputeRegisterCount cc pos fuel (o.encode ++ rest) k m = .ok out) :
    ∃ fuel' code', rest.length ≤ fuel'
      ∧ reComputeRegisterCount cc pos fuel' rest k m = .ok (code', out.2)
      ∧ out.1 = o.encode ++ code' := by
  obtain ⟨r, k', m', fuel', code', hf, ha, hr, hout⟩ := reComputeRegisterCount_encode ho hfuel h
  rw [hjump] at ha
  cases ha
  exact ⟨fuel', code', hf, hr, hout⟩

/-- An instruction that takes a new register. -/
theorem reCompute_open {o : Op} (ho : o.Fits)
    (hopen : ∀ k m, allocRegister cc pos k m o.wrap = allocRegister cc pos k m (.setCharPos 0))
    (hset : ∀ r, withRegister o.encode (some r) = (o.setReg r).encode)
    {fuel k m : ℕ} {rest : List ℕ} {out : List ℕ × ℕ} (hkm : k ≤ m) (hm : m ≤ registerCountMax)
    (hfuel : (o.encode ++ rest).length ≤ fuel)
    (h : reComputeRegisterCount cc pos fuel (o.encode ++ rest) k m = .ok out) :
    ∃ fuel' code', rest.length ≤ fuel' ∧ k + 1 ≤ registerCountMax
      ∧ reComputeRegisterCount cc pos fuel' rest (k + 1) (max m (k + 1)) = .ok (code', out.2)
      ∧ out.1 = (o.setReg k).encode ++ code' := by
  obtain ⟨r, k', m', fuel', code', hf, ha, hr, hout⟩ := reComputeRegisterCount_encode ho hfuel h
  rw [hopen] at ha
  change (if m < k + 1 then _ else _) = _ at ha
  have key : r = some k ∧ k' = k + 1 ∧ m' = max m (k + 1) ∧ k + 1 ≤ registerCountMax := by
    split_ifs at ha with h1 h2
    · cases ha
      exact ⟨rfl, rfl, by omega, by omega⟩
    · cases ha
      exact ⟨rfl, rfl, by omega, by omega⟩
  obtain ⟨rfl, rfl, rfl, hk⟩ := key
  rw [hset] at hout
  exact ⟨fuel', code', hf, hk, hr, hout⟩

/-- An instruction that ends loops. -/
theorem reCompute_close {o : Op} (ho : o.Fits) {n : ℕ}
    (hclose : ∀ {k m x}, allocRegister cc pos k m o.wrap = .ok x →
      n ≤ k ∧ x = (some (k - n), k - n, m))
    (hset : ∀ r, withRegister o.encode (some r) = (o.setReg r).encode)
    {fuel k m : ℕ} {rest : List ℕ} {out : List ℕ × ℕ} (hfuel : (o.encode ++ rest).length ≤ fuel)
    (h : reComputeRegisterCount cc pos fuel (o.encode ++ rest) (k + n) m = .ok out) :
    ∃ fuel' code', rest.length ≤ fuel'
      ∧ reComputeRegisterCount cc pos fuel' rest k m = .ok (code', out.2)
      ∧ out.1 = (o.setReg k).encode ++ code' := by
  obtain ⟨r, k', m', fuel', code', hf, ha, hr, hout⟩ := reComputeRegisterCount_encode ho hfuel h
  obtain ⟨-, hx⟩ := hclose ha
  cases hx
  rw [Nat.add_sub_cancel] at hr hout
  rw [hset] at hout
  exact ⟨fuel', code', hf, hr, hout⟩

theorem reCompute_split {nextFirst : Bool} {val : ℤ} {fuel k m : ℕ} {rest : List ℕ}
    {out : List ℕ × ℕ} (hfuel : ((Op.split nextFirst val).encode ++ rest).length ≤ fuel)
    (h : reComputeRegisterCount cc pos fuel ((Op.split nextFirst val).encode ++ rest) k m
      = .ok out) :
    ∃ fuel' code', rest.length ≤ fuel'
      ∧ reComputeRegisterCount cc pos fuel' rest k m = .ok (code', out.2)
      ∧ out.1 = (Op.split nextFirst val).encode ++ code' :=
  reCompute_jump (o := .split nextFirst val) trivial (fun _ _ => rfl) hfuel h

theorem reCompute_setCharPos {fuel k m : ℕ} {rest : List ℕ} {out : List ℕ × ℕ} (hkm : k ≤ m)
    (hm : m ≤ registerCountMax) (hfuel : ((Op.setCharPos 0).encode ++ rest).length ≤ fuel)
    (h : reComputeRegisterCount cc pos fuel ((Op.setCharPos 0).encode ++ rest) k m = .ok out) :
    ∃ fuel' code', rest.length ≤ fuel' ∧ k + 1 ≤ registerCountMax
      ∧ reComputeRegisterCount cc pos fuel' rest (k + 1) (max m (k + 1)) = .ok (code', out.2)
      ∧ out.1 = (Op.setCharPos k).encode ++ code' :=
  reCompute_open (o := .setCharPos 0) trivial (fun _ _ => rfl) (fun _ => rfl) hkm hm hfuel h

theorem reCompute_setI32 {n fuel k m : ℕ} {rest : List ℕ} {out : List ℕ × ℕ} (hn : n ≤ shortIntMax)
    (hkm : k ≤ m) (hm : m ≤ registerCountMax)
    (hfuel : ((Op.setI32 0 n).encode ++ rest).length ≤ fuel)
    (h : reComputeRegisterCount cc pos fuel ((Op.setI32 0 n).encode ++ rest) k m = .ok out) :
    ∃ fuel' code', rest.length ≤ fuel' ∧ k + 1 ≤ registerCountMax
      ∧ reComputeRegisterCount cc pos fuel' rest (k + 1) (max m (k + 1)) = .ok (code', out.2)
      ∧ out.1 = (Op.setI32 k n).encode ++ code' :=
  reCompute_open (o := .setI32 0 n) (lt_of_le_of_lt hn (by norm_num [shortIntMax]))
    (fun _ _ => rfl) (fun _ => rfl) hkm hm hfuel h

theorem allocRegister_close {o : Op} {n k m : ℕ} {x : Option ℕ × ℕ × ℕ}
    (ho : o.closes = n) (hn : 0 < n) (h : allocRegister cc pos k m o = .ok x) :
    n ≤ k ∧ x = (some (k - n), k - n, m) := by
  cases o with
  | checkAdvance r | loop r val =>
    cases ho
    change (if k < 1 then _ else _) = _ at h
    split_ifs at h with h1
    cases h
    exact ⟨by change 1 ≤ k; omega, rfl⟩
  | loopSplit checkAdv nextFirst r limit val =>
    cases checkAdv with
    | false =>
      cases ho
      change (if k < 1 then _ else _) = _ at h
      split_ifs at h with h1
      cases h
      exact ⟨by change 1 ≤ k; omega, rfl⟩
    | true =>
      cases ho
      change (if k < 2 then _ else _) = _ at h
      split_ifs at h with h1
      cases h
      exact ⟨by change 2 ≤ k; omega, rfl⟩
  | _ =>
    cases ho
    exact absurd hn (lt_irrefl 0)

/-! ### Trees -/

/-- The pass over a node that starts with `k` registers in use. -/
theorem reComputeRegisterCount_node : ∀ {a : Node} {k m fuel : ℕ} {rest : List ℕ}
    {out : List ℕ × ℕ}, a.Ok cc → k ≤ m → m ≤ registerCountMax → (a.raw ++ rest).length ≤ fuel →
    reComputeRegisterCount cc pos fuel (a.raw ++ rest) k m = .ok out →
    ∃ fuel' code', rest.length ≤ fuel' ∧ a.Refs cc ∧ max m (k + a.depth) ≤ registerCountMax
      ∧ reComputeRegisterCount cc pos fuel' rest k (max m (k + a.depth)) = .ok (code', out.2)
      ∧ out.1 = bytes (a.ops id k) ++ code'
  | .nil, k, m, fuel, rest, out, _, hkm, hm, hf, h => by
    have hmax : max m (k + Node.nil.depth) = m := max_eq_left hkm
    rw [hmax]
    exact ⟨fuel, out.1, hf, trivial, hm, h, rfl⟩
  | .op o, k, m, fuel, rest, out, ho, hkm, hm, hf, h => by
    rw [raw_op] at hf h
    have hmax : max m (k + (Node.op o).depth) = m := max_eq_left hkm
    obtain ⟨fuel', code', hf', hrefs, hr, hout⟩ := reCompute_plain ho hf h
    rw [hmax]
    exact ⟨fuel', code', hf', hrefs, hm, hr, by rw [hout, Node.ops, bytes_singleton]⟩
  | .cat a b, k, m, fuel, rest, out, ho, hkm, hm, hf, h => by
    rw [raw_cat, List.append_assoc] at hf h
    obtain ⟨fuel₁, code₁, hf₁, hra, hm₁, hr₁, hout⟩ :=
      reComputeRegisterCount_node ho.1 hkm hm hf h
    obtain ⟨fuel₂, code₂, hf₂, hrb, hm₂, hr₂, hout₂⟩ :=
      reComputeRegisterCount_node ho.2 (hkm.trans (le_max_left _ _)) hm₁ hf₁ hr₁
    have hmax : max (max m (k + a.depth)) (k + b.depth) = max m (k + (Node.cat a b).depth) := by
      simp only [Node.depth]
      omega
    rw [hmax] at hm₂ hr₂
    refine ⟨fuel₂, code₂, hf₂, ⟨hra, hrb⟩, hm₂, hr₂, ?_⟩
    simp only at hout₂
    rw [hout, hout₂, Node.ops, bytes_append, List.append_assoc]
  | .alt a b, k, m, fuel, rest, out, ho, hkm, hm, hf, h => by
    simp only [raw_alt, List.append_assoc] at hf h
    obtain ⟨fuel₀, code₀, hf₀, hr₀, hout₀⟩ := reCompute_split hf h
    obtain ⟨fuel₁, code₁, hf₁, hra, hm₁, hr₁, hout₁⟩ :=
      reComputeRegisterCount_node ho.1 hkm hm hf₀ hr₀
    obtain ⟨fuel₂, code₂, hf₂, hr₂, hout₂⟩ :=
      reCompute_jump (o := .goto b.size) trivial (fun _ _ => rfl) hf₁ hr₁
    obtain ⟨fuel₃, code₃, hf₃, hrb, hm₃, hr₃, hout₃⟩ :=
      reComputeRegisterCount_node ho.2 (hkm.trans (le_max_left _ _)) hm₁ hf₂ hr₂
    have hmax : max (max m (k + a.depth)) (k + b.depth) = max m (k + (Node.alt a b).depth) := by
      simp only [Node.depth]
      omega
    rw [hmax] at hm₃ hr₃
    refine ⟨fuel₃, code₃, hf₃, ⟨hra, hrb⟩, hm₃, hr₃, ?_⟩
    simp only at hout₁ hout₂ hout₃
    simp only [hout₀, hout₁, hout₂, hout₃, Node.ops, bytes_append, bytes_singleton,
      List.append_assoc]
  | .skip greedy a, k, m, fuel, rest, out, ho, hkm, hm, hf, h => by
    simp only [raw_skip, List.append_assoc] at hf h
    obtain ⟨fuel₀, code₀, hf₀, hr₀, hout₀⟩ := reCompute_split hf h
    obtain ⟨fuel₁, code₁, hf₁, hra, hm₁, hr₁, hout₁⟩ :=
      reComputeRegisterCount_node (a := a) ho hkm hm hf₀ hr₀
    refine ⟨fuel₁, code₁, hf₁, hra, hm₁, hr₁, ?_⟩
    simp only at hout₁
    simp only [hout₀, hout₁, Node.ops, bytes_append, bytes_singleton, List.append_assoc]
  | .guard a, k, m, fuel, rest, out, ho, hkm, hm, hf, h => by
    simp only [raw_guard, List.append_assoc] at hf h
    obtain ⟨fuel₀, code₀, hf₀, hk, hr₀, hout₀⟩ := reCompute_setCharPos hkm hm hf h
    obtain ⟨fuel₁, code₁, hf₁, hra, hm₁, hr₁, hout₁⟩ :=
      reComputeRegisterCount_node (a := a) ho (le_max_right _ _) (max_le hm hk) hf₀ hr₀
    obtain ⟨fuel₂, code₂, hf₂, hr₂, hout₂⟩ :=
      reCompute_close (o := .checkAdvance 0) (n := 1) trivial
        (fun h => allocRegister_close rfl Nat.one_pos h) (fun _ => rfl) hf₁ hr₁
    have hmax : max (max m (k + 1)) (k + 1 + a.depth) = max m (k + (Node.guard a).depth) := by
      simp only [Node.depth]
      omega
    rw [hmax] at hm₁ hr₂
    refine ⟨fuel₂, code₂, hf₂, hra, hm₁, hr₂, ?_⟩
    simp only at hout₁ hout₂
    rw [hout₀, hout₁, hout₂, Node.ops]
    simp only [bytes_append, bytes_singleton, List.append_assoc]
    rfl
  | .star greedy a, k, m, fuel, rest, out, ho, hkm, hm, hf, h => by
    simp only [raw_star, List.append_assoc] at hf h
    obtain ⟨fuel₀, code₀, hf₀, hr₀, hout₀⟩ := reCompute_split hf h
    obtain ⟨fuel₁, code₁, hf₁, hra, hm₁, hr₁, hout₁⟩ :=
      reComputeRegisterCount_node (a := a) ho.1 hkm hm hf₀ hr₀
    obtain ⟨fuel₂, code₂, hf₂, hr₂, hout₂⟩ :=
      reCompute_jump (o := .goto (-(5 + a.size + 5))) trivial (fun _ _ => rfl) hf₁ hr₁
    refine ⟨fuel₂, code₂, hf₂, hra, hm₁, hr₂, ?_⟩
    simp only at hout₁ hout₂
    simp only [hout₀, hout₁, hout₂, Node.ops, bytes_append, bytes_singleton, List.append_assoc]
  | .plus greedy a, k, m, fuel, rest, out, ho, hkm, hm, hf, h => by
    simp only [raw_plus, List.append_assoc] at hf h
    obtain ⟨fuel₁, code₁, hf₁, hra, hm₁, hr₁, hout₁⟩ :=
      reComputeRegisterCount_node (a := a) ho.1 hkm hm hf h
    obtain ⟨fuel₂, code₂, hf₂, hr₂, hout₂⟩ := reCompute_split hf₁ hr₁
    refine ⟨fuel₂, code₂, hf₂, hra, hm₁, hr₂, ?_⟩
    simp only at hout₂
    simp only [hout₁, hout₂, Node.ops, bytes_append, bytes_singleton, List.append_assoc]
  | .times n a, k, m, fuel, rest, out, ho, hkm, hm, hf, h => by
    simp only [raw_times, List.append_assoc] at hf h
    obtain ⟨fuel₀, code₀, hf₀, hk, hr₀, hout₀⟩ := reCompute_setI32 ho.2.2 hkm hm hf h
    obtain ⟨fuel₁, code₁, hf₁, hra, hm₁, hr₁, hout₁⟩ :=
      reComputeRegisterCount_node (a := a) ho.1 (le_max_right _ _) (max_le hm hk) hf₀ hr₀
    obtain ⟨fuel₂, code₂, hf₂, hr₂, hout₂⟩ :=
      reCompute_close (o := .loop 0 (-(a.size + 6))) (n := 1) trivial
        (fun h => allocRegister_close rfl Nat.one_pos h) (fun _ => rfl) hf₁ hr₁
    have hmax : max (max m (k + 1)) (k + 1 + a.depth) = max m (k + (Node.times n a).depth) := by
      simp only [Node.depth]
      omega
    rw [hmax] at hm₁ hr₂
    refine ⟨fuel₂, code₂, hf₂, hra, hm₁, hr₂, ?_⟩
    simp only at hout₁ hout₂
    rw [hout₀, hout₁, hout₂, Node.ops]
    simp only [bytes_append, bytes_singleton, List.append_assoc]
    rfl
  | .counted false greedy max₀ limit a, k, m, fuel, rest, out, ho, hkm, hm, hf, h => by
    simp only [raw_counted, List.append_assoc, Bool.false_eq_true, if_false,
      List.nil_append] at hf h
    have hl : limit < 2 ^ 32 :=
      lt_of_le_of_lt (ho.2.2.2.trans ho.2.2.1) (by norm_num [shortIntMax])
    obtain ⟨fuel₀, code₀, hf₀, hk, hr₀, hout₀⟩ := reCompute_setI32 ho.2.2.1 hkm hm hf h
    obtain ⟨fuel₁, code₁, hf₁, hra, hm₁, hr₁, hout₁⟩ :=
      reComputeRegisterCount_node (a := a) ho.1 (le_max_right _ _) (max_le hm hk) hf₀ hr₀
    obtain ⟨fuel₂, code₂, hf₂, hr₂, hout₂⟩ :=
      reCompute_close (n := 1) (o := .loopSplit false (!greedy) 0 limit _) hl
        (fun h => allocRegister_close rfl Nat.one_pos h) (fun _ => rfl) hf₁ hr₁
    have hmax : max (max m (k + 1)) (k + 1 + a.depth)
        = max m (k + (Node.counted false greedy max₀ limit a).depth) := by
      simp only [Node.depth, Bool.toNat_false]
      omega
    rw [hmax] at hm₁ hr₂
    refine ⟨fuel₂, code₂, hf₂, hra, hm₁, hr₂, ?_⟩
    simp only at hout₁ hout₂
    rw [hout₀, hout₁, hout₂, Node.ops]
    simp only [bytes_append, bytes_singleton, List.append_assoc, Bool.false_eq_true, if_false,
      List.nil_append]
    rfl
  | .counted true greedy max₀ limit a, k, m, fuel, rest, out, ho, hkm, hm, hf, h => by
    simp only [raw_counted, List.append_assoc, if_true] at hf h
    have hl : limit < 2 ^ 32 :=
      lt_of_le_of_lt (ho.2.2.2.trans ho.2.2.1) (by norm_num [shortIntMax])
    obtain ⟨fuel₀, code₀, hf₀, hk, hr₀, hout₀⟩ := reCompute_setI32 ho.2.2.1 hkm hm hf h
    obtain ⟨fuel₃, code₃, hf₃, hk₃, hr₃, hout₃⟩ :=
      reCompute_setCharPos (le_max_right _ _) (max_le hm hk) hf₀ hr₀
    obtain ⟨fuel₁, code₁, hf₁, hra, hm₁, hr₁, hout₁⟩ :=
      reComputeRegisterCount_node (a := a) ho.1 (le_max_right _ _)
        (max_le (max_le hm hk) hk₃) hf₃ hr₃
    obtain ⟨fuel₂, code₂, hf₂, hr₂, hout₂⟩ :=
      reCompute_close (n := 2) (o := .loopSplit true (!greedy) 0 limit _) hl
        (fun h => allocRegister_close rfl Nat.two_pos h) (fun _ => rfl) hf₁ hr₁
    have hmax : max (max (max m (k + 1)) (k + 1 + 1)) (k + 1 + 1 + a.depth)
        = max m (k + (Node.counted true greedy max₀ limit a).depth) := by
      simp only [Node.depth, Bool.toNat_true]
      omega
    rw [hmax] at hm₁ hr₂
    refine ⟨fuel₂, code₂, hf₂, hra, hm₁, hr₂, ?_⟩
    simp only at hout₁ hout₂ hout₃
    rw [hout₀, hout₃, hout₁, hout₂, Node.ops]
    simp only [bytes_append, bytes_singleton, List.append_assoc, if_true]
    rfl
  | .look neg a, k, m, fuel, rest, out, ho, hkm, hm, hf, h => by
    simp only [raw_look, List.append_assoc] at hf h
    obtain ⟨fuel₀, code₀, hf₀, hr₀, hout₀⟩ :=
      reCompute_jump (o := .lookahead neg (a.size + 1)) trivial (fun _ _ => rfl) hf h
    obtain ⟨fuel₁, code₁, hf₁, hra, hm₁, hr₁, hout₁⟩ :=
      reComputeRegisterCount_node (a := a) ho hkm hm hf₀ hr₀
    obtain ⟨fuel₂, code₂, hf₂, hr₂, hout₂⟩ :=
      reCompute_jump (o := .lookaheadMatch neg) trivial (fun _ _ => rfl) hf₁ hr₁
    refine ⟨fuel₂, code₂, hf₂, hra, hm₁, hr₂, ?_⟩
    simp only at hout₁ hout₂
    simp only [hout₀, hout₁, hout₂, Node.ops, bytes_append, bytes_singleton, List.append_assoc]

/-! ### Programs -/

/-- The tree of a pattern: without the sticky flag a loop over the start positions comes first. -/
def Node.program (sticky : Bool) (a : Node) : Node :=
  let whole := cat (op (.save false 0)) (cat a (op (.save true 0)))
  if sticky then whole else cat (star false (op .any)) whole

/-- A program is the code of a tree, with `rc` registers. -/
structure Compiled (code : List ℕ) (cc rc : ℕ) (top : Node) : Prop where
  body : code.drop headerLen = bytes (top.ops id 0) ++ Op.match_.encode
  captureCount : lreGetCaptureCount code = cc
  allocCount : lreGetAllocCount code = cc * 2 + rc
  ok : top.Ok cc
  refs : top.Refs cc
  cc_le : cc ≤ captureCountMax
  depth_le : top.depth ≤ rc
  rc_le : rc ≤ registerCountMax

theorem program_raw (src : Source) (a : Node) :
    (Node.program src.sticky a).raw = prologue src ++ a.raw ++ (Op.save true 0).encode := by
  unfold Node.program prologue
  cases src.sticky with
  | true =>
    simp only [if_true, raw_cat, raw_op, List.nil_append, List.append_assoc]
  | false =>
    simp only [Bool.false_eq_true, if_false, raw_cat, raw_op, raw_star, List.append_assoc]
    rfl

theorem program_ok {sticky : Bool} {a : Node} (ha : a.Ok cc) (hcc : 1 ≤ cc) :
    (Node.program sticky a).Ok cc := by
  have hwhole : (Node.cat (.op (.save false 0)) (.cat a (.op (.save true 0)))).Ok cc :=
    ⟨hcc, ha, hcc⟩
  unfold Node.program
  cases sticky with
  | true => exact hwhole
  | false => exact ⟨⟨trivial, rfl⟩, hwhole⟩

/-- Nothing is left to do at the end of the code. -/
theorem reCompute_nil (fuel k m : ℕ) : reComputeRegisterCount cc pos fuel [] k m = .ok ([], m) := by
  cases fuel <;> rfl

/-- What the compiler accepts. -/
theorem jsParseRegexp_tree {code : List ℕ} (h : jsParseRegexp src = .ok code) :
    ∃ cc rc top, Compiled code cc rc top := by
  unfold jsParseRegexp at h
  obtain ⟨st, hd, h⟩ := ok_of_bind h
  obtain ⟨a, ha⟩ := reParseDisjunction_emits hd
  dsimp only at h
  split_ifs at h with hpos
  obtain ⟨⟨code', rc⟩, hr, h⟩ := ok_of_bind h
  cases h
  have hok : (Node.program src.sticky a).Ok st.captureCount := program_ok ha.ok ha.le
  have hcode : (((st.emit (.save true 0) st.pos).emit .match_ st.pos).code).drop headerLen
      = (Node.program src.sticky a).raw ++ Op.match_.encode := by
    have hst := ha.code
    simp only [PState.emit] at hst ⊢
    rw [hst, program_raw]
    simp only [List.append_assoc]
    rfl
  simp only [hcode] at hr
  obtain ⟨fuel, code₁, hf, hrefs, hm, hr₁, hout⟩ :=
    reComputeRegisterCount_node hok (le_refl 0) (Nat.zero_le _) le_rfl hr
  rw [Nat.zero_max, Nat.zero_add] at hm hr₁
  rw [← List.append_nil Op.match_.encode] at hf hr₁
  obtain ⟨fuel₂, code₂, hf₂, hr₂, hout₂⟩ :=
    reCompute_jump (o := .match_) trivial (fun _ _ => rfl) hf hr₁
  rw [reCompute_nil] at hr₂
  cases hr₂
  simp only [List.append_nil] at hout hout₂
  refine ⟨st.captureCount, (Node.program src.sticky a).depth, _, ?_, ?_, ?_, hok, hrefs,
    ha.max (by norm_num [captureCountMax]), le_rfl, hm⟩
  · rw [hout, hout₂]
    rfl
  · rfl
  · rfl

end Qjs.Regexp
