import Qjs.Vars
import Qjs.Proofs.Bytecode

/-!
# Variables of a function: renumbering

`renumber` gives an instruction the number that its variable has at the end. One pass with the table
of a part renumbers the variables of this part (`convertExtVarsBytecode_encode`); numbers given before
are smaller than those of the part, so that no instruction is taken twice
(`convertParts_encode`).
-/

namespace Qjs

theorem OPCodeEnum.isVarRef_size {op : OPCodeEnum} (h : op.isVarRef = true) : op.size = 3 := by
  cases op <;> first | rfl | simp [OPCodeEnum.isVarRef] at h

/-! ### One instruction -/

/-- The instruction with the variable of the entry. -/
def Instr.retarget (e : ConvertVarEntry) (i : Instr) (h : i.op.isVarRef = true) : Instr where
  op := if e.isLocal then if i.op.isGetVarRef then .opGetLoc else .opPutLoc else i.op
  args := u16Bytes e.newVarIdx
  args_length := by
    split_ifs
    · rfl
    · rfl
    · exact (OPCodeEnum.isVarRef_size h).symm
  args_lt := u16Bytes_lt _

def cvtInstr (varStart : ℕ) (tab : List ConvertVarEntry) (i : Instr) : Instr :=
  if h : i.op.isVarRef = true then
    if varStart ≤ i.u16 ∧ i.u16 < varStart + tab.length then
      match tab[i.u16 - varStart]? with
      | some e => i.retarget e h
      | none => i
    else i
  else i

theorem cvtInstr_size (varStart : ℕ) (tab : List ConvertVarEntry) (i : Instr) :
    (cvtInstr varStart tab i).op.size = i.op.size := by
  unfold cvtInstr
  split_ifs with h
  · split
    · rename_i e _
      rw [OPCodeEnum.isVarRef_size h, ← (i.retarget e h).args_length]
      rfl
    · rfl
  · rfl
  · rfl

theorem convertInstrAt_encode (varStart : ℕ) (tab : List ConvertVarEntry) (pre : List ℕ) (i : Instr)
    (post : List ℕ) :
    convertInstrAt varStart tab pre.length i.op (pre ++ (i.encode ++ post))
      = pre ++ ((cvtInstr varStart tab i).encode ++ post) := by
  unfold convertInstrAt cvtInstr
  by_cases hv : i.op.isVarRef = true
  swap
  · rw [if_neg hv, dif_neg hv]
  rw [if_pos hv, dif_pos hv]
  have hlen := i.args_length
  rw [OPCodeEnum.isVarRef_size hv] at hlen
  obtain ⟨a, b, hargs⟩ := List.length_eq_two.1 (Nat.succ.inj hlen)
  have henc : i.encode ++ post = i.op.code :: a :: b :: post := by
    unfold Instr.encode
    rw [hargs]
    rfl
  have hidx : getU16 (pre ++ (i.encode ++ post)) (pre.length + 1) = i.u16 := by
    rw [getU16_append_length, henc, Instr.u16, hargs]
    rfl
  simp only [hidx]
  by_cases hr : varStart ≤ i.u16 ∧ i.u16 < varStart + tab.length
  swap
  · rw [if_neg hr, if_neg hr]
  rw [if_pos hr, if_pos hr]
  cases tab[i.u16 - varStart]? with
  | none => rfl
  | some e =>
    simp only
    have hput : putU16 (pre ++ (i.encode ++ post)) (pre.length + 1) e.newVarIdx
        = pre ++ (i.op.code :: (u16Bytes e.newVarIdx ++ post)) := by
      rw [putU16_append_length, henc]
      rfl
    rw [hput]
    unfold Instr.encode Instr.retarget
    by_cases hl : e.isLocal = true
    · have hset := set_append_length pre (i.op.code :: (u16Bytes e.newVarIdx ++ post)) 0
        (if i.op.isGetVarRef then OPCodeEnum.opGetLoc.code else OPCodeEnum.opPutLoc.code)
      rw [Nat.add_zero] at hset
      simp only [hl, if_true, hset]
      cases i.op.isGetVarRef <;> rfl
    · simp only [hl]
      rfl

/-! ### One pass -/

theorem convertExtVarsBytecode_append (varStart : ℕ) (tab : List ConvertVarEntry) :
    ∀ (is : List Instr) (pre : List ℕ) (fuel : ℕ), is.length ≤ fuel →
    convertExtVarsBytecode varStart tab fuel pre.length (pre ++ encodeInstrs is)
      = pre ++ encodeInstrs (is.map (cvtInstr varStart tab))
  | [], pre, fuel, _ => by
    cases fuel with
    | zero => simp [convertExtVarsBytecode]
    | succ fuel => simp [convertExtVarsBytecode]
  | i :: is, pre, 0, hf => by simp at hf
  | i :: is, pre, fuel + 1, hf => by
    have hsize := i.op.size_pos
    have hlt : pre.length < (pre ++ encodeInstrs (i :: is)).length := by
      rw [encodeInstrs_cons, List.length_append, List.length_append, Instr.encode_length]
      omega
    have hb : getU8 (pre ++ encodeInstrs (i :: is)) pre.length = i.op.code := by
      have := getU8_append_length pre (encodeInstrs (i :: is)) 0
      rw [Nat.add_zero] at this
      rw [this]
      rfl
    rw [convertExtVarsBytecode, if_pos hlt]
    simp only [hb, opcodeOf_code, opSize_code]
    rw [encodeInstrs_cons, convertInstrAt_encode, ← List.append_assoc]
    have hpos : pre.length + i.op.size = (pre ++ (cvtInstr varStart tab i).encode).length := by
      rw [List.length_append, Instr.encode_length, cvtInstr_size]
    rw [hpos, convertExtVarsBytecode_append varStart tab is _ fuel (Nat.le_of_succ_le_succ hf),
      List.map_cons, encodeInstrs_cons, List.append_assoc]

theorem length_le_encodeInstrs (is : List Instr) : is.length ≤ (encodeInstrs is).length := by
  induction is with
  | nil => exact le_rfl
  | cons i is ih =>
    have := i.op.size_pos
    rw [encodeInstrs_cons, List.length_append, List.length_cons, Instr.encode_length]
    omega

theorem convertExtVarsBytecode_encode (varStart : ℕ) (tab : List ConvertVarEntry) (is : List Instr) :
    convertExtVarsBytecode varStart tab (encodeInstrs is).length 0 (encodeInstrs is)
      = encodeInstrs (is.map (cvtInstr varStart tab)) :=
  convertExtVarsBytecode_append varStart tab is [] _ (length_le_encodeInstrs is)

/-! ### The table -/

section Table

variable (vars : List ℕ) (argCount : ℕ) (orig : List ExtVar)

/-- The place among the variables of a name that has become a local variable. -/
def localIdx (name : ℕ) : Option ℕ := (findVar vars name).filter (argCount ≤ ·)

/-- The variable stays external. -/
def staysExt (v : ExtVar) : Bool := (localIdx vars argCount v.name).isNone

/-- How many of the first `k` variables stay external. -/
def rankExt (k : ℕ) : ℕ := ((orig.take k).filter (staysExt vars argCount)).length

/-- What becomes of variable `k`. -/
def newEntry (k : ℕ) : ConvertVarEntry :=
  match localIdx vars argCount (orig.getD k default).name with
  | some varIdx => ⟨varIdx - argCount, true⟩
  | none => ⟨rankExt vars argCount orig k, false⟩

/-- The table of external variables when the first `i` have been moved. -/
structure ExtMoved (ext : List ExtVar) (i j : ℕ) : Prop where
  length_eq : ext.length = orig.length
  rest : ext.drop i = orig.drop i
  done : ext.take j = (orig.take i).filter (staysExt vars argCount)
  rank : j = rankExt vars argCount orig i

variable {vars argCount orig}

theorem take_succ_getD {i : ℕ} (h : i < orig.length) :
    orig.take (i + 1) = orig.take i ++ [orig.getD i default] := by
  rw [List.take_add_one, List.getD_eq_getElem?_getD, List.getElem?_eq_getElem h]
  rfl

variable (vars argCount orig) in
theorem rankExt_le (i : ℕ) : rankExt vars argCount orig i ≤ i := by
  unfold rankExt
  exact (List.length_filter_le _ _).trans (List.length_take_le _ _)

variable (vars argCount) in
theorem rankExt_succ {i : ℕ} (h : i < orig.length) :
    rankExt vars argCount orig (i + 1) = rankExt vars argCount orig i
      + if staysExt vars argCount (orig.getD i default) then 1 else 0 := by
  unfold rankExt
  rw [take_succ_getD h, List.filter_append, List.length_append]
  generalize orig.getD i default = v
  split_ifs with hs
  · rw [List.filter_cons_of_pos hs]
    rfl
  · rw [List.filter_cons_of_neg hs]
    rfl

theorem ExtMoved.getD {ext : List ExtVar} {i j : ℕ} (h : ExtMoved vars argCount orig ext i j) :
    ext.getD i default = orig.getD i default := by
  have := congrArg (fun l => l.getD 0 default) h.rest
  simpa [List.getD_eq_getElem?_getD] using this

/-- A variable that has become local is left out. -/
theorem ExtMoved.skip {ext : List ExtVar} {i j : ℕ} (h : ExtMoved vars argCount orig ext i j)
    (hi : i < orig.length) (hs : staysExt vars argCount (orig.getD i default) = false) :
    ExtMoved vars argCount orig ext (i + 1) j := by
  refine ⟨h.length_eq, ?_, ?_, ?_⟩
  · rw [← List.tail_drop, h.rest, List.tail_drop]
  · rw [take_succ_getD hi, List.filter_append, ← h.done,
      List.filter_cons_of_neg (Bool.not_eq_true _ ▸ hs), List.filter_nil, List.append_nil]
  · rw [rankExt_succ vars argCount hi, if_neg (Bool.not_eq_true _ ▸ hs), Nat.add_zero]
    exact h.rank

/-- A variable that stays moves down to `j`. -/
theorem ExtMoved.move {ext : List ExtVar} {i j : ℕ} (h : ExtMoved vars argCount orig ext i j)
    (hi : i < orig.length) (hs : staysExt vars argCount (orig.getD i default) = true) :
    ExtMoved vars argCount orig (ext.set j (ext.getD i default)) (i + 1) (j + 1) := by
  have hj : j ≤ i := h.rank ▸ rankExt_le vars argCount orig i
  have hlen := h.length_eq
  refine ⟨by rw [List.length_set, hlen], ?_, ?_, ?_⟩
  · rw [List.drop_set_of_lt (by omega), ← List.tail_drop, h.rest, List.tail_drop]
  · have htake : (ext.set j (ext.getD i default)).take (j + 1) = ext.take j ++ [ext.getD i default] := by
      rw [List.take_add_one, List.take_set_of_le (le_refl j), List.getElem?_set_self (by omega)]
      rfl
    rw [htake, h.done, h.getD, take_succ_getD hi, List.filter_append, List.filter_cons_of_pos hs,
      List.filter_nil]
  · rw [rankExt_succ vars argCount hi, if_pos hs, h.rank]

theorem newEntry_local {i varIdx : ℕ}
    (h : localIdx vars argCount (orig.getD i default).name = some varIdx) :
    newEntry vars argCount orig i = ⟨varIdx - argCount, true⟩ := by
  rw [newEntry, h]

theorem newEntry_ext {i : ℕ} (h : localIdx vars argCount (orig.getD i default).name = none) :
    newEntry vars argCount orig i = ⟨rankExt vars argCount orig i, false⟩ := by
  rw [newEntry, h]

theorem fillCvtTab_spec : ∀ (n i j : ℕ) {ext : List ExtVar}, ExtMoved vars argCount orig ext i j →
    i + n ≤ orig.length →
    (fillCvtTab vars argCount n i j ext).1 = (List.range' i n).map (newEntry vars argCount orig)
      ∧ ExtMoved vars argCount orig (fillCvtTab vars argCount n i j ext).2.1 (i + n)
        (fillCvtTab vars argCount n i j ext).2.2
  | 0, i, j, ext, h, _ => ⟨rfl, h⟩
  | n + 1, i, j, ext, h, hle => by
    have hi : i < orig.length := by omega
    have hidx : i + 1 + n = i + (n + 1) := by omega
    rw [fillCvtTab, List.range'_succ, List.map_cons]
    simp only [h.getD]
    cases hl : localIdx vars argCount (orig.getD i default).name with
    | some varIdx =>
      have hs : staysExt vars argCount (orig.getD i default) = false := by
        rw [staysExt, hl]
        rfl
      obtain ⟨h1, h2⟩ := fillCvtTab_spec n (i + 1) j (h.skip hi hs) (by omega)
      unfold localIdx at hl
      simp only [hl]
      rw [hidx] at h2
      exact ⟨by rw [newEntry_local hl, h1], h2⟩
    | none =>
      have hs : staysExt vars argCount (orig.getD i default) = true := by
        rw [staysExt, hl]
        rfl
      have hmove := h.move hi hs
      rw [h.getD] at hmove
      obtain ⟨h1, h2⟩ := fillCvtTab_spec n (i + 1) (j + 1) hmove (by omega)
      have hentry := newEntry_ext hl
      unfold localIdx at hl
      simp only [hl]
      rw [hidx] at h2
      exact ⟨by rw [hentry, h1, ← h.rank], h2⟩

/-- If no variable before `k` has become local, none of them moves. -/
theorem rankExt_eq_of_le {i k : ℕ} (hik : i ≤ k) (hk : k ≤ orig.length)
    (h : rankExt vars argCount orig k = k) : rankExt vars argCount orig i = i := by
  induction k, hik using Nat.le_induction with
  | base => exact h
  | succ k hik ih =>
    refine ih (by omega) ?_
    have hsucc := rankExt_succ vars argCount (show k < orig.length by omega)
    have hle := rankExt_le vars argCount orig k
    split_ifs at hsucc <;> omega

theorem staysExt_of_rankExt {i k : ℕ} (hik : i < k) (hk : k ≤ orig.length)
    (h : rankExt vars argCount orig k = k) :
    localIdx vars argCount (orig.getD i default).name = none := by
  have h1 := rankExt_eq_of_le (show i + 1 ≤ k from hik) hk h
  have h2 := rankExt_eq_of_le hik.le hk h
  rw [rankExt_succ vars argCount (by omega), h2] at h1
  by_contra hne
  have hs : staysExt vars argCount (orig.getD i default) = false := by
    unfold staysExt
    exact Option.isNone_eq_false_iff.2 (Option.isSome_iff_ne_none.2 hne)
  rw [hs] at h1
  simp at h1

/-- The place of a variable that stays. -/
theorem getElem?_filter_rankExt {i : ℕ} (hi : i < orig.length)
    (hs : staysExt vars argCount (orig.getD i default) = true) :
    (orig.filter (staysExt vars argCount))[rankExt vars argCount orig i]?
      = some (orig.getD i default) := by
  have hdrop : orig.drop i = orig.getD i default :: orig.drop (i + 1) := by
    rw [List.drop_eq_getElem_cons hi, List.getD_eq_getElem?_getD, List.getElem?_eq_getElem hi]
    rfl
  have hsplit : orig.filter (staysExt vars argCount) = (orig.take i).filter (staysExt vars argCount)
      ++ orig.getD i default :: (orig.drop (i + 1)).filter (staysExt vars argCount) := by
    rw [← List.filter_cons_of_pos hs, ← hdrop, ← List.filter_append, List.take_append_drop]
  rw [hsplit, rankExt, List.getElem?_append_right le_rfl, Nat.sub_self]
  rfl

/-! ### The parts -/

variable (vars argCount orig) in
/-- The variables before `k` get their new numbers. -/
def renumberTo (k : ℕ) (i : Instr) : Instr :=
  if h : i.op.isVarRef = true then
    if i.u16 < k then i.retarget (newEntry vars argCount orig i.u16) h else i
  else i

theorem u16Bytes_u16 {i : Instr} (h : i.op.isVarRef = true) : u16Bytes i.u16 = i.args := by
  have hlen := i.args_length
  rw [OPCodeEnum.isVarRef_size h] at hlen
  obtain ⟨a, b, hargs⟩ := List.length_eq_two.1 (Nat.succ.inj hlen)
  have ha := i.args_lt a (by simp [hargs])
  have hb := i.args_lt b (by simp [hargs])
  have hu : i.u16 = a + 2 ^ 8 * b := by
    rw [Instr.u16, hargs]
    rfl
  rw [hargs, hu, u16Bytes]
  congr 1
  · omega
  · congr 1
    omega

theorem Instr.retarget_self {i : Instr} (h : i.op.isVarRef = true) : i.retarget ⟨i.u16, false⟩ h = i :=
  Instr.ext_iff'.2 ⟨rfl, u16Bytes_u16 h⟩

theorem Instr.u16_retarget {i : Instr} (e : ConvertVarEntry) (h : i.op.isVarRef = true)
    (he : e.newVarIdx < 2 ^ 16) : (i.retarget e h).u16 = e.newVarIdx := by
  change getU16 (u16Bytes e.newVarIdx) 0 = _
  rw [getU16_u16Bytes, Nat.mod_eq_of_lt he]

theorem Instr.isVarRef_retarget_local {i : Instr} {e : ConvertVarEntry} (h : i.op.isVarRef = true)
    (he : e.isLocal = true) : (i.retarget e h).op.isVarRef = false := by
  change (if e.isLocal then _ else i.op).isVarRef = false
  rw [if_pos he]
  split_ifs <;> rfl

/-- If nothing before `k` moves, the instructions do not change. -/
theorem renumberTo_eq_self {k : ℕ} (hk : k ≤ orig.length) (h : rankExt vars argCount orig k = k)
    (i : Instr) : renumberTo vars argCount orig k i = i := by
  unfold renumberTo
  split_ifs with hv hlt
  · rw [newEntry_ext (staysExt_of_rankExt hlt hk h), rankExt_eq_of_le hlt.le hk h]
    exact Instr.retarget_self hv
  · rfl
  · rfl

/-- The pass of one part: what was renumbered before is not touched again. -/
theorem cvtInstr_renumberTo (hmax : orig.length ≤ jsMaxLocalVars) {i0 n : ℕ}
    (hle : i0 + n ≤ orig.length) (i : Instr) :
    cvtInstr i0 ((List.range' i0 n).map (newEntry vars argCount orig))
        (renumberTo vars argCount orig i0 i)
      = renumberTo vars argCount orig (i0 + n) i := by
  by_cases hv : i.op.isVarRef = true
  swap
  · unfold renumberTo cvtInstr
    simp only [dif_neg hv]
  by_cases hlt : i.u16 < i0
  · have hnew : renumberTo vars argCount orig (i0 + n) i
        = i.retarget (newEntry vars argCount orig i.u16) hv := by
      rw [renumberTo, dif_pos hv, if_pos (by omega)]
    have hold : renumberTo vars argCount orig i0 i
        = i.retarget (newEntry vars argCount orig i.u16) hv := by
      rw [renumberTo, dif_pos hv, if_pos hlt]
    rw [hnew, hold]
    unfold cvtInstr
    cases hl : localIdx vars argCount (orig.getD i.u16 default).name with
    | some varIdx =>
      rw [newEntry_local hl, dif_neg]
      rw [Instr.isVarRef_retarget_local hv rfl]
      simp
    | none =>
      have hrank := rankExt_le vars argCount orig i.u16
      rw [newEntry_ext hl]
      split
      · rw [if_neg]
        rw [Instr.u16_retarget _ hv (by unfold jsMaxLocalVars at hmax; simp only; omega)]
        simp only
        omega
      · rfl
  · have hold : renumberTo vars argCount orig i0 i = i := by
      rw [renumberTo, dif_pos hv, if_neg hlt]
    rw [hold, cvtInstr, dif_pos hv, renumberTo, dif_pos hv, List.length_map, List.length_range']
    by_cases hin : i.u16 < i0 + n
    · have hget : ((List.range' i0 n).map (newEntry vars argCount orig))[i.u16 - i0]?
          = some (newEntry vars argCount orig i.u16) := by
        rw [List.getElem?_map, List.getElem?_range' (by omega), Option.map_some]
        congr 2
        omega
      rw [if_pos ⟨by omega, hin⟩, if_pos hin, hget]
    · rw [if_neg (fun h => hin h.2), if_neg hin]

theorem convertParts_done {extVarsLen i0 : ℕ} (h : extVarsLen ≤ i0) (fuel j : ℕ) (ext : List ExtVar)
    (code : List ℕ) : convertParts vars argCount extVarsLen fuel i0 j ext code = (ext, j, code) := by
  cases fuel with
  | zero => rfl
  | succ fuel => rw [convertParts, if_neg (by omega)]

/-- The table and the bytecode when the variables before `i0` are done. -/
structure PartsDone (vars : List ℕ) (argCount : ℕ) (orig : List ExtVar) (is : List Instr) (i0 : ℕ)
    (r : List ExtVar × ℕ × List ℕ) : Prop where
  ext : ExtMoved vars argCount orig r.1 i0 r.2.1
  code : r.2.2 = encodeInstrs (is.map (renumberTo vars argCount orig i0))

theorem PartsDone.part (hmax : orig.length ≤ jsMaxLocalVars) {is : List Instr} {i0 n j : ℕ}
    {ext : List ExtVar} {code : List ℕ} (h : PartsDone vars argCount orig is i0 (ext, j, code))
    (hle : i0 + n ≤ orig.length) {r : List ConvertVarEntry × List ExtVar × ℕ}
    (hr : fillCvtTab vars argCount n i0 j ext = r) :
    PartsDone vars argCount orig is (i0 + n) (r.2.1, r.2.2,
      if r.2.2 ≠ i0 + n then convertExtVarsBytecode i0 r.1 code.length 0 code else code) := by
  obtain ⟨h1, h2⟩ := fillCvtTab_spec n i0 j h.ext hle
  rw [hr] at h1 h2
  have hcode : code = encodeInstrs (is.map (renumberTo vars argCount orig i0)) := h.code
  refine ⟨h2, ?_⟩
  simp only
  split_ifs with hmoved
  · rw [hcode, convertExtVarsBytecode_encode, List.map_map, h1]
    congr 2
    funext i
    exact cvtInstr_renumberTo hmax hle i
  · -- no variable has become local so far
    have hrank : rankExt vars argCount orig (i0 + n) = i0 + n := by
      rw [← h2.rank]
      exact not_not.1 hmoved
    have hrank0 := rankExt_eq_of_le (Nat.le_add_right i0 n) hle hrank
    rw [hcode]
    congr 2
    funext i
    rw [renumberTo_eq_self (by omega) hrank0, renumberTo_eq_self hle hrank]

theorem convertParts_encode (hmax : orig.length ≤ jsMaxLocalVars) (is : List Instr) :
    ∀ (fuel i0 j : ℕ) {ext : List ExtVar} {code : List ℕ},
    PartsDone vars argCount orig is i0 (ext, j, code) → i0 ≤ orig.length → orig.length ≤ i0 + fuel →
    PartsDone vars argCount orig is orig.length
      (convertParts vars argCount orig.length fuel i0 j ext code)
  | 0, i0, j, ext, code, h, hle, hf => by
    obtain rfl : i0 = orig.length := by omega
    exact h
  | fuel + 1, i0, j, ext, code, h, hle, hf => by
    by_cases hlt : i0 < orig.length
    swap
    · rw [convertParts_done (by omega)]
      obtain rfl : i0 = orig.length := by omega
      exact h
    rw [convertParts, if_pos hlt]
    have hpart := h.part hmax (show i0 + min (orig.length - i0) cvtVarSizeMax ≤ orig.length by omega) rfl
    by_cases hlast : orig.length - i0 < cvtVarSizeMax
    · -- the last part may be a short one
      have hl : i0 + min (orig.length - i0) cvtVarSizeMax = orig.length := by omega
      simp only
      rw [convertParts_done (by omega)]
      rw [hl] at hpart
      rwa [hl]
    · have hl : min (orig.length - i0) cvtVarSizeMax = cvtVarSizeMax := by omega
      simp only [hl] at hpart ⊢
      exact convertParts_encode hmax is fuel (i0 + cvtVarSizeMax) _ hpart (by omega)
        (by unfold cvtVarSizeMax; omega)

end Table

/-! ### The function -/

/-- The name of the variable that an instruction reads or writes. -/
def varName (f : ParseFunc) (i : Instr) : Option ℕ :=
  if i.op.isVarRef then (f.extVars[i.u16]?).map ExtVar.name
  else if i.op = .opGetLoc ∨ i.op = .opPutLoc then f.vars[f.argCount + i.u16]?
  else none

/-- The instruction reads its variable. -/
def readsVar (i : Instr) : Bool := i.op.isGetVarRef || i.op == .opGetLoc

def renumber (f : ParseFunc) (i : Instr) : Instr :=
  renumberTo f.vars f.argCount f.extVars f.extVars.length i

theorem findVar_some {vars : List ℕ} {name k : ℕ} (h : findVar vars name = some k) :
    vars[k]? = some name := by
  obtain ⟨hlt, hk, -⟩ := List.findIdx?_eq_some_iff_getElem.1 h
  rw [List.getElem?_eq_getElem hlt, eq_of_beq hk]

theorem convert_eq (f : ParseFunc) (is : List Instr) (hcode : f.byteCode = encodeInstrs is)
    (hext : f.extVars.length ≤ jsMaxLocalVars) :
    (convertExtVarsToLocalVars f).byteCode = encodeInstrs (is.map (renumber f))
      ∧ (convertExtVarsToLocalVars f).extVars
        = f.extVars.filter (staysExt f.vars f.argCount)
      ∧ (convertExtVarsToLocalVars f).vars = f.vars
      ∧ (convertExtVarsToLocalVars f).argCount = f.argCount := by
  have hstart : PartsDone f.vars f.argCount f.extVars is 0 (f.extVars, 0, f.byteCode) := by
    refine ⟨⟨rfl, rfl, rfl, rfl⟩, ?_⟩
    have hid : renumberTo f.vars f.argCount f.extVars 0 = id := by
      funext i
      exact renumberTo_eq_self (Nat.zero_le _) rfl i
    rw [hid, List.map_id]
    exact hcode
  unfold convertExtVarsToLocalVars
  by_cases hnone : f.vars.length = 0 ∨ f.extVars.length = 0
  · rw [if_pos hnone]
    -- every variable stays where it is
    have hstay : ∀ v ∈ f.extVars, staysExt f.vars f.argCount v = true := by
      intro v hv
      rcases hnone with h0 | h0
      · rw [List.eq_nil_of_length_eq_zero h0]
        rfl
      · rw [List.eq_nil_of_length_eq_zero h0] at hv
        cases hv
    have hfilter := List.filter_eq_self.2 hstay
    have hrank : rankExt f.vars f.argCount f.extVars f.extVars.length = f.extVars.length := by
      rw [rankExt, List.take_length, hfilter]
    have hid : renumber f = id := by
      funext i
      exact renumberTo_eq_self le_rfl hrank i
    rw [hid, List.map_id]
    exact ⟨hcode, hfilter.symm, rfl, rfl⟩
  · rw [if_neg hnone]
    have hdone := convertParts_encode hext is f.extVars.length 0 0 hstart (Nat.zero_le _) (by omega)
    refine ⟨hdone.code, ?_, rfl, rfl⟩
    have hmoved := hdone.ext.done
    rw [List.take_length] at hmoved
    exact hmoved

/-- Each access is to the same variable after the renumbering as before, by name, and an external
variable keeps its record; the other instructions do not change. -/
theorem convertExtVarsToLocalVars_names (f : ParseFunc) (is : List Instr)
    (hcode : f.byteCode = encodeInstrs is) (hext : f.extVars.length ≤ jsMaxLocalVars)
    (hvars : f.vars.length ≤ jsMaxLocalVars) :
    (convertExtVarsToLocalVars f).byteCode = encodeInstrs (is.map (renumber f))
      ∧ (∀ i : Instr, i.op.isVarRef = false → renumber f i = i)
      ∧ ∀ i : Instr, i.op.isVarRef = true → i.u16 < f.extVars.length →
        varName (convertExtVarsToLocalVars f) (renumber f i) = varName f i
          ∧ readsVar (renumber f i) = readsVar i
          ∧ ((renumber f i).op.isVarRef = true →
            (convertExtVarsToLocalVars f).extVars[(renumber f i).u16]? = f.extVars[i.u16]?) := by
  obtain ⟨h1, h2, h3, h4⟩ := convert_eq f is hcode hext
  refine ⟨h1, ?_, ?_⟩
  · intro i hv
    rw [renumber, renumberTo, dif_neg (by simp [hv])]
  · intro i hv hlt
    have hren : renumber f i = i.retarget (newEntry f.vars f.argCount f.extVars i.u16) hv := by
      rw [renumber, renumberTo, dif_pos hv, if_pos hlt]
    have hget : f.extVars[i.u16]? = some (f.extVars.getD i.u16 default) := by
      rw [List.getD_eq_getElem?_getD, List.getElem?_eq_getElem hlt]
      rfl
    have hname : varName f i = some (f.extVars.getD i.u16 default).name := by
      rw [varName, if_pos hv, hget, Option.map_some]
    rw [hren, hname]
    cases hl : localIdx f.vars f.argCount (f.extVars.getD i.u16 default).name with
    | some varIdx =>
      obtain ⟨hfind, hge⟩ := Option.filter_eq_some_iff.1 hl
      have hge' : f.argCount ≤ varIdx := by simpa using hge
      have hvar := findVar_some hfind
      have hvlt : varIdx < f.vars.length := (List.getElem?_eq_some_iff.1 hvar).1
      rw [newEntry_local hl]
      have hnot := Instr.isVarRef_retarget_local (e := ⟨varIdx - f.argCount, true⟩) hv rfl
      have hu := Instr.u16_retarget ⟨varIdx - f.argCount, true⟩ hv
        (by unfold jsMaxLocalVars at hvars; simp only; omega)
      refine ⟨?_, ?_, fun h => absurd h (by simp [hnot])⟩
      · rw [varName, if_neg (by simp [hnot]), h3, h4, hu, Nat.add_sub_cancel' hge', hvar, if_pos]
        change (if _ then _ else _) = _ ∨ (if _ then _ else _) = _
        cases i.op.isGetVarRef <;> simp
      · cases ho : i.op <;> rw [ho] at hv <;> simp [OPCodeEnum.isVarRef] at hv <;>
          simp [readsVar, Instr.retarget, ho, OPCodeEnum.isGetVarRef]
    | none =>
      have hs : staysExt f.vars f.argCount (f.extVars.getD i.u16 default) = true := by
        rw [staysExt, hl]
        rfl
      have hrank := rankExt_le f.vars f.argCount f.extVars i.u16
      rw [newEntry_ext hl]
      have hu := Instr.u16_retarget ⟨rankExt f.vars f.argCount f.extVars i.u16, false⟩ hv
        (by unfold jsMaxLocalVars at hext; simp only; omega)
      have hplace := getElem?_filter_rankExt hlt hs
      have hop : (i.retarget ⟨rankExt f.vars f.argCount f.extVars i.u16, false⟩ hv).op = i.op := rfl
      refine ⟨?_, ?_, ?_⟩
      · rw [varName, hop, if_pos hv, hu, h2, hplace, Option.map_some]
      · rw [readsVar, hop, readsVar]
      · intro _
        rw [hu, h2, hplace, hget]

/-- A function with one argument that reads a variable before it is declared, and stores to a
global. -/
def lateVarFunc : ParseFunc :=
  ⟨[50, 70], 1, [⟨70, 0⟩, ⟨90, 0⟩], OPCodeEnum.opGetVarRef.code :: 0 :: 0
    :: OPCodeEnum.opPutVarRef.code :: 1 :: [0]⟩

def lateVarInstrs : List Instr :=
  [⟨.opGetVarRef, [0, 0], rfl, by decide⟩, ⟨.opPutVarRef, [1, 0], rfl, by decide⟩]

theorem convertExtVarsToLocalVars_names_late :
    (convertExtVarsToLocalVars lateVarFunc).byteCode
        = [OPCodeEnum.opGetLoc.code, 0, 0, OPCodeEnum.opPutVarRef.code, 0, 0]
      ∧ (convertExtVarsToLocalVars lateVarFunc).byteCode
        = encodeInstrs (lateVarInstrs.map (renumber lateVarFunc)) :=
  ⟨by decide +kernel, (convertExtVarsToLocalVars_names lateVarFunc lateVarInstrs rfl (by decide)
    (by decide)).1⟩

end Qjs
