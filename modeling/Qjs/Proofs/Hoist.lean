import Qjs.Proofs.Emit

/-!
# Hoisted functions and source positions

The length of the code in front is written at the end of the table and read from there
(`getPc2lineHoistedCodeLen_finish`). The code in front moves all instructions by the same distance,
so that jumps stay as they are (`emitRun_jumps`), and the positions are found by walking over the
instructions behind it (`emitRun_findLineCol`).
-/

namespace Qjs

open BitStream

variable {sourceBuf : List ℕ} {a : Arch} {mem : ℕ → Bool}

/-! ### The length of the code in front -/

theorem getU8_of_hasBits {buf : List ℕ} {i v : ℕ} (hb : ∀ b ∈ buf, b < 2 ^ 8) (hv : v < 2 ^ 8)
    (h : HasBits buf (8 * i) 8 v) : getU8 buf i = v := by
  have hlt := getU8_lt hb i
  refine Nat.eq_of_testBit_eq fun t => ?_
  by_cases ht : t < 8
  · have := h (7 - t) (by omega)
    rw [show 8 - 1 - (7 - t) = t by omega] at this
    rw [← this, bitAt, show (8 * i + (7 - t)) / 8 = i by omega,
      show 7 - (8 * i + (7 - t)) % 8 = t by omega]
    rfl
  · rw [Nat.testBit_lt_two_pow (hlt.trans_le (Nat.pow_le_pow_right two_pos (by omega))),
      Nat.testBit_lt_two_pow (hv.trans_le (Nat.pow_le_pow_right two_pos (by omega)))]

theorem Grew.mono {t t' : Pc2line} {n : ℕ} (h : Grew t t' n) : t.bitLen ≤ t'.bitLen := by
  rw [h.bitLen_eq]
  omega

/-- Reading goes back over the bytes; it ends at the first one, which has no mark. -/
theorem putHoistedCodeLen_spec : ∀ {fuel : ℕ} {t t' : Pc2line} {n h i : ℕ}, Pc2lineOk t →
    t.bitLen = 8 * i → h = 0 ∨ h = 2 ^ 7 → putHoistedCodeLen a mem fuel t n h = some t' →
    ∃ j, Grew t t' (8 * j) ∧ getPc2lineHoistedCodeLen t'.buf (i + j) 0
      = if h = 0 then n else getPc2lineHoistedCodeLen t'.buf i n
  | 0, _, _, _, _, _, _, _, _, hp => by simp [putHoistedCodeLen] at hp
  | fuel + 1, t, t', n, h, i, ht, hi, hh, hp => by
    rw [putHoistedCodeLen] at hp
    obtain ⟨t₁, h₁, h₂⟩ := Option.bind_eq_some_iff.1 hp
    have hb : n % 2 ^ 7 + h < 2 ^ 8 := by omega
    obtain ⟨g₁, b₁⟩ := pc2linePutBits_spec ht (by omega) (by omega) hb h₁
    rw [hi] at b₁
    -- one step of reading at the byte that was written
    have hread : ∀ {buf : List ℕ} (v : ℕ), getU8 buf i = n % 2 ^ 7 + h →
        getPc2lineHoistedCodeLen buf (i + 1) v
          = if h = 0 then v * 2 ^ 7 + n % 2 ^ 7
            else getPc2lineHoistedCodeLen buf i (v * 2 ^ 7 + n % 2 ^ 7) := by
      intro buf v hbyte
      have hmod : (n % 2 ^ 7 + h) % 2 ^ 7 = n % 2 ^ 7 := by omega
      rw [getPc2lineHoistedCodeLen]
      simp only [hbyte, hmod]
      rcases hh with rfl | rfl
      · rw [if_pos (by omega), if_pos rfl]
      · rw [if_neg (by omega), if_neg (by omega)]
    by_cases hz : n / 2 ^ 7 = 0
    · rw [if_pos hz] at h₂
      cases h₂
      refine ⟨1, g₁, ?_⟩
      have hn : n % 2 ^ 7 = n := by omega
      rw [hread 0 (getU8_of_hasBits g₁.ok.lt hb b₁), hn, Nat.zero_mul, Nat.zero_add]
    · rw [if_neg hz] at h₂
      obtain ⟨j, g₂, hj⟩ := putHoistedCodeLen_spec (i := i + 1) g₁.ok
        (by rw [g₁.bitLen_eq, hi]; omega) (.inr rfl) h₂
      rw [if_neg (by norm_num)] at hj
      have hg := g₁.trans g₂
      rw [show 8 + 8 * j = 8 * (j + 1) by omega] at hg
      refine ⟨j + 1, hg, ?_⟩
      have hbyte : getU8 t'.buf i = n % 2 ^ 7 + h := by
        refine getU8_of_hasBits g₂.ok.lt hb (b₁.congr fun k _ hk => g₂.kept k ?_)
        rw [g₁.bitLen_eq, hi]
        exact hk
      have hn : n / 2 ^ 7 * 2 ^ 7 + n % 2 ^ 7 = n := by omega
      rw [show i + (j + 1) = i + 1 + j by omega, hj, hread _ hbyte, hn]

theorem finishPc2line_spec {t t' : Pc2line} {h : ℕ} (ht : Pc2lineOk t)
    (hf : finishPc2line a mem t h = some t') :
    ∃ n i, Grew t t' n ∧ t'.bitLen = 8 * i ∧ getPc2lineHoistedCodeLen t'.buf i 0 = h := by
  unfold finishPc2line at hf
  obtain ⟨t₁, h₁, h₂⟩ := Option.bind_eq_some_iff.1 hf
  have hpad : Grew t t₁ ((8 - t.bitLen % 8) % 8) := by
    by_cases hn : (8 - t.bitLen % 8) % 8 ≠ 0
    · rw [if_pos hn] at h₁
      exact (pc2linePutBits_spec ht (by omega) (by omega) (Nat.two_pow_pos _) h₁).1
    · rw [if_neg hn] at h₁
      cases h₁
      rw [not_ne_iff] at hn
      exact ⟨ht, by rw [hn]; rfl, fun _ _ => rfl⟩
  have halign : t₁.bitLen = 8 * (t₁.bitLen / 8) := by
    rw [hpad.bitLen_eq]
    omega
  obtain ⟨j, g₂, hj⟩ := putHoistedCodeLen_spec hpad.ok halign (.inl rfl) h₂
  refine ⟨_, t₁.bitLen / 8 + j, hpad.trans g₂, ?_, ?_⟩
  · rw [g₂.bitLen_eq]
    omega
  · rwa [if_pos rfl] at hj

/-- The table is cut after its last byte. -/
theorem bitAt_take {buf : List ℕ} {n k : ℕ} (h : k < 8 * n) : bitAt (buf.take n) k = bitAt buf k := by
  unfold bitAt
  rw [List.getD_eq_getElem?_getD, List.getD_eq_getElem?_getD,
    List.getElem?_take_of_lt (by omega)]

theorem getU8_take {buf : List ℕ} {n k : ℕ} (h : k < n) : getU8 (buf.take n) k = getU8 buf k := by
  unfold getU8
  rw [List.getD_eq_getElem?_getD, List.getD_eq_getElem?_getD, List.getElem?_take_of_lt h]

theorem getPc2lineHoistedCodeLen_take {buf : List ℕ} {n : ℕ} : ∀ {i : ℕ} (v : ℕ), i ≤ n →
    getPc2lineHoistedCodeLen (buf.take n) i v = getPc2lineHoistedCodeLen buf i v
  | 0, _, _ => rfl
  | i + 1, v, h => by
    rw [getPc2lineHoistedCodeLen, getPc2lineHoistedCodeLen, getU8_take h]
    simp only [getPc2lineHoistedCodeLen_take _ (show i ≤ n by omega)]

/-- The length is read back from the end of the finished table. -/
theorem getPc2lineHoistedCodeLen_finish {t t' : Pc2line} {h : ℕ} (ht : Pc2lineOk t)
    (hf : finishPc2line a mem t h = some t') :
    getPc2lineHoistedCodeLen (t'.buf.take ((t'.bitLen + 7) / 8))
      (t'.buf.take ((t'.bitLen + 7) / 8)).length 0 = h := by
  obtain ⟨n, i, hg, hi, hread⟩ := finishPc2line_spec ht hf
  have hle := hg.ok.le
  have hlen : (t'.bitLen + 7) / 8 = i := by omega
  rw [hlen, List.length_take_of_le (by omega), getPc2lineHoistedCodeLen_take _ le_rfl, hread]

/-! ### The code in front -/

@[simp] theorem hoistedInstr_length (isEval : Bool) (argCount i idx : ℕ) :
    (hoistedInstr isEval argCount i idx).length = 6 := by
  unfold hoistedInstr
  split_ifs <;> simp [u16Bytes]

theorem hoistedCode_length (isEval : Bool) (argCount : ℕ) : ∀ (i : ℕ) (cpool : List (Option ℕ)),
    (hoistedCode isEval argCount i cpool).length = 6 * cpool.countP Option.isSome
  | _, [] => rfl
  | i, none :: cpool => by simp [hoistedCode, hoistedCode_length isEval argCount (i + 1) cpool]
  | i, some idx :: cpool => by
    simp [hoistedCode, hoistedCode_length isEval argCount (i + 1) cpool]
    omega

theorem take_writeAt_zero {arr bs : List ℕ} {n : ℕ} (h : bs.length ≤ n) :
    (writeAt arr 0 bs).take n = bs ++ (arr.take n).drop bs.length := by
  unfold writeAt
  rw [List.take_zero, List.nil_append, Nat.zero_add, List.take_append, List.take_of_length_le h,
    List.drop_take]

theorem defineHoistedFunctions_spec {s s' : EmitState} {isEval : Bool} {argCount : ℕ}
    (hle : s.byteCodeLen ≤ s.byteCode.length)
    (hlen : s.hoistedCodeLen = 6 * s.cpool.countP Option.isSome)
    (hd : defineHoistedFunctions a mem s isEval argCount = some s') :
    finishPc2line a mem s.pc2line s.hoistedCodeLen = some s'.pc2line
      ∧ s'.code = hoistedCode isEval argCount 0 s.cpool ++ s.code := by
  have hcode := hoistedCode_length isEval argCount 0 s.cpool
  rw [← hlen] at hcode
  unfold defineHoistedFunctions at hd
  obtain ⟨t, ht, hd⟩ := Option.bind_eq_some_iff.1 hd
  simp only at hd
  split_ifs at hd with hz
  · cases hd
    rw [hz] at hcode
    exact ⟨ht, by rw [List.length_eq_zero_iff.1 hcode]; rfl⟩
  · obtain ⟨s₁, h₁, h₂⟩ := Option.bind_eq_some_iff.1 hd
    cases h₂
    unfold emitInsertFront at h₁
    obtain ⟨arr, harr, h₁⟩ := Option.bind_eq_some_iff.1 h₁
    cases h₁
    obtain ⟨hroom, htake⟩ := jsResizeByteArray_spec harr
    simp only at hroom htake
    have hold : arr.take s.byteCodeLen = s.code := htake _ hle
    have hclen : s.code.length = s.byteCodeLen := by
      rw [← hold, List.length_take]
      omega
    have hfront : (writeAt arr s.hoistedCodeLen s.code).take (s.hoistedCodeLen + s.byteCodeLen)
        = arr.take s.hoistedCodeLen ++ s.code := by
      rw [← hclen]
      exact take_writeAt _ (by omega)
    refine ⟨ht, ?_⟩
    simp only [EmitState.code]
    rw [← EmitState.code, hold, take_writeAt_zero (by omega), Nat.add_comm, hfront, hcode,
      List.drop_left' (by rw [List.length_take]; omega)]

/-! ### Walking over the code -/

/-- The walk comes to the instruction and has its line and column. -/
theorem findLineColLoop_eq {code buf : List ℕ} {len : ℕ} (hb : ∀ b ∈ buf, b < 2 ^ 8) {k : Kept}
    {ks₂ : List Kept} : ∀ {ks₁ : List Kept} {fuel off prev index : ℕ},
    HasOps code off (ks₁ ++ k :: ks₂) →
    HasDeltas sourceBuf buf index prev ((ks₁ ++ k :: ks₂).map Kept.pos) → prev < 2 ^ 31 →
    (∀ k' ∈ ks₁ ++ k :: ks₂, IsSourcePos sourceBuf k'.pos) →
    off + codeLen (ks₁ ++ k :: ks₂) ≤ len → ks₁.length < fuel →
    findLineColLoop true code len buf (off + codeLen ks₁) fuel off (lineOf sourceBuf prev)
        (columnOf sourceBuf prev) index
      = some ((lineOf sourceBuf k.pos : ℤ), (columnOf sourceBuf k.pos : ℤ))
  | _, 0, _, _, _, _, _, _, _, _, hf => by omega
  | [], fuel + 1, off, prev, index, _, hd, hprev, hpos, hlen, _ => by
    obtain ⟨h1, h2⟩ := hpos k (by simp)
    have hsize := k.op.size_pos
    simp only [List.nil_append, codeLen_cons] at hlen
    rw [findLineColLoop, if_pos (by omega), getPc2line_of_hasDelta hb _ hprev h2 h1 hd.1]
    simp
  | k' :: ks₁, fuel + 1, off, prev, index, ho, hd, hprev, hpos, hlen, hf => by
    obtain ⟨h1, h2⟩ := hpos k' (by simp)
    have hsize := k'.op.size_pos
    simp only [List.cons_append, codeLen_cons] at hlen
    rw [findLineColLoop, if_pos (by omega), getPc2line_of_hasDelta hb _ hprev h2 h1 hd.1, ho.1,
      opSize_code]
    simp only [codeLen_cons]
    rw [if_neg (by omega), ← Nat.add_assoc]
    exact findLineColLoop_eq hb ho.2 hd.2 h2 (fun k'' hk => hpos k'' (List.mem_cons_of_mem _ hk))
      (by omega) (by simpa using hf)

theorem length_le_codeLen (ks : List Kept) : ks.length ≤ codeLen ks := by
  induction ks with
  | nil => simp
  | cons k ks ih =>
    have := k.op.size_pos
    rw [List.length_cons, codeLen_cons]
    omega

variable {es : List EmitEvent} {s s' : EmitState} {g : Emitted} {isEval : Bool} {argCount : ℕ}

theorem getU8_prologue (h : EmitInv sourceBuf s g)
    (hd : defineHoistedFunctions a mem s isEval argCount = some s') (k : ℕ) :
    getU8 s'.code (s.hoistedCodeLen + k) = getU8 s.code k := by
  obtain ⟨-, hcode⟩ := defineHoistedFunctions_spec h.code.len_le h.hoisted_eq hd
  rw [hcode, h.hoisted_eq, ← hoistedCode_length isEval argCount 0, getU8_append_length]

theorem EmitInv.findLineCol_eq (h : EmitInv sourceBuf s g)
    (hd : defineHoistedFunctions a mem s isEval argCount = some s') {ks₁ ks₂ : List Kept} {k : Kept}
    (hk : g.kept = ks₁ ++ k :: ks₂) :
    findLineCol true s'.code s'.code.length s'.table (s.hoistedCodeLen + codeLen ks₁)
      = some ((lineOf sourceBuf k.pos : ℤ), (columnOf sourceBuf k.pos : ℤ)) := by
  obtain ⟨hfinish, hcode⟩ := defineHoistedFunctions_spec h.code.len_le h.hoisted_eq hd
  obtain ⟨n, i, hg, hi, -⟩ := finishPc2line_spec h.table.ok hfinish
  have hlen : s'.code.length = s.hoistedCodeLen + codeLen g.kept := by
    rw [hcode, List.length_append, hoistedCode_length, ← h.hoisted_eq, ← h.code.len_eq,
      EmitState.code, List.length_take_of_le h.code.len_le]
  have hops : HasOps s'.code s.hoistedCodeLen g.kept := by
    refine h.code.ops.congr fun ls₁ l ls₂ hl => ?_
    rw [getU8_prologue h hd, Nat.zero_add]
    refine getU8_take ?_
    have := l.op.size_pos
    rw [h.code.len_eq, hl, codeLen_append, codeLen_cons]
    omega
  have hdeltas : HasDeltas sourceBuf s'.table 0 0 (g.kept.map Kept.pos) := by
    refine h.table.deltas.congr fun k hk => ?_
    rw [Nat.zero_add, ← h.table.bitLen_eq] at hk
    have hmono := hg.mono
    rw [EmitState.table, bitAt_take (by omega), hg.kept k hk]
  have hbytes : ∀ b ∈ s'.table, b < 2 ^ 8 := fun b hb => hg.ok.lt b (List.mem_of_mem_take hb)
  unfold findLineCol
  simp only
  rw [EmitState.table, getPc2lineHoistedCodeLen_finish h.table.ok hfinish, ← EmitState.table,
    max_eq_left (Nat.le_add_right _ _)]
  rw [hk] at hops hdeltas hlen
  have hfuel := length_le_codeLen (ks₁ ++ k :: ks₂)
  rw [List.length_append, List.length_cons] at hfuel
  refine findLineColLoop_eq hbytes hops hdeltas (by norm_num) ?_ hlen.ge (by omega)
  rw [← hk]
  exact h.table.isPos

/-! ### An example -/

/-- A jump forward and back, an instruction that is taken back, and positions on two lines. -/
def sampleEvents : List EmitEvent :=
  [.op .opPush1 [] 3, .hoist 0, .label 0, .goto .opIfFalse 1, .op .opGetLoc [7, 0] 1, .remove,
    .op .opPush2 [] 0, .goto .opGoto 0, .label 1, .op .opReturnUndef [] 4]

/-- Two lines, the second with a character of two bytes. -/
def sampleSource : List ℕ := [0x61, 0x0a, 0xc3, 0xa9, 0x62]

theorem sampleEvents_legal : LegalEmit sampleSource Emitted.init sampleEvents := by
  simp [sampleEvents, sampleSource, LegalEmit, EmitEvent.Legal, Emitted.init, Emitted.step,
    IsSourcePos, OPCodeEnum.size, opcodeInfo, Function.update]

theorem sampleEvents_run :
    ∃ s s', emitRun .jsw8 (fun _ => true) true sampleSource EmitState.init sampleEvents = some s
      ∧ defineHoistedFunctions .jsw8 (fun _ => true) s false 0 = some s'
      ∧ s.hoistedCodeLen = 6 := by
  have h : ((emitRun .jsw8 (fun _ => true) true sampleSource EmitState.init sampleEvents).bind
      fun s => (defineHoistedFunctions .jsw8 (fun _ => true) s false 0).map
        fun _ => s.hoistedCodeLen) = some 6 := by
    decide +kernel
  obtain ⟨s, hs, h⟩ := Option.bind_eq_some_iff.1 h
  obtain ⟨s', hs', h⟩ := Option.map_eq_some_iff.1 h
  exact ⟨s, s', hs, hs', h⟩

/-- The last instruction of the example, with those before it. -/
theorem sampleEvents_kept :
    (Emitted.init.run sampleEvents).kept
      = [⟨.opPush1, 3, none⟩, ⟨.opIfFalse, 3, some 1⟩, ⟨.opPush2, 0, none⟩, ⟨.opGoto, 0, some 0⟩]
        ++ ⟨.opReturnUndef, 4, none⟩ :: [] := rfl

/-! ### Main results -/

variable (a mem sourceBuf)

/-- Every instruction that is kept is found with the line and column of the position it was emitted
with, and the numbers of the table are read as they were written, wherever they start. -/
theorem emitRun_findLineCol :
    (∀ (es : List EmitEvent) (s s' : EmitState) (isEval : Bool) (argCount : ℕ),
      LegalEmit sourceBuf Emitted.init es →
      emitRun a mem true sourceBuf EmitState.init es = some s →
      defineHoistedFunctions a mem s isEval argCount = some s' →
      ∀ ks₁ k ks₂, (Emitted.init.run es).kept = ks₁ ++ k :: ks₂ →
        findLineCol true s'.code s'.code.length s'.table (s.hoistedCodeLen + codeLen ks₁)
          = some ((lineOf sourceBuf k.pos : ℤ), (columnOf sourceBuf k.pos : ℤ)))
    ∧ (∀ (t t' : Pc2line) (v bufLen : ℕ), Pc2lineOk t → v < 2 ^ 32 - 1 →
      putUgolomb a mem t v = some t' →
      getUgolomb t'.buf bufLen t.bitLen = (v, t'.bitLen))
    ∧ (∀ (t t' : Pc2line) (v : ℤ) (bufLen : ℕ), Pc2lineOk t → -2 ^ 31 < v → v < 2 ^ 31 →
      putSgolomb a mem t v = some t' →
      getSgolomb t'.buf bufLen t.bitLen = (v, t'.bitLen)) := by
  refine ⟨?_, ?_, ?_⟩
  · intro es s s' isEval argCount hlegal hrun hd ks₁ k ks₂ hk
    exact (emitRun_inv (emitInv_init sourceBuf) hlegal hrun).findLineCol_eq hd hk
  · intro t t' v bufLen ht hv hp
    obtain ⟨hg, hgamma⟩ := putUgolomb_spec ht hv hp
    rw [getUgolomb_of_hasGamma hg.ok.lt bufLen hv hgamma, hg.bitLen_eq]
  · intro t t' v bufLen ht h1 h2 hp
    obtain ⟨hg, hgamma⟩ := putUgolomb_spec ht (zigzag_lt h1 h2) hp
    rw [getSgolomb_of_hasGamma hg.ok.lt bufLen h1 h2 hgamma, hg.bitLen_eq]

theorem emitRun_findLineCol_sample :
    ∃ s s', emitRun .jsw8 (fun _ => true) true sampleSource EmitState.init sampleEvents = some s
      ∧ defineHoistedFunctions .jsw8 (fun _ => true) s false 0 = some s'
      ∧ findLineCol true s'.code s'.code.length s'.table 18 = some (2, 2) := by
  obtain ⟨s, s', hs, hs', hlen⟩ := sampleEvents_run
  have h := (emitRun_findLineCol sampleSource .jsw8 fun _ => true).1 sampleEvents s s' false 0
    sampleEvents_legal hs hs' _ _ _ sampleEvents_kept
  rw [hlen] at h
  exact ⟨s, s', hs, hs', h⟩

variable {a mem sourceBuf}

/-- Every jump goes to its label, with the code of the hoisted functions in front as without it, and
the positions are still found. -/
theorem emitRun_jumps (hlegal : LegalEmit sourceBuf Emitted.init es)
    (hrun : emitRun a mem true sourceBuf EmitState.init es = some s)
    (hdefined : ∀ k ∈ (Emitted.init.run es).kept, ∀ l, k.label = some l →
      (Emitted.init.run es).target l ≠ none)
    (hd : defineHoistedFunctions a mem s isEval argCount = some s') :
    (∀ ks₁ k ks₂ l, (Emitted.init.run es).kept = ks₁ ++ k :: ks₂ → k.label = some l →
      ∃ t, (Emitted.init.run es).target l = some t ∧ IsBoundary (Emitted.init.run es).kept t
        ∧ s.labels l = t + labelResolvedFlag
        ∧ getU32 s.code (codeLen ks₁ + 1) = jumpOffset t (codeLen ks₁ + 1)
        ∧ getU32 s'.code (s.hoistedCodeLen + codeLen ks₁ + 1)
          = jumpOffset (s.hoistedCodeLen + t) (s.hoistedCodeLen + codeLen ks₁ + 1))
    ∧ s'.code = hoistedCode isEval argCount 0 s.cpool ++ s.code
    ∧ (hoistedCode isEval argCount 0 s.cpool).length = s.hoistedCodeLen
    ∧ (∀ ks₁ k ks₂, (Emitted.init.run es).kept = ks₁ ++ k :: ks₂ →
      findLineCol true s'.code s'.code.length s'.table (s.hoistedCodeLen + codeLen ks₁)
        = some ((lineOf sourceBuf k.pos : ℤ), (columnOf sourceBuf k.pos : ℤ)))
    ∧ (∀ (t t' : Pc2line) (h : ℕ), Pc2lineOk t → finishPc2line a mem t h = some t' →
      getPc2lineHoistedCodeLen (t'.buf.take ((t'.bitLen + 7) / 8))
        (t'.buf.take ((t'.bitLen + 7) / 8)).length 0 = h) := by
  have hinv := emitRun_inv (emitInv_init sourceBuf) hlegal hrun
  have hspec := defineHoistedFunctions_spec hinv.code.len_le hinv.hoisted_eq hd
  refine ⟨?_, hspec.2, ?_, ?_, ?_⟩
  · intro ks₁ k ks₂ l hk hl
    obtain ⟨t, ht⟩ := Option.ne_none_iff_exists'.1 (hdefined k (by rw [hk]; simp) l hl)
    have hok := hinv.labels.ok l
    rw [ht] at hok
    have hmem : codeLen ks₁ + 1 ∈ refs l 0 (Emitted.init.run es).kept :=
      mem_refs.2 ⟨ks₁, k, ks₂, hk, hl, by rw [Nat.zero_add]⟩
    have hbound := (refs_bound hinv.code.jumps hmem).2
    rw [Nat.zero_add, ← hinv.code.len_eq] at hbound
    have hcode : getU32 s.code (codeLen ks₁ + 1) = jumpOffset t (codeLen ks₁ + 1) :=
      (getU32_congr fun i _ hi => getU8_take (by omega)).trans (hok.2 _ hmem)
    refine ⟨t, ht, hinv.labels.boundary l t ht, hok.1, hcode, ?_⟩
    have hmove : getU32 s'.code (s.hoistedCodeLen + codeLen ks₁ + 1)
        = getU32 s.code (codeLen ks₁ + 1) := by
      rw [hspec.2, hinv.hoisted_eq, ← hoistedCode_length isEval argCount 0, Nat.add_assoc,
        getU32_append_length]
    rw [hmove, hcode]
    unfold jumpOffset
    congr 2
    push_cast
    ring
  · rw [hoistedCode_length, hinv.hoisted_eq]
  · intro ks₁ k ks₂ hk
    exact hinv.findLineCol_eq hd hk
  · intro t t' h ht hf
    exact getPc2lineHoistedCodeLen_finish ht hf

theorem emitRun_jumps_sample :
    ∃ s s', emitRun .jsw8 (fun _ => true) true sampleSource EmitState.init sampleEvents = some s
      ∧ defineHoistedFunctions .jsw8 (fun _ => true) s false 0 = some s'
      ∧ getU32 s'.code 8 = 10 ∧ getU32 s'.code 14 = 2 ^ 32 - 7 := by
  obtain ⟨s, s', hs, hs', hlen⟩ := sampleEvents_run
  have hdefined : ∀ k ∈ (Emitted.init.run sampleEvents).kept, ∀ l, k.label = some l →
      (Emitted.init.run sampleEvents).target l ≠ none := by
    rw [sampleEvents_kept]
    simp [Emitted.run, Emitted.step, sampleEvents, Function.update]
  have h := (emitRun_jumps sampleEvents_legal hs hdefined hs').1
  have hforward := h [⟨.opPush1, 3, none⟩] ⟨.opIfFalse, 3, some 1⟩ _ 1 sampleEvents_kept rfl
  have hback := h [⟨.opPush1, 3, none⟩, ⟨.opIfFalse, 3, some 1⟩, ⟨.opPush2, 0, none⟩]
    ⟨.opGoto, 0, some 0⟩ _ 0 sampleEvents_kept rfl
  obtain ⟨t₁, ht₁, -, -, -, h₁⟩ := hforward
  obtain ⟨t₂, ht₂, -, -, -, h₂⟩ := hback
  cases ht₁
  cases ht₂
  rw [hlen] at h₁ h₂
  exact ⟨s, s', hs, hs', h₁, h₂⟩

end Qjs
