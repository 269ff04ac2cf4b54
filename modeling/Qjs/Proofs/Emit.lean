import Qjs.Proofs.Pc2line
import Qjs.Lib.Linked

/-!
# Runs of the emitter

What a run leaves is described by the instructions it has kept, each with the position it was
emitted with and, for a jump, its label, and by the places where labels were defined (`Emitted`).
The state agrees with this description at each step (`emitStep_inv`) and so after a run
(`emitRun_inv`): the table says the positions, the code has the opcodes, and the operand of a jump
is either resolved or a link to the jump before with the same label.
-/

namespace Qjs

open BitStream Linked

/-! ### What is kept -/

structure Kept where
  op : OPCodeEnum
  pos : ℕ
  label : Option ℕ

def codeLen (ks : List Kept) : ℕ := (ks.map fun k => k.op.size).sum

def lastPos (ks : List Kept) : ℕ := (ks.map Kept.pos).getLastD 0

/-- The operands of the jumps to label `l`, for code that starts at `off`. -/
def refs (l : ℕ) : ℕ → List Kept → List ℕ
  | _, [] => []
  | off, k :: ks =>
    if k.label = some l then (off + 1) :: refs l (off + k.op.size) ks
    else refs l (off + k.op.size) ks

/-- What a run has emitted. -/
structure Emitted where
  kept : List Kept
  target : ℕ → Option ℕ

def Emitted.init : Emitted := ⟨[], fun _ => none⟩

def Emitted.step (g : Emitted) : EmitEvent → Emitted
  | .op op _ pos => { g with kept := g.kept ++ [⟨op, pos, none⟩] }
  | .remove => { g with kept := g.kept.dropLast }
  | .goto op l => { g with kept := g.kept ++ [⟨op, lastPos g.kept, some l⟩] }
  | .label l => { g with target := Function.update g.target l (some (codeLen g.kept)) }
  | .const => g
  | .hoist _ => g

def Emitted.run (g : Emitted) (es : List EmitEvent) : Emitted := es.foldl Emitted.step g

/-- A position in the source, which is an `int`. -/
def IsSourcePos (sourceBuf : List ℕ) (pos : ℕ) : Prop := pos ≤ sourceBuf.length ∧ pos < 2 ^ 31

/-- How the compiler calls the emitter: operands have the size of the opcode's format, a jump is not
taken back, and a label is defined once. -/
def EmitEvent.Legal (sourceBuf : List ℕ) (g : Emitted) : EmitEvent → Prop
  | .op o args pos =>
    args.length + 1 = o.size ∧ (∀ b ∈ args, b < 2 ^ 8) ∧ IsSourcePos sourceBuf pos
  | .remove => ∀ k ∈ g.kept.getLast?, k.label = none
  | .goto o _ => o.size = 5
  | .label l => g.target l = none
  | .const => True
  | .hoist _ => True

def LegalEmit (sourceBuf : List ℕ) : Emitted → List EmitEvent → Prop
  | _, [] => True
  | g, e :: es => e.Legal sourceBuf g ∧ LegalEmit sourceBuf (g.step e) es

@[simp] theorem codeLen_nil : codeLen [] = 0 := rfl

@[simp] theorem codeLen_cons (k : Kept) (ks : List Kept) :
    codeLen (k :: ks) = k.op.size + codeLen ks := by
  simp [codeLen]

@[simp] theorem codeLen_append (ks ks' : List Kept) :
    codeLen (ks ++ ks') = codeLen ks + codeLen ks' := by
  simp [codeLen]

@[simp] theorem lastPos_append (ks : List Kept) (k : Kept) : lastPos (ks ++ [k]) = k.pos := by
  simp [lastPos]

theorem refs_append (l off : ℕ) (ks ks' : List Kept) :
    refs l off (ks ++ ks') = refs l off ks ++ refs l (off + codeLen ks) ks' := by
  induction ks generalizing off with
  | nil => simp [refs]
  | cons k ks ih =>
    simp only [List.cons_append, refs, codeLen_cons]
    split_ifs <;> simp [ih, Nat.add_assoc]

/-- Jumps have an operand of four bytes. -/
def JumpSizes (ks : List Kept) : Prop := ∀ k ∈ ks, k.label ≠ none → k.op.size = 5

theorem mem_refs {l off p : ℕ} {ks : List Kept} :
    p ∈ refs l off ks
      ↔ ∃ ks₁ k ks₂, ks = ks₁ ++ k :: ks₂ ∧ k.label = some l ∧ p = off + codeLen ks₁ + 1 := by
  induction ks generalizing off p with
  | nil => simp [refs]
  | cons k ks ih =>
    constructor
    · intro h
      have hcases : k.label = some l ∧ p = off + 1 ∨ p ∈ refs l (off + k.op.size) ks := by
        simp only [refs] at h
        split_ifs at h with hl
        · rcases List.mem_cons.1 h with rfl | h
          · exact .inl ⟨hl, rfl⟩
          · exact .inr h
        · exact .inr h
      rcases hcases with ⟨hl, rfl⟩ | h
      · exact ⟨[], k, ks, rfl, hl, by simp⟩
      · obtain ⟨ks₁, k', ks₂, rfl, hl, rfl⟩ := ih.1 h
        exact ⟨k :: ks₁, k', ks₂, rfl, hl, by simp; omega⟩
    · rintro ⟨ks₁, k', ks₂, he, hl, rfl⟩
      cases ks₁ with
      | nil =>
        obtain ⟨rfl, rfl⟩ := List.cons.inj he
        simp [refs, hl]
      | cons k'' ks₁ =>
        obtain ⟨rfl, rfl⟩ := List.cons.inj he
        have := ih.2 ⟨ks₁, k', ks₂, rfl, hl, Eq.refl (off + k.op.size + codeLen ks₁ + 1)⟩
        rw [show off + codeLen (k :: ks₁) + 1 = off + k.op.size + codeLen ks₁ + 1 by
          simp; omega]
        simp only [refs]
        split_ifs
        · exact List.mem_cons_of_mem _ this
        · exact this

/-- Two places in the code are the same, or one instruction is before the other. -/
theorem split_trichotomy {α : Type*} {l₁ l₂ m₁ m₂ : List α} {x y : α}
    (h : l₁ ++ x :: l₂ = m₁ ++ y :: m₂) :
    (l₁ = m₁ ∧ x = y) ∨ (∃ r, m₁ = l₁ ++ x :: r) ∨ ∃ r, l₁ = m₁ ++ y :: r := by
  rcases List.append_eq_append_iff.1 h with ⟨r, rfl, hr⟩ | ⟨r, rfl, hr⟩
  · cases r with
    | nil =>
      obtain ⟨rfl, rfl⟩ := List.cons.inj hr
      exact .inl ⟨by simp, rfl⟩
    | cons z r =>
      obtain ⟨rfl, rfl⟩ := List.cons.inj hr
      exact .inr (.inl ⟨r, rfl⟩)
  · cases r with
    | nil =>
      obtain ⟨rfl, rfl⟩ := List.cons.inj hr
      exact .inl ⟨by simp, rfl⟩
    | cons z r =>
      obtain ⟨rfl, rfl⟩ := List.cons.inj hr
      exact .inr (.inr ⟨r, rfl⟩)

theorem refs_bound {l off p : ℕ} {ks : List Kept} (hj : JumpSizes ks) (h : p ∈ refs l off ks) :
    off < p ∧ p + 4 ≤ off + codeLen ks := by
  obtain ⟨ks₁, k, ks₂, rfl, hl, rfl⟩ := mem_refs.1 h
  have hsize := hj k (by simp) (by simp [hl])
  simp only [codeLen_append, codeLen_cons, hsize]
  omega

/-- Operands do not overlap. -/
theorem refs_disjoint {l l' off p q : ℕ} {ks : List Kept} (hj : JumpSizes ks)
    (hp : p ∈ refs l off ks) (hq : q ∈ refs l' off ks) :
    (l = l' ∧ p = q) ∨ p + 4 ≤ q ∨ q + 4 ≤ p := by
  obtain ⟨ks₁, k, ks₂, rfl, hl, rfl⟩ := mem_refs.1 hp
  obtain ⟨ms₁, m, ms₂, he, hl', rfl⟩ := mem_refs.1 hq
  have hk := hj k (by simp) (by simp [hl])
  have hm := hj m (by rw [he]; simp) (by simp [hl'])
  rcases split_trichotomy he with ⟨rfl, rfl⟩ | ⟨r, rfl⟩ | ⟨r, rfl⟩
  · rw [hl] at hl'
    exact .inl ⟨Option.some.inj hl', rfl⟩
  · simp only [codeLen_append, codeLen_cons, hk]
    omega
  · simp only [codeLen_append, codeLen_cons, hm]
    omega

theorem refs_nodup {l off : ℕ} {ks : List Kept} (hj : JumpSizes ks) : (refs l off ks).Nodup := by
  induction ks generalizing off with
  | nil => simp [refs]
  | cons k ks ih =>
    have hj' : JumpSizes ks := fun k' hk' => hj k' (List.mem_cons_of_mem k hk')
    simp only [refs]
    split_ifs with hl
    · refine List.nodup_cons.2 ⟨?_, ih hj'⟩
      intro hmem
      have := (refs_bound hj' hmem).1
      have hsize := hj k List.mem_cons_self (by simp [hl])
      omega
    · exact ih hj'

theorem refs_length_le (l off : ℕ) (ks : List Kept) : (refs l off ks).length ≤ codeLen ks := by
  induction ks generalizing off with
  | nil => simp [refs]
  | cons k ks ih =>
    have := ih (off + k.op.size)
    have hpos := k.op.size_pos
    simp only [refs, codeLen_cons]
    split_ifs
    · rw [List.length_cons]
      omega
    · omega

/-! ### Words in the code -/

theorem getU8_putU16 {code : List ℕ} {p : ℕ} (h : p + 2 ≤ code.length) (v k : ℕ) :
    getU8 (putU16 code p v) k
      = if k = p then v % 2 ^ 8 else if k = p + 1 then v / 2 ^ 8 % 2 ^ 8 else getU8 code k := by
  unfold putU16
  rw [getU8_set (by simp only [List.length_set]; omega), getU8_set (by omega)]
  by_cases h1 : k = p + 1
  · rw [if_pos h1, if_neg (by omega), if_pos h1]
  · rw [if_neg h1, if_neg h1]

/-- Only the four bytes change. -/
theorem getU8_putU32_of_not_mem {code : List ℕ} {p : ℕ} (h : p + 4 ≤ code.length) (v : ℕ) {k : ℕ}
    (hk : ¬(p ≤ k ∧ k < p + 4)) : getU8 (putU32 code p v) k = getU8 code k := by
  unfold putU32
  rw [getU8_putU16 (by simp only [putU16_length]; omega), if_neg (by omega), if_neg (by omega),
    getU8_putU16 (by omega), if_neg (by omega), if_neg (by omega)]

theorem getU32_putU32 {code : List ℕ} {p : ℕ} (h : p + 4 ≤ code.length) (v : ℕ) :
    getU32 (putU32 code p v) p = v % 2 ^ 32 := by
  have h' : p + 2 + 2 ≤ (putU16 code p v).length := by
    simp only [putU16_length]
    omega
  have h'' : p + 2 ≤ code.length := by omega
  unfold getU32 getU16 putU32
  simp [getU8_putU16 h', getU8_putU16 h'', Nat.add_assoc]
  omega

theorem getU32_congr {code code' : List ℕ} {p : ℕ}
    (h : ∀ k, p ≤ k → k < p + 4 → getU8 code' k = getU8 code k) :
    getU32 code' p = getU32 code p := by
  unfold getU32 getU16
  rw [h p (by omega) (by omega), h (p + 1) (by omega) (by omega), h (p + 2) (by omega) (by omega),
    h (p + 2 + 1) (by omega) (by omega)]

theorem putU32_lt {code : List ℕ} (h : ∀ b ∈ code, b < 2 ^ 8) (p v : ℕ) :
    ∀ b ∈ putU32 code p v, b < 2 ^ 8 := by
  have h16 : ∀ {code : List ℕ} (p v : ℕ), (∀ b ∈ code, b < 2 ^ 8) →
      ∀ b ∈ putU16 code p v, b < 2 ^ 8 := by
    intro code p v h b hb
    rcases List.mem_or_eq_of_mem_set hb with hb | rfl
    · rcases List.mem_or_eq_of_mem_set hb with hb | rfl
      · exact h b hb
      · exact Nat.mod_lt _ (by norm_num)
    · exact Nat.mod_lt _ (by norm_num)
  exact h16 _ _ (h16 _ _ h)

/-! ### Chains of jumps -/

/-- What the word of a label or of an operand points to. -/
def refLink (w : ℕ) : Option ℕ := if w = labelOffsetMask then none else some w

def nextRef (code : List ℕ) (p : ℕ) : Option ℕ := refLink (getU32 code p)

/-- The operand of a jump at `p` to `pos`. -/
def jumpOffset (pos p : ℕ) : ℕ := (((pos : ℤ) - p) % 2 ^ 32).toNat

theorem jumpOffset_lt (pos p : ℕ) : jumpOffset pos p < 2 ^ 32 := by
  unfold jumpOffset
  omega

/-- The operands of the list jump to `pos`, and nothing else has changed. -/
structure ResolvedTo (pos : ℕ) (ps : List ℕ) (code code' : List ℕ) : Prop where
  length_eq : code'.length = code.length
  lt : (∀ b ∈ code, b < 2 ^ 8) → ∀ b ∈ code', b < 2 ^ 8
  operand : ∀ p ∈ ps, getU32 code' p = jumpOffset pos p
  same : ∀ k, (∀ p ∈ ps, ¬(p ≤ k ∧ k < p + 4)) → getU8 code' k = getU8 code k

theorem resolveLabel_spec {pos : ℕ} : ∀ {fuel label : ℕ} {code ps : List ℕ},
    IsLinked (nextRef code) (refLink label) ps → (∀ p ∈ ps, p + 4 ≤ code.length) →
    ps.Pairwise (fun p q => p + 4 ≤ q ∨ q + 4 ≤ p) → ps.length < fuel →
    ResolvedTo pos ps code (resolveLabel pos fuel label code)
  | 0, _, _, _, _, _, _, hf => by simp at hf
  | fuel + 1, label, code, [], hl, _, _, _ => by
    have hmask : label = labelOffsetMask := by
      have := isLinked_nil.1 hl
      unfold refLink at this
      split_ifs at this with h
      exact h
    rw [resolveLabel, if_neg (by simp [hmask])]
    exact ⟨rfl, id, by simp, fun _ _ => rfl⟩
  | fuel + 1, label, code, p :: ps, hl, hroom, hd, hf => by
    obtain ⟨hhead, hrest⟩ := isLinked_cons.1 hl
    obtain ⟨hd1, hd2⟩ := List.pairwise_cons.1 hd
    have hp := hroom p List.mem_cons_self
    have hlabel : label ≠ labelOffsetMask ∧ label = p := by
      unfold refLink at hhead
      split_ifs at hhead with h
      exact ⟨h, Option.some.inj hhead⟩
    obtain ⟨hmask, rfl⟩ := hlabel
    rw [resolveLabel, if_pos hmask]
    have hslot : ∀ q ∈ ps, ∀ k, q ≤ k → k < q + 4 → ∀ v,
        getU8 (putU32 code label v) k = getU8 code k := by
      intro q hq k h1 h2 v
      have := hd1 q hq
      exact getU8_putU32_of_not_mem hp v (by omega)
    have hnext : ∀ q ∈ ps, nextRef (putU32 code label (jumpOffset pos label)) q = nextRef code q := by
      intro q hq
      unfold nextRef
      rw [getU32_congr fun k h1 h2 => hslot q hq k h1 h2 _]
    have ih : ResolvedTo pos ps (putU32 code label (jumpOffset pos label))
        (resolveLabel pos fuel (getU32 code label) (putU32 code label (jumpOffset pos label))) :=
      resolveLabel_spec (hrest.congr hnext)
        (fun q hq => by rw [putU32_length]; exact hroom q (List.mem_cons_of_mem _ hq)) hd2
        (by simpa using hf)
    refine ⟨?_, fun h => ih.lt (putU32_lt h _ _), ?_, ?_⟩
    · exact ih.length_eq.trans (putU32_length ..)
    · intro q hq
      rcases List.mem_cons.1 hq with rfl | hq
      · have hkeep : getU32 (resolveLabel pos fuel (getU32 code q)
            (putU32 code q (jumpOffset pos q))) q = getU32 (putU32 code q (jumpOffset pos q)) q :=
          getU32_congr fun k h1 h2 => ih.same k fun r hr => by
            have := hd1 r hr
            omega
        exact hkeep.trans ((getU32_putU32 hp _).trans (Nat.mod_eq_of_lt (jumpOffset_lt _ _)))
      · exact ih.operand q hq
    · intro k hk
      refine (ih.same k fun q hq => hk q (List.mem_cons_of_mem _ hq)).trans ?_
      exact getU8_putU32_of_not_mem hp _ (hk label List.mem_cons_self)

/-! ### The table -/

section Table

variable (sourceBuf : List ℕ)

def deltasLen : ℕ → List ℕ → ℕ
  | _, [] => 0
  | prev, pos :: ps => deltaLen (getLineColDelta sourceBuf prev pos) + deltasLen pos ps

/-- The bits from `index` on say the positions one after the other, from `prev` on. -/
def HasDeltas (buf : List ℕ) : ℕ → ℕ → List ℕ → Prop
  | _, _, [] => True
  | index, prev, pos :: ps =>
    HasDelta buf index (getLineColDelta sourceBuf prev pos)
      ∧ HasDeltas buf (index + deltaLen (getLineColDelta sourceBuf prev pos)) pos ps

variable {sourceBuf}

theorem deltasLen_append (prev pos : ℕ) (ps : List ℕ) :
    deltasLen sourceBuf prev (ps ++ [pos])
      = deltasLen sourceBuf prev ps + deltaLen (getLineColDelta sourceBuf (ps.getLastD prev) pos) := by
  induction ps generalizing prev with
  | nil => simp [deltasLen]
  | cons p ps ih =>
    simp only [List.cons_append, deltasLen, ih, List.getLastD_cons, Nat.add_assoc]

theorem hasDeltas_append {buf : List ℕ} {index prev pos : ℕ} {ps : List ℕ} :
    HasDeltas sourceBuf buf index prev (ps ++ [pos])
      ↔ HasDeltas sourceBuf buf index prev ps
        ∧ HasDelta buf (index + deltasLen sourceBuf prev ps)
          (getLineColDelta sourceBuf (ps.getLastD prev) pos) := by
  induction ps generalizing index prev with
  | nil => simp [HasDeltas, deltasLen]
  | cons p ps ih =>
    simp only [List.cons_append, HasDeltas, ih, deltasLen, List.getLastD_cons, Nat.add_assoc,
      and_assoc]

theorem HasDeltas.congr {buf buf' : List ℕ} {index prev : ℕ} {ps : List ℕ}
    (h : HasDeltas sourceBuf buf index prev ps)
    (hb : ∀ k < index + deltasLen sourceBuf prev ps, bitAt buf' k = bitAt buf k) :
    HasDeltas sourceBuf buf' index prev ps := by
  induction ps generalizing index prev with
  | nil => trivial
  | cons p ps ih =>
    simp only [deltasLen] at hb
    exact ⟨h.1.congr fun k _ hk => hb k (by omega), ih h.2 fun k hk => hb k (by omega)⟩

/-- The table says the positions of the instructions. -/
structure TableInv (sourceBuf : List ℕ) (t : Pc2line) (sourcePos : ℕ) (ks : List Kept) : Prop where
  isPos : ∀ k ∈ ks, IsSourcePos sourceBuf k.pos
  ok : Pc2lineOk t
  bitLen_eq : t.bitLen = deltasLen sourceBuf 0 (ks.map Kept.pos)
  deltas : HasDeltas sourceBuf t.buf 0 0 (ks.map Kept.pos)
  sourcePos_eq : sourcePos = lastPos ks

theorem isSourcePos_lastPos {ks : List Kept} (h : ∀ k ∈ ks, IsSourcePos sourceBuf k.pos) :
    IsSourcePos sourceBuf (lastPos ks) := by
  induction ks using List.reverseRecOn with
  | nil => exact ⟨Nat.zero_le _, by norm_num [lastPos]⟩
  | append_singleton ks k => simpa using h k (by simp)

theorem TableInv.emit {a : Arch} {mem : ℕ → Bool} {t t' : Pc2line} {sourcePos : ℕ} {ks : List Kept}
    {k : Kept} (h : TableInv sourceBuf t sourcePos ks) (hk : IsSourcePos sourceBuf k.pos)
    (he : emitPc2line a mem true sourceBuf t sourcePos k.pos = some t') :
    TableInv sourceBuf t' k.pos (ks ++ [k]) := by
  have hlast : IsSourcePos sourceBuf sourcePos := by
    rw [h.sourcePos_eq]
    exact isSourcePos_lastPos h.isPos
  obtain ⟨hg, hd⟩ := emitPc2line_spec h.ok hlast.2 hk.2 hk.1 he
  have hprev : (ks.map Kept.pos).getLastD 0 = sourcePos := h.sourcePos_eq.symm
  refine ⟨?_, hg.ok, ?_, ?_, by simp⟩
  · intro k' hk'
    rcases List.mem_append.1 hk' with hk' | hk'
    · exact h.isPos k' hk'
    · rwa [List.mem_singleton.1 hk']
  · rw [List.map_append, List.map_singleton, deltasLen_append, hprev, hg.bitLen_eq, h.bitLen_eq]
  · rw [List.map_append, List.map_singleton, hasDeltas_append, hprev, Nat.zero_add, ← h.bitLen_eq]
    refine ⟨h.deltas.congr fun i hi => hg.kept i ?_, hd⟩
    rw [h.bitLen_eq]
    simpa using hi

/-- Taking back the last instruction leaves the table of those before. -/
theorem TableInv.remove {t : Pc2line} {sourcePos : ℕ} {ks : List Kept} {k : Kept}
    (h : TableInv sourceBuf t sourcePos (ks ++ [k])) :
    TableInv sourceBuf ⟨t.buf, deltasLen sourceBuf 0 (ks.map Kept.pos)⟩ (lastPos ks) ks := by
  have hlen := h.bitLen_eq
  have hd := h.deltas
  rw [List.map_append, List.map_singleton, deltasLen_append] at hlen
  rw [List.map_append, List.map_singleton, hasDeltas_append] at hd
  refine ⟨fun k' hk' => h.isPos k' (List.mem_append_left _ hk'), ⟨h.ok.lt, ?_⟩, rfl, hd.1, rfl⟩
  have := h.ok.le
  simp only
  omega

end Table

/-! ### The code -/

/-- The opcodes stand where the instructions start. -/
def HasOps (code : List ℕ) : ℕ → List Kept → Prop
  | _, [] => True
  | off, k :: ks => getU8 code off = k.op.code ∧ HasOps code (off + k.op.size) ks

theorem hasOps_append {code : List ℕ} {off : ℕ} {ks ks' : List Kept} :
    HasOps code off (ks ++ ks') ↔ HasOps code off ks ∧ HasOps code (off + codeLen ks) ks' := by
  induction ks generalizing off with
  | nil => simp [HasOps]
  | cons k ks ih => simp only [List.cons_append, HasOps, ih, codeLen_cons, Nat.add_assoc, and_assoc]

theorem HasOps.congr {code code' : List ℕ} {off off' : ℕ} {ks : List Kept} (h : HasOps code off ks)
    (hb : ∀ ks₁ k ks₂, ks = ks₁ ++ k :: ks₂ →
      getU8 code' (off' + codeLen ks₁) = getU8 code (off + codeLen ks₁)) :
    HasOps code' off' ks := by
  induction ks generalizing off off' with
  | nil => trivial
  | cons k ks ih =>
    refine ⟨(hb [] k ks rfl).trans h.1, ih h.2 ?_⟩
    intro ks₁ k' ks₂ he
    have := hb (k :: ks₁) k' ks₂ (by rw [he]; rfl)
    simpa only [codeLen_cons, Nat.add_assoc] using this

structure CodeInv (code : List ℕ) (len : ℕ) (ks : List Kept) : Prop where
  lt : ∀ b ∈ code, b < 2 ^ 8
  size : code.length < 2 ^ 28
  len_le : len ≤ code.length
  len_eq : len = codeLen ks
  ops : HasOps code 0 ks
  jumps : JumpSizes ks

/-- Bytes were written after the first `len`. -/
structure CodeAppended (code : List ℕ) (len : ℕ) (bs code' : List ℕ) : Prop where
  lt : ∀ b ∈ code', b < 2 ^ 8
  size : code'.length < 2 ^ 28
  le : len + bs.length ≤ code'.length
  same : ∀ k < len, getU8 code' k = getU8 code k
  new : ∀ i < bs.length, getU8 code' (len + i) = getU8 bs i

theorem CodeAppended.trans {code code' code'' bs bs' : List ℕ} {len : ℕ}
    (h1 : CodeAppended code len bs code') (h2 : CodeAppended code' (len + bs.length) bs' code'') :
    CodeAppended code len (bs ++ bs') code'' := by
  refine ⟨h2.lt, h2.size, ?_, ?_, ?_⟩
  · have := h2.le
    rw [List.length_append]
    omega
  · intro k hk
    rw [h2.same k (by omega), h1.same k hk]
  · intro i hi
    by_cases hlt : i < bs.length
    · rw [h2.same _ (by omega), h1.new i hlt]
      exact (List.getD_append _ _ _ _ hlt).symm
    · have := h2.new (i - bs.length) (by rw [List.length_append] at hi; omega)
      rw [show len + bs.length + (i - bs.length) = len + i by omega] at this
      rw [this]
      exact (List.getD_append_right _ _ _ _ (by omega)).symm

theorem jsResizeByteArray_size {a : Arch} {mem : ℕ → Bool} {arr r : List ℕ} {n : ℕ}
    (h : jsResizeByteArray a mem arr n = some r) (ha : arr.length < 2 ^ 28) : r.length < 2 ^ 28 := by
  unfold jsResizeByteArray at h
  split_ifs at h with hn
  · obtain ⟨new, hnew, rfl⟩ := Option.map_eq_some_iff.1 h
    unfold jsAllocByteArray at hnew
    split_ifs at hnew with hmax
    cases hnew
    rw [length_writeAt arr (by simp)]
    simp only [jsByteArraySizeMax, List.length_replicate] at hmax ⊢
    omega
  · cases h
    exact ha

theorem emitBytes_spec {a : Arch} {mem : ℕ → Bool} {s s' : EmitState} {bs : List ℕ}
    (h : emitBytes a mem s bs = some s') (hlt : ∀ b ∈ s.byteCode, b < 2 ^ 8)
    (hsize : s.byteCode.length < 2 ^ 28) (hle : s.byteCodeLen ≤ s.byteCode.length)
    (hbs : ∀ b ∈ bs, b < 2 ^ 8) :
    ∃ code, CodeAppended s.byteCode s.byteCodeLen bs code
      ∧ s' = { s with byteCode := code, byteCodeLen := s.byteCodeLen + bs.length } := by
  unfold emitBytes at h
  obtain ⟨arr, harr, h⟩ := Option.bind_eq_some_iff.1 h
  have hr := jsResizeByteArray_resized harr
  have hlen : (writeAt arr s.byteCodeLen bs).length = arr.length := length_writeAt bs hr.le
  refine ⟨writeAt arr s.byteCodeLen bs, ⟨writeAt_lt (hr.lt hlt) hbs, ?_, ?_, ?_, ?_⟩, ?_⟩
  · rw [hlen]
    exact jsResizeByteArray_size harr hsize
  · rw [hlen]
    exact hr.le
  · intro k hk
    rw [getU8_writeAt hr.le, if_neg (by omega), hr.same k (by omega)]
  · intro i hi
    rw [getU8_writeAt hr.le, if_pos (by omega), Nat.add_sub_cancel_left]
  · exact (Option.some.inj h).symm

theorem CodeInv.append {code code' args : List ℕ} {len : ℕ} {ks : List Kept} {k : Kept}
    (h : CodeInv code len ks) (ha : CodeAppended code len (k.op.code :: args) code')
    (hsize : args.length + 1 = k.op.size) (hj : k.label ≠ none → k.op.size = 5) :
    CodeInv code' (len + (k.op.code :: args).length) (ks ++ [k]) := by
  refine ⟨ha.lt, ha.size, ha.le, ?_, ?_, ?_⟩
  · rw [codeLen_append, codeLen_cons, codeLen_nil, Nat.add_zero, ← hsize, h.len_eq]
    rfl
  · refine hasOps_append.2 ⟨h.ops.congr ?_, ?_, trivial⟩
    · intro ks₁ k' ks₂ he
      refine ha.same _ ?_
      rw [h.len_eq, he, codeLen_append, codeLen_cons]
      have := k'.op.size_pos
      omega
    · rw [Nat.zero_add, ← h.len_eq]
      exact ha.new 0 (by simp)
  · intro k' hk'
    rcases List.mem_append.1 hk' with hk' | hk'
    · exact h.jumps k' hk'
    · rw [List.mem_singleton.1 hk']
      exact hj

theorem CodeInv.remove {code : List ℕ} {len : ℕ} {ks : List Kept} {k : Kept}
    (h : CodeInv code len (ks ++ [k])) : CodeInv code (codeLen ks) ks := by
  refine ⟨h.lt, h.size, ?_, rfl, (hasOps_append.1 h.ops).1,
    fun k' hk' => h.jumps k' (List.mem_append_left _ hk')⟩
  have := h.len_le
  rw [h.len_eq, codeLen_append] at this
  omega

/-! ### Labels -/

/-- The word of a label, with the operands of its jumps: as long as the label is not defined they
are linked, the last one first, and then they say how far it is. -/
def LabelOk (code : List ℕ) (w : ℕ) (ps : List ℕ) : Option ℕ → Prop
  | none => IsLinked (nextRef code) (refLink w) ps.reverse ∧ (ps = [] → w = labelOffsetMask)
  | some t => w = t + labelResolvedFlag ∧ ∀ p ∈ ps, getU32 code p = jumpOffset t p

theorem LabelOk.congr {code code' : List ℕ} {w : ℕ} {ps : List ℕ} {o : Option ℕ}
    (h : LabelOk code w ps o) (hb : ∀ p ∈ ps, getU32 code' p = getU32 code p) :
    LabelOk code' w ps o := by
  cases o with
  | none =>
    refine ⟨h.1.congr ?_, h.2⟩
    intro p hp
    unfold nextRef
    rw [hb p (List.mem_reverse.1 hp)]
  | some t => exact ⟨h.1, fun p hp => (hb p hp).trans (h.2 p hp)⟩

/-- A place between two instructions. -/
def IsBoundary (ks : List Kept) (t : ℕ) : Prop := ∃ ks₁ ks₂, ks = ks₁ ++ ks₂ ∧ codeLen ks₁ = t

theorem IsBoundary.append {ks : List Kept} {t : ℕ} (h : IsBoundary ks t) (ks' : List Kept) :
    IsBoundary (ks ++ ks') t := by
  obtain ⟨ks₁, ks₂, rfl, ht⟩ := h
  exact ⟨ks₁, ks₂ ++ ks', by simp, ht⟩

theorem IsBoundary.le {ks : List Kept} {t : ℕ} (h : IsBoundary ks t) : t ≤ codeLen ks := by
  obtain ⟨ks₁, ks₂, rfl, rfl⟩ := h
  simp

structure LabelInv (code : List ℕ) (labels : ℕ → ℕ) (g : Emitted) : Prop where
  ok : ∀ l, LabelOk code (labels l) (refs l 0 g.kept) (g.target l)
  boundary : ∀ l t, g.target l = some t → IsBoundary g.kept t

theorem refs_append_none (l : ℕ) (ks : List Kept) {k : Kept} (h : k.label ≠ some l) :
    refs l 0 (ks ++ [k]) = refs l 0 ks := by
  rw [refs_append, refs, if_neg h, refs, List.append_nil]

theorem refs_append_some {l : ℕ} (ks : List Kept) {k : Kept} (h : k.label = some l) :
    refs l 0 (ks ++ [k]) = refs l 0 ks ++ [codeLen ks + 1] := by
  rw [refs_append, refs, if_pos h, refs, Nat.zero_add]

/-- Operands that are there already stay as they are. -/
theorem getU32_of_appended {code code' bs : List ℕ} {len l p : ℕ} {ks : List Kept}
    (h : CodeInv code len ks) (ha : CodeAppended code len bs code') (hp : p ∈ refs l 0 ks) :
    getU32 code' p = getU32 code p := by
  have hbound := (refs_bound h.jumps hp).2
  rw [Nat.zero_add, ← h.len_eq] at hbound
  exact getU32_congr fun k h1 h2 => ha.same k (by omega)

theorem LabelInv.append {code code' bs : List ℕ} {len : ℕ} {labels : ℕ → ℕ} {g : Emitted} {k : Kept}
    (h : LabelInv code labels g) (hc : CodeInv code len g.kept)
    (ha : CodeAppended code len bs code') (hk : k.label = none) :
    LabelInv code' labels { g with kept := g.kept ++ [k] } := by
  refine ⟨fun l => ?_, fun l t ht => (h.boundary l t ht).append [k]⟩
  simp only [refs_append_none l g.kept (show k.label ≠ some l by simp [hk])]
  exact (h.ok l).congr fun p hp => getU32_of_appended hc ha hp

theorem LabelInv.remove {code : List ℕ} {labels : ℕ → ℕ} {g : Emitted} {ks : List Kept} {k : Kept}
    (h : LabelInv code labels g) (hks : g.kept = ks ++ [k]) (hk : k.label = none)
    (hb : ∀ l t, g.target l = some t → IsBoundary ks t) :
    LabelInv code labels { g with kept := ks } := by
  refine ⟨fun l => ?_, hb⟩
  have := h.ok l
  rwa [hks, refs_append_none l ks (by simp [hk])] at this

/-- The word of a label that is not defined. -/
theorem LabelOk.word_lt {code : List ℕ} {w len : ℕ} {ps : List ℕ} (h : LabelOk code w ps none)
    (hps : ∀ p ∈ ps, p + 4 ≤ len) (hlen : len < 2 ^ 28) :
    w = labelOffsetMask ∨ w < 2 ^ 28 := by
  have hl := h.1
  cases hrev : ps.reverse with
  | nil => exact .inl (h.2 (List.reverse_eq_nil_iff.1 hrev))
  | cons p qs =>
    rw [hrev] at hl
    have hhead := (isLinked_cons.1 hl).1
    unfold refLink at hhead
    split_ifs at hhead with hw
    cases hhead
    have := hps w (List.mem_reverse.1 (by rw [hrev]; exact List.mem_cons_self))
    exact .inr (by omega)

theorem refLink_of_lt {p : ℕ} (h : p < 2 ^ 28) : refLink p = some p := by
  unfold refLink labelOffsetMask
  rw [if_neg (by omega)]

/-- A jump to a label that is not defined becomes the first of the chain. -/
theorem LabelInv.goto_unresolved {code code' : List ℕ} {len l : ℕ} {labels : ℕ → ℕ} {g : Emitted}
    {k : Kept} (h : LabelInv code labels g) (hc : CodeInv code len g.kept) {bs : List ℕ}
    (ha : CodeAppended code len bs code') (hk : k.label = some l) (hl : g.target l = none)
    (hword : getU32 code' (len + 1) = labels l) (hlen : len + 1 < 2 ^ 28) :
    LabelInv code' (Function.update labels l (len + 1)) { g with kept := g.kept ++ [k] } := by
  refine ⟨fun l' => ?_, fun l t ht => (h.boundary l t ht).append [k]⟩
  have hok := (h.ok l').congr fun p hp => getU32_of_appended hc ha hp
  by_cases hne : l' = l
  · subst hne
    simp only [refs_append_some g.kept hk, Function.update_self, hl, ← hc.len_eq] at hok ⊢
    refine ⟨?_, by simp⟩
    rw [List.reverse_append, List.reverse_singleton, List.singleton_append, isLinked_cons]
    refine ⟨refLink_of_lt hlen, ?_⟩
    unfold nextRef at *
    rw [hword]
    exact hok.1
  · have hk' : k.label ≠ some l' := by
      rw [hk]
      exact fun he => hne (Option.some.inj he).symm
    simp only [refs_append_none l' g.kept hk', Function.update_of_ne hne]
    exact hok

/-- A jump to a label that is defined is resolved at once. -/
theorem LabelInv.goto_resolved {code code' : List ℕ} {len l t : ℕ} {labels : ℕ → ℕ} {g : Emitted}
    {k : Kept} (h : LabelInv code labels g) (hc : CodeInv code len g.kept) {bs : List ℕ}
    (ha : CodeAppended code len bs code') (hk : k.label = some l) (hl : g.target l = some t)
    (hword : getU32 code' (len + 1) = jumpOffset t (len + 1)) :
    LabelInv code' labels { g with kept := g.kept ++ [k] } := by
  refine ⟨fun l' => ?_, fun l t ht => (h.boundary l t ht).append [k]⟩
  have hok := (h.ok l').congr fun p hp => getU32_of_appended hc ha hp
  by_cases hne : l' = l
  · subst hne
    simp only [refs_append_some g.kept hk, hl, ← hc.len_eq] at hok ⊢
    refine ⟨hok.1, ?_⟩
    intro p hp
    rcases List.mem_append.1 hp with hp | hp
    · exact hok.2 p hp
    · rw [List.mem_singleton.1 hp]
      exact hword
  · have hk' : k.label ≠ some l' := by
      rw [hk]
      exact fun he => hne (Option.some.inj he).symm
    simp only [refs_append_none l' g.kept hk']
    exact hok

/-- What resolving a label does to the code. -/
theorem resolvedTo_label {code : List ℕ} {len l : ℕ} {labels : ℕ → ℕ} {g : Emitted}
    (h : LabelInv code labels g) (hc : CodeInv code len g.kept) (hl : g.target l = none) :
    ResolvedTo len (refs l 0 g.kept) code
      (resolveLabel len (code.length + 1) (labels l) code) := by
  have hok := h.ok l
  rw [hl] at hok
  have hroom : ∀ p ∈ refs l 0 g.kept, p + 4 ≤ code.length := by
    intro p hp
    have := (refs_bound hc.jumps hp).2
    have hle := hc.len_le
    rw [hc.len_eq] at hle
    omega
  have hpair : (refs l 0 g.kept).Pairwise fun p q => p + 4 ≤ q ∨ q + 4 ≤ p := by
    refine (refs_nodup hc.jumps).imp_of_mem ?_
    intro p q hp hq hne
    rcases refs_disjoint hc.jumps hp hq with ⟨-, he⟩ | h | h
    · exact absurd he hne
    · exact .inl h
    · exact .inr h
  have hlen : (refs l 0 g.kept).length < code.length + 1 := by
    have := refs_length_le l 0 g.kept
    have hle := hc.len_le
    rw [hc.len_eq] at hle
    omega
  have : ResolvedTo len (refs l 0 g.kept).reverse code
      (resolveLabel len (code.length + 1) (labels l) code) :=
    resolveLabel_spec hok.1 (fun p hp => hroom p (List.mem_reverse.1 hp))
      (List.pairwise_reverse.2 (hpair.imp fun h => h.symm)) (by rwa [List.length_reverse])
  exact ⟨this.length_eq, this.lt, fun p hp => this.operand p (List.mem_reverse.2 hp),
    fun k hk => this.same k fun p hp => hk p (List.mem_reverse.1 hp)⟩

theorem CodeInv.resolve {code code' : List ℕ} {pos len l : ℕ} {ks : List Kept} (h : CodeInv code len ks)
    (hr : ResolvedTo pos (refs l 0 ks) code code') : CodeInv code' len ks := by
  refine ⟨hr.lt h.lt, ?_, ?_, h.len_eq, h.ops.congr ?_, h.jumps⟩
  · rw [hr.length_eq]
    exact h.size
  · rw [hr.length_eq]
    exact h.len_le
  · intro ks₁ k ks₂ he
    refine hr.same _ fun p hp => ?_
    -- an opcode does not lie in an operand
    obtain ⟨ms₁, m, ms₂, he', hm, rfl⟩ := mem_refs.1 hp
    have hsize := h.jumps m (by rw [he']; simp) (by simp [hm])
    rw [he] at he'
    rcases split_trichotomy he' with ⟨rfl, rfl⟩ | ⟨r, rfl⟩ | ⟨r, rfl⟩
    · omega
    · simp only [codeLen_append, codeLen_cons]
      omega
    · simp only [codeLen_append, codeLen_cons, hsize]
      omega

theorem LabelInv.resolve {code code' : List ℕ} {len l : ℕ} {labels : ℕ → ℕ} {g : Emitted}
    (h : LabelInv code labels g) (hc : CodeInv code len g.kept)
    (hr : ResolvedTo len (refs l 0 g.kept) code code') :
    LabelInv code' (Function.update labels l (len + labelResolvedFlag))
      { g with target := Function.update g.target l (some (codeLen g.kept)) } := by
  refine ⟨fun l' => ?_, fun l' t ht => ?_⟩
  · by_cases hne : l' = l
    · subst hne
      simp only [Function.update_self, ← hc.len_eq]
      exact ⟨rfl, hr.operand⟩
    · simp only [Function.update_of_ne hne]
      refine (h.ok l').congr fun p hp => getU32_congr fun k h1 h2 => hr.same k fun q hq => ?_
      rcases refs_disjoint hc.jumps hp hq with ⟨he, -⟩ | h | h
      · exact absurd he hne
      · omega
      · omega
  · by_cases hne : l' = l
    · subst hne
      simp only [Function.update_self, Option.some.injEq] at ht
      exact ⟨g.kept, [], by simp, ht⟩
    · simp only [Function.update_of_ne hne] at ht
      exact h.boundary l' t ht

/-! ### Steps -/

section Run

variable {sourceBuf : List ℕ} {a : Arch} {mem : ℕ → Bool} {s s' : EmitState} {g : Emitted}

/-- The last instruction can be taken back. -/
structure LastOk (sourceBuf : List ℕ) (s : EmitState) (g : Emitted) (p : ℕ) (ks : List Kept)
    (k : Kept) : Prop where
  kept_eq : g.kept = ks ++ [k]
  pos_eq : p = codeLen ks
  bitLen_eq : s.lastPc2linePos = deltasLen sourceBuf 0 (ks.map Kept.pos)
  sourcePos_eq : s.lastPc2lineSourcePos = lastPos ks
  boundary : ∀ l t, g.target l = some t → IsBoundary ks t

structure EmitInv (sourceBuf : List ℕ) (s : EmitState) (g : Emitted) : Prop where
  table : TableInv sourceBuf s.pc2line s.pc2lineSourcePos g.kept
  code : CodeInv s.byteCode s.byteCodeLen g.kept
  labels : LabelInv s.byteCode s.labels g
  last : ∀ p, s.lastOpcodePos = some p → ∃ ks k, LastOk sourceBuf s g p ks k
  cpool_le : s.cpool.length ≤ 65536
  hoisted_eq : s.hoistedCodeLen = 6 * s.cpool.countP Option.isSome

theorem emitInv_init (sourceBuf : List ℕ) : EmitInv sourceBuf EmitState.init Emitted.init := by
  refine ⟨⟨by simp [Emitted.init], ⟨by simp [EmitState.init], by simp [EmitState.init]⟩, rfl, trivial,
    rfl⟩, ⟨by simp [EmitState.init], by simp [EmitState.init], le_rfl, rfl, trivial, ?_⟩,
    ⟨fun l => ⟨?_, fun _ => rfl⟩, ?_⟩, ?_, by simp [EmitState.init], rfl⟩
  · simp [JumpSizes, Emitted.init]
  · simp [EmitState.init, Emitted.init, refs, refLink, isLinked_nil]
  · simp [Emitted.init]
  · simp [EmitState.init]

/-- An opcode is emitted: the state has the table with the new position and one more byte. -/
theorem emitOpPos_spec {op : OPCodeEnum} {pos : ℕ} (h : EmitInv sourceBuf s g)
    (he : emitOpPos a mem true sourceBuf s op pos = some s') (hpos : IsSourcePos sourceBuf pos)
    (label : Option ℕ) :
    ∃ code t, CodeAppended s.byteCode s.byteCodeLen [op.code] code
      ∧ TableInv sourceBuf t pos (g.kept ++ [⟨op, pos, label⟩])
      ∧ s' = { s with
          byteCode := code
          byteCodeLen := s.byteCodeLen + 1
          lastOpcodePos := some s.byteCodeLen
          lastPc2linePos := s.pc2line.bitLen
          lastPc2lineSourcePos := s.pc2lineSourcePos
          pc2line := t
          pc2lineSourcePos := pos } := by
  unfold emitOpPos at he
  obtain ⟨t, ht, he⟩ := Option.bind_eq_some_iff.1 he
  have hop : ∀ b ∈ [op.code], b < 2 ^ 8 := by
    intro b hb
    rw [List.mem_singleton.1 hb]
    exact op.code_lt
  obtain ⟨code, hcode, hs⟩ := emitBytes_spec he h.code.lt h.code.size h.code.len_le hop
  have htable : TableInv sourceBuf t pos (g.kept ++ [⟨op, pos, label⟩]) :=
    TableInv.emit (k := ⟨op, pos, label⟩) h.table hpos ht
  exact ⟨code, t, hcode, htable, hs⟩

theorem EmitInv.lastOk (h : EmitInv sourceBuf s g) (k : Kept) {s' : EmitState}
    (h1 : s'.lastPc2linePos = s.pc2line.bitLen)
    (h2 : s'.lastPc2lineSourcePos = s.pc2lineSourcePos) :
    LastOk sourceBuf s' { g with kept := g.kept ++ [k] } s.byteCodeLen g.kept k :=
  ⟨rfl, h.code.len_eq, h1.trans h.table.bitLen_eq, h2.trans h.table.sourcePos_eq, h.labels.boundary⟩

theorem emitInv_op {op : OPCodeEnum} {args : List ℕ} {pos : ℕ} (h : EmitInv sourceBuf s g)
    (hsize : args.length + 1 = op.size) (hargs : ∀ b ∈ args, b < 2 ^ 8)
    (hpos : IsSourcePos sourceBuf pos)
    (he : emitStep a mem true sourceBuf s (.op op args pos) = some s') :
    EmitInv sourceBuf s' { g with kept := g.kept ++ [⟨op, pos, none⟩] } := by
  simp only [emitStep] at he
  obtain ⟨s₁, h₁, h₂⟩ := Option.bind_eq_some_iff.1 he
  obtain ⟨code₁, t, ha₁, ht, rfl⟩ := emitOpPos_spec h h₁ hpos none
  obtain ⟨code₂, ha₂, rfl⟩ := emitBytes_spec h₂ ha₁.lt ha₁.size ha₁.le hargs
  have ha : CodeAppended s.byteCode s.byteCodeLen (op.code :: args) code₂ := ha₁.trans ha₂
  have hlen : s.byteCodeLen + 1 + args.length = s.byteCodeLen + (op.code :: args).length := by
    rw [List.length_cons]
    omega
  refine ⟨ht, ?_, h.labels.append h.code ha rfl, ?_, h.cpool_le, h.hoisted_eq⟩
  · simp only [hlen]
    exact h.code.append ha hsize (by simp)
  · intro p hp
    cases hp
    exact ⟨_, _, h.lastOk _ rfl rfl⟩

theorem emitInv_remove (h : EmitInv sourceBuf s g) (hl : ∀ k ∈ g.kept.getLast?, k.label = none)
    (he : emitStep a mem true sourceBuf s .remove = some s') :
    EmitInv sourceBuf s' { g with kept := g.kept.dropLast } := by
  simp only [emitStep] at he
  obtain ⟨p, hp, rfl⟩ := Option.map_eq_some_iff.1 he
  obtain ⟨ks, k, hk⟩ := h.last p hp
  have hlabel : k.label = none := hl k (by rw [hk.kept_eq]; simp)
  have htable := h.table
  have hcode := h.code
  rw [hk.kept_eq] at htable hcode
  have hdrop : g.kept.dropLast = ks := by
    rw [hk.kept_eq]
    simp
  simp only [hdrop]
  refine ⟨?_, ?_, h.labels.remove hk.kept_eq hlabel hk.boundary, ?_, h.cpool_le, h.hoisted_eq⟩
  · simp only [removeLastOp, hk.bitLen_eq, hk.sourcePos_eq]
    exact htable.remove
  · simp only [removeLastOp, hk.pos_eq]
    exact hcode.remove
  · simp [removeLastOp]

theorem getU32_appended {code code' : List ℕ} {len w b : ℕ}
    (h : CodeAppended code len (b :: u32Bytes w) code') (hw : w < 2 ^ 32) :
    getU32 code' (len + 1) = w := by
  have hlen : (b :: u32Bytes w).length = 5 := rfl
  have hbyte : ∀ i < 4, getU8 code' (len + 1 + i) = getU8 (u32Bytes w) i := by
    intro i hi
    have := h.new (i + 1) (by omega)
    rwa [show len + (i + 1) = len + 1 + i by omega] at this
  have hword := getU32_u32Bytes w
  rw [Nat.mod_eq_of_lt hw] at hword
  rw [← hword]
  unfold getU32 getU16
  have h0 := hbyte 0 (by omega)
  have h1 := hbyte 1 (by omega)
  have h2 := hbyte 2 (by omega)
  have h3 := hbyte 3 (by omega)
  simp only [Nat.add_zero, Nat.add_assoc, Nat.zero_add, Nat.reduceAdd] at h0 h1 h2 h3 ⊢
  rw [h0, h1, h2, h3]

theorem emitInv_goto {op : OPCodeEnum} {l : ℕ} (h : EmitInv sourceBuf s g) (hsize : op.size = 5)
    (he : emitStep a mem true sourceBuf s (.goto op l) = some s') :
    EmitInv sourceBuf s' { g with kept := g.kept ++ [⟨op, lastPos g.kept, some l⟩] } := by
  simp only [emitStep, emitGoto] at he
  obtain ⟨s₁, h₁, h₂⟩ := Option.bind_eq_some_iff.1 he
  rw [h.table.sourcePos_eq] at h₁
  have hpos := isSourcePos_lastPos h.table.isPos
  obtain ⟨code₁, t, ha₁, ht, rfl⟩ := emitOpPos_spec h h₁ hpos (some l)
  simp only at h₂
  have hok := h.labels.ok l
  cases htarget : g.target l with
  | none =>
    rw [htarget] at hok
    have hrefs : ∀ p ∈ refs l 0 g.kept, p + 4 ≤ codeLen g.kept := by
      intro p hp
      have := (refs_bound h.code.jumps hp).2
      omega
    have hle := h.code.len_le
    have hlt := h.code.size
    have hw := hok.word_lt hrefs (by rw [← h.code.len_eq]; omega)
    have hw32 : s.labels l < 2 ^ 32 := by
      unfold labelOffsetMask at hw
      omega
    rw [if_neg (by unfold labelResolvedFlag labelOffsetMask at *; omega)] at h₂
    obtain ⟨s₂, h₂, h₃⟩ := Option.bind_eq_some_iff.1 h₂
    obtain ⟨code₂, ha₂, rfl⟩ := emitBytes_spec h₂ ha₁.lt ha₁.size ha₁.le (u32Bytes_lt _)
    cases h₃
    have ha : CodeAppended s.byteCode s.byteCodeLen (op.code :: u32Bytes (s.labels l)) code₂ :=
      ha₁.trans ha₂
    have hroom := ha.le
    have hsz := ha.size
    have hlen : (op.code :: u32Bytes (s.labels l)).length = 5 := rfl
    have hword : s.byteCodeLen + 1 + (u32Bytes (s.labels l)).length - 4 = s.byteCodeLen + 1 := by
      simp [u32Bytes, u16Bytes]
    have htot : s.byteCodeLen + 1 + (u32Bytes (s.labels l)).length
        = s.byteCodeLen + (op.code :: u32Bytes (s.labels l)).length := by
      rw [List.length_cons]
      omega
    refine ⟨ht, ?_, ?_, ?_, h.cpool_le, h.hoisted_eq⟩
    · simp only [htot]
      exact h.code.append ha (by simp [hsize, u32Bytes, u16Bytes]) fun _ => hsize
    · simp only [hword]
      exact h.labels.goto_unresolved h.code ha rfl htarget (getU32_appended ha hw32) (by omega)
    · intro p hp
      cases hp
      exact ⟨_, _, h.lastOk _ rfl rfl⟩
  | some pos =>
    rw [htarget] at hok
    have hb := (h.labels.boundary l pos htarget).le
    have hle := h.code.len_le
    have hlt := h.code.size
    rw [h.code.len_eq] at hle
    rw [hok.1, if_pos (by unfold labelResolvedFlag; omega),
      show (pos + labelResolvedFlag) % labelResolvedFlag = pos by
        unfold labelResolvedFlag
        omega] at h₂
    obtain ⟨code₂, ha₂, rfl⟩ := emitBytes_spec h₂ ha₁.lt ha₁.size ha₁.le (u32Bytes_lt _)
    have ha : CodeAppended s.byteCode s.byteCodeLen
        (op.code :: u32Bytes (jumpOffset pos (s.byteCodeLen + 1))) code₂ := ha₁.trans ha₂
    have htot : s.byteCodeLen + 1 + (u32Bytes (jumpOffset pos (s.byteCodeLen + 1))).length
        = s.byteCodeLen + (op.code :: u32Bytes (jumpOffset pos (s.byteCodeLen + 1))).length := by
      rw [List.length_cons]
      omega
    refine ⟨ht, ?_, ?_, ?_, h.cpool_le, h.hoisted_eq⟩
    · have := h.code.append (k := ⟨op, lastPos g.kept, some l⟩) ha
        (by simp [hsize, u32Bytes, u16Bytes]) fun _ => hsize
      rwa [← htot] at this
    · exact h.labels.goto_resolved h.code ha rfl htarget (getU32_appended ha (jumpOffset_lt _ _))
    · intro p hp
      cases hp
      exact ⟨_, _, h.lastOk _ rfl rfl⟩

theorem emitInv_label {l : ℕ} (h : EmitInv sourceBuf s g) (hl : g.target l = none) :
    EmitInv sourceBuf (emitLabel s l)
      { g with target := Function.update g.target l (some (codeLen g.kept)) } := by
  have hr := resolvedTo_label h.labels h.code hl
  refine ⟨h.table, h.code.resolve hr, h.labels.resolve h.code hr, ?_, h.cpool_le, h.hoisted_eq⟩
  simp [emitLabel]

theorem emitStep_inv {e : EmitEvent} (h : EmitInv sourceBuf s g) (hl : e.Legal sourceBuf g)
    (he : emitStep a mem true sourceBuf s e = some s') : EmitInv sourceBuf s' (g.step e) := by
  cases e with
  | op o args pos => exact emitInv_op h hl.1 hl.2.1 hl.2.2 he
  | remove => exact emitInv_remove h hl he
  | goto o l => exact emitInv_goto h hl he
  | label l =>
    cases he
    exact emitInv_label h hl
  | const =>
    simp only [emitStep] at he
    split_ifs at he with hc
    cases he
    refine ⟨h.table, h.code, h.labels, ?_, ?_, ?_⟩
    · intro p hp
      obtain ⟨ks, k, hk⟩ := h.last p hp
      exact ⟨ks, k, hk.kept_eq, hk.pos_eq, hk.bitLen_eq, hk.sourcePos_eq, hk.boundary⟩
    · simp only [List.length_append, List.length_singleton]
      omega
    · simp [h.hoisted_eq]
  | hoist idx =>
    simp only [emitStep] at he
    split_ifs at he with hc
    cases he
    refine ⟨h.table, h.code, h.labels, ?_, ?_, ?_⟩
    · intro p hp
      obtain ⟨ks, k, hk⟩ := h.last p hp
      exact ⟨ks, k, hk.kept_eq, hk.pos_eq, hk.bitLen_eq, hk.sourcePos_eq, hk.boundary⟩
    · simp only [List.length_append, List.length_singleton]
      omega
    · simp [h.hoisted_eq]
      omega

theorem emitRun_inv {es : List EmitEvent} (h : EmitInv sourceBuf s g)
    (hl : LegalEmit sourceBuf g es) (he : emitRun a mem true sourceBuf s es = some s') :
    EmitInv sourceBuf s' (g.run es) := by
  induction es generalizing s g with
  | nil =>
    cases he
    exact h
  | cons e es ih =>
    obtain ⟨s₁, h₁, h₂⟩ := Option.bind_eq_some_iff.1 he
    exact ih (emitStep_inv h hl.1 h₁) hl.2 h₂

end Run

end Qjs
