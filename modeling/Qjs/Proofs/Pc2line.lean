import Qjs.Emit
import Qjs.Lib.BitStream
import Qjs.Proofs.Bytecode
import Qjs.Proofs.StrBuffer

/-!
# The table of source positions

Writing puts the bits of a number at the end of the stream and keeps what is before, whatever stood
behind the end (`Wrote`). Reading gives the numbers back (`getUgolomb_of_hasGamma`,
`getSgolomb_of_hasGamma`), and so the line and column of a position from those of the position
before (`getPc2line_of_hasDelta`).
-/

namespace Qjs

open BitStream

variable {a : Arch} {mem : ℕ → Bool}

/-! ### Arrays -/

theorem getU8_writeAt {arr bs : List ℕ} {i : ℕ} (h : i + bs.length ≤ arr.length) (k : ℕ) :
    getU8 (writeAt arr i bs) k
      = if i ≤ k ∧ k < i + bs.length then getU8 bs (k - i) else getU8 arr k := by
  have hlen : (arr.take i).length = i := List.length_take_of_le (by omega)
  unfold getU8 writeAt
  rw [List.append_assoc]
  by_cases h1 : k < i
  · rw [List.getD_append _ _ _ _ (by omega), if_neg (by omega), List.getD_eq_getElem?_getD,
      List.getElem?_take_of_lt h1, List.getD_eq_getElem?_getD]
  rw [List.getD_append_right _ _ _ _ (by omega), hlen]
  by_cases h2 : k - i < bs.length
  · rw [List.getD_append _ _ _ _ h2, if_pos (by omega)]
  · rw [List.getD_append_right _ _ _ _ (by omega), if_neg (by omega), List.getD_eq_getElem?_getD,
      List.getElem?_drop, List.getD_eq_getElem?_getD]
    congr 2
    omega

theorem writeAt_lt {arr bs : List ℕ} {i : ℕ} (ha : ∀ b ∈ arr, b < 2 ^ 8) (hb : ∀ b ∈ bs, b < 2 ^ 8) :
    ∀ b ∈ writeAt arr i bs, b < 2 ^ 8 := by
  intro b hmem
  rcases List.mem_append.1 hmem with hmem | hmem
  · rcases List.mem_append.1 hmem with hmem | hmem
    · exact ha b (List.mem_of_mem_take hmem)
    · exact hb b hmem
  · exact ha b (List.mem_of_mem_drop hmem)

/-- An array that was made larger if need be. -/
structure Resized (arr r : List ℕ) (n : ℕ) : Prop where
  le : n ≤ r.length
  mono : arr.length ≤ r.length
  same : ∀ k < arr.length, getU8 r k = getU8 arr k
  lt : (∀ b ∈ arr, b < 2 ^ 8) → ∀ b ∈ r, b < 2 ^ 8

theorem jsResizeByteArray_lt {arr r : List ℕ} {n : ℕ}
    (h : jsResizeByteArray a mem arr n = some r) (ha : ∀ b ∈ arr, b < 2 ^ 8) :
    ∀ b ∈ r, b < 2 ^ 8 := by
  unfold jsResizeByteArray jsAllocByteArray at h
  split_ifs at h
  · cases h
  · cases h
    refine writeAt_lt ?_ ha
    intro b hmem
    rw [List.eq_of_mem_replicate hmem]
    norm_num
  · cases h
  · cases h
    exact ha

theorem jsResizeByteArray_resized {arr r : List ℕ} {n : ℕ}
    (h : jsResizeByteArray a mem arr n = some r) : Resized arr r n := by
  obtain ⟨hle, htake⟩ := jsResizeByteArray_spec h
  have hfull : r.take arr.length = arr := by
    rw [htake _ le_rfl, List.take_length]
  refine ⟨hle, ?_, ?_, jsResizeByteArray_lt h⟩
  · have := congrArg List.length hfull
    rw [List.length_take] at this
    omega
  · intro k hk
    have := congrArg (fun l => getU8 l k) hfull
    simp only [getU8, List.getD_eq_getElem?_getD, List.getElem?_take_of_lt hk] at this
    simp only [getU8, List.getD_eq_getElem?_getD]
    exact this

theorem getU8_lt {arr : List ℕ} (h : ∀ b ∈ arr, b < 2 ^ 8) (k : ℕ) : getU8 arr k < 2 ^ 8 := by
  unfold getU8
  by_cases hk : k < arr.length
  · rw [List.getD_eq_getElem _ _ hk]
    exact h _ (List.getElem_mem hk)
  · rw [List.getD_eq_default _ _ (by omega)]
    norm_num

/-! ### Words in the stream -/

theorem testBit_getBe32 {buf : List ℕ} (h : ∀ b ∈ buf, b < 2 ^ 8) (pos : ℕ) {j : ℕ} (hj : j < 32) :
    (getBe32 buf pos).testBit (31 - j) = bitAt buf (8 * pos + j) := by
  have hlt := getU8_lt h
  rw [getBe32, testBit_bytes4 (hlt _) (hlt _) (hlt _) hj]
  unfold bitAt getU8
  rw [show (8 * pos + j) % 8 = j % 8 by omega]
  congr 1
  split_ifs <;> congr 1 <;> omega

theorem getU8_set {buf : List ℕ} {i v : ℕ} (h : i < buf.length) (k : ℕ) :
    getU8 (buf.set i v) k = if k = i then v else getU8 buf k := by
  unfold getU8
  rw [List.getD_eq_getElem?_getD, List.getD_eq_getElem?_getD]
  by_cases hk : k = i
  · subst hk
    rw [if_pos rfl, List.getElem?_set_self h]
    rfl
  · rw [if_neg hk, List.getElem?_set_ne (Ne.symm hk)]

theorem getU8_putBe32 {buf : List ℕ} {pos : ℕ} (h : pos + 4 ≤ buf.length) (val k : ℕ) :
    getU8 (putBe32 buf pos val) k
      = if pos ≤ k ∧ k < pos + 4 then val / 2 ^ (8 * (pos + 3 - k)) % 2 ^ 8 else getU8 buf k := by
  unfold putBe32
  rw [getU8_set (by simp only [List.length_set]; omega), getU8_set (by simp only [List.length_set]; omega),
    getU8_set (by simp only [List.length_set]; omega), getU8_set (by omega)]
  by_cases h3 : k = pos + 3
  · rw [if_pos h3, if_pos (by omega), show pos + 3 - k = 0 by omega]
    simp
  rw [if_neg h3]
  by_cases h2 : k = pos + 2
  · rw [if_pos h2, if_pos (by omega), show pos + 3 - k = 1 by omega]
  rw [if_neg h2]
  by_cases h1 : k = pos + 1
  · rw [if_pos h1, if_pos (by omega), show pos + 3 - k = 2 by omega]
  rw [if_neg h1]
  by_cases h0 : k = pos
  · rw [if_pos h0, if_pos (by omega), show pos + 3 - k = 3 by omega]
  · rw [if_neg h0, if_neg (by omega)]

theorem bitAt_putBe32 {buf : List ℕ} {pos : ℕ} (h : pos + 4 ≤ buf.length) (val k : ℕ) :
    bitAt (putBe32 buf pos val) k
      = if 8 * pos ≤ k ∧ k < 8 * pos + 32 then val.testBit (31 - (k - 8 * pos)) else bitAt buf k := by
  have hbyte := getU8_putBe32 h val (k / 8)
  unfold bitAt
  unfold getU8 at hbyte
  rw [hbyte]
  by_cases hk : 8 * pos ≤ k ∧ k < 8 * pos + 32
  · rw [if_pos hk, if_pos (by omega), Nat.testBit_mod_two_pow, Nat.testBit_div_two_pow,
      decide_eq_true (by omega), Bool.true_and]
    congr 1
    omega
  · rw [if_neg hk, if_neg (by omega)]

theorem putBe32_lt {buf : List ℕ} (h : ∀ b ∈ buf, b < 2 ^ 8) (pos val : ℕ) :
    ∀ b ∈ putBe32 buf pos val, b < 2 ^ 8 := by
  intro b hb
  rcases List.mem_or_eq_of_mem_set hb with hb | rfl
  · rcases List.mem_or_eq_of_mem_set hb with hb | rfl
    · rcases List.mem_or_eq_of_mem_set hb with hb | rfl
      · rcases List.mem_or_eq_of_mem_set hb with hb | rfl
        · exact h b hb
        · exact Nat.mod_lt _ (by norm_num)
      · exact Nat.mod_lt _ (by norm_num)
    · exact Nat.mod_lt _ (by norm_num)
  · exact Nat.mod_lt _ (by norm_num)

/-! ### Writing -/

structure Pc2lineOk (t : Pc2line) : Prop where
  lt : ∀ b ∈ t.buf, b < 2 ^ 8
  le : t.bitLen ≤ 8 * t.buf.length

/-- The stream has grown by `n` bits, and those before are kept. -/
structure Grew (t t' : Pc2line) (n : ℕ) : Prop where
  ok : Pc2lineOk t'
  bitLen_eq : t'.bitLen = t.bitLen + n
  kept : ∀ k < t.bitLen, bitAt t'.buf k = bitAt t.buf k

theorem Grew.trans {t t' t'' : Pc2line} {n m : ℕ} (h1 : Grew t t' n) (h2 : Grew t' t'' m) :
    Grew t t'' (n + m) := by
  refine ⟨h2.ok, ?_, ?_⟩
  · rw [h2.bitLen_eq, h1.bitLen_eq]
    omega
  · intro k hk
    rw [h2.kept k (by rw [h1.bitLen_eq]; omega), h1.kept k hk]

/-- The word with `n` bits replaced. -/
theorem testBit_replace {val bits n shift : ℕ} (hv : val < 2 ^ 32) (hb : bits < 2 ^ n)
    (hs : shift + n ≤ 32) (t : ℕ) :
    (val &&& (2 ^ 32 - 1 - (2 ^ n - 1) * 2 ^ shift) ||| bits * 2 ^ shift % 2 ^ 32).testBit t
      = if shift ≤ t ∧ t < shift + n then bits.testBit (t - shift) else val.testBit t := by
  have hmask : (2 ^ n - 1) * 2 ^ shift < 2 ^ 32 := by
    calc (2 ^ n - 1) * 2 ^ shift < 2 ^ n * 2 ^ shift :=
          Nat.mul_lt_mul_of_pos_right (by have := Nat.two_pow_pos n; omega) (Nat.two_pow_pos _)
      _ = 2 ^ (n + shift) := (pow_add ..).symm
      _ ≤ 2 ^ 32 := Nat.pow_le_pow_right two_pos (by omega)
  have hnot : 2 ^ 32 - 1 - (2 ^ n - 1) * 2 ^ shift = 2 ^ 32 - ((2 ^ n - 1) * 2 ^ shift + 1) := by omega
  rw [Nat.testBit_or, Nat.testBit_and, hnot, Nat.testBit_two_pow_sub_succ hmask,
    Nat.testBit_mul_two_pow, Nat.testBit_two_pow_sub_one, Nat.testBit_mod_two_pow,
    Nat.testBit_mul_two_pow]
  by_cases h1 : shift ≤ t
  · by_cases h2 : t < shift + n
    · rw [if_pos ⟨h1, h2⟩]
      simp [h1, show t - shift < n by omega, show t < 32 by omega]
    · have hz : bits.testBit (t - shift) = false :=
        Nat.testBit_lt_two_pow (hb.trans_le (Nat.pow_le_pow_right two_pos (by omega)))
      rw [if_neg (by omega)]
      by_cases h32 : t < 32
      · simp [hz, h32, show ¬t - shift < n by omega]
      · have hz' : val.testBit t = false :=
          Nat.testBit_lt_two_pow (hv.trans_le (Nat.pow_le_pow_right two_pos (by omega)))
        simp [hz, hz']
  · rw [if_neg (by omega)]
    simp [h1, show t < 32 by omega]

theorem getBe32_lt {buf : List ℕ} (h : ∀ b ∈ buf, b < 2 ^ 8) (pos : ℕ) : getBe32 buf pos < 2 ^ 32 := by
  have h0 := getU8_lt h pos
  have h1 := getU8_lt h (pos + 1)
  have h2 := getU8_lt h (pos + 2)
  have h3 := getU8_lt h (pos + 3)
  unfold getBe32
  omega

theorem pc2linePutBitsShort_spec {t t' : Pc2line} {n bits : ℕ} (ht : Pc2lineOk t) (h1 : 1 ≤ n)
    (h25 : n ≤ 25) (hb : bits < 2 ^ n) (h : pc2linePutBitsShort a mem t n bits = some t') :
    Grew t t' n ∧ HasBits t'.buf t.bitLen n bits := by
  unfold pc2linePutBitsShort at h
  obtain ⟨buf, hbuf, h⟩ := Option.bind_eq_some_iff.1 h
  cases h
  have hr := jsResizeByteArray_resized hbuf
  have hlt := hr.lt ht.lt
  have hv := getBe32_lt hlt (t.bitLen / 8)
  have hle := ht.le
  have hrep := testBit_replace hv hb (show 32 - t.bitLen % 8 - n + n ≤ 32 by omega)
  have hroom := hr.le
  have hlen : (putBe32 buf (t.bitLen / 8) (getBe32 buf (t.bitLen / 8)
      &&& (2 ^ 32 - 1 - (2 ^ n - 1) * 2 ^ (32 - t.bitLen % 8 - n))
      ||| bits * 2 ^ (32 - t.bitLen % 8 - n) % 2 ^ 32)).length = buf.length := by
    simp [putBe32]
  refine ⟨⟨⟨putBe32_lt hlt _ _, ?_⟩, rfl, ?_⟩, ?_⟩
  · simp only [hlen]
    omega
  · intro k hk
    have hold : bitAt buf k = bitAt t.buf k := by
      have := hr.same (k / 8) (by omega)
      unfold getU8 at this
      unfold bitAt
      rw [this]
    simp only
    rw [bitAt_putBe32 hroom, ← hold]
    by_cases hw : 8 * (t.bitLen / 8) ≤ k ∧ k < 8 * (t.bitLen / 8) + 32
    · rw [if_pos hw, hrep, if_neg (by omega), testBit_getBe32 hlt _ (by omega)]
      congr 1
      omega
    · rw [if_neg hw]
  · intro i hi
    simp only
    rw [bitAt_putBe32 hroom, if_pos (by omega), hrep, if_pos (by omega)]
    congr 1
    omega

theorem pc2linePutBits_spec {t t' : Pc2line} {n bits : ℕ} (ht : Pc2lineOk t) (h1 : 1 ≤ n)
    (h32 : n ≤ 32) (hb : bits < 2 ^ n) (h : pc2linePutBits a mem t n bits = some t') :
    Grew t t' n ∧ HasBits t'.buf t.bitLen n bits := by
  unfold pc2linePutBits at h
  by_cases hn : n > 25
  · rw [if_pos hn] at h
    obtain ⟨t₁, h₁, h₂⟩ := Option.bind_eq_some_iff.1 h
    have hhigh : bits / 2 ^ 25 < 2 ^ (n - 25) := by
      refine Nat.div_lt_of_lt_mul ?_
      rwa [← pow_add, show 25 + (n - 25) = n by omega]
    obtain ⟨g₁, b₁⟩ := pc2linePutBitsShort_spec ht (by omega) (by omega) hhigh h₁
    obtain ⟨g₂, b₂⟩ := pc2linePutBitsShort_spec g₁.ok (by omega) (by omega)
      (Nat.mod_lt _ (by norm_num)) h₂
    have hg := g₁.trans g₂
    rw [show n - 25 + 25 = n by omega] at hg
    refine ⟨hg, ?_⟩
    rw [g₁.bitLen_eq] at b₂
    have hbits := (b₁.congr fun k _ hk => g₂.kept k (by rw [g₁.bitLen_eq]; exact hk)).append b₂
    rwa [show n - 25 + 25 = n by omega] at hbits
  · rw [if_neg hn] at h
    exact pc2linePutBitsShort_spec ht h1 (by omega) hb h

/-- A self-delimiting number is written. -/
theorem putUgolomb_spec {t t' : Pc2line} {v : ℕ} (ht : Pc2lineOk t) (hv : v < 2 ^ 32 - 1)
    (h : putUgolomb a mem t v = some t') :
    Grew t t' (gammaLen (v + 1)) ∧ HasGamma t'.buf t.bitLen (v + 1) := by
  have hsize : 1 ≤ (v + 1).size := Nat.size_pos.2 (Nat.succ_pos v)
  have hsize' : (v + 1).size ≤ 32 := Nat.size_le.2 (by omega)
  unfold putUgolomb at h
  obtain ⟨t₁, h₁, h₂⟩ := Option.bind_eq_some_iff.1 h
  have hzeros : Grew t t₁ ((v + 1).size - 1) ∧ HasBits t₁.buf t.bitLen ((v + 1).size - 1) 0 := by
    by_cases hn : (v + 1).size > 1
    · rw [if_pos hn] at h₁
      exact pc2linePutBits_spec ht (by omega) (by omega) (Nat.two_pow_pos _) h₁
    · rw [if_neg hn] at h₁
      cases h₁
      rw [show (v + 1).size - 1 = 0 by omega]
      exact ⟨⟨ht, rfl, fun _ _ => rfl⟩, fun i hi => absurd hi (Nat.not_lt_zero i)⟩
  obtain ⟨g₁, b₁⟩ := hzeros
  obtain ⟨g₂, b₂⟩ := pc2linePutBits_spec g₁.ok hsize hsize' (Nat.lt_size_self _) h₂
  rw [g₁.bitLen_eq] at b₂
  exact ⟨g₁.trans g₂, b₁.congr fun k _ hk => g₂.kept k (by rw [g₁.bitLen_eq]; exact hk), b₂⟩

/-! ### Reading -/

theorem getBit_eq (buf : List ℕ) (index : ℕ) : getBit buf index = (bitAt buf index).toNat := by
  unfold getBit bitAt getU8
  rw [Nat.testBit_eq_decide_div_mod_eq]
  generalize buf.getD (index / 8) 0 / 2 ^ (7 - index % 8) = b
  rcases Nat.mod_two_eq_zero_or_one b with h | h <;> rw [h] <;> rfl

theorem testBit_getBitsSlow (buf : List ℕ) (index : ℕ) {n : ℕ} (t : ℕ) : ∀ {i : ℕ}, i ≤ n →
    (getBitsSlow buf index n i).testBit t
      = (decide (n - i ≤ t ∧ t < n) && bitAt buf (index + (n - 1 - t)))
  | 0, _ => by
    rw [getBitsSlow, Nat.zero_testBit, decide_eq_false (by omega), Bool.false_and]
  | i + 1, hi => by
    rw [getBitsSlow, Nat.testBit_or, testBit_getBitsSlow buf index t (by omega), getBit_eq,
      Nat.testBit_mul_two_pow]
    by_cases ht : t = n - 1 - i
    · have hbit : (bitAt buf (index + i)).toNat.testBit (t - (n - 1 - i)) = bitAt buf (index + i) := by
        rw [ht, Nat.sub_self]
        cases bitAt buf (index + i) <;> rfl
      rw [hbit, decide_eq_false (by omega), decide_eq_true (by omega), decide_eq_true (by omega),
        show index + (n - 1 - t) = index + i by omega]
      simp
    · by_cases hlt : n - 1 - i ≤ t
      · have hbit : (bitAt buf (index + i)).toNat.testBit (t - (n - 1 - i)) = false := by
          refine Nat.testBit_lt_two_pow ((Bool.toNat_lt _).trans_le ?_)
          exact Nat.pow_le_pow_right two_pos (show 1 ≤ t - (n - 1 - i) by omega)
        rw [hbit, Bool.and_false, Bool.or_false]
        congr 1
        exact decide_eq_decide.2 (by omega)
      · rw [decide_eq_false (show ¬(n - i ≤ t ∧ t < n) by omega), decide_eq_false hlt,
          decide_eq_false (show ¬(n - (i + 1) ≤ t ∧ t < n) by omega)]
        simp

theorem testBit_getBits {buf : List ℕ} (hb : ∀ b ∈ buf, b < 2 ^ 8) (bufLen index n t : ℕ) :
    (getBits buf bufLen index n).testBit t = (decide (t < n) && bitAt buf (index + (n - 1 - t))) := by
  unfold getBits
  simp only
  split_ifs with hslow
  · rw [testBit_getBitsSlow buf index t le_rfl]
    congr 1
    exact decide_eq_decide.2 (by omega)
  · rw [Nat.testBit_mod_two_pow, Nat.testBit_div_two_pow]
    by_cases ht : t < n
    · rw [decide_eq_true ht, Bool.true_and, Bool.true_and]
      have := testBit_getBe32 hb (index / 8) (j := index % 8 + (n - 1 - t)) (by omega)
      rw [show 31 - (index % 8 + (n - 1 - t)) = t + (32 - index % 8 - n) by omega] at this
      rw [this]
      congr 1
      omega
    · rw [decide_eq_false ht, Bool.false_and, Bool.false_and]

theorem getBits_eq {buf : List ℕ} (hb : ∀ b ∈ buf, b < 2 ^ 8) (bufLen : ℕ) {index n v : ℕ}
    (hv : v < 2 ^ n) (h : HasBits buf index n v) : getBits buf bufLen index n = v := by
  refine Nat.eq_of_testBit_eq fun t => ?_
  rw [testBit_getBits hb]
  by_cases ht : t < n
  · rw [decide_eq_true ht, Bool.true_and, h (n - 1 - t) (by omega),
      show n - 1 - (n - 1 - t) = t by omega]
  · rw [decide_eq_false ht, Bool.false_and,
      Nat.testBit_lt_two_pow (hv.trans_le (Nat.pow_le_pow_right two_pos (by omega)))]

theorem golombZeros_eq {buf : List ℕ} {index n : ℕ} : ∀ (fuel i : ℕ), i ≤ n → n < i + fuel →
    (∀ k, i ≤ k → k < n → bitAt buf (index + k) = false) → bitAt buf (index + n) = true →
    golombZeros buf fuel i (index + i) = some (n, index + n + 1)
  | 0, i, h1, h2, _, _ => by omega
  | fuel + 1, i, h1, h2, hz, ho => by
    rw [golombZeros, getBit_eq]
    rcases h1.lt_or_eq with hlt | rfl
    · rw [hz i le_rfl hlt, if_neg (by simp)]
      exact golombZeros_eq fuel (i + 1) hlt (by omega) (fun k hk => hz k (by omega)) ho
    · rw [ho, if_pos Bool.toNat_true]

theorem getUgolomb_of_hasGamma {buf : List ℕ} (hb : ∀ b ∈ buf, b < 2 ^ 8) (bufLen : ℕ) {index v : ℕ}
    (hv : v < 2 ^ 32 - 1) (h : HasGamma buf index (v + 1)) :
    getUgolomb buf bufLen index = (v, index + gammaLen (v + 1)) := by
  have hu : v + 1 ≠ 0 := Nat.succ_ne_zero v
  have hsize : 1 ≤ (v + 1).size := Nat.size_pos.2 (Nat.succ_pos v)
  have hsize' : (v + 1).size ≤ 32 := Nat.size_le.2 (by omega)
  have hzeros := golombZeros_eq 32 0 (Nat.zero_le _) (show (v + 1).size - 1 < 0 + 32 by omega)
    (fun k _ hk => h.zero hk) (h.one hu)
  rw [Nat.add_zero] at hzeros
  have hrest := h.rest hu
  have hor := two_pow_or_mod hu
  have hmod : (v + 1) % 2 ^ ((v + 1).size - 1) < 2 ^ ((v + 1).size - 1) :=
    Nat.mod_lt _ (Nat.two_pow_pos _)
  have hidx : index + ((v + 1).size - 1) + 1 = index + (v + 1).size := by omega
  unfold getUgolomb gammaLen
  rw [hzeros, hidx]
  generalize hn : (v + 1).size - 1 = n at *
  cases n with
  | zero =>
    have hv0 : v + 1 < 2 := by
      have := Nat.lt_size_self (v + 1)
      rwa [show (v + 1).size = 1 by omega, pow_one] at this
    simp only [Prod.mk.injEq]
    omega
  | succ n =>
    simp only [getBits_eq hb bufLen hmod hrest, hor, Prod.mk.injEq]
    omega

/-! ### Signed numbers -/

theorem xor_all_ones {w : ℕ} (h : w < 2 ^ 32) : w ^^^ (2 ^ 32 - 1) = 2 ^ 32 - (w + 1) := by
  refine Nat.eq_of_testBit_eq fun t => ?_
  rw [Nat.testBit_xor, Nat.testBit_two_pow_sub_one, Nat.testBit_two_pow_sub_succ h]
  by_cases ht : t < 32
  · simp [ht]
  · rw [Nat.testBit_lt_two_pow (h.trans_le (Nat.pow_le_pow_right two_pos (by omega)))]
    simp [ht]

/-- The numbers go 0, -1, 1, -2, and so on. -/
theorem zigzag_eq {v : ℤ} (h1 : -2 ^ 31 < v) (h2 : v < 2 ^ 31) :
    zigzag v = (if 0 ≤ v then 2 * v else -2 * v - 1).toNat := by
  unfold zigzag
  by_cases hv : 0 ≤ v
  · have hu : (v % 2 ^ 32).toNat = v.toNat := by omega
    simp only [hu, if_pos hv]
    rw [if_neg (by omega), Nat.xor_zero]
    omega
  · have hu : (v % 2 ^ 32).toNat = (v + 2 ^ 32).toNat := by omega
    simp only [hu, if_neg hv]
    rw [if_pos (by omega), xor_all_ones (Nat.mod_lt _ (by norm_num))]
    omega

theorem zigzag_lt {v : ℤ} (h1 : -2 ^ 31 < v) (h2 : v < 2 ^ 31) : zigzag v < 2 ^ 32 - 1 := by
  rw [zigzag_eq h1 h2]
  split_ifs <;> omega

theorem unzigzag_zigzag {v : ℤ} (h1 : -2 ^ 31 < v) (h2 : v < 2 ^ 31) : unzigzag (zigzag v) = v := by
  rw [zigzag_eq h1 h2]
  unfold unzigzag
  by_cases hv : 0 ≤ v
  · have heven : (2 * v).toNat % 2 ≠ 1 := by omega
    simp only [if_pos hv, if_neg heven, Nat.xor_zero]
    rw [if_pos (by omega)]
    omega
  · have hodd : (-2 * v - 1).toNat % 2 = 1 := by omega
    have hhalf : (-2 * v - 1).toNat / 2 < 2 ^ 32 := by omega
    simp only [if_neg hv, if_pos hodd, xor_all_ones hhalf]
    rw [if_neg (by omega)]
    omega

theorem getSgolomb_of_hasGamma {buf : List ℕ} (hb : ∀ b ∈ buf, b < 2 ^ 8) (bufLen : ℕ) {index : ℕ}
    {v : ℤ} (h1 : -2 ^ 31 < v) (h2 : v < 2 ^ 31) (h : HasGamma buf index (zigzag v + 1)) :
    getSgolomb buf bufLen index = (v, index + gammaLen (zigzag v + 1)) := by
  unfold getSgolomb
  rw [getUgolomb_of_hasGamma hb bufLen (zigzag_lt h1 h2) h]
  simp only [unzigzag_zigzag h1 h2]

/-! ### Lines and columns -/

theorem getLineColFrom_eq (line col : ℕ) (buf : List ℕ) :
    getLineColFrom line col buf
      = (line + (getLineCol buf).1,
        if (getLineCol buf).1 = 0 then col + (getLineCol buf).2 else (getLineCol buf).2) := by
  unfold getLineCol
  induction buf generalizing line col with
  | nil => simp [getLineColFrom]
  | cons c buf ih =>
    by_cases hc : c = 0x0a
    · have hcons : ∀ l k, getLineColFrom l k (c :: buf) = getLineColFrom (l + 1) 0 buf :=
        fun l k => by rw [getLineColFrom, if_pos hc]
      rw [hcons, hcons, ih (line + 1) 0, ih (0 + 1) 0]
      simp only [Prod.mk.injEq, Nat.zero_add, ite_self]
      exact ⟨by omega, by rw [if_neg (by omega)]⟩
    by_cases hs : startsChar c
    · have hcons : ∀ l k, getLineColFrom l k (c :: buf) = getLineColFrom l (k + 1) buf :=
        fun l k => by rw [getLineColFrom, if_neg hc, if_pos hs]
      rw [hcons, hcons, ih line (col + 1), ih 0 (0 + 1)]
      simp only [Prod.mk.injEq, Nat.zero_add, true_and]
      split_ifs <;> omega
    · have hcons : ∀ l k, getLineColFrom l k (c :: buf) = getLineColFrom l k buf :=
        fun l k => by rw [getLineColFrom, if_neg hc, if_neg hs]
      rw [hcons, hcons, ih line col]

theorem getLineCol_append (buf buf' : List ℕ) :
    getLineCol (buf ++ buf')
      = getLineColFrom (getLineCol buf).1 (getLineCol buf).2 buf' := by
  have key : ∀ line col, getLineColFrom line col (buf ++ buf')
      = getLineColFrom (getLineColFrom line col buf).1 (getLineColFrom line col buf).2 buf' := by
    induction buf with
    | nil => exact fun _ _ => rfl
    | cons c buf ih =>
      intro line col
      simp only [List.cons_append, getLineColFrom]
      split_ifs <;> exact ih _ _
  exact key 0 0

theorem getLineCol_le (buf : List ℕ) : (getLineCol buf).1 + (getLineCol buf).2 ≤ buf.length := by
  induction buf using List.reverseRecOn with
  | nil => rfl
  | append_singleton buf c ih =>
    rw [getLineCol_append, List.length_append, List.length_singleton]
    simp only [getLineColFrom]
    split_ifs <;> simp only <;> omega

/-- The line of a position, from one. -/
def lineOf (buf : List ℕ) (pos : ℕ) : ℕ := (buf.take pos).count 0x0a + 1

/-- The column of a position, from one: the characters since the last end of line. -/
def columnOf (buf : List ℕ) (pos : ℕ) : ℕ :=
  ((buf.take pos).reverse.takeWhile (· ≠ 0x0a)).countP startsChar + 1

theorem getLineCol_eq (buf : List ℕ) :
    getLineCol buf
      = (buf.count 0x0a, (buf.reverse.takeWhile (· ≠ 0x0a)).countP startsChar) := by
  induction buf using List.reverseRecOn with
  | nil => rfl
  | append_singleton buf c ih =>
    rw [getLineCol_append, ih, List.reverse_append, List.count_append]
    simp only [getLineColFrom, List.reverse_singleton, List.singleton_append]
    by_cases hc : c = 0x0a
    · subst hc
      simp
    · rw [if_neg hc, List.takeWhile_cons_of_pos (by simpa using hc), List.countP_cons]
      by_cases hs : startsChar c
      · simp [hs, hc]
      · simp [hs, hc]

theorem lineOf_eq (buf : List ℕ) (pos : ℕ) : lineOf buf pos = (getLineCol (buf.take pos)).1 + 1 := by
  rw [getLineCol_eq]
  rfl

theorem columnOf_eq (buf : List ℕ) (pos : ℕ) :
    columnOf buf pos = (getLineCol (buf.take pos)).2 + 1 := by
  rw [getLineCol_eq]
  rfl

/-- Going back finds the column. -/
theorem columnBack_eq {buf : List ℕ} : ∀ {pos : ℕ}, pos ≤ buf.length →
    columnBack buf pos = (getLineCol (buf.take pos)).2
  | 0, _ => rfl
  | i + 1, h => by
    have hget : getU8 buf i = buf[i] := List.getD_eq_getElem _ _ h
    rw [List.take_succ_eq_append_getElem h, getLineCol_append, columnBack]
    simp only [getLineColFrom, hget, columnBack_eq (show i ≤ buf.length by omega)]
    split_ifs <;> rfl

/-- The position after a stretch of text, from that before it. -/
theorem getLineCol_stretch (buf : List ℕ) {pos1 pos2 : ℕ} (h : pos1 ≤ pos2) :
    getLineCol (buf.take pos2)
      = getLineColFrom (getLineCol (buf.take pos1)).1 (getLineCol (buf.take pos1)).2
        ((buf.drop pos1).take (pos2 - pos1)) := by
  rw [← getLineCol_append]
  congr 1
  conv_lhs => rw [show pos2 = pos1 + (pos2 - pos1) by omega, List.take_add]

/-- The line and column from those of the position before. -/
theorem getLineColDelta_spec {buf : List ℕ} (pos1 : ℕ) {pos2 : ℕ} (h2 : pos2 ≤ buf.length) :
    (lineOf buf pos2 : ℤ) = lineOf buf pos1 + (getLineColDelta buf pos1 pos2).1
      ∧ (columnOf buf pos2 : ℤ)
        = if (getLineColDelta buf pos1 pos2).1 = 0
          then columnOf buf pos1 + (getLineColDelta buf pos1 pos2).2
          else (getLineColDelta buf pos1 pos2).2 + 1 := by
  simp only [lineOf_eq, columnOf_eq, getLineColDelta]
  by_cases hle : pos2 ≥ pos1
  · have hs := getLineCol_stretch buf hle
    rw [getLineColFrom_eq] at hs
    simp only [if_pos hle, hs]
    refine ⟨by push_cast; ring, ?_⟩
    by_cases hz : (getLineCol ((buf.drop pos1).take (pos2 - pos1))).1 = 0
    · rw [if_pos hz, if_pos (by exact_mod_cast hz)]
      push_cast
      ring
    · rw [if_neg hz, if_neg (by exact_mod_cast hz)]
      push_cast
      ring
  · have hs := getLineCol_stretch buf (show pos2 ≤ pos1 by omega)
    rw [getLineColFrom_eq] at hs
    by_cases hz : (getLineCol ((buf.drop pos2).take (pos1 - pos2))).1 = 0
    · simp only [if_neg hle, hs, hz]
      refine ⟨by simp, ?_⟩
      simp only [Nat.cast_zero, neg_zero, ne_eq, not_true_eq_false, if_false, if_true]
      push_cast
      ring
    · simp only [if_neg hle, hs, if_neg hz]
      rw [if_pos (by simpa using hz)]
      simp only [columnBack_eq h2]
      refine ⟨by push_cast; ring, ?_⟩
      rw [if_neg (by simpa using hz)]
      push_cast
      ring

/-- The differences are in the range of what can be written. -/
theorem getLineColDelta_lt {buf : List ℕ} {pos1 pos2 : ℕ} (h1 : pos1 < 2 ^ 31) (h2 : pos2 < 2 ^ 31)
    (hlen : pos2 ≤ buf.length) :
    (-2 ^ 31 < (getLineColDelta buf pos1 pos2).1 ∧ (getLineColDelta buf pos1 pos2).1 < 2 ^ 31)
      ∧ (-2 ^ 31 < (getLineColDelta buf pos1 pos2).2 ∧ (getLineColDelta buf pos1 pos2).2 < 2 ^ 31)
      ∧ ((getLineColDelta buf pos1 pos2).1 ≠ 0 → 0 ≤ (getLineColDelta buf pos1 pos2).2) := by
  unfold getLineColDelta
  by_cases hle : pos2 ≥ pos1
  · have hb := getLineCol_le ((buf.drop pos1).take (pos2 - pos1))
    have hlen := List.length_take_le (pos2 - pos1) (buf.drop pos1)
    simp only [if_pos hle]
    omega
  · have hb := getLineCol_le ((buf.drop pos2).take (pos1 - pos2))
    have hlen' := List.length_take_le (pos1 - pos2) (buf.drop pos2)
    have hc := getLineCol_le (buf.take pos2)
    have hlen'' := List.length_take_le pos2 buf
    simp only [if_neg hle, columnBack_eq hlen]
    split_ifs <;> simp only <;> omega

/-! ### Differences in the table -/

/-- The number that stands for the column. -/
def columnCode (d : ℤ × ℤ) : ℕ := if d.1 = 0 then zigzag d.2 else (d.2 % 2 ^ 32).toNat

def deltaLen (d : ℤ × ℤ) : ℕ := gammaLen (zigzag d.1 + 1) + gammaLen (columnCode d + 1)

/-- The bits from `index` on say the difference `d`. -/
def HasDelta (buf : List ℕ) (index : ℕ) (d : ℤ × ℤ) : Prop :=
  HasGamma buf index (zigzag d.1 + 1)
    ∧ HasGamma buf (index + gammaLen (zigzag d.1 + 1)) (columnCode d + 1)

theorem HasDelta.congr {buf buf' : List ℕ} {index : ℕ} {d : ℤ × ℤ} (h : HasDelta buf index d)
    (hb : ∀ k, index ≤ k → k < index + deltaLen d → bitAt buf' k = bitAt buf k) :
    HasDelta buf' index d := by
  unfold deltaLen at hb
  exact ⟨h.1.congr fun k h1 h2 => hb k h1 (by omega),
    h.2.congr fun k h1 h2 => hb k (by omega) (by omega)⟩

variable {sourceBuf : List ℕ}

theorem columnCode_lt {pos1 pos2 : ℕ} (h1 : pos1 < 2 ^ 31) (h2 : pos2 < 2 ^ 31)
    (hlen : pos2 ≤ sourceBuf.length) :
    columnCode (getLineColDelta sourceBuf pos1 pos2) < 2 ^ 32 - 1 := by
  obtain ⟨-, ⟨hc1, hc2⟩, hpos⟩ := getLineColDelta_lt h1 h2 hlen
  unfold columnCode
  split_ifs with hz
  · exact zigzag_lt hc1 hc2
  · have := hpos hz
    omega

theorem emitPc2line_spec {t t' : Pc2line} {pos1 pos2 : ℕ} (ht : Pc2lineOk t) (h1 : pos1 < 2 ^ 31)
    (h2 : pos2 < 2 ^ 31) (hlen : pos2 ≤ sourceBuf.length)
    (h : emitPc2line a mem true sourceBuf t pos1 pos2 = some t') :
    Grew t t' (deltaLen (getLineColDelta sourceBuf pos1 pos2))
      ∧ HasDelta t'.buf t.bitLen (getLineColDelta sourceBuf pos1 pos2) := by
  have hcode := columnCode_lt h1 h2 hlen
  obtain ⟨⟨hl1, hl2⟩, -, -⟩ := getLineColDelta_lt h1 h2 hlen
  unfold emitPc2line at h
  generalize getLineColDelta sourceBuf pos1 pos2 = d at *
  obtain ⟨t₁, h₁, h₂⟩ := Option.bind_eq_some_iff.1 h
  obtain ⟨g₁, b₁⟩ := putUgolomb_spec ht (zigzag_lt hl1 hl2) h₁
  have hcol : putUgolomb a mem t₁ (columnCode d) = some t' := by
    rw [if_pos rfl] at h₂
    unfold columnCode
    split_ifs at h₂ ⊢ <;> exact h₂
  obtain ⟨g₂, b₂⟩ := putUgolomb_spec g₁.ok hcode hcol
  rw [g₁.bitLen_eq] at b₂
  exact ⟨g₁.trans g₂, b₁.congr fun k _ hk => g₂.kept k (by rw [g₁.bitLen_eq]; exact hk), b₂⟩

/-- Reading a difference takes the line and column of one position to those of the other. -/
theorem getPc2line_of_hasDelta {buf : List ℕ} (hb : ∀ b ∈ buf, b < 2 ^ 8) (bufLen : ℕ)
    {index pos1 pos2 : ℕ} (h1 : pos1 < 2 ^ 31) (h2 : pos2 < 2 ^ 31) (hlen : pos2 ≤ sourceBuf.length)
    (h : HasDelta buf index (getLineColDelta sourceBuf pos1 pos2)) :
    getPc2line true buf bufLen (lineOf sourceBuf pos1) (columnOf sourceBuf pos1) index
      = ((lineOf sourceBuf pos2 : ℤ), (columnOf sourceBuf pos2 : ℤ),
        index + deltaLen (getLineColDelta sourceBuf pos1 pos2)) := by
  have hcode := columnCode_lt h1 h2 hlen
  obtain ⟨⟨hl1, hl2⟩, ⟨hc1, hc2⟩, hpos⟩ := getLineColDelta_lt h1 h2 hlen
  obtain ⟨hline, hcol⟩ := getLineColDelta_spec pos1 hlen
  rw [hline, hcol]
  generalize getLineColDelta sourceBuf pos1 pos2 = d at *
  unfold getPc2line deltaLen
  rw [getSgolomb_of_hasGamma hb bufLen hl1 hl2 h.1]
  have hb2 := h.2
  unfold columnCode at hcode hb2 ⊢
  by_cases hz : d.1 = 0
  · simp only [if_pos hz, if_true] at hcode hb2 ⊢
    rw [getSgolomb_of_hasGamma hb bufLen hc1 hc2 hb2, Nat.add_assoc]
  · simp only [if_neg hz, if_true] at hcode hb2 ⊢
    rw [getUgolomb_of_hasGamma hb bufLen hcode hb2, Nat.add_assoc]
    have := hpos hz
    simp only [Prod.mk.injEq, true_and, and_true]
    omega

end Qjs
