import Qjs.Proofs.Props

/-!
# Property tables: the operations

One lemma for each function: what it does to the list of properties, and that the table stays well
formed. Hashing again (`jsRehashProps_ok`) is behind growth, compaction and collections.
-/

namespace Qjs

open Linked

variable {a : Arch} {t t' : ValueArray} {hm n m i k : ℕ} {chain : ℕ → List ℕ}

/-! ### Creation in a free slot -/

/-- What `linkProperty` writes. -/
structure LinkedAt (a : Arch) (t t' : ValueArray) (hm m k count : ℕ) : Prop where
  size_eq : t'.size = t.size
  count_eq : t'.arr 0 = shortIntWord (count + 1)
  mask_eq : t'.arr 1 = t.arr 1
  head : t'.arr (2 + (hashProp a k &&& hm)) = shortIntWord (2 + (hm + 1) + 3 * m)
  heads : ∀ h ≤ hm, h ≠ hashProp a k &&& hm → t'.arr (2 + h) = t.arr (2 + h)
  key : t'.arr (2 + (hm + 1) + 3 * m) = k
  value : t'.arr (2 + (hm + 1) + 3 * m + 1) = undefinedWord
  link : t'.arr (2 + (hm + 1) + 3 * m + 2)
    = setHashNext (setPropType (t.arr (2 + (hm + 1) + 3 * m + 2)) .normal)
      (t.arr (2 + (hashProp a k &&& hm)))
  before : ∀ j, 2 + (hm + 1) ≤ j → j < 2 + (hm + 1) + 3 * m → t'.arr j = t.arr j
  last : 2 + (hm + 1) + 3 * m + 3 < t.size →
    t'.arr (t.size - 1) = setHashNext (t.arr (t.size - 1)) (2 * (2 + (hm + 1) + 3 * m + 3))
      ∧ t'.arr (t.size - 3) = t.arr (t.size - 3)

theorem linkProperty_arr (a : Arch) (t : ValueArray) (hm k count : ℕ) {p h : ℕ}
    (hh : 2 + (hashProp a k &&& hm) = h) (hp : h < p) (j : ℕ) :
    (linkProperty a t k p count hm).arr j
      = if j = 0 then shortIntWord (count + 1)
        else if j = h then shortIntWord p
        else if j = p + 2 then setHashNext (setPropType (t.arr (p + 2)) .normal) (t.arr h)
        else if j = p + 1 then undefinedWord
        else if j = p then k
        else if p + 3 < t.size ∧ j = t.size - 1 then
          setHashNext (t.arr (t.size - 1)) (2 * (p + 3))
        else t.arr j := by
  have e1 : h ≠ p + 1 := by omega
  have e2 : h ≠ p := by omega
  have e3 : p + 2 ≠ p + 1 := by omega
  have e4 : p + 2 ≠ p := by omega
  simp only [linkProperty, hh, ValueArray.arr_set, ValueArray.size_set, if_neg e1, if_neg e2,
    if_neg e3, if_neg e4]
  by_cases hlt : p + 3 < t.size
  · have l0 : t.size - 1 ≠ 0 := by omega
    have l1 : t.size - 1 ≠ h := by omega
    have l2 : t.size - 1 ≠ p + 2 := by omega
    have l3 : t.size - 1 ≠ p + 1 := by omega
    have l4 : t.size - 1 ≠ p := by omega
    rw [if_pos hlt]
    simp only [ValueArray.arr_set, if_neg l0, if_neg l1, if_neg l2, if_neg l3, if_neg l4, hlt,
      true_and]
    by_cases hj : j = t.size - 1
    · rw [if_pos hj, if_neg (by omega), if_neg (by omega), if_neg (by omega), if_neg (by omega),
        if_neg (by omega), if_pos hj]
    · rw [if_neg hj, if_neg hj]
  · rw [if_neg hlt]
    simp only [ValueArray.arr_set, hlt, false_and, if_false]

theorem linkProperty_size (a : Arch) (t : ValueArray) (k p count hm : ℕ) :
    (linkProperty a t k p count hm).size = t.size := by
  simp only [linkProperty]
  split_ifs <;> rfl

theorem linkProperty_linkedAt (a : Arch) (k count : ℕ) (hsize : t.size = 2 + (hm + 1) + 3 * n) :
    LinkedAt a t (linkProperty a t k (2 + (hm + 1) + 3 * m) count hm) hm m k count := by
  have hle := and_mask_le (hashProp a k) hm
  have harr := fun j => linkProperty_arr a t hm k count rfl (p := 2 + (hm + 1) + 3 * m) (by omega) j
  refine ⟨linkProperty_size .., ?_, ?_, ?_, ?_, ?_, ?_, ?_, ?_, ?_⟩
  · rw [harr, if_pos rfl]
  · rw [harr, if_neg (by omega), if_neg (by omega), if_neg (by omega), if_neg (by omega),
      if_neg (by omega), if_neg (by omega)]
  · rw [harr, if_neg (by omega), if_pos rfl]
  · intro h' hh' hne
    rw [harr, if_neg (by omega), if_neg (by omega), if_neg (by omega), if_neg (by omega),
      if_neg (by omega), if_neg (by omega)]
  · rw [harr, if_neg (by omega), if_neg (by omega), if_neg (by omega), if_neg (by omega), if_pos rfl]
  · rw [harr, if_neg (by omega), if_neg (by omega), if_neg (by omega), if_pos rfl]
  · rw [harr, if_neg (by omega), if_neg (by omega), if_pos rfl]
  · intro j hj1 hj2
    rw [harr, if_neg (by omega), if_neg (by omega), if_neg (by omega), if_neg (by omega),
      if_neg (by omega), if_neg (by omega)]
  · intro hlt
    constructor
    · rw [harr, if_neg (by omega), if_neg (by omega), if_neg (by omega), if_neg (by omega),
        if_neg (by omega), if_pos ⟨hlt, rfl⟩]
    · rw [harr, if_neg (by omega), if_neg (by omega), if_neg (by omega), if_neg (by omega),
        if_neg (by omega), if_neg (by omega)]

theorem LinkedAt.entryAt_lt {count : ℕ} (hl : LinkedAt a t t' hm m k count) (hi : i < m) :
    entryAt t' (2 + (hm + 1)) i = entryAt t (2 + (hm + 1)) i := by
  unfold entryAt keyAt valueAt linkAt
  rw [hl.before _ (by omega) (by omega), hl.before _ (by omega) (by omega),
    hl.before _ (by omega) (by omega)]

/-- A new property goes to the end of the list. -/
theorem linkProperty_ok (hs : SlotsOk t hm n m) (hc : ChainsOk a t hm m chain) (hmn : m < n)
    (hfree : m + 1 < n → ¬Used t (2 + (hm + 1)) (n - 1)) (hk : k ≠ uninitializedWord)
    (hnew : ∀ i < m, Used t (2 + (hm + 1)) i → keyAt t (2 + (hm + 1)) i ≠ k)
    (hl : LinkedAt a t t' hm m k (entriesOf t (2 + (hm + 1)) m).length) :
    (∃ chain', PropsOk a t' hm n (m + 1) chain')
      ∧ entriesOf t' (2 + (hm + 1)) (m + 1)
        = entriesOf t (2 + (hm + 1)) m ++ [⟨k, undefinedWord, .normal⟩] := by
  have hsize := hs.size_eq
  have hmax := hs.size_le
  unfold jsValueArraySizeMax at hmax
  have hkey : keyAt t' (2 + (hm + 1)) m = k := hl.key
  have hu : Used t' (2 + (hm + 1)) m := by
    unfold Used
    rw [hkey]
    exact hk
  have hkeys : ∀ i < m, keyAt t' (2 + (hm + 1)) i = keyAt t (2 + (hm + 1)) i :=
    fun i hi => congrArg Entry.key (hl.entryAt_lt hi)
  have hhead := hc.head _ (and_mask_le (hashProp a k) hm)
  have hentry : entryAt t' (2 + (hm + 1)) m = ⟨k, undefinedWord, .normal⟩ := by
    unfold entryAt valueAt linkAt
    rw [hkey, hl.value, hl.link, propType_setHashNext, propType_setPropType]
  have hentries : entriesOf t' (2 + (hm + 1)) (m + 1)
      = entriesOf t (2 + (hm + 1)) m ++ [⟨k, undefinedWord, .normal⟩] := by
    rw [entriesOf_succ, if_pos hu, hentry, entriesOf_congr fun i hi => hl.entryAt_lt hi]
  have hused : ∀ i < m, Used t' (2 + (hm + 1)) i → Used t (2 + (hm + 1)) i := by
    intro i hi h
    unfold Used at *
    rwa [← hkeys i hi]
  refine ⟨⟨_, ⟨?_, ?_, ?_, hmn, ?_, ?_, ?_⟩, hc.push (hashProp a k &&& hm) ?_ hkeys ?_ hu ?_
    hl.head ?_ hl.heads, ?_⟩, hentries⟩
  · rw [hl.mask_eq, hs.mask]
  · rw [hl.size_eq, hsize]
  · rw [hl.size_eq]
    exact hs.size_le
  · rw [hl.count_eq, hentries, List.length_append, List.length_singleton]
  · intro i hi
    obtain rfl : m = i := Nat.succ.inj hi
    exact hu
  · -- the new key differs from the others
    intro i j hi hj hui he
    rcases Nat.lt_succ_iff_lt_or_eq.1 hi with hi | rfl <;>
      rcases Nat.lt_succ_iff_lt_or_eq.1 hj with hj | rfl
    · rw [hkeys i hi, hkeys j hj] at he
      exact hs.keys i j hi hj (hused i hi hui) he
    · rw [hkey, hkeys i hi] at he
      exact absurd he (hnew i hi (hused i hi hui))
    · rw [hkey] at he
      have huj : Used t' (2 + (hm + 1)) j := by
        unfold Used
        rw [← he]
        exact hk
      rw [hkeys j hj] at he
      exact absurd he.symm (hnew j hj (hused j hj huj))
    · rfl
  · omega
  · intro i hi
    unfold linkAt
    rw [hl.before _ (by omega) (by omega)]
  · rw [hkey]
  · unfold linkAt
    rw [hl.link, hashNext_setHashNext, Nat.mod_eq_of_lt hhead.2]
  · intro hlt
    obtain ⟨h1, h2⟩ := hl.last (by omega)
    have e1 : 2 + (hm + 1) + 3 * (n - 1) + 2 = t.size - 1 := by omega
    have e2 : 2 + (hm + 1) + 3 * (n - 1) = t.size - 3 := by omega
    have hfree' := hfree hlt
    unfold Used keyAt at hfree' ⊢
    unfold linkAt
    rw [e1, e2, h1, h2, hashNext_setHashNext, Nat.mod_eq_of_lt (by omega)]
    rw [e2] at hfree'
    exact ⟨hfree', by omega⟩

/-! ### Hashing again -/

/-- The same slots; only links of slots before `m` may differ. -/
structure SameSlots (t t' : ValueArray) (hm m : ℕ) : Prop where
  size_eq : t'.size = t.size
  count_eq : t'.arr 0 = t.arr 0
  mask_eq : t'.arr 1 = t.arr 1
  entry : ∀ i, entryAt t' (2 + (hm + 1)) i = entryAt t (2 + (hm + 1)) i
  link : ∀ i, m ≤ i → linkAt t' (2 + (hm + 1)) i = linkAt t (2 + (hm + 1)) i

theorem SameSlots.refl (t : ValueArray) (hm m : ℕ) : SameSlots t t hm m :=
  ⟨rfl, rfl, rfl, fun _ => rfl, fun _ _ => rfl⟩

theorem SameSlots.trans {t'' : ValueArray} (h1 : SameSlots t t' hm m) (h2 : SameSlots t' t'' hm m) :
    SameSlots t t'' hm m :=
  ⟨h2.size_eq.trans h1.size_eq, h2.count_eq.trans h1.count_eq, h2.mask_eq.trans h1.mask_eq,
    fun i => (h2.entry i).trans (h1.entry i), fun i hi => (h2.link i hi).trans (h1.link i hi)⟩

theorem SameSlots.key (h : SameSlots t t' hm m) (i : ℕ) :
    keyAt t' (2 + (hm + 1)) i = keyAt t (2 + (hm + 1)) i := congrArg Entry.key (h.entry i)

theorem SameSlots.used (h : SameSlots t t' hm m) (i : ℕ) :
    Used t' (2 + (hm + 1)) i ↔ Used t (2 + (hm + 1)) i := by
  unfold Used
  rw [h.key i]

theorem SameSlots.entries (h : SameSlots t t' hm m) (k : ℕ) :
    entriesOf t' (2 + (hm + 1)) k = entriesOf t (2 + (hm + 1)) k :=
  entriesOf_congr fun i _ => h.entry i

theorem SameSlots.slotsOk (h : SameSlots t t' hm m) (hs : SlotsOk t hm n m) : SlotsOk t' hm n m := by
  refine ⟨h.mask_eq.trans hs.mask, h.size_eq.trans hs.size_eq, ?_, hs.m_le, ?_, ?_, ?_⟩
  · rw [h.size_eq]
    exact hs.size_le
  · rw [h.count_eq, h.entries]
    exact hs.count
  · intro i hi
    exact (h.used i).2 (hs.last_used i hi)
  · intro i j hi hj hu he
    rw [h.key, h.key] at he
    exact hs.keys i j hi hj ((h.used i).1 hu) he

theorem SameSlots.freeOk (h : SameSlots t t' hm m) (hf : FreeOk t hm n m) : FreeOk t' hm n m := by
  intro hlt
  obtain ⟨h1, h2⟩ := hf hlt
  rw [h.used, h.link _ (by omega)]
  exact ⟨h1, h2⟩

theorem entriesOf_length_mono (t : ValueArray) (b : ℕ) {i m : ℕ} (h : i ≤ m) :
    (entriesOf t b i).length ≤ (entriesOf t b m).length := by
  induction m, h using Nat.le_induction with
  | base => exact le_rfl
  | succ m _ ih =>
    rw [entriesOf_succ, List.length_append]
    omega

/-- When all properties have been seen, the slots that are left are not in use. -/
theorem not_used_of_length {b j : ℕ} (hij : i ≤ j) (hjm : j < m)
    (h : (entriesOf t b m).length ≤ (entriesOf t b i).length) : ¬Used t b j := by
  intro hu
  have h1 := entriesOf_length_mono t b hij
  have h2 := entriesOf_length_mono t b (Nat.succ_le_of_lt hjm)
  rw [Nat.succ_eq_add_one, entriesOf_succ, if_pos hu, List.length_append, List.length_singleton] at h2
  omega

/-- Slots that are not in use are on no chain. -/
theorem ChainsOk.extend (hc : ChainsOk a t hm i chain) (him : i ≤ m)
    (hu : ∀ j, i ≤ j → j < m → ¬Used t (2 + (hm + 1)) j) : ChainsOk a t hm m chain := by
  have hlt : ∀ j < m, Used t (2 + (hm + 1)) j → j < i := by
    intro j hj huj
    by_contra hge
    exact hu j (not_lt.1 hge) hj huj
  refine ⟨hc.linked, hc.head, fun j hj huj => hc.even j (hlt j hj huj) huj, ?_, hc.nodup⟩
  intro h hh p
  rw [hc.mem h hh p]
  constructor
  · rintro ⟨j, hj, h1⟩
    exact ⟨j, hj.trans_le him, h1⟩
  · rintro ⟨j, hj, h1, h2⟩
    exact ⟨j, hlt j hj h1, h1, h2⟩

/-- One slot of the loop. -/
theorem rehash_push (hc : ChainsOk a t hm i chain) (him : i < m)
    (hsize : 2 + (hm + 1) + 3 * m < 2 ^ 28) (hu : Used t (2 + (hm + 1)) i)
    (ht' : t' = (t.set (2 + (hm + 1) + 3 * i + 2) (setHashNext (t.arr (2 + (hm + 1) + 3 * i + 2))
      (t.arr (2 + (hashProp a (t.arr (2 + (hm + 1) + 3 * i)) &&& hm))))).set
        (2 + (hashProp a (t.arr (2 + (hm + 1) + 3 * i)) &&& hm)) (shortIntWord (2 + (hm + 1) + 3 * i))) :
    (∃ chain', ChainsOk a t' hm (i + 1) chain') ∧ SameSlots t t' hm m := by
  have hle := and_mask_le (hashProp a (t.arr (2 + (hm + 1) + 3 * i))) hm
  have hhead := hc.head _ hle
  generalize hh : hashProp a (t.arr (2 + (hm + 1) + 3 * i)) &&& hm = h at *
  have harr : ∀ j, t'.arr j = if j = 2 + h then shortIntWord (2 + (hm + 1) + 3 * i)
      else if j = 2 + (hm + 1) + 3 * i + 2 then
        setHashNext (t.arr (2 + (hm + 1) + 3 * i + 2)) (t.arr (2 + h))
      else t.arr j := by
    intro j
    rw [ht', ValueArray.arr_set, ValueArray.arr_set]
  have hkey : ∀ j, keyAt t' (2 + (hm + 1)) j = keyAt t (2 + (hm + 1)) j := by
    intro j
    unfold keyAt
    rw [harr, if_neg (by omega), if_neg (by omega)]
  have hlink : ∀ j, j ≠ i → linkAt t' (2 + (hm + 1)) j = linkAt t (2 + (hm + 1)) j := by
    intro j hj
    unfold linkAt
    rw [harr, if_neg (by omega), if_neg (by omega)]
  have hlink' : linkAt t' (2 + (hm + 1)) i
      = setHashNext (linkAt t (2 + (hm + 1)) i) (t.arr (2 + h)) := by
    unfold linkAt
    rw [harr, if_neg (by omega), if_pos rfl]
  refine ⟨⟨_, hc.push h (by omega) (fun j _ => hkey j) ?_ ?_ ?_ ?_ ?_ ?_⟩, ?_, ?_, ?_, ?_, ?_⟩
  · intro j hj
    rw [hlink j hj.ne]
  · unfold Used
    rw [hkey]
    exact hu
  · rw [hkey]
    exact hh
  · rw [harr, if_pos rfl]
  · rw [hlink', hashNext_setHashNext, Nat.mod_eq_of_lt hhead.2]
  · intro h' hh' hne
    rw [harr, if_neg (by omega), if_neg (by omega)]
  · rw [ht']
    rfl
  · rw [harr, if_neg (by omega), if_neg (by omega)]
  · rw [harr, if_neg (by omega), if_neg (by omega)]
  · intro j
    have hvalue : valueAt t' (2 + (hm + 1)) j = valueAt t (2 + (hm + 1)) j := by
      unfold valueAt
      rw [harr, if_neg (by omega), if_neg (by omega)]
    have htype : propType (linkAt t' (2 + (hm + 1)) j) = propType (linkAt t (2 + (hm + 1)) j) := by
      by_cases hj : j = i
      · rw [hj, hlink', propType_setHashNext]
      · rw [hlink j hj]
    unfold entryAt
    rw [hkey, hvalue, htype]
  · intro j hj
    exact hlink j (by omega)

/-- The induction is on the slots that are left; `j` counts the slots in use before `i`. -/
theorem rehashLoop_ok (hsize : 2 + (hm + 1) + 3 * m < 2 ^ 28) : ∀ (fuel i : ℕ) {t : ValueArray}
    {chain : ℕ → List ℕ}, ChainsOk a t hm i chain → i ≤ m → m ≤ i + fuel →
    (∃ chain', ChainsOk a (rehashLoop a (entriesOf t (2 + (hm + 1)) m).length hm fuel i
        (entriesOf t (2 + (hm + 1)) i).length t) hm m chain')
      ∧ SameSlots t (rehashLoop a (entriesOf t (2 + (hm + 1)) m).length hm fuel i
        (entriesOf t (2 + (hm + 1)) i).length t) hm m
  | 0, i, t, chain, hc, him, hf => by
    obtain rfl : i = m := by omega
    exact ⟨⟨chain, hc⟩, .refl t hm i⟩
  | fuel + 1, i, t, chain, hc, him, hf => by
    rw [rehashLoop]
    by_cases hj : (entriesOf t (2 + (hm + 1)) i).length < (entriesOf t (2 + (hm + 1)) m).length
    swap
    · rw [if_neg hj]
      exact ⟨⟨chain, hc.extend him fun j h1 h2 => not_used_of_length h1 h2 (not_lt.1 hj)⟩,
        .refl t hm m⟩
    rw [if_pos hj]
    have hlt : i < m := by
      rcases him.lt_or_eq with h | rfl
      · exact h
      · exact absurd hj (lt_irrefl _)
    simp only
    by_cases hu : t.arr (2 + (hm + 1) + 3 * i) ≠ uninitializedWord
    · rw [if_pos hu]
      have hu' : Used t (2 + (hm + 1)) i := hu
      obtain ⟨⟨chain', hc'⟩, hsame⟩ := rehash_push hc hlt hsize hu rfl
      have ih := rehashLoop_ok hsize fuel (i + 1) hc' hlt (by omega)
      rw [hsame.entries, hsame.entries, entriesOf_succ, if_pos hu', List.length_append,
        List.length_singleton] at ih
      exact ⟨ih.1, hsame.trans ih.2⟩
    · rw [if_neg hu]
      have hu' : ¬Used t (2 + (hm + 1)) i := hu
      have hc' : ChainsOk a t hm (i + 1) chain := by
        refine hc.extend (Nat.le_succ i) ?_
        intro j h1 h2
        obtain rfl : j = i := by omega
        exact hu'
      have ih := rehashLoop_ok hsize fuel (i + 1) hc' hlt (by omega)
      rwa [entriesOf_succ, if_neg hu', List.append_nil] at ih

/-- After hashing again each slot in use is on its chain, whatever the chains were before. -/
theorem jsRehashProps_ok (a : Arch) (hs : SlotsOk t hm n m) :
    (∃ chain, ChainsOk a (jsRehashProps a t false) hm m chain)
      ∧ SameSlots t (jsRehashProps a t false) hm m := by
  have hsize := hs.size_eq
  have hmax := hs.size_le
  have hle := hs.m_le
  unfold jsValueArraySizeMax at hmax
  simp only [jsRehashProps, hs.hashMask_eq, hs.propCount_eq, Bool.false_eq_true, and_false, if_false]
  generalize ht₀ : ({ t with
    arr := fun i => if 2 ≤ i ∧ i ≤ 2 + hm then shortIntWord 0 else t.arr i } : ValueArray) = t₀
  have harr : ∀ j, t₀.arr j = if 2 ≤ j ∧ j ≤ 2 + hm then shortIntWord 0 else t.arr j := by
    intro j
    rw [← ht₀]
  have hsame : SameSlots t t₀ hm m := by
    refine ⟨by rw [← ht₀], ?_, ?_, ?_, ?_⟩
    · rw [harr, if_neg (by omega)]
    · rw [harr, if_neg (by omega)]
    · intro i
      unfold entryAt keyAt valueAt linkAt
      rw [harr, if_neg (by omega), harr, if_neg (by omega), harr, if_neg (by omega)]
    · intro i _
      unfold linkAt
      rw [harr, if_neg (by omega)]
  have hc : ChainsOk a t₀ hm 0 fun _ => [] := by
    refine ⟨?_, ?_, by simp, by simp, by simp⟩
    · intro h hh
      rw [harr, if_pos (by omega)]
      trivial
    · intro h hh
      rw [harr, if_pos (by omega)]
      exact ⟨rfl, by norm_num [shortIntWord]⟩
  have hloop := rehashLoop_ok (m := m) (by omega) t.size 0 hc (by omega) (by omega)
  rw [hsame.entries] at hloop
  exact ⟨hloop.1, hsame.trans hloop.2⟩

/-! ### Growth -/

/-- The first `m` slots determine the rest, wherever they lie. -/
theorem SlotsOk.of_entries {hm' n' : ℕ} (hs : SlotsOk t hm n m) (hmask : t'.arr 1 = shortIntWord hm')
    (hsize : t'.size = 2 + (hm' + 1) + 3 * n') (hmax : t'.size ≤ jsValueArraySizeMax) (hle : m ≤ n')
    (hcount : t'.arr 0 = t.arr 0)
    (he : ∀ i < m, entryAt t' (2 + (hm' + 1)) i = entryAt t (2 + (hm + 1)) i) :
    SlotsOk t' hm' n' m := by
  have hkey : ∀ i < m, keyAt t' (2 + (hm' + 1)) i = keyAt t (2 + (hm + 1)) i :=
    fun i hi => congrArg Entry.key (he i hi)
  have hused : ∀ i < m, Used t' (2 + (hm' + 1)) i ↔ Used t (2 + (hm + 1)) i := by
    intro i hi
    unfold Used
    rw [hkey i hi]
  refine ⟨hmask, hsize, hmax, hle, ?_, ?_, ?_⟩
  · rw [hcount, entriesOf_congr he]
    exact hs.count
  · rintro i rfl
    exact (hused i (Nat.lt_succ_self i)).2 (hs.last_used i rfl)
  · intro i j hi hj hu hk
    rw [hkey i hi, hkey j hj] at hk
    exact hs.keys i j hi hj ((hused i hi).1 hu) hk

theorem ChainsOk.congr (hc : ChainsOk a t hm m chain)
    (hkey : ∀ i < m, keyAt t' (2 + (hm + 1)) i = keyAt t (2 + (hm + 1)) i)
    (hlink : ∀ i < m, hashNext (linkAt t' (2 + (hm + 1)) i) = hashNext (linkAt t (2 + (hm + 1)) i))
    (hhead : ∀ h ≤ hm, t'.arr (2 + h) = t.arr (2 + h)) : ChainsOk a t' hm m chain := by
  have hused : ∀ i < m, Used t' (2 + (hm + 1)) i ↔ Used t (2 + (hm + 1)) i := by
    intro i hi
    unfold Used
    rw [hkey i hi]
  refine ⟨?_, ?_, ?_, ?_, hc.nodup⟩
  · intro h hh
    rw [hhead h hh]
    refine (hc.linked h hh).congr ?_
    intro p hp
    obtain ⟨i, hi, -, rfl, -⟩ := (hc.mem h hh p).1 hp
    exact congrArg linkOf (hlink i hi)
  · intro h hh
    rw [hhead h hh]
    exact hc.head h hh
  · intro i hi hu
    rw [hlink i hi]
    exact hc.even i hi ((hused i hi).1 hu)
  · intro h hh p
    rw [hc.mem h hh p]
    constructor
    · rintro ⟨i, hi, h1, h2, h3⟩
      exact ⟨i, hi, (hused i hi).2 h1, h2, by rw [hkey i hi, h3]⟩
    · rintro ⟨i, hi, h1, h2, h3⟩
      exact ⟨i, hi, (hused i hi).1 h1, h2, by rw [← hkey i hi, h3]⟩

/-- The size of the larger array leaves room for whole slots only. -/
theorem resizedSize_aligned (oldSize : ℕ) {newSize base : ℕ} (hb : base ≠ 0) (hle : base ≤ newSize)
    (hmod : (newSize - base) % 3 = 0) :
    ∃ k, resizedSize oldSize newSize base = base + 3 * k ∧ newSize ≤ base + 3 * k := by
  refine ⟨(resizedSize oldSize newSize base - base) / 3, ?_⟩
  simp only [resizedSize]
  split_ifs <;> omega

/-- What `growProps` gives for a full table: room for more slots, and the old ones in place. -/
structure Grown (a : Arch) (t : ValueArray) (hm m : ℕ) (r : ValueArray × ℕ) (nhm n' : ℕ) :
    Prop where
  free : r.2 = 2 + (nhm + 1) + 3 * m
  slots : SlotsOk r.1 nhm n' m
  chains : ∃ chain, ChainsOk a r.1 nhm m chain
  entries : ∀ i < m, entryAt r.1 (2 + (nhm + 1)) i = entryAt t (2 + (hm + 1)) i

theorem growProps_same_mask {newSize n' : ℕ} (hp : PropsOk a t hm m m chain)
    (hn' : newSize = 2 + (hm + 1) + 3 * n') (hmn : m < n') (hmax : newSize ≤ jsValueArraySizeMax) :
    Grown a t hm m (growProps a t newSize hm hm) hm n' := by
  have hs := hp.slots
  have hsize := hs.size_eq
  have harr : ∀ j, j < t.size → (growProps a t newSize hm hm).1.arr j = t.arr j := by
    intro j hj
    simp [growProps, hj]
  have hent : ∀ i < m, entryAt (growProps a t newSize hm hm).1 (2 + (hm + 1)) i
      = entryAt t (2 + (hm + 1)) i := by
    intro i hi
    unfold entryAt keyAt valueAt linkAt
    rw [harr _ (by omega), harr _ (by omega), harr _ (by omega)]
  have hsize' : (growProps a t newSize hm hm).1.size = newSize := by simp [growProps]
  refine ⟨?_, hs.of_entries ?_ ?_ ?_ hmn.le ?_ hent, ⟨chain, hp.chains.congr ?_ ?_ ?_⟩, hent⟩
  · simp [growProps, hsize]
  · rw [harr _ (by omega), hs.mask]
  · rw [hsize', hn']
  · rw [hsize']
    exact hmax
  · exact harr _ (by omega)
  · intro i hi
    exact harr _ (by omega)
  · intro i hi
    exact congrArg hashNext (harr _ (by omega))
  · intro h hh
    exact harr _ (by omega)

/-- With a larger mask the slots move up and the chains are built again. -/
theorem growProps_new_mask {newSize nhm n' : ℕ} (hs : SlotsOk t hm m m) (hlt : hm < nhm)
    (hn' : newSize = 2 + (nhm + 1) + 3 * n') (hmn : m < n') (hmax : newSize ≤ jsValueArraySizeMax) :
    Grown a t hm m (growProps a t newSize hm nhm) nhm n' := by
  have hsize := hs.size_eq
  generalize ht₀ : ((⟨newSize, fun i => if i < t.size then t.arr i else undefinedWord⟩
    : ValueArray).move (2 + (nhm + 1)) (2 + (hm + 1)) (t.size - (2 + hm + 1))).set 1
      (shortIntWord nhm) = t₀
  have hgrow : growProps a t newSize hm nhm = (jsRehashProps a t₀ false, t.size + (nhm - hm)) := by
    rw [← ht₀]
    simp only [growProps]
    rw [if_pos hlt.ne']
  have harr : ∀ j, j ≠ 1 → t₀.arr j
      = if 2 + (nhm + 1) ≤ j ∧ j < 2 + (nhm + 1) + (t.size - (2 + hm + 1)) then
          if j - (2 + (nhm + 1)) + (2 + (hm + 1)) < t.size then
            t.arr (j - (2 + (nhm + 1)) + (2 + (hm + 1)))
          else undefinedWord
        else if j < t.size then t.arr j else undefinedWord := by
    intro j hj
    rw [← ht₀, ValueArray.arr_set, if_neg hj]
    rfl
  have hmoved : ∀ i k, i < m → k < 3 →
      t₀.arr (2 + (nhm + 1) + 3 * i + k) = t.arr (2 + (hm + 1) + 3 * i + k) := by
    intro i k hi hk
    have hidx : 2 + (nhm + 1) + 3 * i + k - (2 + (nhm + 1)) + (2 + (hm + 1))
        = 2 + (hm + 1) + 3 * i + k := by omega
    rw [harr _ (by omega), if_pos (by omega), hidx, if_pos (by omega)]
  have hent : ∀ i < m, entryAt t₀ (2 + (nhm + 1)) i = entryAt t (2 + (hm + 1)) i := by
    intro i hi
    have h0 : t₀.arr (2 + (nhm + 1) + 3 * i) = t.arr (2 + (hm + 1) + 3 * i) := hmoved i 0 hi (by omega)
    unfold entryAt keyAt valueAt linkAt
    rw [h0, hmoved i 1 hi (by omega), hmoved i 2 hi (by omega)]
  have hs₀ : SlotsOk t₀ nhm n' m := by
    refine hs.of_entries ?_ ?_ ?_ hmn.le ?_ hent
    · rw [← ht₀, ValueArray.arr_set, if_pos rfl]
    · rw [← ht₀]
      exact hn'
    · rw [← ht₀]
      exact hmax
    · rw [harr 0 (by omega), if_neg (by omega), if_pos (by omega)]
  obtain ⟨hc₁, hsame⟩ := jsRehashProps_ok a hs₀
  rw [hgrow]
  refine ⟨?_, hsame.slotsOk hs₀, hc₁, ?_⟩
  · simp only
    omega
  · intro i hi
    rw [hsame.entry i, hent i hi]

/-- A full table after `growProps`, its last slot marked as free. -/
theorem growProps_ok {newSize nhm : ℕ} (hp : PropsOk a t hm m m chain)
    (hnhm : nhm = hm ∨ nhm = 2 * (hm + 1) - 1)
    (hnew : newSize = resizedSize t.size (t.size + 3 + (nhm - hm)) (2 + nhm + 1))
    (hmax : newSize ≤ jsValueArraySizeMax)
    (ht' : t' = (growProps a t newSize hm nhm).1.set ((growProps a t newSize hm nhm).1.size - 3)
      uninitializedWord) :
    (growProps a t newSize hm nhm).2 = 2 + (nhm + 1) + 3 * m
      ∧ ∃ n' chain', SlotsOk t' nhm n' m ∧ ChainsOk a t' nhm m chain' ∧ m < n'
        ∧ (m + 1 < n' → ¬Used t' (2 + (nhm + 1)) (n' - 1))
        ∧ entriesOf t' (2 + (nhm + 1)) m = entriesOf t (2 + (hm + 1)) m := by
  have hsize := hp.slots.size_eq
  obtain ⟨n', hn', hroom⟩ := resizedSize_aligned t.size (show 2 + nhm + 1 ≠ 0 by omega)
    (show 2 + nhm + 1 ≤ t.size + 3 + (nhm - hm) by omega) (by omega)
  rw [← hnew] at hn'
  have hmn : m < n' := by omega
  have hgrown : Grown a t hm m (growProps a t newSize hm nhm) nhm n' := by
    rcases hnhm.imp id fun h => show hm < nhm ∨ nhm = hm by omega with rfl | hlt | rfl
    · exact growProps_same_mask hp (by omega) hmn hmax
    · exact growProps_new_mask hp.slots hlt (by omega) hmn hmax
    · exact growProps_same_mask hp (by omega) hmn hmax
  generalize growProps a t newSize hm nhm = r at *
  obtain ⟨t₁, free⟩ := r
  obtain ⟨hfree, hs₁, ⟨chain₁, hc₁⟩, he₁⟩ := hgrown
  simp only at *
  refine ⟨hfree, n', chain₁, ?_⟩
  have hsize₁ : t₁.size - 3 = 2 + (nhm + 1) + 3 * (n' - 1) := by
    rw [hs₁.size_eq]
    omega
  rw [hsize₁] at ht'
  have harr : ∀ j, j ≠ 2 + (nhm + 1) + 3 * (n' - 1) → t'.arr j = t₁.arr j := by
    intro j hj
    rw [ht', ValueArray.arr_set, if_neg hj]
  have hent : ∀ i < m, entryAt t' (2 + (nhm + 1)) i = entryAt t₁ (2 + (nhm + 1)) i := by
    intro i hi
    unfold entryAt keyAt valueAt linkAt
    rw [harr _ (by omega), harr _ (by omega), harr _ (by omega)]
  refine ⟨hs₁.of_entries ?_ ?_ ?_ hmn.le ?_ hent, hc₁.congr ?_ ?_ ?_, hmn, ?_, ?_⟩
  · rw [harr _ (by omega), hs₁.mask]
  · rw [ht', ValueArray.size_set, hs₁.size_eq]
  · rw [ht', ValueArray.size_set]
    exact hs₁.size_le
  · exact harr _ (by omega)
  · intro i hi
    exact harr _ (by omega)
  · intro i hi
    exact congrArg hashNext (harr _ (by omega))
  · intro h hh
    exact harr _ (by omega)
  · intro _
    unfold Used keyAt
    rw [ht', ValueArray.arr_set, if_pos rfl]
    simp
  · refine entriesOf_congr fun i hi => ?_
    rw [hent i hi, he₁ i hi]

/-! ### Compaction -/

theorem entriesOf_isPrefix (t : ValueArray) (b : ℕ) {i m : ℕ} (h : i ≤ m) :
    entriesOf t b i <+: entriesOf t b m := by
  induction m, h using Nat.le_induction with
  | base => exact List.prefix_rfl
  | succ m _ ih =>
    rw [entriesOf_succ]
    exact ih.trans (List.prefix_append _ _)

theorem entriesOf_all_used {b : ℕ} : ∀ {m : ℕ}, (∀ i < m, Used t b i) →
    entriesOf t b m = (List.range m).map (entryAt t b)
  | 0, _ => rfl
  | m + 1, h => by
    rw [entriesOf_succ, if_pos (h m (Nat.lt_succ_self m)), List.range_succ, List.map_append,
      entriesOf_all_used fun i hi => h i (Nat.lt_succ_of_lt hi)]
    rfl

/-- What the loop has done when it reaches slot `i` of `t`: the properties before it lie one after
the other from `b'` on, and what follows is as it was. -/
structure Compacted (t u : ValueArray) (b b' i : ℕ) : Prop where
  size_eq : u.size = t.size
  count_eq : u.arr 0 = t.arr 0
  mask_eq : u.arr 1 = t.arr 1
  done : (List.range (entriesOf t b i).length).map (entryAt u b') = entriesOf t b i
  rest : ∀ x, b + 3 * i ≤ x → u.arr x = t.arr x

theorem Compacted.entry {u : ValueArray} {b b' : ℕ} (hc : Compacted t u b b' i) {j : ℕ}
    (hj : i ≤ j) : entryAt u b j = entryAt t b j := by
  unfold entryAt keyAt valueAt linkAt
  rw [hc.rest _ (by omega), hc.rest _ (by omega), hc.rest _ (by omega)]

theorem Compacted.skip {u : ValueArray} {b b' : ℕ} (hc : Compacted t u b b' i) (hu : ¬Used t b i) :
    Compacted t u b b' (i + 1) := by
  have he : entriesOf t b (i + 1) = entriesOf t b i := by
    rw [entriesOf_succ, if_neg hu, List.append_nil]
  refine ⟨hc.size_eq, hc.count_eq, hc.mask_eq, ?_, fun x hx => hc.rest x (by omega)⟩
  rw [he]
  exact hc.done

/-- One slot moves down; it cannot reach the slots that are still to be read. -/
theorem Compacted.move {u : ValueArray} {b b' : ℕ} (hc : Compacted t u b b' i) (hu : Used t b i)
    (hb : b' ≤ b) (hb' : 3 ≤ b') :
    Compacted t (u.move (b' + 3 * (entriesOf t b i).length) (b + 3 * i) 3) b b' (i + 1) := by
  have hj := entriesOf_length_le t b i
  have he : entriesOf t b (i + 1) = entriesOf t b i ++ [entryAt t b i] := by
    rw [entriesOf_succ, if_pos hu]
  generalize hjd : (entriesOf t b i).length = j at *
  have harr : ∀ x, (u.move (b' + 3 * j) (b + 3 * i) 3).arr x
      = if b' + 3 * j ≤ x ∧ x < b' + 3 * j + 3 then u.arr (x - (b' + 3 * j) + (b + 3 * i))
        else u.arr x := fun _ => rfl
  have hold : ∀ j' < j, entryAt (u.move (b' + 3 * j) (b + 3 * i) 3) b' j' = entryAt u b' j' := by
    intro j' hj'
    unfold entryAt keyAt valueAt linkAt
    rw [harr, if_neg (by omega), harr, if_neg (by omega), harr, if_neg (by omega)]
  have hnew : entryAt (u.move (b' + 3 * j) (b + 3 * i) 3) b' j = entryAt t b i := by
    have hmoved : ∀ k < 3, (u.move (b' + 3 * j) (b + 3 * i) 3).arr (b' + 3 * j + k)
        = u.arr (b + 3 * i + k) := by
      intro k hk
      rw [harr, if_pos (by omega), show b' + 3 * j + k - (b' + 3 * j) + (b + 3 * i) = b + 3 * i + k by
        omega]
    have h0 : (u.move (b' + 3 * j) (b + 3 * i) 3).arr (b' + 3 * j) = u.arr (b + 3 * i) :=
      hmoved 0 (by omega)
    rw [← hc.entry le_rfl]
    unfold entryAt keyAt valueAt linkAt
    rw [h0, hmoved 1 (by omega), hmoved 2 (by omega)]
  refine ⟨hc.size_eq, ?_, ?_, ?_, ?_⟩
  · rw [harr, if_neg (by omega)]
    exact hc.count_eq
  · rw [harr, if_neg (by omega)]
    exact hc.mask_eq
  · rw [he, List.length_append, List.length_singleton, hjd, List.range_succ, List.map_append,
      List.map_singleton, hnew]
    congr 1
    have hdone := hc.done
    rw [hjd] at hdone
    rw [← hdone]
    apply List.map_congr_left
    intro j' hj'
    exact hold j' (List.mem_range.1 hj')
  · intro x hx
    rw [harr, if_neg (by omega)]
    exact hc.rest x (by omega)

theorem compactLoop_ok {nhm : ℕ} (hle : nhm ≤ hm) : ∀ (fuel i : ℕ) {u : ValueArray},
    Compacted t u (2 + (hm + 1)) (2 + (nhm + 1)) i → i ≤ m → m ≤ i + fuel →
    Compacted t (compactLoop (entriesOf t (2 + (hm + 1)) m).length hm nhm fuel i
      (entriesOf t (2 + (hm + 1)) i).length u) (2 + (hm + 1)) (2 + (nhm + 1)) m
  | 0, i, u, hc, him, hf => by
    obtain rfl : i = m := by omega
    exact hc
  | fuel + 1, i, u, hc, him, hf => by
    rw [compactLoop]
    by_cases hj : (entriesOf t (2 + (hm + 1)) i).length < (entriesOf t (2 + (hm + 1)) m).length
    swap
    · -- all properties have been moved
      rw [if_neg hj]
      have he : entriesOf t (2 + (hm + 1)) i = entriesOf t (2 + (hm + 1)) m :=
        (entriesOf_isPrefix t _ him).eq_of_length_le (not_lt.1 hj)
      refine ⟨hc.size_eq, hc.count_eq, hc.mask_eq, ?_, fun x hx => hc.rest x (by omega)⟩
      rw [← he]
      exact hc.done
    rw [if_pos hj]
    have hlt : i < m := by
      rcases him.lt_or_eq with h | rfl
      · exact h
      · exact absurd hj (lt_irrefl _)
    have hsrc : u.arr (2 + (hm + 1) + 3 * i) = keyAt t (2 + (hm + 1)) i := hc.rest _ le_rfl
    simp only [hsrc]
    by_cases hu : keyAt t (2 + (hm + 1)) i ≠ uninitializedWord
    · have hu' : Used t (2 + (hm + 1)) i := hu
      rw [if_pos hu]
      have ih := compactLoop_ok hle fuel (i + 1) (hc.move hu' (by omega) (by omega)) hlt (by omega)
      rwa [entriesOf_succ, if_pos hu', List.length_append, List.length_singleton] at ih
    · have hu' : ¬Used t (2 + (hm + 1)) i := hu
      rw [if_neg hu]
      have ih := compactLoop_ok hle fuel (i + 1) (hc.skip hu') hlt (by omega)
      rwa [entriesOf_succ, if_neg hu', List.append_nil] at ih

theorem emptyProps_ok (a : Arch) : PropsOk a emptyProps 0 0 0 fun _ => [] := by
  refine ⟨⟨rfl, rfl, by norm_num [emptyProps, jsValueArraySizeMax], le_rfl, rfl, ?_, ?_⟩,
    ⟨?_, ?_, by simp, by simp, by simp⟩, ?_⟩
  · intro i hi
    omega
  · intro i j hi
    omega
  · intro h hh
    trivial
  · intro h hh
    exact ⟨rfl, by norm_num [emptyProps, shortIntWord]⟩
  · intro h
    omega

/-- Compaction keeps the list of properties. -/
theorem jsCompactProps_ok (hp : PropsOk a t hm n m chain) :
    ∃ hm' n' m' chain', PropsOk a (jsCompactProps a t).table hm' n' m' chain'
      ∧ entriesOf (jsCompactProps a t).table (2 + (hm' + 1)) m' = entriesOf t (2 + (hm + 1)) m := by
  have hs := hp.slots
  have hsize := hs.size_eq
  have hmax := hs.size_le
  have hcount := entriesOf_length_le t (2 + (hm + 1)) m
  simp only [jsCompactProps, hs.propCount_eq, hs.hashMask_eq]
  by_cases h0 : (entriesOf t (2 + (hm + 1)) m).length = 0
  · rw [if_pos h0]
    refine ⟨0, 0, 0, _, emptyProps_ok a, ?_⟩
    rw [List.eq_nil_of_length_eq_zero h0]
    rfl
  rw [if_neg h0]
  generalize hnhm : min hm (2 ^ getPropHashSizeLog2 (entriesOf t (2 + (hm + 1)) m).length - 1) = nhm
  have hle : nhm ≤ hm := hnhm ▸ min_le_left _ _
  by_cases hbig : 2 + nhm + 1 + 3 * (entriesOf t (2 + (hm + 1)) m).length ≥ t.size
  · rw [if_pos hbig]
    exact ⟨hm, n, m, chain, hp, rfl⟩
  rw [if_neg hbig]
  have hset : ∀ j, (t.set 1 (shortIntWord nhm)).arr j = if j = 1 then shortIntWord nhm else t.arr j :=
    t.arr_set 1 _
  have hsame : entriesOf (t.set 1 (shortIntWord nhm)) (2 + (hm + 1)) m
      = entriesOf t (2 + (hm + 1)) m := by
    refine entriesOf_congr fun i _ => ?_
    unfold entryAt keyAt valueAt linkAt
    rw [hset, if_neg (by omega), hset, if_neg (by omega), hset, if_neg (by omega)]
  have hc₀ : Compacted (t.set 1 (shortIntWord nhm)) (t.set 1 (shortIntWord nhm)) (2 + (hm + 1))
      (2 + (nhm + 1)) 0 := ⟨rfl, rfl, rfl, rfl, fun _ _ => rfl⟩
  have hm_le := hs.m_le
  have hloop := compactLoop_ok (m := m) hle (t.set 1 (shortIntWord nhm)).size 0 hc₀ (by omega)
    (by rw [ValueArray.size_set]; omega)
  have hzero : (entriesOf (t.set 1 (shortIntWord nhm)) (2 + (hm + 1)) 0).length = 0 := rfl
  rw [hsame, hzero] at hloop
  generalize compactLoop _ _ _ _ _ _ _ = u at hloop
  generalize hcd : (entriesOf t (2 + (hm + 1)) m).length = count at *
  have hdone := hloop.done
  rw [hsame, hcd] at hdone
  have hused : ∀ i < count, Used ⟨2 + nhm + 1 + 3 * count, u.arr⟩ (2 + (nhm + 1)) i := by
    intro i hi
    have hmem : entryAt u (2 + (nhm + 1)) i ∈ entriesOf t (2 + (hm + 1)) m := by
      rw [← hdone]
      exact List.mem_map_of_mem (List.mem_range.2 hi)
    obtain ⟨j, -, hj, he⟩ := mem_entriesOf.1 hmem
    unfold Used at *
    rw [← show (entryAt u (2 + (nhm + 1)) i).key = keyAt t (2 + (hm + 1)) j from
      congrArg Entry.key he] at hj
    exact hj
  have hentries : entriesOf ⟨2 + nhm + 1 + 3 * count, u.arr⟩ (2 + (nhm + 1)) count
      = entriesOf t (2 + (hm + 1)) m := by
    rw [entriesOf_all_used hused]
    exact hdone
  have hs' : SlotsOk ⟨2 + nhm + 1 + 3 * count, u.arr⟩ nhm count count := by
    refine ⟨?_, ?_, ?_, le_rfl, ?_, ?_, ?_⟩
    · exact hloop.mask_eq.trans (by rw [hset, if_pos rfl])
    · simp only
      omega
    · simp only
      omega
    · rw [hentries, hcd]
      exact hloop.count_eq.trans (by rw [hset, if_neg (by omega), hs.count, hcd])
    · rintro i rfl
      exact hused i (Nat.lt_succ_self i)
    · intro i j hi hj _ he
      have hnodup := hs.keys_nodup
      rw [← hdone, List.map_map] at hnodup
      exact List.inj_on_of_nodup_map hnodup (List.mem_range.2 hi) (List.mem_range.2 hj) he
  obtain ⟨⟨chain', hc'⟩, hsame'⟩ := jsRehashProps_ok a hs'
  refine ⟨nhm, count, count, chain', ⟨hsame'.slotsOk hs', hc', fun h => absurd h (lt_irrefl _)⟩, ?_⟩
  exact (hsame'.entries count).trans hentries

end Qjs
