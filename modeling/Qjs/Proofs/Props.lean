import Qjs.Props

/-!
# Property tables: representation and lookup

`SlotsOk` says how the slots lie in the array and `ChainsOk` that each slot in use is on the one
chain of its key. `PropsOk` puts them together with the place of the first free slot. Then a lookup
finds exactly the slots in use (`findOwnProperty_spec`).
-/

namespace Qjs

open Linked

/-! ### Fields -/

theorem hashNext_setHashNext (w n : ℕ) : hashNext (setHashNext w n) = n % 2 ^ 30 := by
  unfold hashNext setHashNext
  omega

theorem propType_setHashNext (w n : ℕ) : propType (setHashNext w n) = propType w := by
  have h : (w / 2 ^ 30 * 2 ^ 30 + n % 2 ^ 30) / 2 ^ 30 = w / 2 ^ 30 := by omega
  unfold propType setHashNext
  rw [h]

theorem hashNext_setPropType (w : ℕ) (t : PropType) : hashNext (setPropType w t) = hashNext w := by
  unfold hashNext setPropType
  cases t <;> simp only [PropType.code] <;> omega

theorem propType_setPropType (w : ℕ) (t : PropType) : propType (setPropType w t) = t := by
  have h : (w / 2 ^ 32 * 2 ^ 32 + t.code * 2 ^ 30 + w % 2 ^ 30) / 2 ^ 30 % 4 = t.code := by
    cases t <;> simp only [PropType.code] <;> omega
  unfold propType setPropType
  rw [h]
  cases t <;> rfl

theorem wordGetInt_shortIntWord {n : ℕ} (h : n < 2 ^ 31) : wordGetInt (shortIntWord n) = n := by
  unfold wordGetInt shortIntWord
  omega

@[simp] theorem ValueArray.size_set (t : ValueArray) (i w : ℕ) : (t.set i w).size = t.size := rfl

theorem ValueArray.arr_set (t : ValueArray) (i w j : ℕ) :
    (t.set i w).arr j = if j = i then w else t.arr j := by
  simp [ValueArray.set, Function.update_apply]

/-! ### The representation -/

/-- The words of slot `i`, the slots starting at `b`. -/
def keyAt (t : ValueArray) (b i : ℕ) : ℕ := t.arr (b + 3 * i)

def valueAt (t : ValueArray) (b i : ℕ) : ℕ := t.arr (b + 3 * i + 1)

def linkAt (t : ValueArray) (b i : ℕ) : ℕ := t.arr (b + 3 * i + 2)

/-- Slot `i` is in use. -/
def Used (t : ValueArray) (b i : ℕ) : Prop := keyAt t b i ≠ uninitializedWord

instance (t : ValueArray) (b : ℕ) : DecidablePred (Used t b) :=
  fun _ => inferInstanceAs (Decidable (_ ≠ _))

structure Entry where
  key : ℕ
  value : ℕ
  type : PropType
  deriving DecidableEq, Repr

def entryAt (t : ValueArray) (b i : ℕ) : Entry := ⟨keyAt t b i, valueAt t b i, propType (linkAt t b i)⟩

/-- The properties in the first `m` slots, in order. -/
def entriesOf (t : ValueArray) (b m : ℕ) : List Entry :=
  ((List.range m).filter fun i => Used t b i).map (entryAt t b)

/-- `n` slots, of which those before `m` have been used. -/
structure SlotsOk (t : ValueArray) (hm n m : ℕ) : Prop where
  mask : t.arr 1 = shortIntWord hm
  size_eq : t.size = 2 + (hm + 1) + 3 * n
  size_le : t.size ≤ jsValueArraySizeMax
  m_le : m ≤ n
  count : t.arr 0 = shortIntWord (entriesOf t (2 + (hm + 1)) m).length
  last_used : ∀ i, m = i + 1 → Used t (2 + (hm + 1)) i
  keys : ∀ i j, i < m → j < m → Used t (2 + (hm + 1)) i →
    keyAt t (2 + (hm + 1)) i = keyAt t (2 + (hm + 1)) j → i = j

/-- `chain h` holds the slots before `m` in use whose key hashes to `h`. -/
structure ChainsOk (a : Arch) (t : ValueArray) (hm m : ℕ) (chain : ℕ → List ℕ) : Prop where
  linked : ∀ h ≤ hm, IsLinked (nextSlot t) (linkOf (t.arr (2 + h))) (chain h)
  head : ∀ h ≤ hm, t.arr (2 + h) % 2 = 0 ∧ t.arr (2 + h) < 2 ^ 30
  even : ∀ i < m, Used t (2 + (hm + 1)) i → hashNext (linkAt t (2 + (hm + 1)) i) % 2 = 0
  mem : ∀ h ≤ hm, ∀ p, p ∈ chain h ↔ ∃ i < m, Used t (2 + (hm + 1)) i ∧ p = 2 + (hm + 1) + 3 * i
    ∧ hashProp a (keyAt t (2 + (hm + 1)) i) &&& hm = h
  nodup : ∀ h ≤ hm, (chain h).Nodup

/-- The last slot, when it is not in use, tells where the first free one is. -/
def FreeOk (t : ValueArray) (hm n m : ℕ) : Prop :=
  m < n → ¬Used t (2 + (hm + 1)) (n - 1)
    ∧ hashNext (linkAt t (2 + (hm + 1)) (n - 1)) = 2 * (2 + (hm + 1) + 3 * m)

structure PropsOk (a : Arch) (t : ValueArray) (hm n m : ℕ) (chain : ℕ → List ℕ) : Prop where
  slots : SlotsOk t hm n m
  chains : ChainsOk a t hm m chain
  free : FreeOk t hm n m

variable {a : Arch} {t t' : ValueArray} {hm n m i : ℕ} {chain : ℕ → List ℕ}

theorem SlotsOk.hashMask_eq (h : SlotsOk t hm n m) : t.hashMask = hm := by
  have h1 := h.size_eq
  have h2 := h.size_le
  unfold jsValueArraySizeMax at h2
  rw [ValueArray.hashMask, h.mask, wordGetInt_shortIntWord (by omega)]

theorem entriesOf_length_le (t : ValueArray) (b m : ℕ) : (entriesOf t b m).length ≤ m := by
  unfold entriesOf
  rw [List.length_map]
  exact (List.length_filter_le _ _).trans_eq List.length_range

theorem SlotsOk.propCount_eq (h : SlotsOk t hm n m) :
    t.propCount = (entriesOf t (2 + (hm + 1)) m).length := by
  have h1 := h.size_eq
  have h2 := h.size_le
  have h3 := h.m_le
  have h4 := entriesOf_length_le t (2 + (hm + 1)) m
  unfold jsValueArraySizeMax at h2
  rw [ValueArray.propCount, h.count, wordGetInt_shortIntWord (by omega)]

theorem entriesOf_succ (t : ValueArray) (b m : ℕ) :
    entriesOf t b (m + 1) = entriesOf t b m ++ if Used t b m then [entryAt t b m] else [] := by
  unfold entriesOf
  rw [List.range_succ, List.filter_append, List.map_append]
  split_ifs with h <;> simp [h]

theorem entriesOf_congr {b b' : ℕ} : ∀ {m : ℕ}, (∀ i < m, entryAt t' b' i = entryAt t b i) →
    entriesOf t' b' m = entriesOf t b m
  | 0, _ => rfl
  | m + 1, h => by
    have hm := h m (Nat.lt_succ_self m)
    have hu : Used t' b' m ↔ Used t b m := by
      unfold Used
      rw [show keyAt t' b' m = keyAt t b m from congrArg Entry.key hm]
    rw [entriesOf_succ, entriesOf_succ, entriesOf_congr fun i hi => h i (Nat.lt_succ_of_lt hi), hm]
    simp only [hu]

theorem mem_entriesOf {b : ℕ} {e : Entry} :
    e ∈ entriesOf t b m ↔ ∃ i < m, Used t b i ∧ e = entryAt t b i := by
  unfold entriesOf
  simp only [List.mem_map, List.mem_filter, List.mem_range, decide_eq_true_eq]
  constructor
  · rintro ⟨i, ⟨hi, hu⟩, rfl⟩
    exact ⟨i, hi, hu, rfl⟩
  · rintro ⟨i, hi, hu, rfl⟩
    exact ⟨i, ⟨hi, hu⟩, rfl⟩

/-- No two properties share a key. -/
theorem SlotsOk.keys_nodup (h : SlotsOk t hm n m) :
    ((entriesOf t (2 + (hm + 1)) m).map Entry.key).Nodup := by
  unfold entriesOf
  rw [List.map_map]
  refine List.Nodup.map_on ?_ (List.nodup_range.filter _)
  intro i hi j hj he
  simp only [List.mem_filter, List.mem_range, decide_eq_true_eq] at hi hj
  exact h.keys i j hi.1 hj.1 hi.2 he

/-! ### Lookup -/

theorem linkOf_shortIntWord {p : ℕ} (h : p ≠ 0) : linkOf (shortIntWord p) = some p := by
  unfold linkOf shortIntWord
  rw [if_neg (by omega)]
  simp

theorem and_mask_le (x hm : ℕ) : x &&& hm ≤ hm := Nat.and_le_right

/-- A chain is no longer than the array. -/
theorem ChainsOk.length_le (hc : ChainsOk a t hm m chain) (hs : SlotsOk t hm n m) {h : ℕ}
    (hh : h ≤ hm) : (chain h).length < t.size + 1 := by
  have hsub : chain h ⊆ List.range t.size := by
    intro p hp
    obtain ⟨i, hi, -, rfl, -⟩ := (hc.mem h hh p).1 hp
    rw [List.mem_range, hs.size_eq]
    have := hs.m_le
    omega
  have := ((hc.nodup h hh).subperm hsub).length_le
  rw [List.length_range] at this
  omega

/-- A lookup finds the slot in use with the key. -/
theorem PropsOk.find_spec (hp : PropsOk a t hm n m chain) (k : ℕ) :
    (∃ i < m, Used t (2 + (hm + 1)) i ∧ keyAt t (2 + (hm + 1)) i = k
        ∧ findOwnProperty a t k = some (2 + (hm + 1) + 3 * i))
      ∨ (findOwnProperty a t k = none
        ∧ ∀ i < m, Used t (2 + (hm + 1)) i → keyAt t (2 + (hm + 1)) i ≠ k) := by
  have hle := and_mask_le (hashProp a k) hm
  have hslot : hashSlot a t k = 2 + (hashProp a k &&& hm) := by
    rw [hashSlot, hp.slots.hashMask_eq]
  have hhead : t.arr (hashSlot a t k) % 2 ^ 32 = t.arr (2 + (hashProp a k &&& hm)) := by
    rw [hslot, Nat.mod_eq_of_lt]
    have := (hp.chains.head _ hle).2
    omega
  unfold findOwnProperty
  rw [hhead]
  rcases search_linked (p := fun pos => t.arr pos == k) (t.size + 1) none (hp.chains.linked _ hle)
    (hp.chains.length_le hp.slots hle) with ⟨hnone, hall⟩ | ⟨l₁, p, l₂, hl, hpk, -, hsome⟩
  · right
    refine ⟨by rw [hnone]; rfl, ?_⟩
    intro i hi hu hk
    have hmem := (hp.chains.mem _ hle _).2 ⟨i, hi, hu, rfl, by rw [hk]⟩
    have := hall _ hmem
    rw [beq_eq_false_iff_ne] at this
    exact this hk
  · left
    have hmem : p ∈ chain (hashProp a k &&& hm) := by simp [hl]
    obtain ⟨i, hi, hu, rfl, -⟩ := (hp.chains.mem _ hle p).1 hmem
    exact ⟨i, hi, hu, eq_of_beq hpk, by rw [hsome]; rfl⟩

/-- The last slot tells whether a slot is free. -/
theorem PropsOk.last_free_iff (hp : PropsOk a t hm n m chain) :
    t.arr (t.size - 3) = uninitializedWord ↔ m < n := by
  have hsize := hp.slots.size_eq
  have hle := hp.slots.m_le
  constructor
  · intro hkey
    by_contra hge
    obtain rfl : n = m := by omega
    rcases n with _ | i
    · -- a table without slots: the word is part of the header
      have hsmall : t.size - 3 = hm := by omega
      rw [hsmall] at hkey
      rcases hm with _ | _ | hm
      · rw [hp.slots.count] at hkey
        unfold shortIntWord uninitializedWord jsTagUninitialized at hkey
        omega
      · rw [hp.slots.mask] at hkey
        unfold shortIntWord uninitializedWord jsTagUninitialized at hkey
        omega
      · have heven := (hp.chains.head hm (by omega)).1
        rw [Nat.add_comm, hkey] at heven
        unfold uninitializedWord jsTagUninitialized at heven
        omega
    · have h1 : t.size - 3 = 2 + (hm + 1) + 3 * i := by omega
      rw [h1] at hkey
      exact hp.slots.last_used i rfl hkey
  · intro hlt
    have h1 : t.size - 3 = 2 + (hm + 1) + 3 * (n - 1) := by omega
    rw [h1]
    exact not_not.1 (hp.free hlt).1

theorem PropsOk.getFirstFree_eq (hp : PropsOk a t hm n m chain) :
    getFirstFree t = 2 + (hm + 1) + 3 * m := by
  have hsize := hp.slots.size_eq
  have hle := hp.slots.m_le
  unfold getFirstFree
  by_cases hlt : m < n
  · have h2 : t.size - 1 = 2 + (hm + 1) + 3 * (n - 1) + 2 := by omega
    have hlink : hashNext (t.arr (t.size - 1)) = 2 * (2 + (hm + 1) + 3 * m) := by
      rw [h2]
      exact (hp.free hlt).2
    rw [if_pos (hp.last_free_iff.2 hlt), hlink]
    omega
  · rw [if_neg (mt hp.last_free_iff.1 hlt), hsize]
    omega

/-! ### Putting a slot on its chain -/

/-- Slot `m` is put in front of the chain of its key. -/
theorem ChainsOk.push (hc : ChainsOk a t hm m chain) (h₀ : ℕ)
    (hsize : 2 + (hm + 1) + 3 * m < 2 ^ 28)
    (hkeys : ∀ i < m, keyAt t' (2 + (hm + 1)) i = keyAt t (2 + (hm + 1)) i)
    (hlinks : ∀ i < m, hashNext (linkAt t' (2 + (hm + 1)) i) = hashNext (linkAt t (2 + (hm + 1)) i))
    (hu : Used t' (2 + (hm + 1)) m)
    (hh₀ : hashProp a (keyAt t' (2 + (hm + 1)) m) &&& hm = h₀)
    (hhead : t'.arr (2 + h₀) = shortIntWord (2 + (hm + 1) + 3 * m))
    (hlink : hashNext (linkAt t' (2 + (hm + 1)) m) = t.arr (2 + h₀))
    (hheads : ∀ h ≤ hm, h ≠ h₀ → t'.arr (2 + h) = t.arr (2 + h)) :
    ChainsOk a t' hm (m + 1)
      (Function.update chain h₀ ((2 + (hm + 1) + 3 * m) :: chain h₀)) := by
  have hh₀le : h₀ ≤ hm := hh₀ ▸ and_mask_le _ hm
  have hused : ∀ i < m, (Used t' (2 + (hm + 1)) i ↔ Used t (2 + (hm + 1)) i) := by
    intro i hi
    unfold Used
    rw [hkeys i hi]
  have hnext : ∀ h ≤ hm, ∀ p ∈ chain h, nextSlot t' p = nextSlot t p := by
    intro h hh p hp
    obtain ⟨i, hi, -, rfl, -⟩ := (hc.mem h hh p).1 hp
    exact congrArg linkOf (hlinks i hi)
  refine ⟨?_, ?_, ?_, ?_, ?_⟩
  · intro h hh
    by_cases he : h = h₀
    · subst he
      rw [Function.update_self, hhead, linkOf_shortIntWord (by omega), isLinked_cons]
      refine ⟨rfl, ?_⟩
      have hn : nextSlot t' (2 + (hm + 1) + 3 * m) = linkOf (t.arr (2 + h)) := congrArg linkOf hlink
      rw [hn]
      exact (hc.linked h hh).congr (hnext h hh)
    · rw [Function.update_of_ne he, hheads h hh he]
      exact (hc.linked h hh).congr (hnext h hh)
  · intro h hh
    by_cases he : h = h₀
    · subst he
      rw [hhead]
      unfold shortIntWord
      omega
    · rw [hheads h hh he]
      exact hc.head h hh
  · intro i hi hui
    rcases Nat.lt_succ_iff_lt_or_eq.1 hi with hi | rfl
    · rw [hlinks i hi]
      exact hc.even i hi ((hused i hi).1 hui)
    · rw [hlink]
      exact (hc.head h₀ hh₀le).1
  · intro h hh p
    have hold : p ∈ chain h ↔ ∃ i < m, Used t' (2 + (hm + 1)) i ∧ p = 2 + (hm + 1) + 3 * i
        ∧ hashProp a (keyAt t' (2 + (hm + 1)) i) &&& hm = h := by
      rw [hc.mem h hh p]
      constructor
      · rintro ⟨i, hi, h1, h2, h3⟩
        exact ⟨i, hi, (hused i hi).2 h1, h2, by rw [hkeys i hi, h3]⟩
      · rintro ⟨i, hi, h1, h2, h3⟩
        exact ⟨i, hi, (hused i hi).1 h1, h2, by rw [← hkeys i hi, h3]⟩
    have hnew : p ∈ Function.update chain h₀ ((2 + (hm + 1) + 3 * m) :: chain h₀) h
        ↔ (h = h₀ ∧ p = 2 + (hm + 1) + 3 * m) ∨ p ∈ chain h := by
      by_cases he : h = h₀
      · subst he
        simp
      · simp [he]
    rw [hnew, hold]
    constructor
    · rintro (⟨rfl, rfl⟩ | ⟨i, hi, h1⟩)
      · exact ⟨m, Nat.lt_succ_self m, hu, rfl, hh₀⟩
      · exact ⟨i, Nat.lt_succ_of_lt hi, h1⟩
    · rintro ⟨i, hi, h1, h2, h3⟩
      rcases Nat.lt_succ_iff_lt_or_eq.1 hi with hi | rfl
      · exact .inr ⟨i, hi, h1, h2, h3⟩
      · exact .inl ⟨h3.symm.trans hh₀, h2⟩
  · intro h hh
    by_cases he : h = h₀
    · subst he
      rw [Function.update_self, List.nodup_cons]
      refine ⟨?_, hc.nodup h hh⟩
      intro hmem
      obtain ⟨i, hi, -, h2, -⟩ := (hc.mem h hh _).1 hmem
      omega
    · rw [Function.update_of_ne he]
      exact hc.nodup h hh

end Qjs
