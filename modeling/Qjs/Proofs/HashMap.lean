import Qjs.HashMap
import Qjs.Lib.ProbeRank

/-!
# The table of the hash map

The rank of a slot is one more than the psl of its entry, and 0 without one. Displacement and backward
shift keep it gentle along the ring (`Core`), and the entries are moved but not lost: `insertLoop_absent`,
`insertLoop_present` and `shiftBack_spec` give the entries after each loop, `find_present` and
`find_absent` where a probe ends.
-/

namespace Qjs

namespace HashMap

open ProbeRank

variable {K V : Type}

/-! ### Slots and entries -/

/-- What the slots have, in their order. -/
def pairs (m : HashMap K V) : List (K × V) :=
  m.entries.filterMap fun entry => entry.map fun e => (e.key, e.value)

/-- The pairs without their order. -/
def bag (m : HashMap K V) : Multiset (K × V) := m.pairs

/-- One more than the psl; 0 for a slot without an entry. -/
def entryRank : Option (HashMapEntry K V) → ℕ
  | none => 0
  | some e => e.psl + 1

def rank (m : HashMap K V) (index : ℕ) : ℕ := entryRank (m.slot index)

@[simp]
theorem put_capacity (m : HashMap K V) (i : ℕ) (x : Option (HashMapEntry K V)) :
    (m.put i x).capacity = m.capacity := by
  simp [put, capacity]

@[simp]
theorem put_size (m : HashMap K V) (i : ℕ) (x : Option (HashMapEntry K V)) :
    (m.put i x).size = m.size := rfl

theorem slot_put_self (m : HashMap K V) {i : ℕ} (hi : i < m.capacity)
    (x : Option (HashMapEntry K V)) : (m.put i x).slot i = x := by
  simp only [slot, put, List.getD_eq_getElem?_getD]
  rw [List.getElem?_set_self hi, Option.getD_some]

theorem slot_put_of_ne (m : HashMap K V) {i j : ℕ} (hij : i ≠ j)
    (x : Option (HashMapEntry K V)) : (m.put i x).slot j = m.slot j := by
  simp only [slot, put, List.getD_eq_getElem?_getD]
  rw [List.getElem?_set_ne hij]

theorem rank_put (m : HashMap K V) {i : ℕ} (hi : i < m.capacity)
    (x : Option (HashMapEntry K V)) :
    (m.put i x).rank = Function.update m.rank i (entryRank x) := by
  funext j
  by_cases hij : i = j
  · subst hij
    rw [Function.update_self, rank, slot_put_self m hi]
  · rw [Function.update_of_ne (Ne.symm hij), rank, rank, slot_put_of_ne m hij]

theorem lt_of_slot {m : HashMap K V} {i : ℕ} {e : HashMapEntry K V} (h : m.slot i = some e) :
    i < m.capacity := by
  by_contra hi
  rw [slot, List.getD_eq_getElem?_getD, List.getElem?_eq_none (Nat.le_of_not_lt hi)] at h
  cases h

theorem rank_of_slot {m : HashMap K V} {i : ℕ} {e : HashMapEntry K V} (h : m.slot i = some e) :
    m.rank i = e.psl + 1 := by
  rw [rank, h, entryRank]

theorem rank_of_slot_none {m : HashMap K V} {i : ℕ} (h : m.slot i = none) : m.rank i = 0 := by
  rw [rank, h, entryRank]

theorem slot_of_rank_pos {m : HashMap K V} {i : ℕ} (h : 0 < m.rank i) :
    ∃ e, m.slot i = some e := by
  cases hslot : m.slot i with
  | none =>
    rw [rank_of_slot_none hslot] at h
    omega
  | some e => exact ⟨e, rfl⟩

/-- The pair of an entry. -/
def entryBag : Option (HashMapEntry K V) → Multiset (K × V)
  | none => 0
  | some e => {(e.key, e.value)}

/-- A slot is replaced in the pairs. -/
theorem bag_put (m : HashMap K V) {i : ℕ} (hi : i < m.capacity) :
    ∃ rest, m.bag = entryBag (m.slot i) + rest ∧
      ∀ x, (m.put i x).bag = entryBag x + rest := by
  have hcons : ∀ (x : Option (HashMapEntry K V)) (before after : List (Option (HashMapEntry K V))),
      (((before ++ x :: after).filterMap fun entry => entry.map fun e => (e.key, e.value) :
        List (K × V)) : Multiset (K × V)) = entryBag x +
        ((before ++ after).filterMap fun entry => entry.map fun e => (e.key, e.value) :
          List (K × V)) := by
    intro x before after
    cases x with
    | none => simp [entryBag]
    | some e =>
      simp only [List.filterMap_append, List.filterMap_cons, Option.map_some, entryBag,
        Multiset.singleton_add]
      exact Multiset.coe_eq_coe.mpr List.perm_middle
  refine ⟨((m.entries.take i ++ m.entries.drop (i + 1)).filterMap
    fun entry => entry.map fun e => (e.key, e.value) : List (K × V)), ?_, ?_⟩
  · rw [← hcons, bag, pairs]
    congr 2
    have hslot : m.slot i = m.entries[i] := by
      simp [slot, List.getD_eq_getElem?_getD, List.getElem?_eq_getElem hi]
    rw [hslot, ← List.drop_eq_getElem_cons hi, List.take_append_drop]
  · intro x
    rw [← hcons, bag, pairs, put]
    congr 2
    exact List.set_eq_take_append_cons_drop.trans (if_pos hi)

theorem mem_pairs {m : HashMap K V} {p : K × V} :
    p ∈ m.pairs ↔ ∃ i e, m.slot i = some e ∧ (e.key, e.value) = p := by
  simp only [pairs, List.mem_filterMap, Option.map_eq_some_iff]
  constructor
  · rintro ⟨_, hmem, e, rfl, he⟩
    obtain ⟨i, hi, hget⟩ := List.getElem_of_mem hmem
    exact ⟨i, e, by simp [slot, List.getElem?_eq_getElem hi, hget], he⟩
  · rintro ⟨i, e, hslot, he⟩
    have hi := lt_of_slot hslot
    refine ⟨some e, ?_, e, rfl, he⟩
    rw [← hslot, slot, List.getD_eq_getElem?_getD, List.getElem?_eq_getElem hi, Option.getD_some]
    exact List.getElem_mem hi

/-- A key is in one slot only. -/
theorem slot_unique {m : HashMap K V} (hkeys : (m.pairs.map Prod.fst).Nodup) {i j : ℕ}
    {e e' : HashMapEntry K V} (hi : m.slot i = some e) (hj : m.slot j = some e')
    (hkey : e.key = e'.key) : i = j := by
  rw [List.Nodup, List.pairwise_map, pairs, List.pairwise_filterMap,
    List.pairwise_iff_getElem] at hkeys
  have hpair : ∀ {i : ℕ} {e : HashMapEntry K V} (h : m.slot i = some e) (hi : i < m.entries.length),
      m.entries[i].map (fun e => (e.key, e.value)) = some (e.key, e.value) := by
    intro i e h hi
    rw [slot, List.getD_eq_getElem?_getD, List.getElem?_eq_getElem hi, Option.getD_some] at h
    rw [h, Option.map_some]
  have hli := lt_of_slot hi
  have hlj := lt_of_slot hj
  rcases Nat.lt_trichotomy i j with hij | hij | hij
  · exact absurd hkey (hkeys i j hli hlj hij (e.key, e.value) (hpair hi hli) (e'.key, e'.value)
      (hpair hj hlj))
  · exact hij
  · exact absurd hkey.symm (hkeys j i hlj hli hij (e'.key, e'.value) (hpair hj hlj)
      (e.key, e.value) (hpair hi hli))

/-! ### The load factor -/

/-- Rounding changes a number by at most its `2 ^ 24`-th part. -/
theorem toFloat_bounds (n : ℕ) :
    2 ^ 24 * toFloat n ≤ (2 ^ 24 + 1) * n ∧ (2 ^ 24 - 1) * n ≤ 2 ^ 24 * toFloat n := by
  by_cases hsmall : n.log2 ≤ 23
  · have hexact : toFloat n = n := by
      simp only [toFloat, Nat.sub_eq_zero_of_le hsmall, pow_zero, Nat.div_one, Nat.mod_one, mul_one]
      exact if_neg (by omega)
    rw [hexact]
    omega
  · have hn : n ≠ 0 := by
      rintro rfl
      simp at hsmall
    have hlow : 2 ^ 23 * 2 ^ (n.log2 - 23) ≤ n := by
      rw [← pow_add, show 23 + (n.log2 - 23) = n.log2 by omega]
      exact Nat.log2_self_le hn
    obtain ⟨k, hk⟩ : ∃ k, 2 ^ (n.log2 - 23) = 2 * k :=
      ⟨2 ^ (n.log2 - 24), by rw [← pow_succ', show n.log2 - 24 + 1 = n.log2 - 23 by omega]⟩
    have hdiv := Nat.div_add_mod n (2 ^ (n.log2 - 23))
    have hmod := Nat.mod_lt n (show 0 < 2 ^ (n.log2 - 23) by positivity)
    simp only [toFloat]
    rw [hk] at hlow hdiv hmod ⊢
    rw [Nat.mul_comm] at hdiv
    split_ifs with hup
    · rw [Nat.add_mul]
      omega
    · omega

theorem lt_of_not_overloaded {size capacity : ℕ} (hcap : 16 ≤ capacity)
    (h : overloaded size capacity = false) : size + 1 < capacity := by
  have hs := toFloat_bounds size
  have hc := toFloat_bounds capacity
  simp only [overloaded, decide_eq_false_iff_not] at h
  omega

theorem not_overloaded_of_half {size capacity : ℕ} (hcap : 0 < capacity)
    (h : 2 * size ≤ capacity) : overloaded size capacity = false := by
  have hs := toFloat_bounds size
  have hc := toFloat_bounds capacity
  simp only [overloaded, decide_eq_false_iff_not]
  omega

/-! ### Loops -/

variable [Key K]

/-- Every entry is as far from its home slot as its psl says, and the ranks are gentle. -/
structure Core (m : HashMap K V) : Prop where
  placed : ∀ i e, m.slot i = some e →
    e.hash = hashFunc e.key ∧ (e.hash.toNat + e.psl) % m.capacity = i
  gentle : Gentle m.capacity m.rank

theorem Core.withSize {m : HashMap K V} (h : Core m) (n : ℕ) : Core { m with size := n } :=
  ⟨h.placed, h.gentle⟩

theorem Core.put {m : HashMap K V} (h : Core m) (hcap : 0 < m.capacity) {y : ℕ}
    {x : Option (HashMapEntry K V)}
    (hx : ∀ e, x = some e → e.hash = hashFunc e.key ∧
      (e.hash.toNat + e.psl) % m.capacity = (y + 1) % m.capacity)
    (hpred : entryRank x ≤ m.rank (y % m.capacity) + 1)
    (hsucc : m.rank ((y + 2) % m.capacity) ≤ entryRank x + 1) :
    Core (m.put ((y + 1) % m.capacity) x) := by
  have hi := Nat.mod_lt (y + 1) hcap
  constructor
  · intro j e hj
    rw [put_capacity]
    by_cases hij : (y + 1) % m.capacity = j
    · rw [← hij, slot_put_self m hi] at hj
      rw [← hij]
      exact hx e hj
    · rw [slot_put_of_ne m hij] at hj
      exact h.placed j e hj
  · rw [put_capacity, rank_put m hi]
    exact h.gentle.update hpred hsucc

/-- What a probe for a key in the table meets on its way. -/
theorem Core.met {m : HashMap K V} (h : Core m) {i : ℕ} {e : HashMapEntry K V}
    (he : m.slot i = some e) {t : ℕ} (ht : t ≤ e.psl) :
    ∃ e', m.slot ((e.hash.toNat + t) % m.capacity) = some e' ∧ t ≤ e'.psl := by
  have hadd := h.gentle.le_add (e.hash.toNat + t) (e.psl - t)
  rw [show e.hash.toNat + t + (e.psl - t) = e.hash.toNat + e.psl by omega, (h.placed i e he).2,
    rank_of_slot he] at hadd
  obtain ⟨e', he'⟩ := slot_of_rank_pos (m := m)
    (i := (e.hash.toNat + t) % m.capacity) (by omega)
  rw [rank_of_slot he'] at hadd
  exact ⟨e', he', by omega⟩

variable [DecidableEq K]

theorem insertLoop_absent (hash : UInt64) (key : K) (value : V) :
    ∀ (fuel d y psl : ℕ) (m : HashMap K V) (entry : HashMapEntry K V), Core m → d < fuel →
      d < m.capacity → entry.hash = hashFunc entry.key →
      (entry.hash.toNat + psl) % m.capacity = (y + 1) % m.capacity →
      psl ≤ m.rank (y % m.capacity) → m.slot ((y + 1 + d) % m.capacity) = none →
      (∀ t < d, ∀ e, m.slot ((y + 1 + t) % m.capacity) = some e → e.key ≠ key) →
      ∃ m', insertLoop hash key value fuel m ((y + 1) % m.capacity) psl entry = some m' ∧ Core m' ∧
        m'.capacity = m.capacity ∧ m'.bag = (entry.key, entry.value) ::ₘ m.bag ∧
        m'.size = m.size + 1
  | 0, _, _, _, _, _, _, hd, _, _, _, _, _, _ => absurd hd (Nat.not_lt_zero _)
  | fuel + 1, d, y, psl, m, entry, hm, hd, hdc, hhash, hplace, hpsl, hfree, hother => by
    have hcap : 0 < m.capacity := by omega
    have hi := Nat.mod_lt (y + 1) hcap
    have hnext : ((y + 1) % m.capacity + 1) % m.capacity = (y + 1 + 1) % m.capacity :=
      Nat.mod_add_mod _ _ _
    obtain ⟨rest, hrest, hput⟩ := bag_put m hi
    have hstep := hm.gentle (y + 1)
    rw [insertLoop]
    cases hslot : m.slot ((y + 1) % m.capacity) with
    | none =>
      rw [rank_of_slot_none hslot] at hstep
      refine ⟨_, rfl, ?_, put_capacity m _ _, ?_, rfl⟩
      · refine (Core.put hm hcap ?_ ?_ ?_).withSize _
        · rintro e ⟨rfl⟩
          exact ⟨hhash, hplace⟩
        · simpa [entryRank] using hpsl
        · exact hstep.trans (by omega)
      · rw [hslot] at hrest
        simp only [entryBag, zero_add] at hrest
        rw [hrest, ← Multiset.singleton_add]
        exact hput _
    | some current =>
      rw [rank_of_slot hslot] at hstep
      obtain ⟨d, rfl⟩ : ∃ d', d = d' + 1 := by
        refine Nat.exists_eq_succ_of_ne_zero ?_
        rintro rfl
        rw [Nat.add_zero, hslot] at hfree
        cases hfree
      have hkey : current.key ≠ key := hother 0 (by omega) current hslot
      simp only [hkey, and_false, if_false]
      rw [hnext]
      by_cases hswap : current.psl < psl
      · -- the entry is put down and the one in its place goes on
        rw [if_pos hswap]
        have hcur := hm.placed _ _ hslot
        obtain ⟨m', hrun, hcore, hcap', hbag, hsize⟩ :=
          insertLoop_absent hash key value fuel d (y + 1) (current.psl + 1)
            (m.put ((y + 1) % m.capacity) (some { entry with psl := psl })) current
            (Core.put hm hcap
              (by
                rintro e ⟨rfl⟩
                exact ⟨hhash, hplace⟩)
              (by simpa [entryRank] using hpsl)
              (by
                simp only [entryRank]
                exact hstep.trans (by omega)))
            (by omega) (by rw [put_capacity]; omega) hcur.1
            (by rw [put_capacity, ← Nat.add_assoc, ← Nat.mod_add_mod, hcur.2, hnext])
            (by
              rw [put_capacity, rank_put m hi, Function.update_self]
              exact Nat.succ_le_succ hswap.le)
            (by
              rw [put_capacity, slot_put_of_ne m (RingSlots.mod_ne_mod (by omega) (by omega)), ← hfree]
              congr 2
              omega)
            (by
              intro t ht e he
              rw [put_capacity,
                slot_put_of_ne m (RingSlots.mod_ne_mod (by omega) (by omega))] at he
              refine hother (t + 1) (by omega) e ?_
              rw [← he]
              congr 2
              omega)
        rw [put_capacity] at hrun hcap'
        refine ⟨m', hrun, hcore, hcap', ?_, hsize⟩
        rw [hbag, hput, hrest, hslot]
        simp only [entryBag, Multiset.singleton_add]
        exact Multiset.cons_swap _ _ _
      · rw [if_neg hswap]
        refine insertLoop_absent hash key value fuel d (y + 1) (psl + 1) m entry hm (by omega)
          (by omega) hhash ?_ ?_ ?_ ?_
        · rw [← Nat.add_assoc, ← Nat.mod_add_mod, hplace, Nat.mod_add_mod]
        · rw [rank_of_slot hslot]
          omega
        · rw [← hfree]
          congr 2
          omega
        · intro t ht e he
          refine hother (t + 1) (by omega) e ?_
          rw [← he]
          congr 2
          omega

section Present

variable {m : HashMap K V} (h : Core m) {i : ℕ} {e : HashMapEntry K V} (he : m.slot i = some e)
  (hother : ∀ t < e.psl, ∀ e', m.slot ((e.hash.toNat + t) % m.capacity) = some e' → e'.key ≠ e.key)

include h he hother

theorem insertLoop_present (value : V) (entry : HashMapEntry K V) : ∀ fuel t, t ≤ e.psl →
    e.psl < t + fuel → insertLoop e.hash e.key value fuel m ((e.hash.toNat + t) % m.capacity) t entry
      = some (m.put i (some { e with value := value }))
  | 0, t, ht, hfuel => absurd hfuel (by omega)
  | fuel + 1, t, ht, hfuel => by
    rw [insertLoop]
    obtain ⟨e', he', hpsl⟩ := h.met he ht
    rw [he']
    by_cases hlast : t = e.psl
    · rw [hlast, (h.placed i e he).2] at he'
      obtain rfl : e = e' := Option.some.inj (he.symm.trans he')
      simp only [and_self, if_true]
      rw [hlast, (h.placed i e he).2]
    · have hkey := hother t (by omega) e' he'
      simp only [hkey, and_false, if_false]
      rw [if_neg (by omega), Nat.mod_add_mod, Nat.add_assoc]
      exact insertLoop_present value entry fuel (t + 1) (by omega) (by omega)

theorem probe_present : ∀ fuel t, t ≤ e.psl → e.psl < t + fuel →
    m.probe e.hash e.key fuel ((e.hash.toNat + t) % m.capacity) t = some (some (i, e))
  | 0, t, ht, hfuel => absurd hfuel (by omega)
  | fuel + 1, t, ht, hfuel => by
    rw [probe]
    obtain ⟨e', he', hpsl⟩ := h.met he ht
    rw [he']
    simp only [if_neg (show ¬ e'.psl < t by omega)]
    by_cases hlast : t = e.psl
    · rw [hlast, (h.placed i e he).2] at he'
      obtain rfl : e = e' := Option.some.inj (he.symm.trans he')
      rw [if_pos ⟨rfl, rfl⟩, hlast, (h.placed i e he).2]
    · have hkey := hother t (by omega) e' he'
      rw [if_neg (by simp [hkey]), Nat.mod_add_mod, Nat.add_assoc]
      exact probe_present fuel (t + 1) (by omega) (by omega)

end Present

omit [Key K] in
theorem probe_absent {m : HashMap K V} (hash : UInt64) {key : K}
    (hkey : ∀ i e, m.slot i = some e → e.key ≠ key) : ∀ fuel d x psl, d < fuel →
      m.slot ((x + d) % m.capacity) = none → m.probe hash key fuel (x % m.capacity) psl = some none
  | 0, d, _, _, hd, _ => absurd hd (Nat.not_lt_zero _)
  | fuel + 1, d, x, psl, hd, hfree => by
    rw [probe]
    cases hslot : m.slot (x % m.capacity) with
    | none => rfl
    | some e =>
      obtain ⟨d, rfl⟩ : ∃ d', d = d' + 1 := by
        refine Nat.exists_eq_succ_of_ne_zero ?_
        rintro rfl
        rw [Nat.add_zero, hslot] at hfree
        cases hfree
      have hne := hkey _ e hslot
      simp only [hne, and_false, if_false]
      split_ifs with hpsl
      · rfl
      · rw [Nat.mod_add_mod]
        refine probe_absent hash hkey fuel d (x + 1) (psl + 1) (by omega) ?_
        rw [← hfree]
        congr 2
        omega

omit [DecidableEq K] in
/-- The entry in slot `y + 1` is the one to be removed, or the copy of one that has moved. -/
theorem shiftBack_spec : ∀ (fuel d y : ℕ) (m : HashMap K V) (e : HashMapEntry K V), Core m →
    d < fuel → d + 1 < m.capacity → m.slot ((y + 1) % m.capacity) = some e →
    m.slot ((y + 2 + d) % m.capacity) = none →
    ∃ m', shiftBack fuel m ((y + 1) % m.capacity) = some m' ∧ Core m' ∧
      m'.capacity = m.capacity ∧ m.bag = (e.key, e.value) ::ₘ m'.bag ∧ m'.size = m.size - 1
  | 0, _, _, _, _, _, hd, _, _, _ => absurd hd (Nat.not_lt_zero _)
  | fuel + 1, d, y, m, e, hm, hd, hdc, hslot, hfree => by
    have hcap : 0 < m.capacity := by omega
    have hi := Nat.mod_lt (y + 1) hcap
    have hnext : ((y + 1) % m.capacity + 1) % m.capacity = (y + 2) % m.capacity :=
      Nat.mod_add_mod _ _ _
    obtain ⟨rest, hrest, hput⟩ := bag_put m hi
    have hbag : m.bag = (e.key, e.value) ::ₘ (m.put ((y + 1) % m.capacity) none).bag := by
      rw [hrest, hput, hslot, entryBag, entryBag, zero_add, Multiset.singleton_add]
    have hvacate (hrank : m.rank ((y + 2) % m.capacity) ≤ 1) :
        Core (m.put ((y + 1) % m.capacity) none) :=
      Core.put hm hcap (by rintro _ ⟨⟩) (Nat.zero_le _) hrank
    simp only [shiftBack, hnext]
    cases hnextSlot : m.slot ((y + 2) % m.capacity) with
    | none =>
      refine ⟨_, rfl, (hvacate ?_).withSize _, put_capacity m _ _, hbag, rfl⟩
      rw [rank_of_slot_none hnextSlot]
      exact Nat.zero_le _
    | some e' =>
      have hrank := rank_of_slot hnextSlot
      by_cases hzero : e'.psl = 0
      · simp only [hzero, if_true]
        refine ⟨_, rfl, (hvacate ?_).withSize _, put_capacity m _ _, hbag, rfl⟩
        omega
      · simp only [hzero, if_false]
        obtain ⟨d, rfl⟩ : ∃ d', d = d' + 1 := by
          refine Nat.exists_eq_succ_of_ne_zero ?_
          rintro rfl
          rw [Nat.add_zero, hnextSlot] at hfree
          cases hfree
        have hplaced := hm.placed _ _ hnextSlot
        have hhere := hm.gentle y
        have hthere : m.rank ((y + 2) % m.capacity) ≤ m.rank ((y + 1) % m.capacity) + 1 :=
          hm.gentle (y + 1)
        have hmoved : (e'.hash.toNat + (e'.psl - 1)) % m.capacity = (y + 1) % m.capacity := by
          refine Nat.ModEq.add_right_cancel' 1 ?_
          rw [Nat.add_assoc, Nat.sub_add_cancel (by omega)]
          exact hplaced.2
        obtain ⟨m', hrun, hcore, hcap', hbag', hsize⟩ :=
          shiftBack_spec fuel d (y + 1)
            (m.put ((y + 1) % m.capacity) (some { e' with psl := e'.psl - 1 })) e'
            (Core.put hm hcap
              (by
                rintro _ ⟨rfl⟩
                exact ⟨hplaced.1, hmoved⟩)
              (by
                simp only [entryRank]
                omega)
              (by
                simp only [entryRank]
                omega))
            (by omega) (by rw [put_capacity]; omega)
            (by
              rw [put_capacity, slot_put_of_ne m (RingSlots.mod_ne_mod (by omega) (by omega))]
              exact hnextSlot)
            (by
              rw [put_capacity, slot_put_of_ne m (RingSlots.mod_ne_mod (by omega) (by omega)),
                ← hfree]
              congr 2
              omega)
        rw [put_capacity] at hrun hcap'
        refine ⟨m', hrun, hcore, hcap', ?_, hsize⟩
        have hsame := hput (some { e' with psl := e'.psl - 1 })
        rw [hbag'] at hsame
        simp only [entryBag, Multiset.singleton_add, Multiset.cons_inj_right] at hsame
        rw [hrest, hslot, hsame, entryBag, Multiset.singleton_add]

end HashMap

end Qjs
