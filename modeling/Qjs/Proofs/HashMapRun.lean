import Qjs.Proofs.HashMap

/-!
# The hash map is a finite map

`Table` is kept by every operation: the table is sound, no key is in it twice or is `NULL`, and there is
room. `insert_spec`, `remove_spec` and `clear_spec` say what becomes of the pairs, `Table.agrees` reads
the finite map off them. `agrees_iff_nonNull`: the operations of a run agree with the finite map after each
of them exactly when no insert has a `NULL` key or value, so not for the integer 0.
-/

namespace Qjs

namespace HashMap

open ProbeRank

variable {K V : Type} [DecidableEq K] [Key K]

/-! ### The table between operations -/

omit [DecidableEq K] in
structure Table (m : HashMap K V) : Prop extends Core m where
  large : 16 ≤ m.capacity
  keys : (m.bag.map Prod.fst).Nodup
  size : m.size = m.bag.card
  room : m.size < m.capacity
  nonNull : ∀ p ∈ m.bag, p.1 ≠ null

omit [DecidableEq K] [Key K] in
theorem mem_bag {m : HashMap K V} {p : K × V} :
    p ∈ m.bag ↔ ∃ i e, m.slot i = some e ∧ (e.key, e.value) = p := mem_pairs

section Table

variable {m : HashMap K V} (h : Table m)

omit [DecidableEq K]

include h

theorem Table.capacity_pos : 0 < m.capacity := lt_of_lt_of_le (by omega) h.large

theorem Table.exists_free : ∃ i < m.capacity, m.slot i = none := by
  by_contra hfull
  push Not at hfull
  have hlen : m.pairs.length = m.entries.length := by
    rw [pairs, List.length_filterMap_eq_countP, List.countP_eq_length]
    intro x hx
    obtain ⟨i, hi, rfl⟩ := List.getElem_of_mem hx
    have := hfull i hi
    rw [slot, List.getD_eq_getElem?_getD, List.getElem?_eq_getElem hi, Option.getD_some] at this
    simpa [Option.isSome_iff_ne_none] using this
  have hsize := h.size
  have hroom := h.room
  rw [bag, Multiset.coe_card, hlen] at hsize
  rw [hsize, capacity] at hroom
  omega

/-- A free slot within the ring, seen from anywhere. -/
theorem Table.free_after (x : ℕ) : ∃ d < m.capacity, m.slot ((x + d) % m.capacity) = none := by
  obtain ⟨z, hz, hfree⟩ := h.exists_free
  obtain ⟨d, hd, hdz⟩ := exists_add_mod h.capacity_pos x z
  exact ⟨d, hd, by rw [hdz, Nat.mod_eq_of_lt hz, hfree]⟩

theorem Table.psl_lt {i : ℕ} {e : HashMapEntry K V} (he : m.slot i = some e) :
    e.psl + 1 < m.capacity := by
  obtain ⟨z, hz, hfree⟩ := h.exists_free
  have hlt := h.gentle.lt h.capacity_pos (z := z)
    (by rw [Nat.mod_eq_of_lt hz, rank_of_slot_none hfree]) i
  rwa [Nat.mod_eq_of_lt (lt_of_slot he), rank_of_slot he] at hlt

theorem Table.unique {i j : ℕ} {e e' : HashMapEntry K V} (hi : m.slot i = some e)
    (hj : m.slot j = some e') (hkey : e.key = e'.key) : i = j := by
  refine slot_unique ?_ hi hj hkey
  have := h.keys
  rwa [bag, Multiset.map_coe, Multiset.coe_nodup] at this

/-- No other slot on the way of a probe has the key. -/
theorem Table.met_ne {i : ℕ} {e : HashMapEntry K V} (he : m.slot i = some e) :
    ∀ t < e.psl, ∀ e', m.slot ((e.hash.toNat + t) % m.capacity) = some e' → e'.key ≠ e.key := by
  intro t ht e' he' hkey
  have hpsl := h.psl_lt he
  have hsame := h.unique he' he hkey
  rw [← (h.placed i e he).2] at hsame
  exact RingSlots.mod_ne_mod (by omega) (by omega) hsame

theorem Table.robinHood : m.RobinHood := by
  intro i e he
  have hpsl := h.psl_lt he
  obtain ⟨hhash, hplaced⟩ := h.placed i e he
  rw [home, ← hhash]
  refine ⟨?_, ?_⟩
  · rw [← hplaced, RingSlots.sub_mod_of_le (by omega) (by omega)]
    omega
  · intro d hd
    obtain ⟨e', he', hd'⟩ := h.met he hd.le
    refine ⟨e', ?_, hd', h.met_ne he d hd e' he'⟩
    rw [Nat.mod_add_mod]
    exact he'

end Table

/-! ### Lookup -/

section Find

variable {m : HashMap K V} (h : Table m)

include h

theorem find_present {i : ℕ} {e : HashMapEntry K V} (he : m.slot i = some e) :
    m.find e.key = some (some (i, e)) := by
  have hpsl := h.psl_lt he
  have := probe_present h.toCore he (h.met_ne he) m.capacity 0 (Nat.zero_le _) (by omega)
  rw [find, ← (h.placed i e he).1]
  exact this

theorem find_absent {key : K} (hkey : ∀ i e, m.slot i = some e → e.key ≠ key) :
    m.find key = some none := by
  obtain ⟨d, hd, hfree⟩ := h.free_after (hashFunc key).toNat
  exact probe_absent _ hkey m.capacity d _ 0 hd hfree

end Find

/-! ### Insert -/

omit [DecidableEq K] [Key K] in
/-- The pair of the key is there afterwards, in place of one that was there before. -/
def Stored (m m' : HashMap K V) (key : K) (value : V) : Prop :=
  (key ∉ m.bag.map Prod.fst ∧ m'.bag = (key, value) ::ₘ m.bag) ∨
    ∃ old rest, m.bag = (key, old) ::ₘ rest ∧ m'.bag = (key, value) ::ₘ rest

omit [DecidableEq K] [Key K] in
theorem mem_keys {m : HashMap K V} {key : K} :
    key ∈ m.bag.map Prod.fst ↔ ∃ i e, m.slot i = some e ∧ e.key = key := by
  rw [Multiset.mem_map]
  constructor
  · rintro ⟨p, hp, rfl⟩
    obtain ⟨i, e, he, rfl⟩ := mem_bag.mp hp
    exact ⟨i, e, he, rfl⟩
  · rintro ⟨i, e, he, rfl⟩
    exact ⟨(e.key, e.value), mem_bag.mpr ⟨i, e, he, rfl⟩, rfl⟩

omit [DecidableEq K] in
theorem Table.of_cons {m m' : HashMap K V} (h : Table m) {key : K} {value : V} (hkey : key ≠ null)
    (hroom : m.size + 1 < m.capacity) (hcore : Core m') (hcap : m'.capacity = m.capacity)
    (hnew : key ∉ m.bag.map Prod.fst) (hbag : m'.bag = (key, value) ::ₘ m.bag)
    (hsize : m'.size = m.size + 1) : Table m' where
  toCore := hcore
  large := by
    rw [hcap]
    exact h.large
  keys := by
    rw [hbag, Multiset.map_cons, Multiset.nodup_cons]
    exact ⟨hnew, h.keys⟩
  size := by rw [hsize, hbag, Multiset.card_cons, h.size]
  room := by rwa [hsize, hcap]
  nonNull := by
    intro p hp
    rw [hbag, Multiset.mem_cons] at hp
    rcases hp with rfl | hp
    · exact hkey
    · exact h.nonNull p hp

omit [DecidableEq K] in
theorem Table.of_replace {m m' : HashMap K V} (h : Table m) {key : K} {value old : V}
    {rest : Multiset (K × V)} (hcore : Core m') (hcap : m'.capacity = m.capacity)
    (hold : m.bag = (key, old) ::ₘ rest) (hbag : m'.bag = (key, value) ::ₘ rest)
    (hsize : m'.size = m.size) : Table m' where
  toCore := hcore
  large := by
    rw [hcap]
    exact h.large
  keys := by
    have := h.keys
    rw [hold, Multiset.map_cons] at this
    rwa [hbag, Multiset.map_cons]
  size := by rw [hsize, hbag, h.size, hold, Multiset.card_cons, Multiset.card_cons]
  room := by
    rw [hsize, hcap]
    exact h.room
  nonNull := by
    intro p hp
    rw [hbag, Multiset.mem_cons] at hp
    rcases hp with rfl | hp
    · exact h.nonNull (key, old) (by rw [hold]; exact Multiset.mem_cons_self _ _)
    · exact h.nonNull p (by rw [hold]; exact Multiset.mem_cons_of_mem hp)

theorem insertLoop_spec {m : HashMap K V} (h : Table m) {key : K} (value : V) (hkey : key ≠ null)
    (hroom : m.size + 1 < m.capacity) :
    ∃ m', insertLoop (hashFunc key) key value m.capacity m ((hashFunc key).toNat % m.capacity) 0
        ⟨key, value, hashFunc key, 0⟩ = some m' ∧ Table m' ∧ m'.capacity = m.capacity ∧
      Stored m m' key value := by
  have hcap := h.capacity_pos
  by_cases hpresent : key ∈ m.bag.map Prod.fst
  · obtain ⟨i, e, he, rfl⟩ := mem_keys.mp hpresent
    have hpsl := h.psl_lt he
    have hi := lt_of_slot he
    have hloop := insertLoop_present h.toCore he (h.met_ne he) value ⟨e.key, value, hashFunc e.key, 0⟩
      m.capacity 0 (Nat.zero_le _) (by omega)
    rw [(h.placed i e he).1, Nat.add_zero] at hloop
    obtain ⟨rest, hrest, hput⟩ := bag_put m hi
    rw [he] at hrest
    simp only [entryBag, Multiset.singleton_add] at hrest
    have hbag := hput (some { e with value := value })
    simp only [entryBag, Multiset.singleton_add] at hbag
    rw [show (⟨e.key, value, hashFunc e.key, e.psl⟩ : HashMapEntry K V) = { e with value := value } by
      rw [← (h.placed i e he).1]] at hloop
    refine ⟨_, hloop, ?_, put_capacity _ _ _, .inr ⟨e.value, rest, hrest, hbag⟩⟩
    have hy : (i + (m.capacity - 1) + 1) % m.capacity = i := by
      rw [show i + (m.capacity - 1) + 1 = i + m.capacity by omega, Nat.add_mod_right,
        Nat.mod_eq_of_lt hi]
    refine h.of_replace ?_ (put_capacity _ _ _) hrest hbag rfl
    have hbefore := h.gentle (i + (m.capacity - 1))
    have hafter := h.gentle (i + (m.capacity - 1) + 1)
    rw [hy, rank_of_slot he] at hbefore hafter
    have hcore := Core.put h.toCore hcap (y := i + (m.capacity - 1))
      (x := some { e with value := value })
      (by
        rintro _ ⟨rfl⟩
        rw [hy]
        exact h.placed i e he)
      hbefore hafter
    rwa [hy] at hcore
  · have hother : ∀ i e, m.slot i = some e → e.key ≠ key := by
      intro i e he hkey
      exact hpresent (mem_keys.mpr ⟨i, e, he, hkey⟩)
    have hy : ∀ d, (hashFunc key).toNat + (m.capacity - 1) + 1 + d
        = (hashFunc key).toNat + d + m.capacity := by
      intro d
      omega
    obtain ⟨d, hd, hfree⟩ := h.free_after (hashFunc key).toNat
    obtain ⟨m', hloop, hcore, hcap', hbag, hsize⟩ :=
      insertLoop_absent (hashFunc key) key value m.capacity d
        ((hashFunc key).toNat + (m.capacity - 1)) 0 m ⟨key, value, hashFunc key, 0⟩ h.toCore hd hd rfl
        (by
          have := hy 0
          rw [Nat.add_zero] at this
          rw [this, Nat.add_mod_right])
        (Nat.zero_le _)
        (by rw [hy, Nat.add_mod_right, hfree])
        (fun t _ e he => hother _ e he)
    have := hy 0
    rw [Nat.add_zero, Nat.add_zero] at this
    rw [this, Nat.add_mod_right] at hloop
    exact ⟨m', hloop, h.of_cons hkey hroom hcore hcap' hpresent hbag hsize, hcap',
      .inl ⟨hpresent, hbag⟩⟩

/-- Without a resize an insert is its loop. -/
theorem insertDepth_of_not_overloaded {m : HashMap K V} {key : K} (value : V) (hkey : key ≠ null)
    (hload : overloaded m.size m.capacity = false) (depth : ℕ) :
    insertDepth (depth + 1) m key value =
      (insertLoop (hashFunc key) key value m.capacity m ((hashFunc key).toNat % m.capacity) 0
        ⟨key, value, hashFunc key, 0⟩).map (·, true) := by
  rw [insertDepth]
  simp only [hkey, hload, if_false, Bool.false_eq_true]
  exact Option.map_eq_bind.symm

theorem insertDepth_spec {m : HashMap K V} (h : Table m) {key : K} (value : V) (hkey : key ≠ null)
    (hload : overloaded m.size m.capacity = false) (depth : ℕ) :
    ∃ m', insertDepth (depth + 1) m key value = some (m', true) ∧ Table m' ∧
      m'.capacity = m.capacity ∧ Stored m m' key value := by
  obtain ⟨m', hloop, htable, hcap, hstored⟩ :=
    insertLoop_spec h value hkey (lt_of_not_overloaded h.large hload)
  refine ⟨m', ?_, htable, hcap, hstored⟩
  rw [insertDepth_of_not_overloaded value hkey hload, hloop, Option.map_some]

omit [DecidableEq K] in
theorem table_empty {capacity : ℕ} (hcap : 16 ≤ capacity) :
    Table (empty capacity : HashMap K V) := by
  have hslot : ∀ i, (empty capacity : HashMap K V).slot i = none := by
    intro i
    simp only [slot, empty, List.getD_eq_getElem?_getD, List.getElem?_replicate]
    split_ifs <;> rfl
  have hrank : (empty capacity : HashMap K V).rank = fun _ => 0 :=
    funext fun i => rank_of_slot_none (hslot i)
  have hbag : (empty capacity : HashMap K V).bag = 0 := by
    refine Multiset.eq_zero_of_forall_notMem ?_
    intro p hp
    obtain ⟨i, e, he, -⟩ := mem_bag.mp hp
    rw [hslot] at he
    cases he
  have hlen : (empty capacity : HashMap K V).capacity = capacity := List.length_replicate
  refine ⟨⟨?_, ?_⟩, ?_, ?_, ?_, ?_, ?_⟩
  · intro i e he
    rw [hslot] at he
    cases he
  · rw [hrank]
    exact gentle_zero
  · rwa [hlen]
  · simp [hbag]
  · rw [hbag]
    rfl
  · rw [hlen]
    exact lt_of_lt_of_le (by simp [empty]) hcap
  · simp [hbag]

/-- What a list of entries has. -/
def entryPairs (entries : List (Option (HashMapEntry K V))) : Multiset (K × V) :=
  (entries.filterMap fun entry => entry.map fun e => (e.key, e.value) : List (K × V))

theorem reinsert_spec (reinsert : HashMap K V → Option (HashMapEntry K V) → Option (HashMap K V))
    (hnone : ∀ m, reinsert m none = some m)
    (hsome : ∀ m e, reinsert m (some e) = (insertDepth 1 m e.key e.value).map Prod.fst) :
    ∀ (entries : List (Option (HashMapEntry K V))) (m : HashMap K V), Table m →
      ((m.bag + entryPairs entries).map Prod.fst).Nodup → (∀ p ∈ entryPairs entries, p.1 ≠ null) →
      2 * (m.bag + entryPairs entries).card ≤ m.capacity →
      ∃ m', entries.foldlM reinsert m = some m' ∧ Table m' ∧ m'.capacity = m.capacity ∧
        m'.bag = m.bag + entryPairs entries
  | [], m, h, _, _, _ => ⟨m, rfl, h, rfl, by simp [entryPairs]⟩
  | none :: entries, m, h, hkeys, hnull, hcard => by
    rw [List.foldlM_cons, hnone]
    exact reinsert_spec reinsert hnone hsome entries m h hkeys hnull hcard
  | some e :: entries, m, h, hkeys, hnull, hcard => by
    have hpairs : entryPairs (some e :: entries) = (e.key, e.value) ::ₘ entryPairs entries := rfl
    rw [hpairs] at hkeys hnull hcard ⊢
    rw [Multiset.add_cons] at hkeys hcard ⊢
    rw [Multiset.card_cons, Multiset.card_add] at hcard
    rw [Multiset.map_cons, Multiset.nodup_cons] at hkeys
    obtain ⟨m', hins, htable, hcap, hstored⟩ := insertDepth_spec h e.value
      (hnull _ (Multiset.mem_cons_self _ _))
      (not_overloaded_of_half h.capacity_pos (by rw [h.size]; omega)) 0
    have hbag : m'.bag = (e.key, e.value) ::ₘ m.bag := by
      rcases hstored with ⟨-, hbag⟩ | ⟨old, rest, hold, -⟩
      · exact hbag
      · refine absurd ?_ hkeys.1
        rw [hold]
        simp
    have hsum : m'.bag + entryPairs entries = (e.key, e.value) ::ₘ (m.bag + entryPairs entries) := by
      rw [hbag, Multiset.cons_add]
    rw [List.foldlM_cons, hsome, hins, ← hsum, ← hcap]
    refine reinsert_spec reinsert hnone hsome entries m' htable ?_ ?_ ?_
    · rw [hsum, Multiset.map_cons, Multiset.nodup_cons]
      exact hkeys
    · exact fun p hp => hnull p (Multiset.mem_cons_of_mem hp)
    · rw [hsum, Multiset.card_cons, Multiset.card_add, hcap]
      omega

theorem resizeDepth_spec {m : HashMap K V} (h : Table m) :
    ∃ m', resizeDepth 2 m = some m' ∧ Table m' ∧ m'.capacity = m.capacity * 2 ∧ m'.bag = m.bag := by
  have hlarge := h.large
  have hempty : Table (empty (m.capacity * 2) : HashMap K V) := table_empty (by omega)
  have hcap : (empty (m.capacity * 2) : HashMap K V).capacity = m.capacity * 2 :=
    List.length_replicate
  have hbag : (empty (m.capacity * 2) : HashMap K V).bag = 0 := by
    rw [← Multiset.card_eq_zero, ← hempty.size]
    rfl
  have hsize := h.size
  have hroom := h.room
  rw [resizeDepth]
  obtain ⟨m', hfold, htable, hcap', hbag'⟩ := reinsert_spec
    (fun m entry => entry.elim (some m) fun entry =>
      (insertDepth 1 m entry.key entry.value).map Prod.fst)
    (fun _ => rfl) (fun _ _ => rfl) m.entries (empty (m.capacity * 2)) hempty
    (by
      rw [hbag, zero_add]
      exact h.keys)
    h.nonNull
    (by
      rw [hbag, zero_add, hcap, show entryPairs m.entries = m.bag from rfl]
      omega)
  rw [hbag, zero_add] at hbag'
  refine ⟨m', ?_, htable, hcap'.trans hcap, hbag'⟩
  rw [← hfold]
  congr 1
  funext m entry
  rcases entry with _ | entry
  · rfl
  · rfl

theorem insert_spec {m : HashMap K V} (h : Table m) {key : K} (value : V) (hkey : key ≠ null) :
    ∃ m', m.insert key value = some (m', true) ∧ Table m' ∧ Stored m m' key value := by
  cases hload : overloaded m.size m.capacity with
  | false =>
    obtain ⟨m', hins, htable, -, hstored⟩ := insertDepth_spec h value hkey hload 2
    exact ⟨m', hins, htable, hstored⟩
  | true =>
    obtain ⟨m₁, hresize, htable₁, hcap, hbag⟩ := resizeDepth_spec h
    have hroom := h.room
    have hload₁ : overloaded m₁.size m₁.capacity = false := by
      refine not_overloaded_of_half htable₁.capacity_pos ?_
      rw [htable₁.size, hbag, ← h.size, hcap]
      omega
    obtain ⟨m', hloop, htable, -, hstored⟩ :=
      insertLoop_spec htable₁ value hkey (lt_of_not_overloaded htable₁.large hload₁)
    refine ⟨m', ?_, htable, ?_⟩
    · rw [insert, insertDepth]
      simp only [hkey, hload, if_false, if_true, hresize]
      simp only [Option.bind_eq_bind, Option.bind_some, hloop, Option.pure_def]
    · rwa [Stored, hbag] at hstored

/-! ### Remove and clear -/

theorem remove_present {m : HashMap K V} (h : Table m) {key : K} {value : V}
    (hmem : (key, value) ∈ m.bag) :
    ∃ m', m.remove key = some (m', true) ∧ Table m' ∧ m.bag = (key, value) ::ₘ m'.bag := by
  have hkey : key ≠ null := h.nonNull _ hmem
  obtain ⟨i, e, he, hpair⟩ := mem_bag.mp hmem
  obtain ⟨rfl, rfl⟩ := Prod.mk.inj hpair
  have hi := lt_of_slot he
  have hcap := h.capacity_pos
  have hy : ∀ d, (i + (m.capacity - 1) + 1 + d) % m.capacity = (i + d) % m.capacity := by
    intro d
    rw [show i + (m.capacity - 1) + 1 + d = i + d + m.capacity by omega, Nat.add_mod_right]
  have hyi : (i + (m.capacity - 1) + 1) % m.capacity = i := by
    rw [show i + (m.capacity - 1) + 1 = i + m.capacity by omega, Nat.add_mod_right,
      Nat.mod_eq_of_lt hi]
  obtain ⟨d, hd, hfree⟩ := h.free_after (i + 1)
  have hlast : d + 1 < m.capacity := by
    by_contra hge
    rw [show i + 1 + d = i + m.capacity by omega, Nat.add_mod_right, Nat.mod_eq_of_lt hi, he] at hfree
    cases hfree
  obtain ⟨m', hshift, hcore, hcap', hbag, hsize⟩ :=
    shiftBack_spec m.capacity d (i + (m.capacity - 1)) m e h.toCore hd hlast
      (by rw [hyi, he])
      (by
        rw [← hfree, show i + 1 + d = i + (1 + d) by omega, ← hy (1 + d)]
        congr 2
        omega)
  rw [hyi] at hshift
  refine ⟨m', ?_, ⟨hcore, ?_, ?_, ?_, ?_, ?_⟩, hbag⟩
  · rw [remove, if_neg hkey, find_present h he]
    simp only [Option.bind_eq_bind, Option.bind_some, hshift, Option.pure_def]
  · rw [hcap']
    exact h.large
  · have := h.keys
    rw [hbag, Multiset.map_cons, Multiset.nodup_cons] at this
    exact this.2
  · rw [hsize, h.size, hbag, Multiset.card_cons]
    rfl
  · have := h.room
    rw [hsize, hcap']
    omega
  · intro p hp
    exact h.nonNull p (by rw [hbag]; exact Multiset.mem_cons_of_mem hp)

theorem remove_absent {m : HashMap K V} (h : Table m) {key : K} (hkey : key ∉ m.bag.map Prod.fst) :
    m.remove key = some (m, false) := by
  rw [remove]
  split_ifs with hnull
  · rfl
  · rw [find_absent h (fun i e he hk => hkey (mem_keys.mpr ⟨i, e, he, hk⟩))]
    rfl

/-! ### Iterator -/

section Iterator

omit [DecidableEq K] [Key K]

/-- The pairs in the slots from `index` on. -/
def pairsFrom (m : HashMap K V) (index : ℕ) : List (K × V) :=
  (m.entries.drop index).filterMap fun entry => entry.map fun e => (e.key, e.value)

theorem pairsFrom_cons {m : HashMap K V} {index : ℕ} (hi : index < m.capacity) :
    m.pairsFrom index =
      ((m.slot index).map fun e => (e.key, e.value)).toList ++ m.pairsFrom (index + 1) := by
  have hslot : m.entries[index] = m.slot index := by
    rw [slot, List.getD_eq_getElem?_getD, List.getElem?_eq_getElem hi, Option.getD_some]
  rw [pairsFrom, List.drop_eq_getElem_cons hi, hslot]
  cases m.slot index <;> rfl

theorem pairsFrom_of_le {m : HashMap K V} {index : ℕ} (hi : m.capacity ≤ index) :
    m.pairsFrom index = [] := by
  rw [pairsFrom, List.drop_eq_nil_of_le hi, List.filterMap_nil]

theorem iteratorNext_spec (m : HashMap K V) (index : ℕ) :
    (m.iteratorNext index = none ∧ m.pairsFrom index = []) ∨
      ∃ pair next, m.iteratorNext index = some (pair, next) ∧ index < next ∧ next ≤ m.capacity ∧
        m.pairsFrom index = pair :: m.pairsFrom next := by
  fun_induction iteratorNext m index with
  | case1 index hi entry hslot =>
    refine .inr ⟨_, _, rfl, Nat.lt_succ_self _, hi, ?_⟩
    rw [pairsFrom_cons hi, hslot]
    rfl
  | case2 index hi hslot ih =>
    rw [pairsFrom_cons hi, hslot]
    rcases ih with hnone | ⟨pair, next, hsome, hlt, hle, hpairs⟩
    · exact .inl hnone
    · exact .inr ⟨pair, next, hsome, by omega, hle, hpairs⟩
  | case3 index hi => exact .inl ⟨rfl, pairsFrom_of_le (Nat.le_of_not_lt hi)⟩

theorem iterateFrom_eq (m : HashMap K V) : ∀ calls index, m.capacity < calls + index →
    index ≤ m.capacity → m.iterateFrom calls index = some (m.pairsFrom index)
  | 0, index, hcalls, hi => absurd hcalls (by omega)
  | calls + 1, index, hcalls, hi => by
    rw [iterateFrom]
    rcases iteratorNext_spec m index with ⟨hnone, hpairs⟩ | ⟨pair, next, hsome, hlt, hle, hpairs⟩
    · rw [hnone, hpairs]
    · rw [hsome, hpairs]
      simp only [iterateFrom_eq m calls next (by omega) hle, Option.map_some]

theorem iterate_eq (m : HashMap K V) : m.iterate = some m.pairs :=
  iterateFrom_eq m (m.capacity + 1) 0 (by omega) (Nat.zero_le _)

end Iterator

/-! ### The finite map -/

/-- The pairs are those of the finite map. -/
def Rep (m : HashMap K V) (f : K → Option V) : Prop :=
  ∀ key value, (key, value) ∈ m.bag ↔ f key = some value

section Agrees

variable [Pointer V] [DecidableEq V] {m : HashMap K V} {f : K → Option V}

omit [DecidableEq V] in
theorem Table.get_eq (h : Table m) (hrep : Rep m f) (key : K) :
    m.get key = some ((f key).getD null) := by
  rw [get]
  split_ifs with hnull
  · have hnone : f key = none := by
      rw [Option.eq_none_iff_forall_ne_some]
      intro value hvalue
      exact h.nonNull _ ((hrep key value).mpr hvalue) hnull
    rw [hnone, Option.getD_none]
  · cases hf : f key with
    | none =>
      rw [find_absent h, Option.map_some, Option.getD_none]
      rintro i e he rfl
      have := (hrep e.key e.value).mp (mem_bag.mpr ⟨i, e, he, rfl⟩)
      rw [hf] at this
      cases this
    | some value =>
      obtain ⟨i, e, he, hpair⟩ := mem_bag.mp ((hrep key value).mpr hf)
      obtain ⟨rfl, rfl⟩ := Prod.mk.inj hpair
      rw [find_present h he, Option.map_some, Option.getD_some]

theorem Table.agrees (h : Table m) (hrep : Rep m f)
    (hvalue : ∀ key value, f key = some value → value ≠ null) : m.Agrees f where
  get := h.get_eq hrep
  contains key := by
    rw [contains, h.get_eq hrep, Option.map_some]
    cases hf : f key with
    | none => simp
    | some value => simpa using hvalue key value hf
  size := by
    have hset : {key | (f key).isSome} = ((m.bag.map Prod.fst).toFinset : Set K) := by
      ext key
      simp only [Set.mem_ofPred_eq, Option.isSome_iff_exists, Finset.mem_coe, Multiset.mem_toFinset,
        Multiset.mem_map, Prod.exists, exists_and_right, exists_eq_right]
      exact exists_congr fun value => (hrep key value).symm
    rw [hset, Set.ncard_coe_finset, Multiset.toFinset_card_of_nodup h.keys, Multiset.card_map, h.size]
  iterator := by
    refine ⟨m.pairs, iterate_eq m, ?_, hrep⟩
    have := h.keys
    rwa [bag, Multiset.map_coe, Multiset.coe_nodup] at this
  robinHood := h.robinHood

/-- With a `NULL` key or value in the finite map, `hashmap_contains` is wrong. -/
theorem not_agrees_null {key : K} {value : V} (hf : f key = some value)
    (hnull : key = null ∨ value = null) : ¬ m.Agrees f := by
  intro h
  have hget := h.get key
  have hcontains := h.contains key
  rw [contains, hget, hf] at hcontains
  rcases hnull with hnull | hnull
  · rw [get, if_pos hnull, hf] at hget
    simp only [Option.getD_some, Option.some.injEq] at hget
    simp [← hget] at hcontains
  · simp [hnull] at hcontains

end Agrees

/-! ### Runs -/

theorem rep_stored {m m' : HashMap K V} {f : K → Option V} (h : Table m) (hrep : Rep m f) {key : K}
    {value : V} (hstored : Stored m m' key value) : Rep m' (Function.update f key (some value)) := by
  intro k v
  rcases hstored with ⟨hnew, hbag⟩ | ⟨old, rest, hold, hbag⟩
  · rw [hbag, Multiset.mem_cons, hrep]
    by_cases hk : k = key
    · subst hk
      have : f k ≠ some v := by
        intro hv
        exact hnew (Multiset.mem_map.mpr ⟨(k, v), (hrep k v).mpr hv, rfl⟩)
      simp [this, eq_comm]
    · simp [hk]
  · have hkeys := h.keys
    rw [hold, Multiset.map_cons, Multiset.nodup_cons] at hkeys
    rw [hbag, Multiset.mem_cons]
    by_cases hk : k = key
    · subst hk
      have : (k, v) ∉ rest := fun hmem => hkeys.1 (Multiset.mem_map.mpr ⟨(k, v), hmem, rfl⟩)
      simp [this, eq_comm]
    · have := hrep k v
      rw [hold, Multiset.mem_cons] at this
      simp only [Prod.mk.injEq, hk, false_and, false_or] at this ⊢
      rw [this, Function.update_of_ne hk]

theorem rep_removed {m m' : HashMap K V} {f : K → Option V} (h : Table m) (hrep : Rep m f) {key : K}
    {value : V} (hbag : m.bag = (key, value) ::ₘ m'.bag) : Rep m' (Function.update f key none) := by
  intro k v
  have hkeys := h.keys
  rw [hbag, Multiset.map_cons, Multiset.nodup_cons] at hkeys
  by_cases hk : k = key
  · subst hk
    have : (k, v) ∉ m'.bag := fun hmem => hkeys.1 (Multiset.mem_map.mpr ⟨(k, v), hmem, rfl⟩)
    simp [this]
  · have := hrep k v
    rw [hbag, Multiset.mem_cons] at this
    simp only [Prod.mk.injEq, hk, false_and, false_or] at this
    rw [this, Function.update_of_ne hk]

variable [Pointer V]

/-- Between the operations of a run. -/
structure Sound (m : HashMap K V) (f : K → Option V) : Prop where
  table : Table m
  rep : Rep m f
  value : ∀ key value, f key = some value → value ≠ null

theorem step_sound {m : HashMap K V} {f : K → Option V} (h : Sound m f) (op : Op K V)
    (hop : op.NonNull) : ∃ m', m.step op = some m' ∧ Sound m' (op.meaning f) := by
  cases op with
  | insert key value =>
    obtain ⟨m', hins, htable, hstored⟩ := insert_spec h.table value hop.1
    refine ⟨m', by rw [step, hins, Option.map_some], htable, rep_stored h.table h.rep hstored, ?_⟩
    intro k v hv
    simp only [Op.meaning, Function.update_apply] at hv
    split_ifs at hv with hk
    · cases hv
      exact hop.2
    · exact h.value k v hv
  | remove key =>
    have hvalue : ∀ k v, (Op.remove key : Op K V).meaning f k = some v → v ≠ null := by
      intro k v hv
      simp only [Op.meaning, Function.update_apply] at hv
      split_ifs at hv with hk
      exact h.value k v hv
    by_cases hmem : key ∈ m.bag.map Prod.fst
    · obtain ⟨⟨key, value⟩, hpair, rfl⟩ := Multiset.mem_map.mp hmem
      obtain ⟨m', hrem, htable, hbag⟩ := remove_present h.table hpair
      exact ⟨m', by rw [step, hrem, Option.map_some], htable, rep_removed h.table h.rep hbag, hvalue⟩
    · refine ⟨m, by rw [step, remove_absent h.table hmem, Option.map_some], h.table, ?_, hvalue⟩
      have hnone : f key = none := by
        rw [Option.eq_none_iff_forall_ne_some]
        intro value hv
        exact hmem (Multiset.mem_map.mpr ⟨(key, value), (h.rep key value).mpr hv, rfl⟩)
      rw [Op.meaning, ← hnone, Function.update_eq_self]
      exact h.rep
  | get key => exact ⟨m, rfl, h⟩
  | contains key => exact ⟨m, rfl, h⟩
  | clear =>
    have htable : Table m.clear := table_empty h.table.large
    refine ⟨m.clear, rfl, htable, ?_, fun _ _ hv => by cases hv⟩
    intro key value
    have hzero : m.clear.bag = 0 := by
      rw [← Multiset.card_eq_zero, ← htable.size]
      rfl
    simp [hzero, Op.meaning]

theorem run_sound : ∀ (ops : List (Op K V)) (m : HashMap K V) (f : K → Option V), Sound m f →
    (∀ op ∈ ops, op.NonNull) → ∃ m', m.run ops = some m' ∧ Sound m' (ops.foldl Op.meaning f)
  | [], m, f, h, _ => ⟨m, rfl, h⟩
  | op :: ops, m, f, h, hops => by
    obtain ⟨m₁, hstep, h₁⟩ := step_sound h op (hops op List.mem_cons_self)
    obtain ⟨m', hrun, h'⟩ := run_sound ops m₁ _ h₁ fun op hop => hops op (List.mem_cons_of_mem _ hop)
    refine ⟨m', ?_, h'⟩
    rw [run, List.foldlM_cons, hstep]
    exact hrun

omit [DecidableEq K] in
theorem create_sound (initialCapacity : ℕ) :
    Sound (create initialCapacity : HashMap K V) fun _ => none := by
  have htable : Table (create initialCapacity : HashMap K V) := by
    refine table_empty ?_
    rw [defaultCapacity]
    split_ifs <;> omega
  refine ⟨htable, ?_, fun _ _ hv => by cases hv⟩
  intro key value
  have hzero : (create initialCapacity : HashMap K V).bag = 0 := by
    rw [← Multiset.card_eq_zero, ← htable.size]
    rfl
  simp [hzero]

/-- The map agrees with the finite map after every operation of a run exactly when no insert of the run has
a `NULL` key or a `NULL` value. -/
theorem agrees_iff_nonNull [DecidableEq V] (initialCapacity : ℕ) (ops : List (Op K V)) :
    (∀ done, done <+: ops → ∃ m, run (create initialCapacity) done = some m ∧
      m.Agrees (meaning done)) ↔ ∀ op ∈ ops, op.NonNull := by
  constructor
  · intro h op hop
    cases op with
    | insert key value =>
      obtain ⟨before, after, rfl⟩ := List.append_of_mem hop
      obtain ⟨m, -, hagrees⟩ := h (before ++ [.insert key value])
        ⟨after, by rw [List.append_assoc, List.singleton_append]⟩
      have hf : meaning (before ++ [.insert key value]) key = some value := by
        simp [meaning, Op.meaning]
      rw [Op.NonNull, ← not_or]
      exact fun hnull => not_agrees_null hf hnull hagrees
    | _ => trivial
  · intro hops done hdone
    obtain ⟨m, hrun, hsound⟩ := run_sound done _ _ (create_sound initialCapacity)
      fun op hop => hops op (hdone.subset hop)
    exact ⟨m, hrun, hsound.table.agrees hsound.rep hsound.value⟩

/-- The integer 0 is refused as a key, and not seen as a value. -/
theorem not_agrees_zero :
    (¬ ∃ m : HashMap UInt64 UInt64, run (create 16) [.insert 0 7] = some m ∧
      m.Agrees (meaning [.insert 0 7])) ∧
    ¬ ∃ m : HashMap UInt64 UInt64, run (create 16) [.insert 7 0] = some m ∧
      m.Agrees (meaning [.insert 7 0]) := by
  constructor
  · rintro ⟨m, -, h⟩
    exact not_agrees_null (by decide : meaning [Op.insert (0 : UInt64) (7 : UInt64)] 0 = some 7)
      (.inl rfl) h
  · rintro ⟨m, -, h⟩
    exact not_agrees_null (by decide : meaning [Op.insert (7 : UInt64) (0 : UInt64)] 7 = some 0)
      (.inr rfl) h

end HashMap

end Qjs
