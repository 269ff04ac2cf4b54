import Qjs.Proofs.PropsDelete

/-!
# Property tables: the list of properties

`Represents a t l` says that the table `t` is well formed and holds the properties of `l`, in order.
Each operation is a list operation on it: a collection renames words (`Represents.gc`), a store
changes one value (`Represents.setValue`), a creation appends (`Represents.create`) and a deletion
takes out one key (`Represents.delete`).
-/

namespace Qjs

open Linked

variable {a : Arch} {t t' : ValueArray} {hm n m i k : ℕ} {chain : ℕ → List ℕ} {l : List Entry}

def Represents (a : Arch) (t : ValueArray) (l : List Entry) : Prop :=
  ∃ hm n m chain, PropsOk a t hm n m chain ∧ entriesOf t (2 + (hm + 1)) m = l

theorem Represents.keys_nodup (h : Represents a t l) : (l.map Entry.key).Nodup := by
  obtain ⟨hm, n, m, chain, hp, rfl⟩ := h
  exact hp.slots.keys_nodup

/-- The slot at `pos` holds `e`. -/
def SlotHolds (t : ValueArray) (pos : ℕ) (e : Entry) : Prop :=
  t.arr pos = e.key ∧ t.arr (pos + 1) = e.value ∧ propType (t.arr (pos + 2)) = e.type

/-- A lookup finds the property of the list with the key. -/
theorem Represents.find (h : Represents a t l) (k : ℕ) :
    (∃ e ∈ l, e.key = k ∧ ∃ pos, findOwnProperty a t k = some pos ∧ SlotHolds t pos e)
      ∨ (findOwnProperty a t k = none ∧ ∀ e ∈ l, e.key ≠ k) := by
  obtain ⟨hm, n, m, chain, hp, rfl⟩ := h
  rcases hp.find_spec k with ⟨i, hi, hu, hk, hfind⟩ | ⟨hfind, hall⟩
  · left
    exact ⟨entryAt t (2 + (hm + 1)) i, mem_entriesOf.2 ⟨i, hi, hu, rfl⟩, hk, _, hfind, rfl, rfl, rfl⟩
  · right
    refine ⟨hfind, ?_⟩
    intro e he
    obtain ⟨i, hi, hu, rfl⟩ := mem_entriesOf.1 he
    exact hall i hi hu

theorem Represents.find_none_iff (h : Represents a t l) :
    findOwnProperty a t k = none ↔ ∀ e ∈ l, e.key ≠ k := by
  rcases h.find k with ⟨e, he, hk, pos, hfind, -⟩ | ⟨hfind, hall⟩
  · rw [hfind]
    simp only [reduceCtorEq, false_iff, not_forall]
    exact ⟨e, he, fun hne => hne hk⟩
  · exact ⟨fun _ => hall, fun _ => hfind⟩

/-! ### Collections -/

/-- What a collection does to pointers: they stay pointers, apart, and those to ROM do not move. -/
structure RelocOk (a : Arch) (isRomPtr : ℕ → Bool) (reloc : ℕ → ℕ) : Prop where
  ptr : ∀ w, w % a.jsw = jsTagPtr → reloc w % a.jsw = jsTagPtr
  inj : ∀ w w', w % a.jsw = jsTagPtr → w' % a.jsw = jsTagPtr → reloc w = reloc w' → w = w'
  rom : ∀ w, w % a.jsw = jsTagPtr → isRomPtr w = true → reloc w = w

variable {isRomPtr : ℕ → Bool} {reloc : ℕ → ℕ}

theorem RelocOk.relocWord_inj (hr : RelocOk a isRomPtr reloc) {w w' : ℕ}
    (h : relocWord a reloc w = relocWord a reloc w') : w = w' := by
  unfold relocWord at h
  split_ifs at h with h1 h2 h2
  · exact hr.inj w w' h1 h2 h
  · exact absurd (h ▸ hr.ptr w h1) h2
  · exact absurd (h ▸ hr.ptr w' h2) h1
  · exact h

theorem relocWord_of_even {w : ℕ} (a : Arch) (reloc : ℕ → ℕ) (h : w % 2 = 0) :
    relocWord a reloc w = w := by
  refine if_neg ?_
  cases a <;> simp only [Arch.jsw, jsTagPtr] <;> omega

theorem relocWord_uninitialized (a : Arch) (reloc : ℕ → ℕ) :
    relocWord a reloc uninitializedWord = uninitializedWord := by
  refine if_neg ?_
  cases a <;> simp [Arch.jsw, jsTagPtr, uninitializedWord, jsTagUninitialized]

theorem RelocOk.relocWord_eq_uninitialized_iff (hr : RelocOk a isRomPtr reloc) {w : ℕ} :
    relocWord a reloc w = uninitializedWord ↔ w = uninitializedWord := by
  constructor
  · intro h
    rw [← relocWord_uninitialized a reloc] at h
    exact hr.relocWord_inj h
  · rintro rfl
    exact relocWord_uninitialized a reloc

def Entry.rename (a : Arch) (relocs : List (ℕ → ℕ)) (e : Entry) : Entry :=
  { e with key := relocWords a relocs e.key, value := relocWords a relocs e.value }

theorem entriesOf_rename {b : ℕ} (hu : ∀ i < m, (Used t' b i ↔ Used t b i))
    (he : ∀ i < m, Used t b i → entryAt t' b i = (entryAt t b i).rename a [reloc]) :
    entriesOf t' b m = (entriesOf t b m).map (Entry.rename a [reloc]) := by
  induction m with
  | zero => rfl
  | succ m ih =>
    rw [entriesOf_succ, entriesOf_succ, List.map_append,
      ih (fun i hi => hu i (Nat.lt_succ_of_lt hi)) (fun i hi => he i (Nat.lt_succ_of_lt hi))]
    have hum := hu m (Nat.lt_succ_self m)
    by_cases h : Used t b m
    · rw [if_pos h, if_pos (hum.2 h), he m (Nat.lt_succ_self m) h, List.map_singleton]
    · rw [if_neg h, if_neg (mt hum.1 h), List.map_nil]

/-- The words of a table are renamed; the chains may be wrong then. -/
def ValueArray.relocate (a : Arch) (reloc : ℕ → ℕ) (t : ValueArray) : ValueArray :=
  { t with arr := fun i => relocWord a reloc (t.arr i) }

theorem linkAt_relocate (hc : ChainsOk a t hm m chain) (hi : i < m)
    (hu : Used t (2 + (hm + 1)) i) :
    linkAt (t.relocate a reloc) (2 + (hm + 1)) i = linkAt t (2 + (hm + 1)) i := by
  have heven := hc.even i hi hu
  refine relocWord_of_even a reloc ?_
  unfold hashNext linkAt at heven
  omega

theorem used_relocate (hr : RelocOk a isRomPtr reloc) (b i : ℕ) :
    Used (t.relocate a reloc) b i ↔ Used t b i := not_congr hr.relocWord_eq_uninitialized_iff

theorem entries_relocate (hr : RelocOk a isRomPtr reloc) (hc : ChainsOk a t hm m chain) :
    entriesOf (t.relocate a reloc) (2 + (hm + 1)) m
      = (entriesOf t (2 + (hm + 1)) m).map (Entry.rename a [reloc]) := by
  refine entriesOf_rename (fun i _ => used_relocate hr _ i) ?_
  intro i hi hu
  unfold entryAt
  rw [linkAt_relocate hc hi hu]
  rfl

theorem PropsOk.relocate_slots (hr : RelocOk a isRomPtr reloc) (hp : PropsOk a t hm n m chain) :
    SlotsOk (t.relocate a reloc) hm n m := by
  have hs := hp.slots
  have hshort : ∀ x, relocWord a reloc (shortIntWord x) = shortIntWord x :=
    fun x => relocWord_of_even a reloc (by unfold shortIntWord; omega)
  refine ⟨?_, hs.size_eq, hs.size_le, hs.m_le, ?_, ?_, ?_⟩
  · exact (congrArg (relocWord a reloc) hs.mask).trans (hshort hm)
  · rw [entries_relocate hr hp.chains, List.length_map]
    exact (congrArg (relocWord a reloc) hs.count).trans (hshort _)
  · intro i hi
    exact (used_relocate hr _ i).2 (hs.last_used i hi)
  · intro i j hi hj hu he
    exact hs.keys i j hi hj ((used_relocate hr _ i).1 hu) (hr.relocWord_inj he)

theorem PropsOk.relocate_free (hr : RelocOk a isRomPtr reloc) (hp : PropsOk a t hm n m chain) :
    FreeOk (t.relocate a reloc) hm n m := by
  intro hlt
  obtain ⟨h1, h2⟩ := hp.free hlt
  refine ⟨mt (used_relocate hr _ _).1 h1, ?_⟩
  have hsame : linkAt (t.relocate a reloc) (2 + (hm + 1)) (n - 1)
      = linkAt t (2 + (hm + 1)) (n - 1) := by
    refine relocWord_of_even a reloc ?_
    unfold hashNext linkAt at h2
    omega
  rw [hsame, h2]

/-- A collection keeps the layout and renames the words of the properties. -/
theorem PropsOk.gc (hr : RelocOk a isRomPtr reloc) (hp : PropsOk a t hm n m chain) :
    (∃ chain', PropsOk a (jsRehashProps a (t.relocate a reloc) true) hm n m chain')
      ∧ entriesOf (jsRehashProps a (t.relocate a reloc) true) (2 + (hm + 1)) m
        = (entriesOf t (2 + (hm + 1)) m).map (Entry.rename a [reloc]) := by
  have hs := hp.relocate_slots hr
  by_cases hzero : hm = 0
  · -- a single chain, which does not depend on the keys
    subst hzero
    have hskip : jsRehashProps a (t.relocate a reloc) true = t.relocate a reloc := by
      simp [jsRehashProps, hs.hashMask_eq]
    rw [hskip]
    have hc := hp.chains
    have hhead : ∀ h ≤ 0, (t.relocate a reloc).arr (2 + h) = t.arr (2 + h) :=
      fun h hh => relocWord_of_even a reloc (hc.head h hh).1
    have hnext : ∀ h ≤ 0, ∀ p ∈ chain h, nextSlot (t.relocate a reloc) p = nextSlot t p := by
      intro h hh p hp'
      obtain ⟨i, hi, hu, rfl, -⟩ := (hc.mem h hh p).1 hp'
      exact congrArg (fun w => linkOf (hashNext w)) (linkAt_relocate hc hi hu)
    refine ⟨⟨chain, hs, ⟨?_, ?_, ?_, ?_, hc.nodup⟩, hp.relocate_free hr⟩, entries_relocate hr hc⟩
    · intro h hh
      rw [hhead h hh]
      exact (hc.linked h hh).congr (hnext h hh)
    · intro h hh
      rw [hhead h hh]
      exact hc.head h hh
    · intro i hi hu
      have hu' := (used_relocate hr _ i).1 hu
      rw [linkAt_relocate hc hi hu']
      exact hc.even i hi hu'
    · intro h hh p
      rw [hc.mem h hh p]
      simp only [used_relocate hr, Nat.and_zero]
  · have hrehash : jsRehashProps a (t.relocate a reloc) true
        = jsRehashProps a (t.relocate a reloc) false := by
      unfold jsRehashProps
      simp [hs.hashMask_eq, hzero]
    rw [hrehash]
    obtain ⟨⟨chain', hc'⟩, hsame⟩ := jsRehashProps_ok a hs
    refine ⟨⟨chain', hsame.slotsOk hs, hc', hsame.freeOk (hp.relocate_free hr)⟩, ?_⟩
    rw [hsame.entries, entries_relocate hr hp.chains]

theorem relocWords_append (rs rs' : List (ℕ → ℕ)) (w : ℕ) :
    relocWords a (rs ++ rs') w = relocWords a rs' (relocWords a rs w) := by
  simp [relocWords]

theorem Entry.rename_append (rs rs' : List (ℕ → ℕ)) (e : Entry) :
    e.rename a (rs ++ rs') = (e.rename a rs).rename a rs' := by
  simp only [Entry.rename, relocWords_append]

theorem Entry.rename_nil : Entry.rename a [] = id := rfl

theorem relocWords_inj {rs : List (ℕ → ℕ)} (hr : ∀ r ∈ rs, RelocOk a isRomPtr r) {w w' : ℕ}
    (h : relocWords a rs w = relocWords a rs w') : w = w' := by
  induction rs generalizing w w' with
  | nil => exact h
  | cons r rs ih =>
    have h' := ih (fun r' hr' => hr r' (List.mem_cons_of_mem r hr')) h
    exact (hr r List.mem_cons_self).relocWord_inj h'

theorem relocWords_uninitialized_iff {rs : List (ℕ → ℕ)} (hr : ∀ r ∈ rs, RelocOk a isRomPtr r)
    {w : ℕ} : relocWords a rs w = uninitializedWord ↔ w = uninitializedWord := by
  have hu : relocWords a rs uninitializedWord = uninitializedWord := by
    clear hr
    induction rs with
    | nil => rfl
    | cons r rs ih =>
      change relocWords a rs (relocWord a r uninitializedWord) = _
      rw [relocWord_uninitialized]
      exact ih
  constructor
  · intro h
    rw [← hu] at h
    exact relocWords_inj hr h
  · rintro rfl
    exact hu

theorem absent_rename {rs : List (ℕ → ℕ)} (hr : ∀ r ∈ rs, RelocOk a isRomPtr r)
    (h : ∀ e ∈ l, e.key ≠ k) : ∀ e ∈ l.map (Entry.rename a rs), e.key ≠ relocWords a rs k := by
  intro e he
  obtain ⟨e', he', rfl⟩ := List.mem_map.1 he
  exact fun hk => h e' he' (relocWords_inj hr hk)

/-! ### Stores -/

def mapSet (l : List Entry) (k v : ℕ) : List Entry :=
  l.map fun e => if e.key = k then { e with value := v } else e

/-- The words that are not values or links of slots are as before, and the links lead to the same
slots. -/
structure SameLayout (t t' : ValueArray) (hm : ℕ) : Prop where
  size_eq : t'.size = t.size
  count_eq : t'.arr 0 = t.arr 0
  mask_eq : t'.arr 1 = t.arr 1
  head : ∀ h ≤ hm, t'.arr (2 + h) = t.arr (2 + h)
  key : ∀ i, keyAt t' (2 + (hm + 1)) i = keyAt t (2 + (hm + 1)) i
  link : ∀ i, hashNext (linkAt t' (2 + (hm + 1)) i) = hashNext (linkAt t (2 + (hm + 1)) i)

theorem SameLayout.used (h : SameLayout t t' hm) (i : ℕ) :
    Used t' (2 + (hm + 1)) i ↔ Used t (2 + (hm + 1)) i := by
  unfold Used
  rw [h.key i]

theorem SameLayout.entries_length (h : SameLayout t t' hm) (m : ℕ) :
    (entriesOf t' (2 + (hm + 1)) m).length = (entriesOf t (2 + (hm + 1)) m).length := by
  unfold entriesOf
  simp only [List.length_map, h.used]

theorem SameLayout.propsOk (h : SameLayout t t' hm) (hp : PropsOk a t hm n m chain) :
    PropsOk a t' hm n m chain := by
  have hs := hp.slots
  refine ⟨⟨h.mask_eq.trans hs.mask, h.size_eq.trans hs.size_eq, ?_, hs.m_le, ?_, ?_, ?_⟩,
    hp.chains.congr (fun i _ => h.key i) (fun i _ => h.link i) h.head, ?_⟩
  · rw [h.size_eq]
    exact hs.size_le
  · rw [h.count_eq, h.entries_length, hs.count]
  · intro i hi
    exact (h.used i).2 (hs.last_used i hi)
  · intro i j hi hj hu he
    rw [h.key, h.key] at he
    exact hs.keys i j hi hj ((h.used i).1 hu) he
  · intro hlt
    rw [h.used, h.link]
    exact hp.free hlt

/-- The entries when one slot changes but not its key. -/
theorem entriesOf_update {b i₀ : ℕ} {f : Entry → Entry} (hu : ∀ i, Used t' b i ↔ Used t b i)
    (he : ∀ i, i ≠ i₀ → entryAt t' b i = entryAt t b i)
    (he₀ : entryAt t' b i₀ = f (entryAt t b i₀)) : ∀ {m : ℕ},
    (∀ i < m, Used t b i → keyAt t b i = keyAt t b i₀ → i = i₀) →
    entriesOf t' b m = (entriesOf t b m).map fun e => if e.key = keyAt t b i₀ then f e else e
  | 0, _ => rfl
  | m + 1, hkeys => by
    rw [entriesOf_succ, entriesOf_succ, List.map_append,
      entriesOf_update hu he he₀ fun i hi => hkeys i (Nat.lt_succ_of_lt hi)]
    congr 1
    simp only [hu]
    by_cases hum : Used t b m
    · rw [if_pos hum, if_pos hum, List.map_singleton]
      by_cases hi : m = i₀
      · subst hi
        rw [he₀, if_pos (show (entryAt t b m).key = keyAt t b m from rfl)]
      · have hne : (entryAt t b m).key ≠ keyAt t b i₀ :=
          fun h => hi (hkeys m (Nat.lt_succ_self m) hum h)
        rw [he m hi, if_neg hne]
    · rw [if_neg hum, if_neg hum, List.map_nil]

/-- A store through the slot that a lookup has found. -/
theorem Represents.setValue (h : Represents a t l) {pos : ℕ} (v : ℕ)
    (hfind : findOwnProperty a t k = some pos) :
    Represents a (t.set (pos + 1) v) (mapSet l k v) := by
  obtain ⟨hm, n, m, chain, hp, rfl⟩ := h
  rcases hp.find_spec k with ⟨i₀, hi₀, hu₀, hk, hsome⟩ | ⟨hnone, -⟩
  swap
  · rw [hnone] at hfind
    cases hfind
  obtain rfl : 2 + (hm + 1) + 3 * i₀ = pos := by
    rw [hsome] at hfind
    exact Option.some.inj hfind
  have harr : ∀ j, j ≠ 2 + (hm + 1) + 3 * i₀ + 1 →
      (t.set (2 + (hm + 1) + 3 * i₀ + 1) v).arr j = t.arr j := by
    intro j hj
    rw [ValueArray.arr_set, if_neg hj]
  have hlay : SameLayout t (t.set (2 + (hm + 1) + 3 * i₀ + 1) v) hm := by
    refine ⟨rfl, harr _ (by omega), harr _ (by omega), fun h hh => harr _ (by omega),
      fun i => harr _ (by omega), fun i => congrArg hashNext (harr _ (by omega))⟩
  refine ⟨hm, n, m, chain, hlay.propsOk hp, ?_⟩
  rw [← hk]
  refine entriesOf_update hlay.used ?_ ?_ ?_
  · intro i hi
    unfold entryAt keyAt valueAt linkAt
    rw [harr _ (by omega), harr _ (by omega), harr _ (by omega)]
  · have hvalue : valueAt (t.set (2 + (hm + 1) + 3 * i₀ + 1) v) (2 + (hm + 1)) i₀ = v := by
      unfold valueAt
      rw [ValueArray.arr_set, if_pos rfl]
    unfold entryAt
    rw [hlay.key, hvalue]
    unfold linkAt
    rw [harr _ (by omega)]
  · intro i hi hu he
    exact hp.slots.keys i i₀ hi hi₀ hu he

/-! ### Fresh tables -/

theorem jsAllocProps_ok (a : Arch) {n : ℕ} (hn : 1 ≤ n) (hmax : (jsAllocProps n).size ≤ jsValueArraySizeMax) :
    PropsOk a (jsAllocProps n) (2 ^ getPropHashSizeLog2 n - 1) n 0 fun _ => [] := by
  have hpos := Nat.two_pow_pos (getPropHashSizeLog2 n)
  simp only [jsAllocProps] at hmax ⊢
  generalize 2 ^ getPropHashSizeLog2 n - 1 = hm at *
  unfold jsValueArraySizeMax at hmax
  refine ⟨⟨?_, ?_, hmax, by omega, ?_, ?_, ?_⟩, ⟨?_, ?_, by simp, by simp, by simp⟩, ?_⟩
  · simp
  · simp only
    omega
  · rfl
  · intro i hi
    omega
  · intro i j hi
    omega
  · intro h hh
    simp only
    rw [if_neg (by omega), if_neg (by omega), if_pos (by omega)]
    trivial
  · intro h hh
    simp only
    rw [if_neg (by omega), if_neg (by omega), if_pos (by omega)]
    norm_num
  · intro _
    unfold Used keyAt linkAt
    simp only
    constructor
    · rw [if_neg (by omega), if_neg (by omega), if_neg (by omega), if_pos (by omega)]
      simp
    · rw [if_neg (by omega), if_neg (by omega), if_neg (by omega), if_neg (by omega),
        if_pos (by omega), hashNext_setHashNext]
      omega

theorem Represents.empty (a : Arch) : Represents a emptyProps [] :=
  ⟨0, 0, 0, _, emptyProps_ok a, rfl⟩

theorem Represents.allocProps (a : Arch) {n : ℕ} (hn : 1 ≤ n)
    (hmax : (jsAllocProps n).size ≤ jsValueArraySizeMax) : Represents a (jsAllocProps n) [] :=
  ⟨_, n, 0, _, jsAllocProps_ok a hn hmax, rfl⟩

/-! ### Tables in ROM -/

def Entry.resolve (getSpecialProp : ℕ → ℕ) (e : Entry) : Entry :=
  if e.type = .special then { e with value := getSpecialProp e.value, type := .normal } else e

theorem Entry.resolve_key (g : ℕ → ℕ) (e : Entry) : (e.resolve g).key = e.key := by
  unfold Entry.resolve
  split_ifs <;> rfl

theorem Entry.resolve_type_ne (g : ℕ → ℕ) (e : Entry) : (e.resolve g).type ≠ .special := by
  unfold Entry.resolve
  split_ifs with h
  · simp
  · exact h

theorem resolve_eq_self {g : ℕ → ℕ} (h : ∀ e ∈ l, e.type ≠ .special) : l.map (Entry.resolve g) = l := by
  have hid : ∀ e ∈ l, Entry.resolve g e = id e := fun e he => if_neg (h e he)
  rw [List.map_congr_left hid, List.map_id]

/-- The loop of `js_update_props` when it has reached slot `i`. -/
structure Converted (g : ℕ → ℕ) (t t' : ValueArray) (hm i : ℕ) : Prop where
  layout : SameLayout t t' hm
  done : ∀ j < i, entryAt t' (2 + (hm + 1)) j = (entryAt t (2 + (hm + 1)) j).resolve g
  rest : ∀ j, i ≤ j → entryAt t' (2 + (hm + 1)) j = entryAt t (2 + (hm + 1)) j

theorem Converted.step {g : ℕ → ℕ} {u : ValueArray} (hc : Converted g t t' hm i)
    (hu : u = if propType (t'.arr (2 + (hm + 1) + 3 * i + 2)) = .special then
      (t'.set (2 + (hm + 1) + 3 * i + 1) (g (t'.arr (2 + (hm + 1) + 3 * i + 1)))).set
        (2 + (hm + 1) + 3 * i + 2) (setPropType (t'.arr (2 + (hm + 1) + 3 * i + 2)) .normal)
      else t') : Converted g t u hm (i + 1) := by
  have hentry := hc.rest i le_rfl
  have htype : propType (t'.arr (2 + (hm + 1) + 3 * i + 2)) = (entryAt t (2 + (hm + 1)) i).type :=
    congrArg Entry.type hentry
  by_cases hs : propType (t'.arr (2 + (hm + 1) + 3 * i + 2)) = .special
  · rw [if_pos hs] at hu
    have harr : ∀ j, u.arr j = if j = 2 + (hm + 1) + 3 * i + 2 then
        setPropType (t'.arr (2 + (hm + 1) + 3 * i + 2)) .normal
        else if j = 2 + (hm + 1) + 3 * i + 1 then g (t'.arr (2 + (hm + 1) + 3 * i + 1))
        else t'.arr j := by
      intro j
      rw [hu, ValueArray.arr_set, ValueArray.arr_set]
    have hother : ∀ j, j ≠ i → entryAt u (2 + (hm + 1)) j = entryAt t' (2 + (hm + 1)) j := by
      intro j hj
      unfold entryAt keyAt valueAt linkAt
      rw [harr, if_neg (by omega), if_neg (by omega), harr, if_neg (by omega), if_neg (by omega),
        harr, if_neg (by omega), if_neg (by omega)]
    have hlay := hc.layout
    refine ⟨⟨?_, ?_, ?_, ?_, ?_, ?_⟩, ?_, ?_⟩
    · rw [hu]
      exact hlay.size_eq
    · rw [harr, if_neg (by omega), if_neg (by omega), hlay.count_eq]
    · rw [harr, if_neg (by omega), if_neg (by omega), hlay.mask_eq]
    · intro h hh
      rw [harr, if_neg (by omega), if_neg (by omega), hlay.head h hh]
    · intro j
      rw [← hlay.key j]
      unfold keyAt
      rw [harr, if_neg (by omega), if_neg (by omega)]
    · intro j
      rw [← hlay.link j]
      unfold linkAt
      rw [harr]
      by_cases hj : j = i
      · rw [if_pos (by omega), hashNext_setPropType, hj]
      · rw [if_neg (by omega), if_neg (by omega)]
    · intro j hj
      rcases Nat.lt_succ_iff_lt_or_eq.1 hj with hj | rfl
      · rw [hother j hj.ne, hc.done j hj]
      · have hkey : t'.arr (2 + (hm + 1) + 3 * j) = (entryAt t (2 + (hm + 1)) j).key :=
          congrArg Entry.key hentry
        have hvalue : t'.arr (2 + (hm + 1) + 3 * j + 1) = (entryAt t (2 + (hm + 1)) j).value :=
          congrArg Entry.value hentry
        rw [Entry.resolve, if_pos (htype.symm.trans hs), ← hkey, ← hvalue]
        unfold entryAt keyAt valueAt linkAt
        rw [harr, if_neg (by omega), if_neg (by omega), harr, if_neg (by omega), if_pos rfl, harr,
          if_pos rfl, propType_setPropType]
    · intro j hj
      rw [hother j (by omega), hc.rest j (by omega)]
  · rw [if_neg hs] at hu
    subst hu
    refine ⟨hc.layout, ?_, fun j hj => hc.rest j (by omega)⟩
    intro j hj
    rcases Nat.lt_succ_iff_lt_or_eq.1 hj with hj | rfl
    · exact hc.done j hj
    · rw [Entry.resolve, if_neg (htype ▸ hs), hentry]

theorem convertLoop_ok (g : ℕ → ℕ) : ∀ (n i : ℕ) {t' : ValueArray}, Converted g t t' hm i →
    Converted g t (convertLoop g hm n i t') hm (i + n)
  | 0, i, t', hc => hc
  | n + 1, i, t', hc => by
    have h := convertLoop_ok g n (i + 1) (hc.step rfl)
    rw [show i + 1 + n = i + (n + 1) by omega] at h
    exact h

/-- The copy of a table in ROM. -/
theorem PropsOk.convert (hp : PropsOk a t hm n m chain)
    (hfull : t.size = 2 + (t.hashMask + 1) + 3 * (entriesOf t (2 + (hm + 1)) m).length) (g : ℕ → ℕ) :
    SameLayout t (convertLoop g t.hashMask t.propCount 0 t) hm
      ∧ entriesOf (convertLoop g t.hashMask t.propCount 0 t) (2 + (hm + 1)) m
        = (entriesOf t (2 + (hm + 1)) m).map (Entry.resolve g) := by
  have hs := hp.slots
  have hsize := hs.size_eq
  have hlen := entriesOf_length_le t (2 + (hm + 1)) m
  have hmn := hs.m_le
  rw [hs.hashMask_eq] at hfull
  -- no slot is a hole
  obtain rfl : n = m := by omega
  have hused : ∀ i < n, Used t (2 + (hm + 1)) i := by
    intro i hi
    by_contra hnot
    have h2 : ((List.range n).filter fun i => Used t (2 + (hm + 1)) i).length
        < (List.range n).length := by
      refine List.length_filter_lt_length_iff_exists.2 ⟨i, List.mem_range.2 hi, ?_⟩
      simpa using hnot
    unfold entriesOf at hfull
    rw [List.length_map] at hfull
    rw [List.length_range] at h2
    omega
  have hcount : t.propCount = n := by
    rw [hs.propCount_eq]
    omega
  rw [hs.hashMask_eq, hcount]
  have hstart : Converted g t t hm 0 :=
    ⟨⟨rfl, rfl, rfl, fun _ _ => rfl, fun _ => rfl, fun _ => rfl⟩, by simp, fun _ _ => rfl⟩
  have hdone := convertLoop_ok g n 0 hstart
  rw [Nat.zero_add] at hdone
  refine ⟨hdone.layout, ?_⟩
  rw [entriesOf_all_used hused, entriesOf_all_used fun i hi => (hdone.layout.used i).2 (hused i hi),
    List.map_map]
  apply List.map_congr_left
  intro i hi
  exact hdone.done i (List.mem_range.1 hi)

end Qjs
