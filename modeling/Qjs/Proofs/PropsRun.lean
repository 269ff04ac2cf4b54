import Qjs.Proofs.PropsMap

/-!
# Property tables: runs

`MapStep` is what the events mean for the list of properties: a new key goes to the end, a store
keeps the place, a deletion takes one key out, and an allocation may rename pointers on the way or
fail. `propStep_refines` says that one event of the code is such a step, and `propRun_refines` that
a run is a sequence of them, with a well-formed table in every state.
-/

namespace Qjs

open Linked

variable {a : Arch} {isRomPtr : ℕ → Bool} {p : Props} {l l' : List Entry} {k v : ℕ}

/-! ### The invariant -/

/-- A word that no collection changes. -/
def RomWord (a : Arch) (isRomPtr : ℕ → Bool) (w : ℕ) : Prop :=
  w % a.jsw = jsTagPtr → isRomPtr w = true

inductive PropsInv (a : Arch) (isRomPtr : ℕ → Bool) : Props → List Entry → Prop
  | empty : PropsInv a isRomPtr .empty []
  | rom {t : ValueArray} {l : List Entry} : Represents a t l →
      t.size = 2 + (t.hashMask + 1) + 3 * l.length →
      (∀ e ∈ l, RomWord a isRomPtr e.key ∧ RomWord a isRomPtr e.value) →
      PropsInv a isRomPtr (.rom t) l
  | ram {t : ValueArray} {l : List Entry} : Represents a t l → (∀ e ∈ l, e.type ≠ .special) →
      PropsInv a isRomPtr (.ram t) l

theorem PropsInv.represents (h : PropsInv a isRomPtr p l) : Represents a p.table l := by
  cases h with
  | empty => exact .empty a
  | rom h => exact h
  | ram h => exact h

/-- The table can be written to. -/
def Props.IsRam : Props → Prop
  | rom _ => False
  | _ => True

theorem PropsInv.plain (h : PropsInv a isRomPtr p l) (hram : p.IsRam) :
    ∀ e ∈ l, e.type ≠ .special := by
  cases h with
  | empty => simp
  | rom => exact hram.elim
  | ram _ hn => exact hn

theorem rename_rom {rs : List (ℕ → ℕ)} (hr : ∀ r ∈ rs, RelocOk a isRomPtr r)
    (hrom : ∀ e ∈ l, RomWord a isRomPtr e.key ∧ RomWord a isRomPtr e.value) :
    l.map (Entry.rename a rs) = l := by
  have hword : ∀ w, RomWord a isRomPtr w → relocWords a rs w = w := by
    intro w hw
    induction rs with
    | nil => rfl
    | cons r rs ih =>
      have h1 : relocWord a r w = w := by
        unfold relocWord
        split_ifs with hp
        · exact (hr r List.mem_cons_self).rom w hp (hw hp)
        · rfl
      change relocWords a rs (relocWord a r w) = w
      rw [h1]
      exact ih fun r' hr' => hr r' (List.mem_cons_of_mem r hr')
  have hid : ∀ e ∈ l, Entry.rename a rs e = id e := by
    intro e he
    unfold Entry.rename
    rw [hword _ (hrom e he).1, hword _ (hrom e he).2]
    rfl
  rw [List.map_congr_left hid, List.map_id]

theorem PropsInv.gc {reloc : ℕ → ℕ} (hr : RelocOk a isRomPtr reloc) (h : PropsInv a isRomPtr p l) :
    PropsInv a isRomPtr (p.gc a reloc) (l.map (Entry.rename a [reloc])) := by
  cases h with
  | empty => exact .empty
  | rom h hfull hrom =>
    have hr' : ∀ r ∈ [reloc], RelocOk a isRomPtr r := by
      intro r hmem
      rw [List.mem_singleton.1 hmem]
      exact hr
    rw [rename_rom hr' hrom]
    exact .rom h hfull hrom
  | ram h hn =>
    obtain ⟨hm, n, m, chain, hp, rfl⟩ := h
    obtain ⟨⟨chain', hp'⟩, he⟩ := hp.gc hr
    refine .ram ⟨hm, n, m, chain', hp', he⟩ ?_
    intro e he
    obtain ⟨e', he', rfl⟩ := List.mem_map.1 he
    exact hn e' he'

theorem PropsInv.gcs {rs : List (ℕ → ℕ)} (hr : ∀ r ∈ rs, RelocOk a isRomPtr r)
    (h : PropsInv a isRomPtr p l) :
    PropsInv a isRomPtr (p.gcs a rs) (l.map (Entry.rename a rs)) := by
  induction rs generalizing p l with
  | nil =>
    rw [Entry.rename_nil, List.map_id]
    exact h
  | cons r rs ih =>
    have h' := ih (fun r' hr' => hr r' (List.mem_cons_of_mem r hr')) (h.gc (hr r List.mem_cons_self))
    rw [List.map_map] at h'
    exact h'

theorem Props.isRam_gcs (rs : List (ℕ → ℕ)) (h : p.IsRam) : (p.gcs a rs).IsRam := by
  induction rs generalizing p with
  | nil => exact h
  | cons r rs ih =>
    refine ih ?_
    cases p with
    | empty => trivial
    | rom => exact h.elim
    | ram => trivial

/-- Collections keep the layout of a table in RAM. -/
theorem gcs_ram {rs : List (ℕ → ℕ)} (hr : ∀ r ∈ rs, RelocOk a isRomPtr r) {t : ValueArray}
    {hm n m : ℕ} {chain : ℕ → List ℕ} (hp : PropsOk a t hm n m chain) :
    ∃ t' chain', (Props.ram t).gcs a rs = .ram t' ∧ PropsOk a t' hm n m chain'
      ∧ entriesOf t' (2 + (hm + 1)) m
        = (entriesOf t (2 + (hm + 1)) m).map (Entry.rename a rs) := by
  induction rs generalizing t chain with
  | nil =>
    refine ⟨t, chain, rfl, hp, ?_⟩
    rw [Entry.rename_nil, List.map_id]
  | cons r rs ih =>
    obtain ⟨⟨chain₁, hp₁⟩, he₁⟩ := hp.gc (hr r List.mem_cons_self)
    obtain ⟨t', chain', ht', hp', he'⟩ := ih (fun r' hr' => hr r' (List.mem_cons_of_mem r hr')) hp₁
    refine ⟨t', chain', ht', hp', ?_⟩
    rw [he', he₁, List.map_map]
    rfl

theorem grownSize_congr {t t' : ValueArray} (hsize : t'.size = t.size)
    (hcount : t'.propCount = t.propCount) (hmask : t'.hashMask = t.hashMask) :
    grownSize t' = grownSize t := by
  unfold grownSize grownMask
  rw [hsize, hcount, hmask]

theorem PropsInv.grownSize_gcs {rs : List (ℕ → ℕ)} (hr : ∀ r ∈ rs, RelocOk a isRomPtr r)
    (h : PropsInv a isRomPtr p l) (hram : p.IsRam) :
    grownSize (p.gcs a rs).table = grownSize p.table := by
  cases h with
  | rom => exact hram.elim
  | empty =>
    have hempty : (Props.empty).gcs a rs = .empty := by
      clear hr hram
      induction rs with
      | nil => rfl
      | cons r rs ih => exact ih
    rw [hempty]
  | ram h =>
    obtain ⟨hm, n, m, chain, hp, rfl⟩ := h
    obtain ⟨t', chain', ht', hp', he'⟩ := gcs_ram hr hp
    rw [ht']
    refine grownSize_congr (hp'.slots.size_eq.trans hp.slots.size_eq.symm) ?_
      (hp'.slots.hashMask_eq.trans hp.slots.hashMask_eq.symm)
    change t'.propCount = _
    rw [hp'.slots.propCount_eq, he', List.length_map]
    exact hp.slots.propCount_eq.symm

/-! ### Moving to RAM -/

theorem resolve_plain (g : ℕ → ℕ) (l : List Entry) :
    ∀ e ∈ l.map (Entry.resolve g), e.type ≠ .special := by
  intro e he
  obtain ⟨e', -, rfl⟩ := List.mem_map.1 he
  exact e'.resolve_type_ne g

theorem jsUpdateProps_spec (g : ℕ → ℕ) (al : PropAlloc) (h : PropsInv a isRomPtr p l) :
    (∃ p', jsUpdateProps g p al = (p', true) ∧ p'.IsRam ∧ grownSize p'.table = grownSize p.table
        ∧ PropsInv a isRomPtr p' (l.map (Entry.resolve g)))
      ∨ (jsUpdateProps g p al = (p, false) ∧ ¬p.IsRam ∧ al.ok = false) := by
  cases h with
  | empty => exact .inl ⟨.empty, rfl, trivial, rfl, .empty⟩
  | ram h hn =>
    refine .inl ⟨_, rfl, trivial, rfl, ?_⟩
    rw [resolve_eq_self hn]
    exact .ram h hn
  | @rom t l h hfull hrom =>
    unfold jsUpdateProps
    by_cases hok : al.ok = true
    · obtain ⟨hm, n, m, chain, hp, rfl⟩ := h
      obtain ⟨hlay, he⟩ := hp.convert hfull g
      left
      refine ⟨.ram (convertLoop g t.hashMask t.propCount 0 t), by simp [hok], trivial, ?_, ?_⟩
      · exact grownSize_congr hlay.size_eq (congrArg wordGetInt hlay.count_eq)
          (congrArg wordGetInt hlay.mask_eq)
      · exact .ram ⟨hm, n, m, chain, hlay.propsOk hp, he⟩ (resolve_plain g _)
    · right
      simp only [hok, Bool.false_eq_true, if_false]
      exact ⟨trivial, id, trivial⟩

/-! ### Creation -/

/-- The slot at `pos` is the last one and holds a new property. -/
def CreatedAt (a : Arch) (t : ValueArray) (pos : ℕ) (l : List Entry) (k : ℕ) : Prop :=
  ∃ hm n m chain, PropsOk a t hm n (m + 1) chain ∧ pos = 2 + (hm + 1) + 3 * m
    ∧ keyAt t (2 + (hm + 1)) m = k ∧ entriesOf t (2 + (hm + 1)) m = l

theorem CreatedAt.fill {t : ValueArray} {pos : ℕ} (h : CreatedAt a t pos l k) (type : PropType)
    (v : ℕ) : Represents a ((t.set (pos + 2) (setPropType (t.arr (pos + 2)) type)).set (pos + 1) v)
      (l ++ [⟨k, v, type⟩]) := by
  obtain ⟨hm, n, m, chain, hp, rfl, hk, rfl⟩ := h
  generalize ht' : (t.set (2 + (hm + 1) + 3 * m + 2)
    (setPropType (t.arr (2 + (hm + 1) + 3 * m + 2)) type)).set (2 + (hm + 1) + 3 * m + 1) v = t'
  have harr : ∀ j, t'.arr j = if j = 2 + (hm + 1) + 3 * m + 1 then v
      else if j = 2 + (hm + 1) + 3 * m + 2 then setPropType (t.arr (2 + (hm + 1) + 3 * m + 2)) type
      else t.arr j := by
    intro j
    rw [← ht', ValueArray.arr_set, ValueArray.arr_set]
  have hlay : SameLayout t t' hm := by
    refine ⟨by rw [← ht']; rfl, ?_, ?_, ?_, ?_, ?_⟩
    · rw [harr, if_neg (by omega), if_neg (by omega)]
    · rw [harr, if_neg (by omega), if_neg (by omega)]
    · intro h hh
      rw [harr, if_neg (by omega), if_neg (by omega)]
    · intro i
      unfold keyAt
      rw [harr, if_neg (by omega), if_neg (by omega)]
    · intro i
      unfold linkAt
      rw [harr, if_neg (by omega)]
      by_cases hi : i = m
      · rw [if_pos (by omega), hashNext_setPropType, hi]
      · rw [if_neg (by omega)]
  refine ⟨hm, n, m + 1, chain, hlay.propsOk hp, ?_⟩
  have hu : Used t' (2 + (hm + 1)) m := (hlay.used m).2 (hp.slots.last_used m rfl)
  have hentry : entryAt t' (2 + (hm + 1)) m = ⟨k, v, type⟩ := by
    unfold entryAt
    rw [hlay.key, hk]
    unfold valueAt linkAt
    rw [harr, if_pos rfl, harr, if_neg (by omega), if_pos rfl, propType_setPropType]
  rw [entriesOf_succ, if_pos hu, hentry]
  congr 1
  refine entriesOf_congr fun i hi => ?_
  unfold entryAt keyAt valueAt linkAt
  rw [harr, if_neg (by omega), if_neg (by omega), harr, if_neg (by omega), if_neg (by omega), harr,
    if_neg (by omega), if_neg (by omega)]

theorem linkProperty_created {t : ValueArray} {hm n m : ℕ} {chain : ℕ → List ℕ}
    (hs : SlotsOk t hm n m) (hc : ChainsOk a t hm m chain) (hmn : m < n)
    (hfree : m + 1 < n → ¬Used t (2 + (hm + 1)) (n - 1)) (hk : k ≠ uninitializedWord)
    (hnew : ∀ e ∈ entriesOf t (2 + (hm + 1)) m, e.key ≠ k) :
    CreatedAt a (linkProperty a t k (2 + (hm + 1) + 3 * m) (entriesOf t (2 + (hm + 1)) m).length hm)
      (2 + (hm + 1) + 3 * m) (entriesOf t (2 + (hm + 1)) m) k := by
  have hl := linkProperty_linkedAt a k (entriesOf t (2 + (hm + 1)) m).length hs.size_eq (m := m)
  have hnew' : ∀ i < m, Used t (2 + (hm + 1)) i → keyAt t (2 + (hm + 1)) i ≠ k :=
    fun i hi hu => hnew _ (mem_entriesOf.2 ⟨i, hi, hu, rfl⟩)
  obtain ⟨⟨chain', hp'⟩, -⟩ := linkProperty_ok hs hc hmn hfree hk hnew' hl
  exact ⟨hm, n, m, chain', hp', rfl, hl.key, entriesOf_congr fun i hi => hl.entryAt_lt hi⟩

/-- There are two ways to make room: the first array of an object, and a larger one. -/
theorem jsCreateProperty_empty {al : PropAlloc} (hr : ∀ r ∈ al.relocs, RelocOk a isRomPtr r)
    (hk : k ≠ uninitializedWord) (hok : al.ok = true) :
    ∃ t', jsCreateProperty a .empty k al = (.ram t', some 3)
      ∧ CreatedAt a t' 3 [] (relocWords a al.relocs k) := by
  have hp := jsAllocProps_ok a (n := 1) le_rfl (by norm_num [jsAllocProps, getPropHashSizeLog2,
    jsValueArraySizeMax])
  have hset : (jsAllocProps 1).set ((jsAllocProps 1).size - 3) uninitializedWord = jsAllocProps 1 := by
    have hfix : Function.update (jsAllocProps 1).arr ((jsAllocProps 1).size - 3) uninitializedWord
        = (jsAllocProps 1).arr := Function.update_eq_self_iff.2 rfl
    unfold ValueArray.set
    rw [hfix]
  refine ⟨linkProperty a (jsAllocProps 1) (relocWords a al.relocs k) 3 0 0, ?_, ?_⟩
  · unfold jsCreateProperty
    simp only [hok, if_true, hset]
    rfl
  · exact linkProperty_created hp.slots hp.chains one_pos (by omega)
      (mt (relocWords_uninitialized_iff hr).1 hk) (by intro e he; cases he)

theorem jsCreateProperty_grow {t : ValueArray} {hm m : ℕ} {chain : ℕ → List ℕ}
    (hp : PropsOk a t hm m m chain) {al : PropAlloc} (hr : ∀ r ∈ al.relocs, RelocOk a isRomPtr r)
    (hk : k ≠ uninitializedWord) (hnew : ∀ e ∈ entriesOf t (2 + (hm + 1)) m, e.key ≠ k)
    (hok : al.ok = true) (hmax : grownSize t ≤ jsValueArraySizeMax) :
    ∃ t' pos, jsCreateProperty a (.ram t) k al = (.ram t', some pos)
      ∧ CreatedAt a t' pos ((entriesOf t (2 + (hm + 1)) m).map (Entry.rename a al.relocs))
        (relocWords a al.relocs k) := by
  have hfull : t.arr (t.size - 3) ≠ uninitializedWord :=
    fun h => lt_irrefl m (hp.last_free_iff.1 h)
  have hmask := hp.slots.hashMask_eq
  obtain ⟨t₁, chain₁, hgcs, hp₁, he₁⟩ := gcs_ram hr hp
  have hsize : t₁.size = t.size := hp₁.slots.size_eq.trans hp.slots.size_eq.symm
  have hnhm : grownMask t = hm ∨ grownMask t = 2 * (hm + 1) - 1 := by
    unfold grownMask
    rw [hmask]
    split_ifs
    · exact .inr rfl
    · exact .inl rfl
  have hnew₁ : grownSize t
      = resizedSize t₁.size (t₁.size + 3 + (grownMask t - hm)) (2 + grownMask t + 1) := by
    rw [grownSize, hmask, hsize]
  obtain ⟨hfree, n', chain', hs', hc', hmn, hlast, he'⟩ := growProps_ok hp₁ hnhm hnew₁ hmax rfl
  generalize hg : growProps a t₁ (grownSize t) hm (grownMask t) = r at *
  obtain ⟨t₂, pos⟩ := r
  simp only at hfree hs' hc' hlast he'
  subst hfree
  have hlen : t.propCount = (entriesOf t₁ (2 + (hm + 1)) m).length := by
    rw [he₁, List.length_map, hp.slots.propCount_eq]
  refine ⟨linkProperty a (t₂.set (t₂.size - 3) uninitializedWord) (relocWords a al.relocs k)
    (2 + (grownMask t + 1) + 3 * m) t.propCount (grownMask t), 2 + (grownMask t + 1) + 3 * m, ?_, ?_⟩
  · unfold jsCreateProperty
    simp only [Props.table, hgcs, hmask, hg]
    rw [if_pos hfull, if_pos ⟨hmax, hok⟩]
  · have hcreated := linkProperty_created hs' hc' hmn hlast
      (mt (relocWords_uninitialized_iff hr).1 hk) (k := relocWords a al.relocs k) ?_
    · rw [he'] at hcreated
      rw [hlen, ← he₁]
      exact hcreated
    · rw [he', he₁]
      exact absent_rename hr hnew

/-- What a creation does. -/
theorem jsCreateProperty_spec (h : PropsInv a isRomPtr p l) (hram : p.IsRam) {al : PropAlloc}
    (hr : ∀ r ∈ al.relocs, RelocOk a isRomPtr r) (hk : k ≠ uninitializedWord)
    (hnew : ∀ e ∈ l, e.key ≠ k) :
    (∃ t' pos, jsCreateProperty a p k al = (.ram t', some pos)
        ∧ CreatedAt a t' pos (l.map (Entry.rename a (createRelocs p al)))
          (relocWords a (createRelocs p al) k))
      ∨ ∃ p', jsCreateProperty a p k al = (p', none) ∧ p'.IsRam
        ∧ PropsInv a isRomPtr p' (l.map (Entry.rename a (createRelocs p al)))
        ∧ (al.ok = false ∨ jsValueArraySizeMax < grownSize p.table) := by
  cases h with
  | rom => exact hram.elim
  | empty =>
    have hrs : createRelocs .empty al = al.relocs :=
      if_pos (by simp [Props.table, emptyProps, shortIntWord, uninitializedWord, jsTagUninitialized])
    rw [hrs]
    by_cases hok : al.ok = true
    · obtain ⟨t', h1, h2⟩ := jsCreateProperty_empty hr hk hok
      exact .inl ⟨t', 3, h1, h2⟩
    · refine .inr ⟨.empty, ?_, trivial, .empty, .inl (by simpa using hok)⟩
      have hfull : Props.empty.table.arr (Props.empty.table.size - 3) ≠ uninitializedWord := by
        simp [Props.table, emptyProps, shortIntWord, uninitializedWord, jsTagUninitialized]
      simp only [jsCreateProperty, if_pos hfull, if_neg hok]
  | @ram t l h hn =>
    have hinv : PropsInv a isRomPtr (.ram t) l := .ram h hn
    obtain ⟨hm, n, m, chain, hp, rfl⟩ := h
    by_cases hfree : t.arr (t.size - 3) = uninitializedWord
    · -- a slot is free
      have hrs : createRelocs (.ram t) al = [] := if_neg (not_not.2 hfree)
      have hmn := hp.last_free_iff.1 hfree
      have hff : hashNext (t.arr (t.size - 1)) / 2 = 2 + (hm + 1) + 3 * m := by
        rw [← hp.getFirstFree_eq, getFirstFree, if_pos hfree]
      rw [hrs, Entry.rename_nil, List.map_id]
      refine .inl ⟨_, 2 + (hm + 1) + 3 * m, ?_, linkProperty_created hp.slots hp.chains hmn
        (fun h => (hp.free hmn).1) hk hnew⟩
      have hfree' : ¬(Props.ram t).table.arr ((Props.ram t).table.size - 3) ≠ uninitializedWord :=
        not_not.2 hfree
      simp only [jsCreateProperty, if_neg hfree']
      change (Props.ram (linkProperty a t k (hashNext (t.arr (t.size - 1)) / 2) t.propCount t.hashMask),
        some (hashNext (t.arr (t.size - 1)) / 2)) = _
      rw [hff, hp.slots.propCount_eq, hp.slots.hashMask_eq]
      rfl
    · have hrs : createRelocs (.ram t) al = al.relocs := if_pos hfree
      obtain rfl : m = n := by
        have := mt hp.last_free_iff.2 hfree
        have := hp.slots.m_le
        omega
      rw [hrs]
      by_cases hroom : grownSize t ≤ jsValueArraySizeMax ∧ al.ok = true
      · exact .inl (jsCreateProperty_grow hp hr hk hnew hroom.2 hroom.1)
      · refine .inr ⟨_, ?_, Props.isRam_gcs al.relocs hram, hinv.gcs hr, ?_⟩
        · have hfree' : (Props.ram t).table.arr ((Props.ram t).table.size - 3) ≠ uninitializedWord :=
            hfree
          have hroom' : ¬(grownSize (Props.ram t).table ≤ jsValueArraySizeMax ∧ al.ok = true) := hroom
          simp only [jsCreateProperty, if_pos hfree', if_neg hroom']
        · rw [not_and_or, not_le] at hroom
          exact hroom.symm.imp_left (by simp)

/-! ### What the events mean -/

/-- A definition of the key `k`, `l` being the list after the table was moved to RAM. Stores into a
variable or into the pair of a getter and a setter do not show in the list. -/
inductive DefineStep (a : Arch) (isRomPtr : ℕ → Bool) (d : DefineArgs) (atLimit : Prop)
    (l : List Entry) (k v : ℕ) : List Entry → Bool → Prop
  | store {e : Entry} : d.lookup = true → e ∈ l → e.key = k → d.hasValue = true → e.type = .normal →
      DefineStep a isRomPtr d atLimit l k v (mapSet l k v) true
  | storeVariable {e : Entry} : d.lookup = true → e ∈ l → e.key = k → d.hasValue = true →
      e.type = .varref → DefineStep a isRomPtr d atLimit l k v l true
  | otherKind {e : Entry} : d.lookup = true → e ∈ l → e.key = k →
      (d.hasValue = true ∧ e.type = .getset
        ∨ d.hasValue = false ∧ (d.hasGet = true ∨ d.hasSet = true) ∧ e.type ≠ .getset) →
      DefineStep a isRomPtr d atLimit l k v l false
  | storeAccessors {e : Entry} : d.lookup = true → e ∈ l → e.key = k → d.hasValue = false →
      (d.hasGet = true ∨ d.hasSet = true) → e.type = .getset → isRomPtr e.value = false →
      DefineStep a isRomPtr d atLimit l k v l true
  | copyAccessors {e : Entry} : d.lookup = true → e ∈ l → e.key = k → d.hasValue = false →
      (d.hasGet = true ∨ d.hasSet = true) → e.type = .getset → isRomPtr e.value = true →
      d.alloc.ok = true → DefineStep a isRomPtr d atLimit l k v
        (mapSet (l.map (Entry.rename a d.alloc.relocs)) (relocWords a d.alloc.relocs k) d.block) true
  | copyFails {e : Entry} : d.lookup = true → e ∈ l → e.key = k → d.hasValue = false →
      (d.hasGet = true ∨ d.hasSet = true) → e.type = .getset → isRomPtr e.value = true →
      d.alloc.ok = false →
      DefineStep a isRomPtr d atLimit l k v (l.map (Entry.rename a d.alloc.relocs)) false
  | nothing {e : Entry} : d.lookup = true → e ∈ l → e.key = k → d.hasValue = false →
      d.hasGet = false → d.hasSet = false → DefineStep a isRomPtr d atLimit l k v l true
  | append {type : PropType} {w : ℕ} {rs : List (ℕ → ℕ)} : (∀ e ∈ l, e.key ≠ k) →
      newPropertyValue d v = some (type, w) → (rs = [] ∨ rs = d.create.relocs) →
      DefineStep a isRomPtr d atLimit l k v (l.map (Entry.rename a (blockRelocs d ++ rs))
        ++ [⟨relocWords a (blockRelocs d ++ rs) k, relocWords a rs w, type⟩]) true
  | blockFails : (∀ e ∈ l, e.key ≠ k) → newPropertyValue d v = none →
      DefineStep a isRomPtr d atLimit l k v (l.map (Entry.rename a (blockRelocs d))) false
  | createFails {rs : List (ℕ → ℕ)} : (∀ e ∈ l, e.key ≠ k) → (rs = [] ∨ rs = d.create.relocs) →
      (d.create.ok = false ∨ atLimit) →
      DefineStep a isRomPtr d atLimit l k v (l.map (Entry.rename a (blockRelocs d ++ rs))) false

/-- One event on the list of properties, and whether it succeeded. The table tells only whether it
is in ROM and whether it is too large to grow. -/
inductive MapStep (a : Arch) (isRomPtr : ℕ → Bool) (p : Props) (l : List Entry) :
    PropEvent → List Entry → Bool → Prop
  | define {d : DefineArgs} {l' : List Entry} {ok : Bool} :
      DefineStep a isRomPtr d (jsValueArraySizeMax < grownSize p.table)
        (l.map (Entry.resolve d.getSpecialProp)) (relocWords a (updateRelocs p d.update) d.prop)
        (relocWords a (updateRelocs p d.update) d.val) l' ok →
      MapStep a isRomPtr p l (.define d) l' ok
  | defineFails {d : DefineArgs} : ¬p.IsRam → d.update.ok = false →
      MapStep a isRomPtr p l (.define d) l false
  | set {g : ℕ → ℕ} {k v : ℕ} {al : PropAlloc} {e : Entry} : e ∈ l → e.key = k →
      (e.type = .normal ∨ e.type = .special) →
      MapStep a isRomPtr p l (.set g k v al) (mapSet (l.map (Entry.resolve g))
        (relocWords a (updateRelocs p al) k) (relocWords a (updateRelocs p al) v)) true
  | setOther {g : ℕ → ℕ} {k v : ℕ} {al : PropAlloc} :
      (∀ e ∈ l, e.key = k → e.type ≠ .normal ∧ e.type ≠ .special) →
      MapStep a isRomPtr p l (.set g k v al) l true
  | setFails {g : ℕ → ℕ} {k v : ℕ} {al : PropAlloc} : ¬p.IsRam → al.ok = false →
      MapStep a isRomPtr p l (.set g k v al) l false
  | delete {g : ℕ → ℕ} {k : ℕ} {al : PropAlloc} {e : Entry} : e ∈ l → e.key = k →
      MapStep a isRomPtr p l (.delete g k al)
        ((l.map (Entry.resolve g)).filter fun e => e.key ≠ k) true
  | deleteAbsent {g : ℕ → ℕ} {k : ℕ} {al : PropAlloc} : (∀ e ∈ l, e.key ≠ k) →
      MapStep a isRomPtr p l (.delete g k al) l true
  | deleteFails {g : ℕ → ℕ} {k : ℕ} {al : PropAlloc} : ¬p.IsRam → al.ok = false →
      MapStep a isRomPtr p l (.delete g k al) l false
  | gc {reloc : ℕ → ℕ} : MapStep a isRomPtr p l (.gc reloc) (l.map (Entry.rename a [reloc])) true

/-- The list after a run, the steps reading the tables the run went through. -/
def MapRun (a : Arch) (isRomPtr : ℕ → Bool) : Props → List Entry → List PropEvent → List Entry → Prop
  | _, l, [], l' => l' = l
  | p, l, e :: es, l' => ∃ l₁, MapStep a isRomPtr p l e l₁ (propStep a isRomPtr p e).2
      ∧ MapRun a isRomPtr (propStep a isRomPtr p e).1 l₁ es l'

/-- What the callers promise: the key is a key, collections only move blocks, and a definition
without lookup is of a property that is not there. -/
def LegalEvent (a : Arch) (isRomPtr : ℕ → Bool) (p : Props) : PropEvent → Prop
  | .define d => d.prop ≠ uninitializedWord
      ∧ (∀ r ∈ d.update.relocs ++ d.alloc.relocs ++ d.create.relocs, RelocOk a isRomPtr r)
      ∧ (d.lookup = false → findOwnProperty a p.table d.prop = none)
  | .set _ _ _ al => ∀ r ∈ al.relocs, RelocOk a isRomPtr r
  | .delete _ _ _ => True
  | .gc reloc => RelocOk a isRomPtr reloc

def LegalRun (a : Arch) (isRomPtr : ℕ → Bool) : Props → List PropEvent → Prop
  | _, [] => True
  | p, e :: es => LegalEvent a isRomPtr p e ∧ LegalRun a isRomPtr (propStep a isRomPtr p e).1 es

/-! ### One event -/

theorem mapSet_plain (h : ∀ e ∈ l, e.type ≠ .special) : ∀ e ∈ mapSet l k v, e.type ≠ .special := by
  intro e he
  obtain ⟨e', he', rfl⟩ := List.mem_map.1 he
  split_ifs
  · exact h e' he'
  · exact h e' he'

theorem PropsInv.setValue (h : PropsInv a isRomPtr p l) (hram : p.IsRam) {pos : ℕ} (v : ℕ)
    (hfind : findOwnProperty a p.table k = some pos) :
    PropsInv a isRomPtr (.ram (p.table.set (pos + 1) v)) (mapSet l k v) :=
  .ram (h.represents.setValue v hfind) (mapSet_plain (h.plain hram))

theorem rename_plain {rs : List (ℕ → ℕ)} (h : ∀ e ∈ l, e.type ≠ .special) :
    ∀ e ∈ l.map (Entry.rename a rs), e.type ≠ .special := by
  intro e he
  obtain ⟨e', he', rfl⟩ := List.mem_map.1 he
  exact h e' he'

theorem overwriteProperty_refines {d : DefineArgs} {e : Entry} {pos : ℕ} {atLimit : Prop}
    (h : PropsInv a isRomPtr p l) (hram : p.IsRam)
    (hr : ∀ r ∈ d.alloc.relocs, RelocOk a isRomPtr r) (hlook : d.lookup = true) (he : e ∈ l)
    (hk : e.key = k) (hfind : findOwnProperty a p.table k = some pos)
    (hholds : SlotHolds p.table pos e) :
    ∃ l', DefineStep a isRomPtr d atLimit l k v l' (overwriteProperty a isRomPtr p pos d k v).2
      ∧ PropsInv a isRomPtr (overwriteProperty a isRomPtr p pos d k v).1 l' := by
  obtain ⟨-, hvalue, htype⟩ := hholds
  have hplain := h.plain hram e he
  unfold overwriteProperty
  simp only [htype, hvalue]
  by_cases hv : d.hasValue = true
  · rw [if_pos hv]
    cases ht : e.type with
    | normal => exact ⟨_, .store hlook he hk hv ht, h.setValue hram v hfind⟩
    | varref => exact ⟨_, .storeVariable hlook he hk hv ht, h⟩
    | getset => exact ⟨_, .otherKind hlook he hk (.inl ⟨hv, ht⟩), h⟩
    | special => exact absurd ht hplain
  rw [if_neg hv]
  rw [Bool.not_eq_true] at hv
  by_cases hgs : d.hasGet = true ∨ d.hasSet = true
  swap
  · rw [if_neg hgs]
    rw [not_or, Bool.not_eq_true, Bool.not_eq_true] at hgs
    exact ⟨l, .nothing hlook he hk hv hgs.1 hgs.2, h⟩
  rw [if_pos hgs]
  by_cases ht : e.type = .getset
  swap
  · rw [if_pos ht]
    exact ⟨l, .otherKind hlook he hk (.inr ⟨hv, hgs, ht⟩), h⟩
  rw [if_neg (not_not.2 ht)]
  by_cases hrom : isRomPtr e.value = true
  swap
  · rw [if_neg hrom]
    exact ⟨l, .storeAccessors hlook he hk hv hgs ht (by simpa using hrom), h⟩
  -- the allocation may move the table, so the slot is looked up again
  rw [if_pos hrom]
  have hgc := h.gcs hr
  by_cases hok : d.alloc.ok = true
  swap
  · rw [if_neg hok]
    exact ⟨_, .copyFails hlook he hk hv hgs ht hrom (by simpa using hok), hgc⟩
  rw [if_pos hok]
  have hstep : DefineStep a isRomPtr d atLimit l k v _ true :=
    .copyAccessors hlook he hk hv hgs ht hrom hok
  rcases hgc.represents.find (relocWords a d.alloc.relocs k) with
    ⟨e', he', -, pos', hfind', -⟩ | ⟨-, hnone⟩
  · rw [hfind']
    exact ⟨_, hstep, hgc.setValue (Props.isRam_gcs _ hram) d.block hfind'⟩
  · have hmem : e.rename a d.alloc.relocs ∈ l.map (Entry.rename a d.alloc.relocs) :=
      List.mem_map_of_mem he
    exact absurd (congrArg (relocWords a d.alloc.relocs) hk) (hnone _ hmem)

theorem createRelocs_eq (p : Props) (al : PropAlloc) :
    createRelocs p al = [] ∨ createRelocs p al = al.relocs := by
  unfold createRelocs
  split_ifs
  · exact .inr rfl
  · exact .inl rfl

theorem newPropertyValue_type {d : DefineArgs} {type : PropType} {w : ℕ}
    (h : newPropertyValue d v = some (type, w)) : type ≠ .special := by
  unfold newPropertyValue at h
  split_ifs at h <;>
    simp only [Option.some.injEq, Prod.mk.injEq] at h <;>
    rw [← h.1] <;> simp

theorem addProperty_refines {d : DefineArgs} (h : PropsInv a isRomPtr p l) (hram : p.IsRam)
    (hr : ∀ r ∈ d.alloc.relocs ++ d.create.relocs, RelocOk a isRomPtr r)
    (hk : k ≠ uninitializedWord) (hnew : ∀ e ∈ l, e.key ≠ k) {atLimit : Prop}
    (hlimit : jsValueArraySizeMax < grownSize (p.gcs a (blockRelocs d)).table → atLimit) :
    ∃ l', DefineStep a isRomPtr d atLimit l k v l' (addProperty a p d k v).2
      ∧ PropsInv a isRomPtr (addProperty a p d k v).1 l' := by
  have hrb : ∀ r ∈ blockRelocs d, RelocOk a isRomPtr r := by
    intro r hmem
    unfold blockRelocs at hmem
    split_ifs at hmem
    · exact hr r (List.mem_append_left _ hmem)
    · cases hmem
  have hrc : ∀ r ∈ d.create.relocs, RelocOk a isRomPtr r :=
    fun r hmem => hr r (List.mem_append_right _ hmem)
  have hgc := h.gcs hrb
  have hram' : (p.gcs a (blockRelocs d)).IsRam := Props.isRam_gcs _ hram
  have hk' := mt (relocWords_uninitialized_iff hrb).1 hk
  have hnew' := absent_rename hrb hnew
  have hrename : ∀ rs, (l.map (Entry.rename a (blockRelocs d))).map (Entry.rename a rs)
      = l.map (Entry.rename a (blockRelocs d ++ rs)) := by
    intro rs
    rw [List.map_map]
    apply List.map_congr_left
    intro e _
    exact (Entry.rename_append _ _ e).symm
  unfold addProperty
  cases hv : newPropertyValue d v with
  | none => exact ⟨_, .blockFails hnew hv, hgc⟩
  | some tw =>
    obtain ⟨type, w⟩ := tw
    rcases jsCreateProperty_spec hgc hram' hrc hk' hnew' with ⟨t', pos, hcreate, hat⟩ |
      ⟨p', hcreate, -, hinv, hfail⟩
    · have hfill := hat.fill type (relocWords a (createRelocs (p.gcs a (blockRelocs d)) d.create) w)
      have hstep : DefineStep a isRomPtr d atLimit l k v _ true :=
        .append hnew hv (createRelocs_eq (p.gcs a (blockRelocs d)) d.create)
      rw [hrename, ← relocWords_append] at hfill
      simp only [hcreate]
      refine ⟨_, hstep, .ram hfill ?_⟩
      intro e he
      rcases List.mem_append.1 he with he | he
      · exact rename_plain (h.plain hram) e he
      · rw [List.mem_singleton.1 he]
        exact newPropertyValue_type hv
    · simp only [hcreate]
      rw [hrename] at hinv
      exact ⟨_, .createFails hnew (createRelocs_eq _ _) (hfail.imp_right hlimit), hinv⟩

theorem absent_resolve {g : ℕ → ℕ} : (∀ e ∈ l.map (Entry.resolve g), e.key ≠ k) ↔ ∀ e ∈ l, e.key ≠ k := by
  constructor
  · intro h e he
    rw [← e.resolve_key g]
    exact h _ (List.mem_map_of_mem he)
  · intro h e he
    obtain ⟨e', he', rfl⟩ := List.mem_map.1 he
    rw [e'.resolve_key g]
    exact h e' he'

/-- The keys of a table in ROM do not move. -/
theorem PropsInv.rom_key {t : ValueArray} {rs : List (ℕ → ℕ)} (h : PropsInv a isRomPtr (.rom t) l)
    (hr : ∀ r ∈ rs, RelocOk a isRomPtr r) {e : Entry} (he : e ∈ l) :
    relocWords a rs e.key = e.key := by
  cases h with
  | rom _ _ hrom =>
    have hfix := (rename_rom hr hrom).trans (List.map_id l).symm
    exact congrArg Entry.key (List.map_inj_left.1 hfix e he)

theorem PropsInv.absent_update {al : PropAlloc} (h : PropsInv a isRomPtr p l)
    (hr : ∀ r ∈ al.relocs, RelocOk a isRomPtr r) :
    (∀ e ∈ l, e.key ≠ relocWords a (updateRelocs p al) k) ↔ ∀ e ∈ l, e.key ≠ k := by
  cases h with
  | empty => simp
  | ram => rfl
  | rom h hfull hrom =>
    refine forall₂_congr fun e he => not_congr ?_
    have hkey := (PropsInv.rom h hfull hrom).rom_key hr he
    change e.key = relocWords a al.relocs k ↔ e.key = k
    constructor
    · intro hk
      rw [← hkey] at hk
      exact relocWords_inj hr hk
    · rintro rfl
      exact hkey.symm

theorem jsDefinePropertyInternal_refines {d : DefineArgs} (h : PropsInv a isRomPtr p l)
    (hlegal : LegalEvent a isRomPtr p (.define d)) :
    ∃ l', MapStep a isRomPtr p l (.define d) l' (jsDefinePropertyInternal a isRomPtr p d).2
      ∧ PropsInv a isRomPtr (jsDefinePropertyInternal a isRomPtr p d).1 l' := by
  obtain ⟨hk, hr, hlook⟩ := hlegal
  have hru : ∀ r ∈ d.update.relocs, RelocOk a isRomPtr r := fun r hm => hr r (by simp [hm])
  have hra : ∀ r ∈ d.alloc.relocs, RelocOk a isRomPtr r := fun r hm => hr r (by simp [hm])
  have hrac : ∀ r ∈ d.alloc.relocs ++ d.create.relocs, RelocOk a isRomPtr r := by
    intro r hm
    rw [List.append_assoc] at hr
    exact hr r (List.mem_append_right _ hm)
  have hrup : ∀ r ∈ updateRelocs p d.update, RelocOk a isRomPtr r := by
    intro r hm
    cases p with
    | rom => exact hru r hm
    | empty => cases hm
    | ram => cases hm
  have hrb : ∀ r ∈ blockRelocs d, RelocOk a isRomPtr r := by
    intro r hm
    unfold blockRelocs at hm
    split_ifs at hm
    · exact hra r hm
    · cases hm
  have hk' := mt (relocWords_uninitialized_iff hrup).1 hk
  have habs := h.absent_update (k := d.prop) hru
  unfold jsDefinePropertyInternal
  rcases jsUpdateProps_spec d.getSpecialProp d.update h with ⟨p', heq, hram, hgrown, hinv⟩ |
    ⟨heq, hrom, hfail⟩
  swap
  · rw [heq]
    exact ⟨l, .defineFails hrom hfail, h⟩
  simp only [heq, if_true]
  have hlimit : jsValueArraySizeMax < grownSize (p'.gcs a (blockRelocs d)).table →
      jsValueArraySizeMax < grownSize p.table := by
    intro hlt
    rw [hinv.grownSize_gcs hrb hram, hgrown] at hlt
    exact hlt
  -- whether there was a lookup or not, the key is not there if no slot was found
  have hadd : (∀ e ∈ l.map (Entry.resolve d.getSpecialProp),
      e.key ≠ relocWords a (updateRelocs p d.update) d.prop) →
      ∃ l', MapStep a isRomPtr p l (.define d) l' (addProperty a p' d
          (relocWords a (updateRelocs p d.update) d.prop)
          (relocWords a (updateRelocs p d.update) d.val)).2
        ∧ PropsInv a isRomPtr (addProperty a p' d (relocWords a (updateRelocs p d.update) d.prop)
          (relocWords a (updateRelocs p d.update) d.val)).1 l' := by
    intro hnew
    obtain ⟨l', hstep, hinv'⟩ := addProperty_refines hinv hram hrac hk' hnew hlimit
    exact ⟨l', .define hstep, hinv'⟩
  cases hl : d.lookup with
  | false =>
    have hnone := h.represents.find_none_iff.1 (hlook hl)
    exact hadd (absent_resolve.2 (habs.2 hnone))
  | true =>
    rcases hinv.represents.find (relocWords a (updateRelocs p d.update) d.prop) with
      ⟨e, he, hek, pos, hfind, hholds⟩ | ⟨hfind, hnone⟩
    · simp only [hfind, if_true]
      obtain ⟨l', hstep, hinv'⟩ := overwriteProperty_refines hinv hram hra hl he hek hfind hholds
      exact ⟨l', .define hstep, hinv'⟩
    · simp only [hfind, if_true]
      exact hadd hnone

/-- The pass over a table in RAM. -/
theorem setOwnProperty_ram (g : ℕ → ℕ) (al : PropAlloc) (fuel v : ℕ) (hram : p.IsRam)
    (h : PropsInv a isRomPtr p l) {e : Entry} (he : e ∈ l) (hk : e.key = k) (ht : e.type = .normal) :
    (setOwnProperty a g al (fuel + 1) p k v).2 = true
      ∧ PropsInv a isRomPtr (setOwnProperty a g al (fuel + 1) p k v).1 (mapSet l k v) := by
  rcases h.represents.find k with ⟨e₁, he₁, hk₁, pos, hfind, -, -, htype⟩ | ⟨-, hnone⟩
  swap
  · exact absurd hk (hnone e he)
  have heq : e₁ = e := List.inj_on_of_nodup_map h.represents.keys_nodup he₁ he (hk₁.trans hk.symm)
  rw [heq, ht] at htype
  rw [setOwnProperty]
  simp only [hfind, htype]
  cases p with
  | rom => exact hram.elim
  | empty => exact ⟨rfl, h.setValue hram v hfind⟩
  | ram t => exact ⟨rfl, h.setValue hram v hfind⟩

/-- A store into an own property. A table in ROM is copied first, so there are at most two passes. -/
theorem jsSetOwnProperty_refines {g : ℕ → ℕ} {al : PropAlloc} (h : PropsInv a isRomPtr p l)
    (hlegal : LegalEvent a isRomPtr p (.set g k v al)) :
    ∃ l', MapStep a isRomPtr p l (.set g k v al) l' (jsSetOwnProperty a g p k v al).2
      ∧ PropsInv a isRomPtr (jsSetOwnProperty a g p k v al).1 l' := by
  unfold jsSetOwnProperty
  rcases h.represents.find k with ⟨e, he, hk, pos, hfind, -, -, htype⟩ | ⟨hfind, hnone⟩
  swap
  · rw [setOwnProperty]
    simp only [hfind]
    exact ⟨l, .setOther fun e he hk => absurd hk (hnone e he), h⟩
  by_cases hother : e.type ≠ .normal ∧ e.type ≠ .special
  · -- a variable, or a setter to call
    have hstep : MapStep a isRomPtr p l (.set g k v al) l true := by
      refine .setOther fun e' he' hk' => ?_
      rw [List.inj_on_of_nodup_map h.represents.keys_nodup he' he (hk'.trans hk.symm)]
      exact hother
    refine ⟨l, ?_⟩
    rw [setOwnProperty]
    simp only [hfind]
    cases ht : e.type with
    | normal => exact absurd ht hother.1
    | special => exact absurd ht hother.2
    | getset =>
      simp only [htype.trans ht]
      exact ⟨hstep, h⟩
    | varref =>
      simp only [htype.trans ht]
      exact ⟨hstep, h⟩
  have htype' : e.type = .normal ∨ e.type = .special := by tauto
  have hmem : e.resolve g ∈ l.map (Entry.resolve g) := List.mem_map_of_mem he
  have hnormal : (e.resolve g).type = .normal := by
    unfold Entry.resolve
    rcases htype' with ht | ht <;> simp [ht]
  by_cases hram : p.IsRam
  · have hplain := h.plain hram
    have hpass := setOwnProperty_ram g al 1 v hram h he hk
      (htype'.resolve_right (hplain e he))
    have hup : updateRelocs p al = [] := by
      cases p with
      | rom => exact hram.elim
      | empty => rfl
      | ram => rfl
    have hstep : MapStep a isRomPtr p l (.set g k v al) _ true := .set he hk htype'
    rw [resolve_eq_self hplain, hup] at hstep
    exact ⟨_, by rw [hpass.1]; exact hstep, hpass.2⟩
  cases p with
  | empty => exact absurd trivial hram
  | ram => exact absurd trivial hram
  | rom t =>
    have hconv : ∀ p' b, jsUpdateProps g (.rom t) al = (p', b) →
        setOwnProperty a g al 2 (.rom t) k v = if b = true then
          setOwnProperty a g al 1 p' (relocWords a al.relocs k) (relocWords a al.relocs v)
        else (p', false) := by
      intro p' b heq
      rw [setOwnProperty]
      simp only [hfind, htype, heq]
      rcases htype' with ht | ht <;> rw [ht] <;> cases b <;> rfl
    rcases jsUpdateProps_spec g al h with ⟨p', heq, hram', -, hinv⟩ | ⟨heq, hrom, hfail⟩
    · have hkey : (e.resolve g).key = relocWords a al.relocs k := by
        rw [e.resolve_key, ← hk]
        exact (h.rom_key hlegal he).symm
      have hpass := setOwnProperty_ram g al 0 (relocWords a al.relocs v) hram' hinv hmem hkey hnormal
      rw [hconv _ _ heq, if_pos rfl]
      refine ⟨_, ?_, hpass.2⟩
      rw [hpass.1]
      exact .set he hk htype'
    · rw [hconv _ _ heq, if_neg Bool.false_ne_true]
      exact ⟨l, .setFails hrom hfail, h⟩

/-- The search of a deletion, as of a lookup. -/
theorem PropsOk.search_index {t : ValueArray} {hm n m : ℕ} {chain : ℕ → List ℕ}
    (hp : PropsOk a t hm n m chain) (k : ℕ) :
    (search (nextIndex t) (fun pos => t.arr pos == k) (t.size + 1) none
        (indexOf (wordGetInt (t.arr (hashSlot a t k)))) = none
        ∧ ∀ e ∈ entriesOf t (2 + (hm + 1)) m, e.key ≠ k)
      ∨ ∃ l₁ l₂ i, i < m ∧ Used t (2 + (hm + 1)) i ∧ keyAt t (2 + (hm + 1)) i = k
        ∧ chain (hashProp a k &&& hm) = l₁ ++ (2 + (hm + 1) + 3 * i) :: l₂
        ∧ search (nextIndex t) (fun pos => t.arr pos == k) (t.size + 1) none
          (indexOf (wordGetInt (t.arr (hashSlot a t k))))
          = some (if l₁ = [] then none else l₁.getLast?, 2 + (hm + 1) + 3 * i) := by
  have hle := and_mask_le (hashProp a k) hm
  have hslot : hashSlot a t k = 2 + (hashProp a k &&& hm) := by
    rw [hashSlot, hp.slots.hashMask_eq]
  rw [hslot]
  rcases search_linked (p := fun pos => t.arr pos == k) (t.size + 1) none (hp.chains.linked_index hle)
    (hp.chains.length_le hp.slots hle) with ⟨hnone, hall⟩ | ⟨l₁, p, l₂, hl, hpk, -, hsome⟩
  · refine .inl ⟨hnone, ?_⟩
    intro e he hk
    obtain ⟨i, hi, hu, rfl⟩ := mem_entriesOf.1 he
    have hk' : keyAt t (2 + (hm + 1)) i = k := hk
    have hmem := (hp.chains.mem _ hle _).2 ⟨i, hi, hu, rfl, by rw [hk']⟩
    have hfalse := hall _ hmem
    rw [beq_eq_false_iff_ne] at hfalse
    exact hfalse hk
  · have hmem : p ∈ chain (hashProp a k &&& hm) := by simp [hl]
    obtain ⟨i, hi, hu, rfl, -⟩ := (hp.chains.mem _ hle p).1 hmem
    exact .inr ⟨l₁, l₂, i, hi, hu, eq_of_beq hpk, hl, hsome⟩

/-- What is left of a deletion when the table is in RAM. -/
theorem Represents.delete {t : ValueArray} {hm n m i : ℕ} {chain : ℕ → List ℕ} {l₁ l₂ : List ℕ}
    (hp : PropsOk a t hm n m chain) (hi : i < m) (hu : Used t (2 + (hm + 1)) i)
    (hk : keyAt t (2 + (hm + 1)) i = k)
    (hl : chain (hashProp a k &&& hm) = l₁ ++ (2 + (hm + 1) + 3 * i) :: l₂) :
    Represents a (clearProperty (unlinkProperty t (2 + (hashProp a k &&& hm)) (2 + (hm + 1) + 3 * i)
        (if l₁ = [] then none else l₁.getLast?)) (2 + (hm + 1) + 3 * i))
      ((entriesOf t (2 + (hm + 1)) m).filter fun e => e.key ≠ k) := by
  obtain ⟨m', chain', hp', he'⟩ := removeProperty_ok hp hl (by rw [hk]) hi hu rfl
  rw [hk] at he'
  exact ⟨hm, n, m', chain', hp', he'⟩

theorem PropsInv.compact {t : ValueArray} (h : Represents a t l) (hn : ∀ e ∈ l, e.type ≠ .special) :
    PropsInv a isRomPtr (jsCompactProps a t) l := by
  obtain ⟨hm, n, m, chain, hp, rfl⟩ := h
  obtain ⟨hm', n', m', chain', hp', he'⟩ := jsCompactProps_ok hp
  have hnotrom : ∀ u, jsCompactProps a t ≠ .rom u := by
    intro u
    unfold jsCompactProps
    simp only
    split_ifs <;> simp
  generalize jsCompactProps a t = p at *
  cases p with
  | rom u => exact absurd rfl (hnotrom u)
  | ram u => exact .ram ⟨hm', n', m', chain', hp', he'⟩ hn
  | empty =>
    have hsize : 3 = 2 + (hm' + 1) + 3 * n' := hp'.slots.size_eq
    have hle := hp'.slots.m_le
    obtain rfl : m' = 0 := by omega
    rw [← he']
    exact .empty

theorem PropsInv.compact_or {t : ValueArray} {r : Props × Bool} (h : Represents a t l)
    (hn : ∀ e ∈ l, e.type ≠ .special) (hr : r = (jsCompactProps a t, true) ∨ r = (.ram t, true)) :
    r.2 = true ∧ PropsInv a isRomPtr r.1 l := by
  rcases hr with rfl | rfl
  · exact ⟨rfl, .compact h hn⟩
  · exact ⟨rfl, .ram h hn⟩

theorem filter_plain {f : Entry → Bool} (h : ∀ e ∈ l, e.type ≠ .special) :
    ∀ e ∈ l.filter f, e.type ≠ .special := fun e he => h e (List.mem_of_mem_filter he)

theorem jsDeleteProperty_refines {g : ℕ → ℕ} {al : PropAlloc} (h : PropsInv a isRomPtr p l) :
    ∃ l', MapStep a isRomPtr p l (.delete g k al) l' (jsDeleteProperty a g p k al).2
      ∧ PropsInv a isRomPtr (jsDeleteProperty a g p k al).1 l' := by
  obtain ⟨hm, n, m, chain, hp, hle⟩ := h.represents
  have hslot : hashSlot a p.table k = 2 + (hashProp a k &&& hm) := by
    rw [hashSlot, hp.slots.hashMask_eq]
  rcases hp.search_index k with ⟨hnone, habs⟩ | ⟨l₁, l₂, i, hi, hu, hk, hl, hsome⟩
  · simp only [jsDeleteProperty, hnone]
    rw [hle] at habs
    exact ⟨l, .deleteAbsent habs, h⟩
  have hmem : entryAt p.table (2 + (hm + 1)) i ∈ l := by
    rw [← hle]
    exact mem_entriesOf.2 ⟨i, hi, hu, rfl⟩
  have hstep : MapStep a isRomPtr p l (.delete g k al) _ true := .delete hmem hk
  -- the table that is changed, in RAM
  have hrest : ∀ t, SameLayout p.table t hm →
      entriesOf t (2 + (hm + 1)) m = l.map (Entry.resolve g) →
      jsUpdateProps g p al = (.ram t, true) →
      ∃ l', MapStep a isRomPtr p l (.delete g k al) l' (jsDeleteProperty a g p k al).2
        ∧ PropsInv a isRomPtr (jsDeleteProperty a g p k al).1 l' := by
    intro t hlay he hup
    have hdel := Represents.delete (hlay.propsOk hp) hi ((hlay.used i).2 hu) ((hlay.key i).trans hk) hl
    rw [he, ← hslot] at hdel
    have hdone : (jsDeleteProperty a g p k al).2 = true ∧ PropsInv a isRomPtr
        (jsDeleteProperty a g p k al).1 ((l.map (Entry.resolve g)).filter fun e => e.key ≠ k) := by
      refine PropsInv.compact_or hdel (filter_plain (resolve_plain g _)) ?_
      simp only [jsDeleteProperty, hsome, hup]
      exact ite_eq_or_eq _ _ _
    exact ⟨_, hdone.1 ▸ hstep, hdone.2⟩
  cases h with
  | empty =>
    have hsize : 3 = 2 + (hm + 1) + 3 * n := hp.slots.size_eq
    have hmn := hp.slots.m_le
    omega
  | @ram t _ h hn =>
    refine hrest t ⟨rfl, rfl, rfl, fun _ _ => rfl, fun _ => rfl, fun _ => rfl⟩ ?_ rfl
    rw [resolve_eq_self hn]
    exact hle
  | @rom t _ h hfull hrom =>
    rw [← hle] at hfull
    obtain ⟨hlay, he⟩ := hp.convert hfull g
    rw [hle] at he hfull
    by_cases hok : al.ok = true
    · exact hrest _ hlay he (by simp [jsUpdateProps, hok, Props.table])
    · have hup : jsUpdateProps g (.rom t) al = (.rom t, false) := by simp [jsUpdateProps, hok]
      simp only [jsDeleteProperty, hsome, hup]
      exact ⟨l, .deleteFails id (by simpa using hok), .rom h hfull hrom⟩

/-! ### Runs -/

/-- One event of the code is one step on the list. -/
theorem propStep_refines {e : PropEvent} (h : PropsInv a isRomPtr p l)
    (hlegal : LegalEvent a isRomPtr p e) :
    ∃ l', MapStep a isRomPtr p l e l' (propStep a isRomPtr p e).2
      ∧ PropsInv a isRomPtr (propStep a isRomPtr p e).1 l' := by
  cases e with
  | define d => exact jsDefinePropertyInternal_refines h hlegal
  | set g k v al => exact jsSetOwnProperty_refines h hlegal
  | delete g k al => exact jsDeleteProperty_refines h
  | gc reloc => exact ⟨_, .gc, h.gc hlegal⟩

theorem propRun_inv {es : List PropEvent} (h : PropsInv a isRomPtr p l)
    (hlegal : LegalRun a isRomPtr p es) :
    ∃ l', MapRun a isRomPtr p l es l' ∧ PropsInv a isRomPtr (propRun a isRomPtr p es) l' := by
  induction es generalizing p l with
  | nil => exact ⟨l, rfl, h⟩
  | cons e es ih =>
    obtain ⟨l₁, hstep, h₁⟩ := propStep_refines h hlegal.1
    obtain ⟨l', hrun, h'⟩ := ih h₁ hlegal.2
    exact ⟨l', ⟨l₁, hstep, hrun⟩, h'⟩

/-- Where an object may start: without properties, with a fresh table, or with a table in ROM. -/
inductive InitialProps (a : Arch) (isRomPtr : ℕ → Bool) : Props → List Entry → Prop
  | empty : InitialProps a isRomPtr .empty []
  | alloc {n : ℕ} : 1 ≤ n → (jsAllocProps n).size ≤ jsValueArraySizeMax →
      InitialProps a isRomPtr (.ram (jsAllocProps n)) []
  | rom {t : ValueArray} {l : List Entry} : Represents a t l →
      t.size = 2 + (t.hashMask + 1) + 3 * l.length →
      (∀ e ∈ l, RomWord a isRomPtr e.key ∧ RomWord a isRomPtr e.value) →
      InitialProps a isRomPtr (.rom t) l

theorem InitialProps.inv (h : InitialProps a isRomPtr p l) : PropsInv a isRomPtr p l := by
  cases h with
  | empty => exact .empty
  | alloc hn hmax => exact .ram (.allocProps a hn hmax) (by simp)
  | rom h hfull hrom => exact .rom h hfull hrom

/-- After any run the table is well formed and holds the properties that the events have left, in
the order in which they were added; a lookup finds exactly these. -/
theorem propRun_refines {es : List PropEvent} (h : InitialProps a isRomPtr p l)
    (hlegal : LegalRun a isRomPtr p es) :
    ∃ l' hm n m chain, MapRun a isRomPtr p l es l'
      ∧ PropsOk a (propRun a isRomPtr p es).table hm n m chain
      ∧ getFirstFree (propRun a isRomPtr p es).table = 2 + (hm + 1) + 3 * m
      ∧ entriesOf (propRun a isRomPtr p es).table (2 + (hm + 1)) m = l'
      ∧ (l'.map Entry.key).Nodup
      ∧ (∀ e ∈ l', ∃ pos, findOwnProperty a (propRun a isRomPtr p es).table e.key = some pos
        ∧ SlotHolds (propRun a isRomPtr p es).table pos e)
      ∧ ∀ k, (∀ e ∈ l', e.key ≠ k) → findOwnProperty a (propRun a isRomPtr p es).table k = none := by
  obtain ⟨l', hrun, hinv⟩ := propRun_inv h.inv hlegal
  have hrep := hinv.represents
  obtain ⟨hm, n, m, chain, hp, he⟩ := hinv.represents
  refine ⟨l', hm, n, m, chain, hrun, hp, hp.getFirstFree_eq, he, hrep.keys_nodup, ?_, ?_⟩
  · intro e hmem
    rcases hrep.find e.key with ⟨e', he', hk, pos, hfind, hholds⟩ | ⟨-, hnone⟩
    · rw [← List.inj_on_of_nodup_map hrep.keys_nodup he' hmem hk]
      rw [hk]
      exact ⟨pos, hfind, hholds⟩
    · exact absurd rfl (hnone e hmem)
  · intro k hnone
    exact hrep.find_none_iff.2 hnone

/-- The definition of a plain property. -/
def DefineArgs.plain (prop val : ℕ) : DefineArgs :=
  ⟨id, prop, val, true, true, false, false, false, ⟨[], true⟩, ⟨[], true⟩, ⟨[], true⟩, 0⟩

def addTwo : List PropEvent :=
  [.define (.plain 2 10), .define (.plain 4 20), .set id 2 30 ⟨[], true⟩, .delete id 4 ⟨[], true⟩]

/-- Two properties are added; then one is stored to and the other deleted. -/
theorem propRun_refines_addTwo :
    LegalRun .jsw8 (fun _ => false) .empty addTwo
      ∧ (findOwnProperty .jsw8 (propRun .jsw8 (fun _ => false) .empty addTwo).table 2).map
        (fun pos => (propRun .jsw8 (fun _ => false) .empty addTwo).table.arr (pos + 1)) = some 30
      ∧ ∃ l' hm n m chain, MapRun .jsw8 (fun _ => false) .empty [] addTwo l'
        ∧ PropsOk .jsw8 (propRun .jsw8 (fun _ => false) .empty addTwo).table hm n m chain := by
  have hlegal : LegalRun .jsw8 (fun _ => false) .empty addTwo := by
    simp [LegalRun, LegalEvent, addTwo, DefineArgs.plain, uninitializedWord, jsTagUninitialized]
  obtain ⟨l', hm, n, m, chain, h1, h2, -⟩ := propRun_refines .empty hlegal
  exact ⟨hlegal, by decide +kernel, l', hm, n, m, chain, h1, h2⟩

end Qjs
