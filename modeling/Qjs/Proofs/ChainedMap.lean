import Qjs.ChainedMap

namespace Qjs

namespace ChainedMap

open Qjs.HashMap (CString Pointer null)

variable {V : Type}

/-! ### Entries -/

/-- The cached hash and length are those of the key. -/
def EntryOk (e : HashMapEntry V) : Prop := (e.hash, e.keyLen) = hashCstrLen e.key ∧ KeyFits e.key

theorem isEntry_iff {key : CString} (hkey : KeyFits key) {e : HashMapEntry V} (he : EntryOk e) :
    isEntry key e = true ↔ e.key = key := by
  obtain ⟨hcached, hfits⟩ := he
  obtain ⟨hhash, hlen⟩ := Prod.mk.inj hcached
  simp only [isEntry, keyEquals, Bool.and_eq_true, decide_eq_true_eq]
  simp only [hhash, hlen, hashCstrLen]
  constructor
  · rintro ⟨-, hlength, hbytes⟩
    have hlength' : e.key.val.length = key.val.length := by
      have h := congrArg UInt32.toNat hlength
      rwa [UInt32.toNat_ofNat_of_lt' hfits, UInt32.toNat_ofNat_of_lt' hkey] at h
    rw [UInt32.toNat_ofNat_of_lt' hkey, List.take_of_length_le hlength'.le,
      List.take_of_length_le le_rfl] at hbytes
    exact Subtype.ext hbytes
  · rintro rfl
    exact ⟨rfl, rfl, rfl⟩

def pair (e : HashMapEntry V) : CString × V := (e.key, e.value)

/-- The entries of a map, one for each key, each with the hash and the length of its key. -/
structure Entries (l : List (HashMapEntry V)) : Prop where
  ok : ∀ e ∈ l, EntryOk e
  nodup : (l.map HashMapEntry.key).Nodup

section List

variable {key : CString} {value : V} {l : List (HashMapEntry V)}

theorem Entries.perm (h : Entries l) {l' : List (HashMapEntry V)} (hl : l'.Perm l) : Entries l' :=
  ⟨fun e he => h.ok e (hl.mem_iff.1 he), (hl.map _).nodup_iff.2 h.nodup⟩

theorem Entries.tail {e : HashMapEntry V} (h : Entries (e :: l)) : Entries l :=
  ⟨fun e' he' => h.ok e' (List.mem_cons_of_mem _ he'), (List.nodup_cons.1 h.nodup).2⟩

theorem setValue_keys (key : CString) (value : V) (l : List (HashMapEntry V)) :
    (setValue key value l).map HashMapEntry.key = l.map HashMapEntry.key := by
  induction l with
  | nil => rfl
  | cons e l ih =>
    rw [setValue]
    split_ifs
    · rfl
    · rw [List.map_cons, List.map_cons, ih]

theorem setValue_length (key : CString) (value : V) (l : List (HashMapEntry V)) :
    (setValue key value l).length = l.length := by
  have h := congrArg List.length (setValue_keys key value l)
  rwa [List.length_map, List.length_map] at h

theorem setValue_append_of_not {before : List (HashMapEntry V)}
    (h : ∀ e ∈ before, isEntry key e = false) (l : List (HashMapEntry V)) :
    setValue key value (before ++ l) = before ++ setValue key value l := by
  induction before with
  | nil => rfl
  | cons e before ih =>
    rw [List.cons_append, setValue, if_neg (by simp [h e]), ih fun e' he' => h e' (by simp [he']),
      List.cons_append]

theorem setValue_append_of_any (h : l.any (isEntry key) = true) (after : List (HashMapEntry V)) :
    setValue key value (l ++ after) = setValue key value l ++ after := by
  induction l with
  | nil => cases h
  | cons e l ih =>
    rw [List.cons_append, setValue, setValue]
    split_ifs with he
    · rfl
    · rw [List.any_cons, Bool.eq_false_iff.2 he, Bool.false_or] at h
      rw [ih h, List.cons_append]

theorem mem_setValue {e : HashMapEntry V} (he : e ∈ setValue key value l) :
    ∃ e' ∈ l, e = e' ∨ e = { e' with value := value } := by
  induction l with
  | nil => cases he
  | cons e' l ih =>
    rw [setValue] at he
    split_ifs at he
    · obtain rfl | he := List.mem_cons.1 he
      · exact ⟨e', by simp, .inr rfl⟩
      · exact ⟨e, by simp [he], .inl rfl⟩
    · obtain rfl | he := List.mem_cons.1 he
      · exact ⟨e, by simp, .inl rfl⟩
      · obtain ⟨e'', he'', h⟩ := ih he
        exact ⟨e'', by simp [he''], h⟩

theorem Entries.setValue (h : Entries l) (key : CString) (value : V) :
    Entries (setValue key value l) := by
  refine ⟨fun e he => ?_, by rw [setValue_keys]; exact h.nodup⟩
  obtain ⟨e', he', rfl | rfl⟩ := mem_setValue he
  · exact h.ok e he'
  · exact h.ok e' he'

theorem pair_mem_setValue (h : Entries l) (hkey : KeyFits key)
    (hany : key ∈ l.map HashMapEntry.key) (key' : CString) (value' : V) :
    (key', value') ∈ (setValue key value l).map pair ↔
      if key' = key then value' = value else (key', value') ∈ l.map pair := by
  induction l with
  | nil => cases hany
  | cons e l ih =>
    have hiff := isEntry_iff hkey (h.ok e List.mem_cons_self)
    have hnot := (List.nodup_cons.1 h.nodup).1
    rw [ChainedMap.setValue]
    by_cases he : e.key = key
    · rw [if_pos (hiff.2 he)]
      subst he
      have hrest (v : V) : (e.key, v) ∉ l.map pair := by
        intro hmem
        obtain ⟨e', he', heq⟩ := List.mem_map.1 hmem
        exact hnot (List.mem_map.2 ⟨e', he', congrArg Prod.fst heq⟩)
      rw [List.map_cons, List.mem_cons, List.map_cons, List.mem_cons]
      split_ifs with hk
      · subst hk
        simp [pair, hrest]
      · simp [pair, hk]
    · rw [if_neg (mt hiff.1 he)]
      obtain hhead | htail := List.mem_cons.1 hany
      · exact absurd hhead.symm he
      · rw [List.map_cons, List.mem_cons, ih h.tail htail, List.map_cons, List.mem_cons]
        split_ifs with hk
        · subst hk
          simp [pair, Ne.symm he]
        · rfl

theorem pair_mem_eraseP (h : Entries l) (hkey : KeyFits key) (key' : CString) (value' : V) :
    (key', value') ∈ (l.eraseP (isEntry key)).map pair ↔
      key' ≠ key ∧ (key', value') ∈ l.map pair := by
  induction l with
  | nil => simp
  | cons e l ih =>
    have hiff := isEntry_iff hkey (h.ok e List.mem_cons_self)
    have hnot := (List.nodup_cons.1 h.nodup).1
    by_cases he : e.key = key
    · rw [List.eraseP_cons_of_pos (hiff.2 he), List.map_cons, List.mem_cons]
      subst he
      constructor
      · intro hmem
        refine ⟨?_, .inr hmem⟩
        rintro rfl
        obtain ⟨e', he', heq⟩ := List.mem_map.1 hmem
        exact hnot (List.mem_map.2 ⟨e', he', congrArg Prod.fst heq⟩)
      · rintro ⟨hne, hhead | htail⟩
        · exact absurd (congrArg Prod.fst hhead) hne
        · exact htail
    · rw [List.eraseP_cons_of_neg (mt hiff.1 he), List.map_cons, List.mem_cons, ih h.tail,
        List.map_cons, List.mem_cons]
      constructor
      · rintro (hhead | ⟨hne, hmem⟩)
        · exact ⟨fun hk => he ((congrArg Prod.fst hhead).symm.trans hk), .inl hhead⟩
        · exact ⟨hne, .inr hmem⟩
      · rintro ⟨hne, hhead | hmem⟩
        · exact .inl hhead
        · exact .inr ⟨hne, hmem⟩

theorem Entries.eraseP (h : Entries l) (p : HashMapEntry V → Bool) : Entries (l.eraseP p) :=
  ⟨fun e he => h.ok e (List.mem_of_mem_eraseP he),
    h.nodup.sublist ((List.eraseP_sublist).map _)⟩

end List

/-! ### The map -/

/-- The map is the finite map. -/
structure Inv (m : HashMap V) (f : CString → Option V) : Prop where
  cap : ∃ j ≤ 26, m.capacity = 16 * 2 ^ j
  placed : Buckets.Placed HashMapEntry.home m.buckets
  entries : Entries m.buckets.flatten
  size : m.size = m.buckets.flatten.length
  load : m.size * 4 ≤ m.capacity * 3 + 4
  map : ∀ key value, f key = some value ↔ (key, value) ∈ m.buckets.flatten.map pair

section Map

variable {m : HashMap V} {f : CString → Option V}

theorem Inv.cap_pos (h : Inv m f) : 16 ≤ m.capacity := by
  obtain ⟨j, -, hcap⟩ := h.cap
  rw [hcap]
  exact Nat.le_mul_of_pos_right 16 (by positivity)

theorem Inv.ne_nil (h : Inv m f) : m.buckets ≠ [] := by
  intro hnil
  have hcap := h.cap_pos
  rw [HashMap.capacity, hnil] at hcap
  simp at hcap

theorem chain_eq (h : Inv m f) (key : CString) :
    m.buckets[m.index key]? = some (m.chain key) := by
  obtain ⟨chain, hchain⟩ := Buckets.exists_chain h.ne_nil (hashCstrLen key).1.toNat
  rw [HashMap.chain, HashMap.index, HashMap.capacity, hchain]
  rfl

theorem home_of_ok {e : HashMapEntry V} (he : EntryOk e) :
    e.home = (hashCstrLen e.key).1.toNat := by
  rw [← he.1]
  rfl

/-- An entry is in the chain of its key. -/
theorem Inv.mem_chain (h : Inv m f) {e : HashMapEntry V} (he : e ∈ m.buckets.flatten) :
    e ∈ m.chain e.key := by
  obtain ⟨chain, hchain, hmem⟩ := h.placed.mem_chain he
  rw [home_of_ok (h.entries.ok e he)] at hchain
  rw [HashMap.chain, HashMap.index, HashMap.capacity, hchain]
  exact hmem

theorem Inv.mem_flatten (h : Inv m f) {key : CString} {e : HashMapEntry V} (he : e ∈ m.chain key) :
    e ∈ m.buckets.flatten :=
  Buckets.mem_flatten_of_getElem? (chain_eq h key) he

theorem Inv.any_iff (h : Inv m f) {key : CString} (hkey : KeyFits key) :
    (m.chain key).any (isEntry key) = true ↔ key ∈ m.buckets.flatten.map HashMapEntry.key := by
  rw [List.any_eq_true, List.mem_map]
  constructor
  · rintro ⟨e, he, hentry⟩
    have hmem := h.mem_flatten he
    exact ⟨e, hmem, (isEntry_iff hkey (h.entries.ok e hmem)).1 hentry⟩
  · rintro ⟨e, he, rfl⟩
    exact ⟨e, h.mem_chain he, (isEntry_iff hkey (h.entries.ok e he)).2 rfl⟩

theorem Inv.isSome_iff (h : Inv m f) (key : CString) :
    (f key).isSome = true ↔ key ∈ m.buckets.flatten.map HashMapEntry.key := by
  rw [Option.isSome_iff_exists, List.mem_map]
  constructor
  · rintro ⟨value, hvalue⟩
    obtain ⟨e, he, heq⟩ := List.mem_map.1 ((h.map key value).1 hvalue)
    exact ⟨e, he, congrArg Prod.fst heq⟩
  · rintro ⟨e, he, rfl⟩
    exact ⟨e.value, (h.map e.key e.value).2 (List.mem_map.2 ⟨e, he, rfl⟩)⟩

/-- The first entry of the key is the one with its value. -/
theorem Inv.find (h : Inv m f) {key : CString} (hkey : KeyFits key) :
    ((m.chain key).find? (isEntry key)).map HashMapEntry.value = f key := by
  rcases hfind : (m.chain key).find? (isEntry key) with _ | e
  · cases hf : f key with
    | none => rfl
    | some value =>
      have hsome : (f key).isSome = true := by rw [hf]; rfl
      obtain ⟨e, he, hentry⟩ := List.any_eq_true.1 ((h.any_iff hkey).2 ((h.isSome_iff key).1 hsome))
      exact absurd hentry (List.find?_eq_none.1 hfind e he)
  · have hmem := h.mem_flatten (List.mem_of_find?_eq_some hfind)
    have hentry := (isEntry_iff hkey (h.entries.ok e hmem)).1 (List.find?_some hfind)
    exact ((h.map key e.value).2 (List.mem_map.2 ⟨e, hmem, by rw [pair, hentry]⟩)).symm

/-! ### The operations -/

theorem relink_chain (chain : List (HashMapEntry V)) {bs : List (List (HashMapEntry V))}
    (hne : bs ≠ []) (hplaced : Buckets.Placed HashMapEntry.home bs) :
    let bs' := chain.foldl (Buckets.link HashMapEntry.home) bs
    bs'.length = bs.length ∧ Buckets.Placed HashMapEntry.home bs' ∧
      bs'.flatten.Perm (chain ++ bs.flatten) := by
  induction chain generalizing bs with
  | nil => exact ⟨rfl, hplaced, List.Perm.refl _⟩
  | cons e chain ih =>
    have hlen : (Buckets.link HashMapEntry.home bs e).length = bs.length := Buckets.length_link e
    have hne' : Buckets.link HashMapEntry.home bs e ≠ [] := by
      rw [← List.length_pos_iff, hlen, List.length_pos_iff]
      exact hne
    obtain ⟨hlen', hplaced', hperm⟩ := ih hne' (hplaced.link hne e)
    refine ⟨hlen'.trans hlen, hplaced', hperm.trans ?_⟩
    exact ((Buckets.flatten_link hne e).append_left chain).trans List.perm_middle

theorem relink_all (old : List (List (HashMapEntry V))) {bs : List (List (HashMapEntry V))}
    (hne : bs ≠ []) (hplaced : Buckets.Placed HashMapEntry.home bs) :
    let bs' := old.foldl (fun bs chain => chain.foldl (Buckets.link HashMapEntry.home) bs) bs
    bs'.length = bs.length ∧ Buckets.Placed HashMapEntry.home bs' ∧
      bs'.flatten.Perm (old.flatten ++ bs.flatten) := by
  induction old generalizing bs with
  | nil => exact ⟨rfl, hplaced, List.Perm.refl _⟩
  | cons chain old ih =>
    obtain ⟨hlen, hplaced', hperm⟩ := relink_chain chain hne hplaced
    have hne' : chain.foldl (Buckets.link HashMapEntry.home) bs ≠ [] := by
      rw [← List.length_pos_iff, hlen, List.length_pos_iff]
      exact hne
    obtain ⟨hlen', hplaced'', hperm'⟩ := ih hne' hplaced'
    refine ⟨hlen'.trans hlen, hplaced'', hperm'.trans ((hperm.append_left _).trans ?_)⟩
    rw [List.flatten_cons, ← List.append_assoc]
    exact List.perm_append_comm.append_right _

theorem resize_inv (h : Inv m f) (hroom : m.capacity * 2 < intBound) :
    ∃ m', hashmapResize m = some m' ∧ Inv m' f ∧ m'.capacity = m.capacity * 2 ∧
      m'.size = m.size := by
  obtain ⟨j, hj, hcap⟩ := h.cap
  have hpos := h.cap_pos
  have hne : List.replicate (m.capacity * 2) ([] : List (HashMapEntry V)) ≠ [] := by
    rw [← List.length_pos_iff, List.length_replicate]
    omega
  obtain ⟨hlen, hplaced, hperm⟩ :=
    relink_all m.buckets hne (Buckets.placed_replicate (m.capacity * 2))
  rw [List.flatten_replicate_nil, List.append_nil] at hperm
  rw [List.length_replicate] at hlen
  rw [hashmapResize, if_pos hroom]
  generalize m.buckets.foldl (fun bs chain => chain.foldl (Buckets.link HashMapEntry.home) bs)
    (List.replicate (m.capacity * 2) []) = bs at hlen hplaced hperm
  have hcap' : HashMap.capacity ⟨bs, m.size⟩ = m.capacity * 2 := hlen
  refine ⟨_, rfl, ⟨⟨j + 1, ?_, ?_⟩, hplaced, h.entries.perm hperm, ?_, ?_, ?_⟩, hcap', rfl⟩
  · by_contra hbig
    obtain rfl : j = 26 := by omega
    rw [hcap, intBound] at hroom
    norm_num at hroom
  · rw [hcap', hcap]
    ring
  · exact h.size.trans hperm.length_eq.symm
  · have hload := h.load
    rw [hcap']
    dsimp only
    omega
  · intro key value
    rw [h.map, (hperm.map pair).mem_iff]

theorem ok_new {key : CString} (hkey : KeyFits key) (value : V) :
    EntryOk ⟨key, value, (hashCstrLen key).1, (hashCstrLen key).2⟩ := ⟨rfl, hkey⟩

/-- The walk over the chain of a key finds what a walk over all entries does. -/
theorem Inv.split (h : Inv m f) (key : CString)
    (g : List (HashMapEntry V) → List (HashMapEntry V)) :
    ∃ before after, m.buckets.flatten = before ++ m.chain key ++ after ∧
      (m.buckets.modify (m.index key) g).flatten = before ++ g (m.chain key) ++ after :=
  Buckets.flatten_modify (chain_eq h key)

/-- Outside the chain of a key there is no entry of it. -/
theorem Inv.not_before (h : Inv m f) {key : CString} (hkey : KeyFits key)
    {before after : List (HashMapEntry V)}
    (hsplit : m.buckets.flatten = before ++ m.chain key ++ after)
    (hany : (m.chain key).any (isEntry key) = true) : ∀ e ∈ before, isEntry key e = false := by
  intro e he
  rw [Bool.eq_false_iff]
  intro hentry
  obtain ⟨e', he', hentry'⟩ := List.any_eq_true.1 hany
  have hmem : e ∈ m.buckets.flatten := by
    rw [hsplit]
    simp [he]
  have hkeys : e.key = e'.key :=
    ((isEntry_iff hkey (h.entries.ok e hmem)).1 hentry).trans
      ((isEntry_iff hkey (h.entries.ok e' (h.mem_flatten he'))).1 hentry').symm
  have hnodup := h.entries.nodup
  rw [hsplit, List.append_assoc, List.map_append] at hnodup
  refine (List.nodup_append'.1 hnodup).2.2 (List.mem_map.2 ⟨e, he, hkeys⟩) ?_
  exact List.mem_map.2 ⟨e', by simp [he'], rfl⟩

theorem setValue_inv (h : Inv m f) {key : CString} (hkey : KeyFits key) (value : V)
    (hany : (m.chain key).any (isEntry key) = true) :
    Inv ⟨m.buckets.modify (m.index key) (setValue key value), m.size⟩
      (Function.update f key (some value)) := by
  obtain ⟨before, after, hold, hnew⟩ := h.split key (setValue key value)
  have hflat : (m.buckets.modify (m.index key) (setValue key value)).flatten =
      setValue key value m.buckets.flatten := by
    rw [hnew, hold, List.append_assoc, List.append_assoc,
      setValue_append_of_not (h.not_before hkey hold hany), setValue_append_of_any hany]
  have hlen : HashMap.capacity ⟨m.buckets.modify (m.index key) (setValue key value), m.size⟩ =
      m.capacity := List.length_modify ..
  refine ⟨hlen ▸ h.cap, h.placed.modify (chain_eq h key) fun e he => ?_, ?_, ?_, ?_, ?_⟩
  · obtain ⟨e', he', rfl | rfl⟩ := mem_setValue he
    · exact h.placed _ _ (chain_eq h key) e he'
    · exact h.placed _ _ (chain_eq h key) e' he'
  · exact hflat ▸ h.entries.setValue key value
  · exact hflat ▸ h.size.trans (setValue_length key value _).symm
  · rw [hlen]
    exact h.load
  · intro key' value'
    rw [show HashMap.buckets ⟨m.buckets.modify (m.index key) (setValue key value), m.size⟩ =
      m.buckets.modify (m.index key) (setValue key value) from rfl, hflat,
      pair_mem_setValue h.entries hkey ((h.any_iff hkey).1 hany), Function.update_apply]
    split_ifs
    · exact Option.some_inj.trans eq_comm
    · exact h.map key' value'

theorem insert_inv (h : Inv m f) {key : CString} (hkey : KeyFits key) (value : V)
    (hnone : (m.chain key).any (isEntry key) = false) (hload : m.size * 4 ≤ m.capacity * 3) :
    Inv ⟨m.buckets.modify (m.index key)
        (⟨key, value, (hashCstrLen key).1, (hashCstrLen key).2⟩ :: ·), m.size + 1⟩
      (Function.update f key (some value)) := by
  generalize hentry : (⟨key, value, (hashCstrLen key).1, (hashCstrLen key).2⟩ : HashMapEntry V) =
    entry
  have hok : EntryOk entry := hentry ▸ ok_new hkey value
  have hkeyOf : entry.key = key := by rw [← hentry]
  have hpair : pair entry = (key, value) := by rw [← hentry]; rfl
  have hlink : m.buckets.modify (m.index key) (entry :: ·) =
      Buckets.link HashMapEntry.home m.buckets entry := by
    rw [Buckets.link, home_of_ok hok, hkeyOf]
    rfl
  have hperm : (Buckets.link HashMapEntry.home m.buckets entry).flatten.Perm
      (entry :: m.buckets.flatten) := Buckets.flatten_link h.ne_nil entry
  rw [hlink]
  generalize hbs : Buckets.link HashMapEntry.home m.buckets entry = bs at hperm
  have hnotin : key ∉ m.buckets.flatten.map HashMapEntry.key := by
    rw [← h.any_iff hkey, hnone]
    exact Bool.false_ne_true
  have hcap : HashMap.capacity ⟨bs, m.size + 1⟩ = m.capacity := by
    rw [← hbs]
    exact Buckets.length_link entry
  refine ⟨hcap ▸ h.cap, hbs ▸ h.placed.link h.ne_nil entry, ?_, ?_, ?_, ?_⟩
  · refine Entries.perm ⟨fun e he => ?_, ?_⟩ hperm
    · obtain rfl | he := List.mem_cons.1 he
      · exact hok
      · exact h.entries.ok e he
    · rw [List.map_cons, List.nodup_cons, hkeyOf]
      exact ⟨hnotin, h.entries.nodup⟩
  · rw [hperm.length_eq, List.length_cons, ← h.size]
  · rw [hcap]
    dsimp only
    omega
  · intro key' value'
    rw [(hperm.map pair).mem_iff, List.map_cons, List.mem_cons, hpair, Function.update_apply]
    split_ifs with hk
    · subst hk
      have hrest : (key', value') ∉ m.buckets.flatten.map pair := by
        intro hmem
        obtain ⟨e, he, heq⟩ := List.mem_map.1 hmem
        exact hnotin (List.mem_map.2 ⟨e, he, congrArg Prod.fst heq⟩)
      rw [or_iff_left hrest, Prod.mk.injEq, Option.some_inj]
      exact ⟨fun heq => ⟨rfl, heq.symm⟩, fun heq => heq.2.symm⟩
    · rw [h.map]
      simp [hk]

theorem remove_inv (h : Inv m f) {key : CString} (hkey : KeyFits key) :
    Inv (mapRemove m key) (Function.update f key none) ∧
      (mapRemove m key).capacity = m.capacity := by
  rw [mapRemove]
  split_ifs with hany
  · obtain ⟨before, after, hold, hnew⟩ := h.split key (List.eraseP (isEntry key))
    have hflat : (m.buckets.modify (m.index key) (List.eraseP (isEntry key))).flatten =
        m.buckets.flatten.eraseP (isEntry key) := by
      obtain ⟨e, he, hentry⟩ := List.any_eq_true.1 hany
      rw [hnew, hold, List.append_assoc, List.append_assoc,
        List.eraseP_append_right _ fun e he => by simp [h.not_before hkey hold hany e he],
        List.eraseP_append_left hentry _ he]
    have hlen : HashMap.capacity
        ⟨m.buckets.modify (m.index key) (List.eraseP (isEntry key)), m.size - 1⟩ = m.capacity :=
      List.length_modify ..
    have hload := h.load
    refine ⟨⟨hlen ▸ h.cap, h.placed.modify (chain_eq h key) fun e he => ?_, ?_, ?_, ?_, ?_⟩, hlen⟩
    · exact h.placed _ _ (chain_eq h key) e (List.mem_of_mem_eraseP he)
    · exact hflat ▸ h.entries.eraseP _
    · obtain ⟨e, he, hentry⟩ := List.any_eq_true.1 hany
      dsimp only
      rw [hflat, List.length_eraseP_of_mem (h.mem_flatten he) hentry, h.size]
    · rw [hlen]
      dsimp only
      omega
    · intro key' value'
      dsimp only
      rw [hflat, pair_mem_eraseP h.entries hkey, Function.update_apply]
      split_ifs with hk
      · simp [hk]
      · rw [h.map]
        simp [hk]
  · refine ⟨⟨h.cap, h.placed, h.entries, h.size, h.load, fun key' value' => ?_⟩, rfl⟩
    rw [← h.map, Function.update_apply]
    by_cases hk : key' = key
    · have hnone : ¬ (f key).isSome = true := by
        rwa [h.isSome_iff, ← h.any_iff hkey]
      rw [if_pos hk, hk, Option.not_isSome_iff_eq_none.1 hnone]
    · rw [if_neg hk]

theorem clear_inv (h : Inv m f) : Inv (mapClear m) fun _ => none := by
  have hflat : (mapClear m).buckets.flatten = [] := List.flatten_replicate_nil
  have hcap : (mapClear m).capacity = m.capacity := List.length_replicate
  refine ⟨hcap ▸ h.cap, Buckets.placed_replicate _, ?_, ?_, Nat.zero_le _, ?_⟩
  · rw [hflat]
    exact ⟨fun e he => (nomatch he), List.nodup_nil⟩
  · rw [hflat]
    rfl
  · rw [hflat]
    simp

theorem put_inv (h : Inv m f) {key : CString} (hkey : KeyFits key) (value : V)
    (hroom : m.overloaded = true → m.capacity * 2 < intBound) :
    ∃ m', mapPutRaw m key value = some m' ∧ Inv m' (Function.update f key (some value)) := by
  obtain ⟨m₁, hm₁, h₁, hload⟩ : ∃ m₁, ensureRoom m = some m₁ ∧ Inv m₁ f ∧
      m₁.size * 4 ≤ m₁.capacity * 3 := by
    have hload := h.load
    have hpos := h.cap_pos
    rw [ensureRoom]
    split_ifs with hover
    · obtain ⟨m₁, hm₁, h₁, hcap, hsize⟩ := resize_inv h (hroom hover)
      exact ⟨m₁, hm₁, h₁, by omega⟩
    · rw [HashMap.overloaded, decide_eq_true_eq] at hover
      exact ⟨m, rfl, h, by omega⟩
  have hsize : m₁.size + 1 < intBound := by
    obtain ⟨j, hj, hcap⟩ := h₁.cap
    have hpow : 2 ^ j ≤ 2 ^ 26 := Nat.pow_le_pow_right (by norm_num) hj
    rw [intBound]
    omega
  rw [mapPutRaw, hm₁, Option.bind_eq_bind, Option.bind_some]
  by_cases hany : (m₁.chain key).any (isEntry key) = true
  · exact ⟨_, if_pos hany, setValue_inv h₁ hkey value hany⟩
  · refine ⟨_, ?_, insert_inv h₁ hkey value (Bool.eq_false_iff.2 hany) hload⟩
    rw [if_neg hany, if_pos hsize]

theorem new_inv : Inv (mapNew : HashMap V) fun _ => none := by
  have hflat : (mapNew : HashMap V).buckets.flatten = [] := List.flatten_replicate_nil
  refine ⟨⟨0, by omega, rfl⟩, Buckets.placed_replicate _, ?_, ?_, Nat.zero_le _, ?_⟩
  · rw [hflat]
    exact ⟨fun e he => (nomatch he), List.nodup_nil⟩
  · rw [hflat]
    rfl
  · rw [hflat]
    simp

theorem step_inv (h : Inv m f) {op : Op V} (hgood : Good m op) :
    ∃ m', step m op = some m' ∧ Inv m' (op.meaning f) := by
  cases op with
  | put key value => exact put_inv h hgood.1 value hgood.2
  | remove key => exact ⟨_, rfl, (remove_inv h hgood).1⟩
  | clear => exact ⟨_, rfl, clear_inv h⟩
  | get key => exact ⟨m, rfl, h⟩
  | has key => exact ⟨m, rfl, h⟩
  | keys => exact ⟨m, rfl, h⟩

theorem run_inv (h : Inv m f) {ops : List (Op V)} (hgood : AllGood m ops) :
    ∃ m', run m ops = some m' ∧ Inv m' (ops.foldl Op.meaning f) := by
  induction ops generalizing m f with
  | nil => exact ⟨m, rfl, h⟩
  | cons op ops ih =>
    obtain ⟨m₁, hm₁, h₁⟩ := step_inv h hgood.1
    obtain ⟨m', hm', h'⟩ := ih h₁ (hgood.2 m₁ hm₁)
    exact ⟨m', by rw [run, List.foldlM_cons, hm₁]; exact hm', h'⟩

/-! ### What a caller sees -/

theorem Inv.agrees [Pointer V] [DecidableEq V] (h : Inv m f) : Agrees m f := by
  have hget (key : CString) (hkey : KeyFits key) : mapGetRaw m key = (f key).getD null := by
    rw [mapGetRaw, h.find hkey]
  refine ⟨hget, fun key hkey => ?_, ?_, ?_, fun i chain hchain e he => ?_⟩
  · rw [mapHas, hget key hkey]
    cases hf : f key with
    | none => simp
    | some value => simp
  · have hset : {key | (f key).isSome = true} =
        ((m.buckets.flatten.map HashMapEntry.key).toFinset : Set CString) := by
      ext key
      rw [Set.mem_ofPred_eq, h.isSome_iff, List.coe_toFinset, Set.mem_ofPred_eq]
    rw [hset, Set.ncard_coe_finset, List.toFinset_card_of_nodup h.entries.nodup, List.length_map]
    exact h.size
  · refine ⟨m.buckets.flatten.map HashMapEntry.key, ?_, h.entries.nodup, fun key =>
      (h.isSome_iff key).symm⟩
    rw [mapKeysRaw]
    split_ifs with h0
    · rw [h.size, List.length_eq_zero_iff] at h0
      rw [h0]
      rfl
    · refine if_pos ?_
      rw [List.length_map]
      exact h.size.ge
  · have hok := h.entries.ok e (Buckets.mem_flatten_of_getElem? hchain he)
    exact ⟨congrArg Prod.fst hok.1, h.placed i chain hchain e he⟩

end Map

/-- In every run whose operations are good for the map they find, the map is the finite map, and
`map_has` is wrong just for the keys with the value `NULL`. -/
theorem finite_map [Pointer V] [DecidableEq V] (ops : List (Op V)) (hgood : AllGood mapNew ops) :
    ∃ m, run mapNew ops = some m ∧ Agrees m (meaning ops) := by
  obtain ⟨m, hm, h⟩ := run_inv new_inv hgood
  exact ⟨m, hm, h.agrees⟩

/-- `k` -/
def keyK : CString := ⟨[0x6b], by decide⟩

theorem finite_map_put :
    ∃ m, run mapNew [.put keyK (1 : UInt64), .remove keyK, .put keyK 2] = some m ∧
      Agrees m (meaning [.put keyK (1 : UInt64), .remove keyK, .put keyK 2]) :=
  finite_map _ ⟨⟨by unfold KeyFits; decide, by decide⟩, fun m hm => ⟨by
    show KeyFits keyK
    unfold KeyFits; decide, fun m' hm' => ⟨⟨by unfold KeyFits; decide, by
      obtain rfl := Option.some.inj hm
      obtain rfl := Option.some.inj hm'
      decide⟩, fun _ _ => trivial⟩⟩⟩

/-- A key with the value 0 is there, and `map_has` says that it is not. -/
theorem null_not_has :
    ¬ ∀ (ops : List (Op UInt64)) (m : HashMap UInt64), AllGood mapNew ops →
      run mapNew ops = some m → ∀ key, mapHas m key = (meaning ops key).isSome := by
  intro h
  have hgood : AllGood mapNew [Op.put keyK (0 : UInt64)] :=
    ⟨⟨by unfold KeyFits; decide, by decide⟩, fun _ _ => trivial⟩
  obtain ⟨m, hm, -⟩ := run_inv new_inv hgood
  have hhas := h _ m hgood hm keyK
  obtain rfl := Option.some.inj hm
  revert hhas
  decide

end ChainedMap

end Qjs
