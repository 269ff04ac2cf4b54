import Qjs.Proofs.Pos

/-!
# Strings refine sequences of UTF-16 units

`Holds h v cs` says that the value `v` stands for the code points `cs` in the heap `h`. Every way
to build a string keeps the heap well formed (`HeapOk`) and gives a value that holds code points
whose units are the pieces' units side by side, or the slice asked for.
-/

namespace Qjs

open Wtf8

/-! ### What a string stands for -/

/-- The bytes encode `cs`, and the ASCII flag is right when it is set. -/
structure Rep (p : JSString) (cs : List ℕ) : Prop where
  codePoints : CodePoints cs
  buf_eq : p.buf = encodeAll cs
  ascii : p.isAscii = true → ∀ c ∈ cs, c < 0x80

def Holds (h : StrHeap) (v : StrVal) (cs : List ℕ) : Prop :=
  match v with
  | .char c => c < 0x110000 ∧ cs = [c]
  | .ref id => ∃ p, h.strings id = some p ∧ Rep p cs

/-- The invariant of the heap of strings. -/
structure HeapOk (h : StrHeap) : Prop where
  empty : Holds h jsAtomEmpty []
  fresh : ∀ id, h.next ≤ id → h.strings id = none
  cache : ∀ k v, (h.cache k).str = some v →
    ∃ cs, Holds h v cs ∧ Boundary cs (h.cache k).posUtf8 (h.cache k).posUtf16

/-- The strings of `h` are still there in `h'`. -/
def Extends (h h' : StrHeap) : Prop := ∀ id p, h.strings id = some p → h'.strings id = some p

variable {a : Arch} {mem : ℕ → Bool} {h h' : StrHeap} {v v' : StrVal} {cs ds : List ℕ}

theorem Extends.refl (h : StrHeap) : Extends h h := fun _ _ hp => hp

theorem Extends.trans {h'' : StrHeap} (h1 : Extends h h') (h2 : Extends h' h'') : Extends h h'' :=
  fun id p hp => h2 id p (h1 id p hp)

theorem Holds.mono (hv : Holds h v cs) (he : Extends h h') : Holds h' v cs := by
  cases v with
  | char c => exact hv
  | ref id =>
    obtain ⟨p, hp, hr⟩ := hv
    exact ⟨p, he id p hp, hr⟩

theorem Holds.rep (hv : Holds h v cs) : Rep (getStringPtr h v) cs := by
  cases v with
  | char c =>
    obtain ⟨hc, rfl⟩ := hv
    refine ⟨.singleton hc, ?_, ?_⟩
    · simp [getStringPtr, unicodeToUtf8_eq hc]
    · intro ha d hd
      simp only [getStringPtr, decide_eq_true_eq] at ha
      rw [List.mem_singleton.1 hd]
      omega
  | ref id =>
    obtain ⟨p, hp, hr⟩ := hv
    simpa [getStringPtr, hp] using hr

theorem Holds.unique (h1 : Holds h v cs) (h2 : Holds h v ds) : cs = ds :=
  encodeAll_injective h1.rep.codePoints h2.rep.codePoints (h1.rep.buf_eq ▸ h2.rep.buf_eq)

/-- ASCII code points are their own bytes and units. -/
theorem encodeAll_ascii : ∀ {cs : List ℕ}, (∀ c ∈ cs, c < 0x80) → encodeAll cs = cs ∧ unitsAll cs = cs
  | [], _ => ⟨rfl, rfl⟩
  | c :: cs, h => by
    have hc := h c List.mem_cons_self
    obtain ⟨h1, h2⟩ := encodeAll_ascii fun d hd => h d (List.mem_cons_of_mem c hd)
    constructor
    · rw [encodeAll_cons, h1, encode, if_pos hc]
      rfl
    · rw [unitsAll_cons, h2, units, if_pos (by omega)]
      rfl

/-! ### New strings -/

/-- A string stored at the next reference. -/
def StrHeap.add (h : StrHeap) (p : JSString) : StrHeap :=
  { h with strings := Function.update h.strings h.next (some p), next := h.next + 1 }

theorem HeapOk.extends_add (hh : HeapOk h) (p : JSString) : Extends h (h.add p) := by
  intro id q hq
  have hne : id ≠ h.next := by
    rintro rfl
    rw [hh.fresh _ le_rfl] at hq
    cases hq
  simpa [StrHeap.add, Function.update_of_ne hne] using hq

theorem HeapOk.add (hh : HeapOk h) {p : JSString} (hp : Rep p cs) :
    HeapOk (h.add p) ∧ Holds (h.add p) (.ref h.next) cs := by
  have he := hh.extends_add p
  refine ⟨⟨hh.empty.mono he, ?_, ?_⟩, p, by simp [StrHeap.add], hp⟩
  · intro id hid
    simp only [StrHeap.add] at hid ⊢
    rw [Function.update_of_ne (by omega)]
    exact hh.fresh id (by omega)
  · intro k v hk
    obtain ⟨es, hes, hb⟩ := hh.cache k v hk
    exact ⟨es, hes.mono he, hb⟩

/-- What an operation that gives a string value promises. -/
structure Gives (h : StrHeap) (v' : StrVal) (h' : StrHeap) (cs : List ℕ) : Prop where
  heapOk : HeapOk h'
  extends' : Extends h h'
  holds : Holds h' v' cs

theorem jsAllocString_gives (hh : HeapOk h) {p : JSString} (hp : Rep p cs)
    (hr : jsAllocString a mem h p = some (v', h')) : Gives h v' h' cs := by
  unfold jsAllocString at hr
  split_ifs at hr
  obtain ⟨rfl, rfl⟩ := Prod.mk.inj (Option.some.inj hr)
  exact ⟨(hh.add hp).1, hh.extends_add p, (hh.add hp).2⟩

theorem gives_empty (hh : HeapOk h) : Gives h jsAtomEmpty h [] := ⟨hh, .refl h, hh.empty⟩

/-! ### Conversion of positions -/

theorem Boundary.zero (cs : List ℕ) : Boundary cs 0 0 := ⟨[], cs, rfl, rfl, rfl⟩

/-- Only the cache may differ. -/
structure SameStrings (h h' : StrHeap) : Prop where
  heapOk : HeapOk h'
  strings : h'.strings = h.strings

theorem SameStrings.extends' (hs : SameStrings h h') : Extends h h' := by
  intro id p hp
  rw [hs.strings]
  exact hp

theorem HeapOk.set_cache (hh : HeapOk h) {i j : ℕ} (hv : Holds h v cs) (hb : Boundary cs i j)
    (k counter : ℕ) :
    SameStrings h { h with
      cache := Function.update h.cache k ⟨some v, i, j⟩
      cacheCounter := counter } := by
  refine ⟨⟨hh.empty, hh.fresh, ?_⟩, rfl⟩
  intro k' v' hk'
  by_cases hkk : k' = k
  · subst hkk
    simp only [Function.update_self] at hk' ⊢
    obtain rfl := Option.some.inj hk'
    exact ⟨cs, hv, hb⟩
  · simp only [Function.update_of_ne hkk] at hk' ⊢
    exact hh.cache k' v' hk'

theorem foldl_nearestStep_str {t : PosType} {pos : ℕ} : ∀ (ks : List ℕ) (acc : ℕ × Option ℕ),
    (∀ k, acc.2 = some k → (h.cache k).str = some v) →
    ∀ k, (ks.foldl (nearestStep h v t pos) acc).2 = some k → (h.cache k).str = some v
  | [], _, hacc => hacc
  | k₀ :: ks, acc, hacc => by
    rw [List.foldl_cons]
    apply foldl_nearestStep_str ks
    intro k hk
    simp only [nearestStep] at hk
    split_ifs at hk with hp hc hc
    · obtain rfl := Option.some.inj hk
      exact hc.1
    · exact hacc k hk
    · obtain rfl := Option.some.inj hk
      exact hc.1
    · exact hacc k hk

theorem nearestEntry_str {t : PosType} {pos k : ℕ} (hk : nearestEntry h v t pos = some k) :
    (h.cache k).str = some v :=
  foldl_nearestStep_str _ _ (by simp) k hk

theorem cacheEntry_spec (hh : HeapOk h) (hv : Holds h v cs) (t : PosType) (pos : ℕ) :
    SameStrings h (cacheEntry h v t pos).2
      ∧ ((cacheEntry h v t pos).2.cache (cacheEntry h v t pos).1).str = some v := by
  unfold cacheEntry
  split
  · next k hk => exact ⟨⟨hh, rfl⟩, nearestEntry_str hk⟩
  · exact ⟨hh.set_cache hv (.zero cs) _ _, by simp⟩

theorem units_length_le (c : ℕ) : (units c).length ≤ (encode c).length := by
  have h1 := (encode_length c).1
  rcases Nat.lt_or_ge c 0x10000 with h | h
  · rw [units_length_single h]
    exact h1
  · rw [units_length_pair h, encode_length_eq_four h]
    omega

theorem unitsAll_length_le : ∀ cs : List ℕ, (unitsAll cs).length ≤ (encodeAll cs).length
  | [] => le_rfl
  | c :: cs => by
    have h1 := units_length_le c
    have h2 := unitsAll_length_le cs
    simp only [unitsAll_cons, encodeAll_cons, List.length_append]
    omega

theorem posOk_ascii (hcs : ∀ c ∈ cs, c < 0x80) (pos : ℕ) :
    PosOk cs (min pos (unitsAll cs).length) (min (encodeAll cs).length pos * 2) := by
  have htake : ∀ c ∈ cs.take pos, c < 0x80 := fun c hc => hcs c (List.mem_of_mem_take hc)
  obtain ⟨h1, h2⟩ := encodeAll_ascii hcs
  obtain ⟨h3, h4⟩ := encodeAll_ascii htake
  refine ⟨cs.take pos, cs.drop pos, (List.take_append_drop pos cs).symm, .inl ?_⟩
  rw [h1, h2, h3, h4, List.length_take]
  omega

/-- A scan starts from a boundary, and the heap stays well formed if it ends at one. -/
theorem posScanCached_spec (hh : HeapOk h) (hv : Holds h v cs) (t : PosType) (pos : ℕ) :
    ∃ i j, Boundary cs i j ∧ (posScanCached h v (encodeAll cs) t pos).1 = posScan (encodeAll cs) t pos i j
      ∧ (Boundary cs (posScan (encodeAll cs) t pos i j).1 (posScan (encodeAll cs) t pos i j).2.1 →
        SameStrings h (posScanCached h v (encodeAll cs) t pos).2) := by
  unfold posScanCached
  split_ifs with hlt
  · exact ⟨0, 0, .zero cs, rfl, fun _ => ⟨hh, rfl⟩⟩
  · obtain ⟨hs, hstr⟩ := cacheEntry_spec hh hv t pos
    obtain ⟨es, hes, hb⟩ := hs.heapOk.cache _ v hstr
    obtain rfl := (hv.mono hs.extends').unique hes
    refine ⟨_, _, hb, rfl, ?_⟩
    intro hb'
    simp only [hstr]
    exact ⟨(hs.heapOk.set_cache hes hb' _ _).heapOk, hs.strings⟩

/-- The position of a unit, whatever the cache remembers; positions past the end are taken as the
end. -/
theorem jsStringUtf16ToUtf8Pos_spec (hh : HeapOk h) (hv : Holds h v cs) (pos : ℕ) :
    SameStrings h (jsStringUtf16ToUtf8Pos h v pos).2
      ∧ PosOk cs (min pos (unitsAll cs).length) (jsStringUtf16ToUtf8Pos h v pos).1 := by
  have hr := hv.rep
  simp only [jsStringUtf16ToUtf8Pos, jsStringConvertPos, hr.buf_eq]
  split_ifs with ha
  · exact ⟨⟨hh, rfl⟩, posOk_ascii (hr.ascii ha) pos⟩
  · obtain ⟨i, j, hb, he, hs⟩ := posScanCached_spec hh hv .utf16 pos
    obtain ⟨hb', hpos⟩ := posScan_utf16 pos hr.codePoints.lt hb
    rw [← he] at hpos
    exact ⟨hs hb', hpos⟩

/-- The length is the number of units. -/
theorem jsStringLen_spec (hh : HeapOk h) (hv : Holds h v cs) (hl : (encodeAll cs).length < int32Max) :
    SameStrings h (jsStringLen h v).2 ∧ (jsStringLen h v).1 = (unitsAll cs).length := by
  have hr := hv.rep
  have hu := unitsAll_length_le cs
  cases v with
  | char c =>
    obtain ⟨-, rfl⟩ := hv
    refine ⟨⟨hh, rfl⟩, ?_⟩
    simp only [jsStringLen, unitsAll_cons, unitsAll_nil, List.append_nil, units_length]
    split_ifs <;> omega
  | ref id =>
    simp only [jsStringLen, jsStringUtf8ToUtf16Pos, jsStringConvertPos, hr.buf_eq]
    split_ifs with ha
    · obtain ⟨h1, h2⟩ := encodeAll_ascii (hr.ascii ha)
      exact ⟨⟨hh, rfl⟩, by rw [h1, h2]⟩
    · rw [Nat.mul_div_cancel _ (by norm_num : 0 < 2), Nat.mul_mod_left, Nat.add_zero]
      obtain ⟨i, j, hb, he, hs⟩ := posScanCached_spec hh hv .utf8 (encodeAll cs).length
      obtain ⟨hb', hlen⟩ := posScan_utf8 hr.codePoints.lt hb le_rfl (by omega)
      rw [← he] at hlen
      exact ⟨hs hb', hlen rfl⟩

/-! ### Substrings -/

/-- Two ways to split a string, ordered by the units before the split. -/
theorem append_split {pre₁ post₁ pre₂ post₂ : List ℕ} (he : pre₁ ++ post₁ = pre₂ ++ post₂)
    (hle : (unitsAll pre₁).length ≤ (unitsAll pre₂).length) :
    ∃ mid, pre₂ = pre₁ ++ mid ∧ post₁ = mid ++ post₂ := by
  rcases List.append_eq_append_iff.1 he with ⟨mid, h1, h2⟩ | ⟨mid, h1, h2⟩
  · exact ⟨mid, h1, h2⟩
  · rw [h1, unitsAll_append, List.length_append] at hle
    obtain rfl : mid = [] := eq_nil_of_unitsAll (by omega)
    exact ⟨[], by simpa using h1.symm, by simpa using h2.symm⟩

/-- Two positions cut the string. -/
theorem cut_of_posOk {i j s8 e8 : ℕ} (hcs : CodePoints cs) (hi : PosOk cs i s8) (hj : PosOk cs j e8)
    (hij : i < j) : ∃ pre r mid l post, Cut cs pre r mid l post
      ∧ i = (unitsAll pre).length + r.length ∧ s8 = (encodeAll pre).length * 2 + r.length
      ∧ j = (unitsAll (pre ++ (r ++ mid))).length + l.length
      ∧ e8 = (encodeAll (pre ++ (r ++ mid))).length * 2 + l.length := by
  obtain ⟨pre₁, post₁, rfl, hi⟩ := hi
  obtain ⟨pre₂, post₂, he, hj⟩ := hj
  have hlt : ∀ c ∈ pre₁ ++ post₁, c < 0x110000 := hcs.lt
  obtain ⟨mid, rfl, rfl⟩ := append_split he (by omega)
  -- the pair cut at the end, if any, is the first code point of what follows
  obtain ⟨l, post, rfl, hl, hlj, hle⟩ : ∃ l post, post₂ = l ++ post ∧ Halved l
      ∧ j = (unitsAll (pre₁ ++ mid)).length + l.length
      ∧ e8 = (encodeAll (pre₁ ++ mid)).length * 2 + l.length := by
    rcases hj with ⟨he8, hj⟩ | ⟨he8, hj, c, rest, rfl, hc⟩
    · exact ⟨[], post₂, rfl, .inl rfl, hj.symm, he8⟩
    · exact ⟨[c], rest, rfl, .inr ⟨c, rfl, hc, hlt c (by simp)⟩, hj.symm, he8⟩
  rcases hi with ⟨hs8, hi⟩ | ⟨hs8, hi, c, rest, hpost, hc⟩
  · exact ⟨pre₁, [], mid, l, post, ⟨by simp, .inl rfl, hl⟩, hi.symm, hs8, hlj, hle⟩
  · cases mid with
    | nil =>
      simp only [List.append_nil] at hlj
      rcases hl with rfl | ⟨d, rfl, -⟩ <;> simp at hlj <;> omega
    | cons d mid =>
      obtain rfl : d = c := (List.cons.inj hpost).1
      exact ⟨pre₁, [d], mid, l, post, ⟨by simp, .inr ⟨d, rfl, hc, hlt d (by simp)⟩, hl⟩, hi.symm, hs8,
        hlj, hle⟩

/-- Bytes that are all ASCII encode ASCII. -/
theorem ascii_of_isAsciiString : ∀ {cs : List ℕ}, isAsciiString (encodeAll cs) = true →
    ∀ c ∈ cs, c < 0x80
  | [], _ => by simp
  | c :: cs, h => by
    simp only [isAsciiString, encodeAll_cons, List.all_append, Bool.and_eq_true] at h
    intro d hd
    rcases List.mem_cons.1 hd with rfl | hd
    · have h1 := h.1
      unfold encode at h1
      split_ifs at h1 <;> simp at h1 <;> omega
    · exact ascii_of_isAsciiString h.2 d hd

/-- The bytes written for the second half of the code point at `start`. -/
theorem right_half {r rest : List ℕ} (h : Halved r) :
    (if r.length = 1 then
        unicodeToUtf8 (0xdc00 + ((utf8Get (encodeAll (r ++ rest)) - 0x10000) &&& 0x3ff))
      else []) = encodeAll (r.map trail) := by
  rcases h with rfl | ⟨c, rfl, h1, h2⟩
  · rfl
  · have hm : (c - 0x10000) &&& 0x3ff = (c - 0x10000) % 0x400 := Nat.and_two_pow_sub_one_eq_mod _ 10
    rw [if_pos List.length_singleton, List.singleton_append, encodeAll_cons, utf8Get_encode h2, hm,
      unicodeToUtf8_eq (by omega)]
    exact (encodeAll_singleton _).symm

/-- The bytes written for the first half of the code point at `end`. -/
theorem left_half {l rest : List ℕ} (h : Halved l) :
    (if l.length = 1 then
        unicodeToUtf8 (0xd800 + ((utf8Get (encodeAll (l ++ rest)) - 0x10000) >>> 10))
      else []) = encodeAll (l.map lead) := by
  rcases h with rfl | ⟨c, rfl, h1, h2⟩
  · rfl
  · have hm : (c - 0x10000) >>> 10 = (c - 0x10000) / 0x400 := Nat.shiftRight_eq_div_pow _ 10
    rw [if_pos List.length_singleton, List.singleton_append, encodeAll_cons, utf8Get_encode h2, hm,
      unicodeToUtf8_eq (by omega)]
    exact (encodeAll_singleton _).symm

/-- Where the copied part starts. -/
theorem start_copy {pre r : List ℕ} (h : Halved r) :
    (if r.length = 1 then (encodeAll pre).length + 4 else (encodeAll pre).length)
      = (encodeAll (pre ++ r)).length := by
  rcases h with rfl | ⟨c, rfl, h1, -⟩
  · simp
  · simp [encode_length_eq_four h1]

/-- `js_sub_string_utf8` between two positions. -/
theorem jsSubStringUtf8_gives (hh : HeapOk h) (hv : Holds h v cs) {i j s8 e8 : ℕ}
    (hi : PosOk cs i s8) (hj : PosOk cs j e8) (hij : i < j)
    (hr : jsSubStringUtf8 a mem h v s8 e8 = some (v', h')) :
    ∃ rs, Gives h v' h' rs ∧ unitsAll rs = ((unitsAll cs).drop i).take (j - i) := by
  have hrep := hv.rep
  have hcs := hrep.codePoints
  obtain ⟨pre, r, mid, l, post, hcut, rfl, rfl, rfl, rfl⟩ := cut_of_posOk hcs hi hj hij
  refine ⟨r.map trail ++ (mid ++ l.map lead), ?_, hcut.units_slice.symm⟩
  have hrs := hcut.codePoints hcs
  have hr1 := hcut.halved_r.length_le
  have hl1 := hcut.halved_l.length_le
  have hbuf : (getStringPtr h v).buf = encodeAll (pre ++ (r ++ (mid ++ (l ++ post)))) := by
    rw [hrep.buf_eq, hcut.eq]
  have hassoc : pre ++ (r ++ (mid ++ (l ++ post))) = pre ++ (r ++ mid) ++ (l ++ post) := by simp
  have hdropS := drop_encodeAll pre (r ++ (mid ++ (l ++ post)))
  have hdropE := drop_encodeAll (pre ++ (r ++ mid)) (l ++ post)
  rw [← hassoc] at hdropE
  have hcopy : ((encodeAll (pre ++ (r ++ (mid ++ (l ++ post))))).drop (encodeAll (pre ++ r)).length).take
      ((encodeAll (pre ++ (r ++ mid))).length - (encodeAll (pre ++ r)).length) = encodeAll mid := by
    have h1 := drop_encodeAll (pre ++ r) (mid ++ (l ++ post))
    rw [List.append_assoc] at h1
    rw [h1, encodeAll_append mid]
    apply List.take_left'
    simp only [encodeAll_append, List.length_append]
    omega
  have hmod : ∀ n k : ℕ, k ≤ 1 → (n * 2 + k) % 2 = k := by omega
  have hdiv : ∀ n k : ℕ, k ≤ 1 → (n * 2 + k) / 2 = n := by omega
  simp only [jsSubStringUtf8, hbuf, hmod _ _ hr1, hmod _ _ hl1, hdiv _ _ hr1, hdiv _ _ hl1, hdropS,
    hdropE, right_half hcut.halved_r, left_half hcut.halved_l, start_copy hcut.halved_r, hcopy] at hr
  split_ifs at hr with h0 h1 h2
  · -- the two positions differ
    exfalso
    have hm : (encodeAll (r ++ mid)).length = 0 := by
      rw [encodeAll_append, List.length_append] at h0
      omega
    have hrm := eq_nil_of_encodeAll hm
    simp only [List.append_eq_nil_iff] at hrm
    obtain ⟨rfl, rfl⟩ := hrm
    simp only [List.append_nil, List.length_nil] at h0 hij
    omega
  · obtain ⟨hr0, hl0, hlen⟩ := h1
    obtain rfl : r = [] := List.eq_nil_of_length_eq_zero hr0
    obtain rfl : l = [] := List.eq_nil_of_length_eq_zero hl0
    cases mid with
    | nil => simp at hij
    | cons c mid =>
      have hc : c < 0x110000 := hcs.lt c (by rw [hcut.eq]; simp)
      have hb := byteAt_drop (encodeAll (pre ++ ([] ++ (c :: mid ++ ([] ++ post)))))
        (encodeAll pre).length 0
      rw [hdropS, Nat.add_zero] at hb
      simp only [List.nil_append, List.cons_append, encodeAll_cons, encodeAll_append,
        List.length_append] at hb hlen hr
      rw [← hb, utf8CharLen_encode hc] at hlen
      obtain rfl : mid = [] := eq_nil_of_encodeAll (by omega)
      rw [utf8Get_encode hc] at hr
      obtain ⟨rfl, rfl⟩ := Prod.mk.inj (Option.some.inj hr)
      exact ⟨hh, .refl h, hc, by simp⟩
  · refine jsAllocString_gives hh ⟨hrs, ?_, by simp⟩ hr
    simp
  · obtain rfl : r = [] := List.eq_nil_of_length_eq_zero (by omega)
    obtain rfl : l = [] := List.eq_nil_of_length_eq_zero (by omega)
    rw [List.append_nil, hdropS] at hcopy
    rw [hcopy] at hr
    refine jsAllocString_gives hh ⟨hrs, by simp, ?_⟩ hr
    intro hasc c hc
    rw [Bool.or_eq_true] at hasc
    simp only [List.map_nil, List.nil_append, List.append_nil] at hc
    rcases hasc with hasc | hasc
    · exact hrep.ascii hasc c (by rw [hcut.eq]; simp [hc])
    · exact ascii_of_isAsciiString hasc c hc

/-- `js_sub_string(a, i, j)` holds the units from `i` up to `j`. -/
theorem jsSubString_gives (hh : HeapOk h) (hv : Holds h v cs) {i j : ℕ} (hij : i ≤ j)
    (hj : j ≤ (unitsAll cs).length) (hr : jsSubString a mem h v i j = some (v', h')) :
    ∃ rs, Gives h v' h' rs ∧ unitsAll rs = ((unitsAll cs).drop i).take (j - i) := by
  simp only [jsSubString] at hr
  split_ifs at hr with hle
  · obtain ⟨rfl, rfl⟩ := Prod.mk.inj (Option.some.inj hr)
    exact ⟨[], gives_empty hh, by simp [show j - i = 0 by omega]⟩
  · obtain ⟨hs1, hp1⟩ := jsStringUtf16ToUtf8Pos_spec hh hv i
    have hv1 := hv.mono hs1.extends'
    obtain ⟨hs2, hp2⟩ := jsStringUtf16ToUtf8Pos_spec hs1.heapOk hv1 j
    rw [min_eq_left (by omega)] at hp1 hp2
    obtain ⟨rs, hg, hu⟩ := jsSubStringUtf8_gives hs2.heapOk (hv1.mono hs2.extends') hp1 hp2 (by omega) hr
    exact ⟨rs, ⟨hg.heapOk, (hs1.extends'.trans hs2.extends').trans hg.extends', hg.holds⟩, hu⟩

end Qjs
