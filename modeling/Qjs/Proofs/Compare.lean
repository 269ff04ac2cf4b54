import Qjs.Atoms
import Qjs.Proofs.Str

/-!
# Comparing strings is a linear order

On well-formed bytes `js_string_compare` is the lexicographic order of the code points by
`strKey`, in which a code point above the 16-bit range comes right after its left surrogate
(`jsStringCompare_encodeAll`). Equal means equal bytes. That is the order of the UTF-16 units but
for a left surrogate of its own, before a unit above the surrogates, against a code point with the
same left surrogate (`jsStringCompare_units_iff`).
-/

namespace Qjs

open Wtf8

/-! ### The first difference -/

theorem firstDiff_le : ∀ p q : List ℕ, firstDiff p q ≤ min p.length q.length
  | [], _ => by simp [firstDiff]
  | _ :: _, [] => by simp [firstDiff]
  | b :: p, c :: q => by
    have := firstDiff_le p q
    rw [firstDiff]
    split_ifs
    · simp only [List.length_cons]
      omega
    · omega

theorem firstDiff_append_left : ∀ pre p q : List ℕ,
    firstDiff (pre ++ p) (pre ++ q) = pre.length + firstDiff p q
  | [], p, q => by simp
  | b :: pre, p, q => by
    rw [List.cons_append, List.cons_append, firstDiff, if_pos rfl, firstDiff_append_left pre p q,
      List.length_cons]
    omega

theorem firstDiff_append_right : ∀ (p q r s : List ℕ), firstDiff p q < min p.length q.length →
    firstDiff (p ++ r) (q ++ s) = firstDiff p q
  | [], _, _, _, h => by simp at h
  | _ :: _, [], _, _, h => by simp at h
  | b :: p, c :: q, r, s, h => by
    rw [firstDiff] at h
    rw [List.cons_append, List.cons_append, firstDiff, firstDiff]
    split_ifs at h ⊢ with hbc
    · rw [firstDiff_append_right p q r s]
      simp only [List.length_cons] at h
      omega
    · rfl

/-- Without a difference one string starts with the other. -/
theorem isPrefix_of_firstDiff : ∀ {p q : List ℕ}, firstDiff p q = min p.length q.length →
    p <+: q ∨ q <+: p
  | [], q, _ => .inl q.nil_prefix
  | b :: p, [], _ => .inr (List.nil_prefix)
  | b :: p, c :: q, h => by
    rw [firstDiff] at h
    simp only [List.length_cons] at h
    split_ifs at h with hbc
    · subst hbc
      refine (isPrefix_of_firstDiff (p := p) (q := q) (by omega)).imp ?_ ?_
      · exact fun hp => (List.prefix_cons_inj b).2 hp
      · exact fun hp => (List.prefix_cons_inj b).2 hp
    · omega

/-- No encoding starts with another one. -/
theorem encode_prefixFree {c d : ℕ} (hc : c < 0x110000) (hd : d < 0x110000)
    (h : encode c <+: encode d) : c = d := by
  obtain ⟨t, ht⟩ := h
  have h1 := decode_encode_append hd []
  rw [List.append_nil, ← ht, decode_encode_append hc] at h1
  exact (List.cons.inj h1).1

theorem firstDiff_encode {c d : ℕ} (hc : c < 0x110000) (hd : d < 0x110000) (hne : c ≠ d) :
    firstDiff (encode c) (encode d) < min (encode c).length (encode d).length := by
  refine (firstDiff_le _ _).lt_of_ne fun h => hne ?_
  rcases isPrefix_of_firstDiff h with hp | hp
  · exact encode_prefixFree hc hd hp
  · exact (encode_prefixFree hd hc hp).symm

/-! ### The order -/

/-- The place of a code point in the order. -/
def strKey (c : ℕ) : ℕ := if c < 0x10000 then c * 0x200000 else lead c * 0x200000 + c

def strKeys (cs : List ℕ) : List ℕ := cs.map strKey

theorem strKey_injective {c d : ℕ} (hc : c < 0x110000) (hd : d < 0x110000)
    (h : strKey c = strKey d) : c = d := by
  unfold strKey lead at h
  split_ifs at h <;> omega

theorem strKeys_injective : ∀ {cs ds : List ℕ}, (∀ c ∈ cs, c < 0x110000) →
    (∀ d ∈ ds, d < 0x110000) → strKeys cs = strKeys ds → cs = ds
  | [], [], _, _, _ => rfl
  | [], _ :: _, _, _, h => by simp [strKeys] at h
  | _ :: _, [], _, _, h => by simp [strKeys] at h
  | c :: cs, d :: ds, hc, hd, h => by
    obtain ⟨h1, h2⟩ := List.cons.inj h
    rw [strKey_injective (hc c List.mem_cons_self) (hd d List.mem_cons_self) h1,
      strKeys_injective (fun x hx => hc x (List.mem_cons_of_mem c hx))
        (fun x hx => hd x (List.mem_cons_of_mem d hx)) h2]

/-- The comparison of the code points at the first difference. -/
theorem compare_codePoints {c d : ℕ} (hc : c < 0x110000) (hd : d < 0x110000) :
    (if (c < 0x10000 ∧ d < 0x10000) ∨ (c ≥ 0x10000 ∧ d ≥ 0x10000) then
        if c < d then Ordering.lt else .gt
      else if c < 0x10000 then
        if c ≤ 0xd800 + ((d - 0x10000) >>> 10) then .lt else .gt
      else if 0xd800 + ((c - 0x10000) >>> 10) < d then .lt else .gt)
      = if strKey c < strKey d then .lt else .gt := by
  have hshift : ∀ x : ℕ, x >>> 10 = x / 0x400 := fun x => Nat.shiftRight_eq_div_pow x 10
  have hk : ∀ x : ℕ, strKey x = if x < 0x10000 then x * 0x200000
      else (0xd800 + (x - 0x10000) / 0x400) * 0x200000 + x := fun _ => rfl
  rw [hshift, hshift, hk c, hk d]
  split_ifs <;> first | rfl | (exfalso; omega)

/-- The three-way comparison of the keys. -/
def keyCmp (x y : List ℕ) : Ordering := if x < y then .lt else if y < x then .gt else .eq

theorem keyCmp_eq_lt {x y : List ℕ} : keyCmp x y = .lt ↔ x < y := by
  unfold keyCmp
  split_ifs with h1 h2 <;> simp [h1]

theorem keyCmp_eq_gt {x y : List ℕ} : keyCmp x y = .gt ↔ y < x := by
  unfold keyCmp
  split_ifs with h1 h2
  · simp [h1.le]
  · simp [h2]
  · simp [not_lt.1 h2]

theorem keyCmp_eq_eq {x y : List ℕ} : keyCmp x y = .eq ↔ x = y := by
  unfold keyCmp
  split_ifs with h1 h2
  · simp [h1.ne]
  · simp [h2.ne']
  · simp [le_antisymm (not_lt.1 h2) (not_lt.1 h1)]

theorem keyCmp_cons (k : ℕ) (x y : List ℕ) : keyCmp (k :: x) (k :: y) = keyCmp x y := by
  rcases lt_trichotomy x y with h | rfl | h
  · rw [keyCmp_eq_lt.2 h, keyCmp_eq_lt]
    exact List.cons_lt_cons_iff.2 (.inr ⟨rfl, h⟩)
  · rw [keyCmp_eq_eq.2 rfl, keyCmp_eq_eq.2 rfl]
  · rw [keyCmp_eq_gt.2 h, keyCmp_eq_gt]
    exact List.cons_lt_cons_iff.2 (.inr ⟨rfl, h⟩)

theorem nil_firstDiff (p : List ℕ) : firstDiff [] p = 0 := by simp [firstDiff]

theorem firstDiff_nil (p : List ℕ) : firstDiff p [] = 0 := by cases p <;> rfl

theorem stringGetCp_encode {c : ℕ} (hc : c < 0x110000) (pre post : List ℕ) {k : ℕ}
    (hk : k < (encode c).length) :
    stringGetCp (encodeAll (pre ++ c :: post)) ((encodeAll pre).length + k) = c := by
  rw [stringGetCp, charStart_encode hc pre post k hk, drop_encodeAll, encodeAll_cons,
    utf8Get_encode hc]

theorem jsStringCompare_append : ∀ (cs ds pre : List ℕ), (∀ c ∈ cs, c < 0x110000) →
    (∀ d ∈ ds, d < 0x110000) →
    jsStringCompare (encodeAll (pre ++ cs)) (encodeAll (pre ++ ds)) = keyCmp (strKeys cs) (strKeys ds)
  | [], [], pre, _, _ => by
    have hdiff := firstDiff_append_left (encodeAll pre) [] []
    simp only [List.append_nil, firstDiff] at hdiff
    simp [jsStringCompare, hdiff, strKeys, keyCmp]
  | [], d :: ds, pre, _, hd => by
    have hdiff := firstDiff_append_left (encodeAll pre) [] (encodeAll (d :: ds))
    have hpos := (encode_length d).1
    have hlt : strKeys [] < strKeys (d :: ds) := List.nil_lt_cons _ _
    rw [List.append_nil, nil_firstDiff] at hdiff
    rw [keyCmp_eq_lt.2 hlt, jsStringCompare, List.append_nil, encodeAll_append, hdiff]
    rw [List.length_append, encodeAll_cons, List.length_append]
    rw [if_neg (by omega), if_neg (by omega), if_pos (by omega)]
  | c :: cs, [], pre, hc, _ => by
    have hdiff := firstDiff_append_left (encodeAll pre) (encodeAll (c :: cs)) []
    have hpos := (encode_length c).1
    have hlt : strKeys [] < strKeys (c :: cs) := List.nil_lt_cons _ _
    rw [List.append_nil, firstDiff_nil, encodeAll_cons] at hdiff
    rw [keyCmp_eq_gt.2 hlt, jsStringCompare, List.append_nil, encodeAll_append,
      encodeAll_cons, hdiff]
    rw [List.length_append, List.length_append]
    rw [if_neg (by omega), if_neg (by omega), if_neg (by omega)]
  | c :: cs, d :: ds, pre, hc, hd => by
    have hcc := hc c List.mem_cons_self
    have hdd := hd d List.mem_cons_self
    by_cases hcd : c = d
    · subst hcd
      have ih := jsStringCompare_append cs ds (pre ++ [c])
        (fun x hx => hc x (List.mem_cons_of_mem c hx)) (fun x hx => hd x (List.mem_cons_of_mem c hx))
      rw [List.append_assoc, List.append_assoc, List.singleton_append, List.singleton_append] at ih
      rw [ih]
      exact (keyCmp_cons _ _ _).symm
    · have hk := firstDiff_encode hcc hdd hcd
      have hdiff : firstDiff (encodeAll (pre ++ c :: cs)) (encodeAll (pre ++ d :: ds))
          = (encodeAll pre).length + firstDiff (encode c) (encode d) := by
        rw [encodeAll_append, encodeAll_append, firstDiff_append_left, encodeAll_cons, encodeAll_cons,
          firstDiff_append_right _ _ _ _ hk]
      have hlen : (encodeAll pre).length + firstDiff (encode c) (encode d)
          ≠ min (encodeAll (pre ++ c :: cs)).length (encodeAll (pre ++ d :: ds)).length := by
        simp only [encodeAll_append, encodeAll_cons, List.length_append]
        omega
      have hkey : strKey c ≠ strKey d := fun h => hcd (strKey_injective hcc hdd h)
      simp only [jsStringCompare, hdiff]
      rw [if_pos hlen, stringGetCp_encode hcc pre cs (by omega), stringGetCp_encode hdd pre ds (by omega),
        compare_codePoints hcc hdd]
      simp only [strKeys, List.map_cons, keyCmp, List.cons_lt_cons_iff, hkey, hkey.symm,
        false_and, or_false]
      split_ifs with h1 h2
      · rfl
      · rfl
      · exact absurd (lt_of_le_of_ne (not_lt.1 h1) hkey.symm) h2

theorem jsStringCompare_encodeAll {cs ds : List ℕ} (hc : CodePoints cs) (hd : CodePoints ds) :
    jsStringCompare (encodeAll cs) (encodeAll ds) = keyCmp (strKeys cs) (strKeys ds) :=
  jsStringCompare_append cs ds [] hc.lt hd.lt

/-- The order on well-formed bytes. -/
def bytesKey (bs : List ℕ) : List ℕ := strKeys (decode bs)

theorem jsStringCompare_eq_keyCmp {bs bs' : List ℕ} (h : Valid bs) (h' : Valid bs') :
    jsStringCompare bs bs' = keyCmp (bytesKey bs) (bytesKey bs') := by
  obtain ⟨cs, hc, rfl⟩ := h
  obtain ⟨ds, hd, rfl⟩ := h'
  rw [jsStringCompare_encodeAll hc hd, bytesKey, bytesKey, hc.decode_encodeAll, hd.decode_encodeAll]

theorem bytesKey_injective {bs bs' : List ℕ} (h : Valid bs) (h' : Valid bs')
    (he : bytesKey bs = bytesKey bs') : bs = bs' := by
  obtain ⟨cs, hc, rfl⟩ := h
  obtain ⟨ds, hd, rfl⟩ := h'
  rw [bytesKey, bytesKey, hc.decode_encodeAll, hd.decode_encodeAll] at he
  rw [strKeys_injective hc.lt hd.lt he]

/-! ### Against the order of units -/

/-- At the first difference the one string has a left surrogate of its own and then a unit above
the surrogates, the other a code point with that left surrogate. -/
def Overtakes (cs ds : List ℕ) : Prop :=
  ∃ pre e post d rest, cs = pre ++ lead d :: e :: post ∧ ds = pre ++ d :: rest
    ∧ 0x10000 ≤ d ∧ 0xe000 ≤ e ∧ e < 0x10000

theorem lead_lt {d : ℕ} (hd : d < 0x110000) : 0xd800 ≤ lead d ∧ lead d < 0xdc00 := by
  unfold lead
  omega

theorem overtakes_cons {c : ℕ} (hc : c < 0x110000) (cs ds : List ℕ) :
    Overtakes (c :: cs) (c :: ds) ↔ Overtakes cs ds := by
  constructor
  · rintro ⟨pre, e, post, d, rest, h1, h2, hd, he⟩
    rcases pre with _ | ⟨x, pre⟩
    · obtain rfl := (List.cons.inj h2).1
      have h := (List.cons.inj h1).1
      have := (lead_lt hc).2
      omega
    · exact ⟨pre, e, post, d, rest, (List.cons.inj h1).2, (List.cons.inj h2).2, hd, he⟩
  · rintro ⟨pre, e, post, d, rest, rfl, rfl, hd, he⟩
    exact ⟨c :: pre, e, post, d, rest, rfl, rfl, hd, he⟩

/-- With different heads it is the heads that matter. -/
theorem overtakes_of_ne {c d : ℕ} (hne : c ≠ d) {cs ds : List ℕ} :
    Overtakes (c :: cs) (d :: ds) ↔
      c = lead d ∧ 0x10000 ≤ d ∧ ∃ e post, cs = e :: post ∧ 0xe000 ≤ e ∧ e < 0x10000 := by
  constructor
  · rintro ⟨pre, e, post, d', rest, h1, h2, hd, he⟩
    rcases pre with _ | ⟨x, pre⟩
    · obtain ⟨rfl, -⟩ := List.cons.inj h2
      obtain ⟨rfl, rfl⟩ := List.cons.inj h1
      exact ⟨rfl, hd, e, post, rfl, he⟩
    · exact absurd ((List.cons.inj h1).1.trans (List.cons.inj h2).1.symm) hne
  · rintro ⟨rfl, hd, e, post, rfl, he⟩
    exact ⟨[], e, post, d, ds, rfl, rfl, hd, he⟩

/-- The heads decide the order of the units, unless the first string overtakes the second. -/
theorem units_lt_of_strKey_lt {c d : ℕ} {cs : List ℕ} (ds : List ℕ) (hd : d < 0x110000)
    (hcs : CodePoints (c :: cs)) (hk : strKey c < strKey d)
    (hn : ¬Overtakes (c :: cs) (d :: ds)) : unitsAll (c :: cs) < unitsAll (d :: ds) := by
  have hc := hcs.lt c List.mem_cons_self
  have hne : c ≠ d := by
    rintro rfl
    exact lt_irrefl _ hk
  have hlc := lead_lt hc
  have hld := lead_lt hd
  rw [overtakes_of_ne hne] at hn
  rw [unitsAll_cons, unitsAll_cons]
  unfold strKey at hk
  unfold units
  split_ifs at hk ⊢ with h1 h2 h2
  · exact List.cons_lt_cons_iff.2 (.inl (by omega))
  · rcases Nat.lt_or_ge c (lead d) with hlt | hge
    · exact List.cons_lt_cons_iff.2 (.inl hlt)
    obtain rfl : c = lead d := by omega
    refine List.cons_lt_cons_iff.2 (.inr ⟨rfl, ?_⟩)
    -- the unit after the surrogate, if there is one, against the right surrogate
    rcases cs with _ | ⟨e, post⟩
    · exact List.nil_lt_cons _ _
    have het : ¬IsTrail e := fun h => (List.isChain_cons_cons.1 hcs.unjoined).1 ⟨hld, h⟩
    have hle := lead_lt (hcs.lt e (by simp))
    have hte : e < 0x10000 → e < 0xdc00 := by
      intro he
      by_contra hge
      exact hn ⟨rfl, not_lt.1 h2, e, post, rfl, by unfold IsTrail at het; omega, he⟩
    rw [unitsAll_cons]
    unfold units
    split_ifs with he
    · exact List.cons_lt_cons_iff.2 (.inl (by have := hte he; unfold trail; omega))
    · exact List.cons_lt_cons_iff.2 (.inl (by unfold trail; omega))
  · exact List.cons_lt_cons_iff.2 (.inl (by omega))
  · rcases Nat.lt_or_ge (lead c) (lead d) with hlt | hge
    · exact List.cons_lt_cons_iff.2 (.inl hlt)
    · refine List.cons_lt_cons_iff.2 (.inr ⟨by omega, List.cons_lt_cons_iff.2 (.inl ?_)⟩)
      unfold lead at hge hk
      unfold trail
      omega

/-- Overtaking turns the order around. -/
theorem Overtakes.keys_and_units {c d : ℕ} {cs ds : List ℕ} (hd : d < 0x110000) (hne : c ≠ d)
    (h : Overtakes (c :: cs) (d :: ds)) :
    strKey c < strKey d ∧ unitsAll (d :: ds) < unitsAll (c :: cs) := by
  obtain ⟨rfl, hd', e, post, rfl, he, he'⟩ := (overtakes_of_ne hne).1 h
  have hl := lead_lt hd
  constructor
  · unfold strKey
    rw [if_pos (by omega), if_neg (by omega)]
    omega
  · simp only [unitsAll_cons, units, if_pos (show lead d < 0x10000 by omega),
      if_neg (not_lt.2 hd'), if_pos he']
    refine List.cons_lt_cons_iff.2 (.inr ⟨rfl, List.cons_lt_cons_iff.2 (.inl ?_)⟩)
    unfold trail
    omega

theorem keyCmp_append (p x y : List ℕ) : keyCmp (p ++ x) (p ++ y) = keyCmp x y := by
  induction p with
  | nil => rfl
  | cons k p ih => rw [List.cons_append, List.cons_append, keyCmp_cons, ih]

theorem strKeys_lt {c d : ℕ} (cs ds : List ℕ) (h : strKey c < strKey d) :
    strKeys (c :: cs) < strKeys (d :: ds) := List.cons_lt_cons_iff.2 (.inl h)

/-- The order of the keys is the order of the units unless one string overtakes the other. -/
theorem keyCmp_units_iff : ∀ {cs ds : List ℕ}, CodePoints cs → CodePoints ds →
    (keyCmp (strKeys cs) (strKeys ds) = keyCmp (unitsAll cs) (unitsAll ds)
      ↔ ¬(Overtakes cs ds ∨ Overtakes ds cs))
  | [], ds, _, _ => by
    have hno : ¬(Overtakes [] ds ∨ Overtakes ds []) := by
      rintro (⟨pre, e, post, d, rest, h, -⟩ | ⟨pre, e, post, d, rest, -, h, -⟩) <;> simp at h
    refine iff_of_true ?_ hno
    rcases ds with _ | ⟨d, ds⟩
    · rfl
    · have hlt : strKeys [] < strKeys (d :: ds) := List.nil_lt_cons _ _
      rw [keyCmp_eq_lt.2 hlt, eq_comm, keyCmp_eq_lt, unitsAll_nil, unitsAll_cons]
      unfold units
      split_ifs <;> exact List.nil_lt_cons _ _
  | c :: cs, [], _, _ => by
    have hno : ¬(Overtakes (c :: cs) [] ∨ Overtakes [] (c :: cs)) := by
      rintro (⟨pre, e, post, d, rest, -, h, -⟩ | ⟨pre, e, post, d, rest, h, -⟩) <;> simp at h
    refine iff_of_true ?_ hno
    have hlt : strKeys [] < strKeys (c :: cs) := List.nil_lt_cons _ _
    rw [keyCmp_eq_gt.2 hlt, eq_comm, keyCmp_eq_gt, unitsAll_nil, unitsAll_cons]
    unfold units
    split_ifs <;> exact List.nil_lt_cons _ _
  | c :: cs, d :: ds, hcs, hds => by
    have hc := hcs.lt c List.mem_cons_self
    have hd := hds.lt d List.mem_cons_self
    by_cases hcd : c = d
    · subst hcd
      have htail : ∀ {es : List ℕ}, CodePoints (c :: es) → CodePoints es := fun h =>
        ⟨fun x hx => h.lt x (List.mem_cons_of_mem c hx), h.unjoined.tail⟩
      have ih := keyCmp_units_iff (htail hcs) (htail hds)
      rw [unitsAll_cons, unitsAll_cons, keyCmp_append, overtakes_cons hc, overtakes_cons hc, ← ih]
      simp only [strKeys, List.map_cons, keyCmp_cons]
    · have hkey : strKey c ≠ strKey d := fun h => hcd (strKey_injective hc hd h)
      rcases lt_or_gt_of_ne hkey with hk | hk
      · have hno : ¬Overtakes (d :: ds) (c :: cs) := fun h =>
          (h.keys_and_units hc (Ne.symm hcd)).1.not_gt hk
        rw [keyCmp_eq_lt.2 (strKeys_lt cs ds hk), eq_comm, keyCmp_eq_lt]
        constructor
        · rintro hlt (h | h)
          · exact (h.keys_and_units hd hcd).2.not_gt hlt
          · exact hno h
        · intro h
          exact units_lt_of_strKey_lt ds hd hcs hk fun ho => h (.inl ho)
      · have hno : ¬Overtakes (c :: cs) (d :: ds) := fun h =>
          (h.keys_and_units hd hcd).1.not_gt hk
        rw [keyCmp_eq_gt.2 (strKeys_lt ds cs hk), eq_comm, keyCmp_eq_gt]
        constructor
        · rintro hlt (h | h)
          · exact hno h
          · exact (h.keys_and_units hc (Ne.symm hcd)).2.not_gt hlt
        · intro h
          exact units_lt_of_strKey_lt cs hc hds hk fun ho => h (.inr ho)

/-- When `js_string_compare` is the comparison of the UTF-16 units. -/
theorem jsStringCompare_units_iff {bs bs' : List ℕ} (h : Valid bs) (h' : Valid bs') :
    jsStringCompare bs bs' = keyCmp (unitsAll (decode bs)) (unitsAll (decode bs'))
      ↔ ¬(Overtakes (decode bs) (decode bs') ∨ Overtakes (decode bs') (decode bs)) := by
  obtain ⟨cs, hc, rfl⟩ := h
  obtain ⟨ds, hd, rfl⟩ := h'
  rw [jsStringCompare_encodeAll hc hd, hc.decode_encodeAll, hd.decode_encodeAll]
  exact keyCmp_units_iff hc hd

/-- U+1F600 against its right surrogate. -/
theorem jsStringCompare_units_smile :
    jsStringCompare [0xf0, 0x9f, 0x98, 0x80] [0xed, 0xb8, 0x80]
      = keyCmp [0xd83d, 0xde00] [0xde00] := by
  have hl : Valid [0xf0, 0x9f, 0x98, 0x80] := ⟨[0x1f600], .singleton (by norm_num), rfl⟩
  have hr : Valid [0xed, 0xb8, 0x80] := ⟨[0xde00], .singleton (by norm_num), rfl⟩
  have hdl : decode [0xf0, 0x9f, 0x98, 0x80] = [0x1f600] := by decide
  have hdr : decode [0xed, 0xb8, 0x80] = [0xde00] := by decide
  refine (jsStringCompare_units_iff hl hr).2 ?_
  rw [hdl, hdr, overtakes_of_ne (by norm_num), overtakes_of_ne (by norm_num)]
  rintro (⟨-, h, -⟩ | ⟨h, -⟩)
  · norm_num at h
  · norm_num [lead] at h

/-- A left surrogate of its own and U+FFFF come before U+1F600, but their units come after its
units. -/
theorem surrogate_before_smile :
    ¬∀ bs bs', Valid bs → Valid bs' →
      jsStringCompare bs bs' = keyCmp (unitsAll (decode bs)) (unitsAll (decode bs')) := by
  intro h
  have hl : Valid [0xed, 0xa0, 0xbd, 0xef, 0xbf, 0xbf] :=
    ⟨[0xd83d, 0xffff], ⟨by simp, by simp [IsTrail]⟩, rfl⟩
  have hr : Valid [0xf0, 0x9f, 0x98, 0x80] := ⟨[0x1f600], .singleton (by norm_num), rfl⟩
  have := h _ _ hl hr
  revert this
  decide

end Qjs
