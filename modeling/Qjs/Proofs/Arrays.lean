import Qjs.Arrays

/-!
# The methods that change an array are operations on lists

Each method does to the elements of its receiver what its list operation does, from the state that
the conversion of its arguments left, or throws and changes no array (`CallSpec`); what the slots
beyond the length hold never shows. `calls_refine_lists` states this for every sequence of calls.
-/

namespace Qjs

namespace Arrays

variable {β U : Type} {p p' : JSArrayData β} {h h' : Heap β U}

/-! ### Tables -/

theorem length_visible (hp : p.Valid) : p.visible.length = p.len := by
  rw [JSArrayData.visible, List.length_take, min_eq_left hp.len_le]

theorem getElem?_visible {k : ℕ} (hk : k < p.len) : p.visible[k]? = p.arr[k]? := by
  rw [JSArrayData.visible, List.getElem?_take, if_pos hk]

theorem visible_eq {l : List (Val β)} (hp : p.Valid) (hlen : l.length = p.len)
    (hl : ∀ k < p.len, p.arr[k]? = l[k]?) : p.visible = l := by
  apply List.ext_getElem?
  intro k
  rcases lt_or_ge k p.len with hk | hk
  · rw [getElem?_visible hk, hl k hk]
  · rw [List.getElem?_eq_none (by rw [length_visible hp]; exact hk),
      List.getElem?_eq_none (by rw [hlen]; exact hk)]

theorem getD_map {tab : Option (List (Val β))} {f : List (Val β) → List (Val β)}
    (hf : tab = none → f [] = []) : (tab.map f).getD [] = f (tab.getD []) := by
  cases tab with
  | none => exact (hf rfl).symm
  | some arr => rfl

theorem getD_map_store {tab : Option (List (Val β))} {i : ℕ} {xs : List (Val β)}
    (hi : i + xs.length ≤ (tab.getD []).length) :
    (tab.map fun arr => store arr i xs).getD [] = store (tab.getD []) i xs := by
  apply getD_map
  rintro rfl
  obtain ⟨rfl, rfl⟩ : i = 0 ∧ xs = [] := by simpa using hi
  simp [store]

theorem storeAt_arr {i : ℕ} {xs : List (Val β)} (hi : i + xs.length ≤ p.arr.length) :
    (p.storeAt i xs).arr = store p.arr i xs := getD_map_store hi

theorem move_arr (p : JSArrayData β) (dst src n : ℕ) :
    (p.move dst src n).arr = moveWithin p.arr dst src n := by
  apply getD_map
  rintro -
  simp [moveWithin, store]

theorem jsResizeValueArray_spec {ok : Bool} {tab tab' : Option (List (Val β))} {n : ℕ}
    (hr : jsResizeValueArray ok tab n = some tab') :
    n ≤ (tab'.getD []).length ∧
      ((tab.getD []).length ≤ jsValueArraySizeMax →
        (tab'.getD []).length ≤ jsValueArraySizeMax) ∧
      ∃ rest, tab'.getD [] = tab.getD [] ++ rest := by
  unfold jsResizeValueArray at hr
  dsimp only at hr
  split_ifs at hr with hlt hok
  · rw [← Option.some.inj hr]
    have hle : n ≤ grownSize (tab.getD []).length n := le_max_left _ _
    have hmax : grownSize (tab.getD []).length n ≤ jsValueArraySizeMax := by
      rw [allocates, Bool.and_eq_true] at hok
      exact of_decide_eq_true hok.1
    simp only [Option.getD_some, List.length_append, List.length_replicate]
    exact ⟨by omega, fun _ => by omega, _, rfl⟩
  · rw [← Option.some.inj hr]
    exact ⟨by omega, id, [], by simp⟩

theorem jsResizeValueArray_isSome {tab : Option (List (Val β))} {n : ℕ}
    (hn : (tab.getD []).length < n → grownSize (tab.getD []).length n ≤ jsValueArraySizeMax) :
    ∃ tab', jsResizeValueArray true tab n = some tab' := by
  unfold jsResizeValueArray
  dsimp only
  split_ifs with hlt hok
  · exact ⟨_, rfl⟩
  · exact absurd (by simp [allocates, hn hlt]) hok
  · exact ⟨_, rfl⟩

/-- A length that is set keeps the elements up to it, and the new ones are undefined. -/
theorem jsArrayResize_spec {ok : Bool} {n : ℤ} (hp : p.Valid)
    (hr : jsArrayResize ok p n = some p') :
    0 ≤ n ∧ p'.len = n.toNat ∧ p'.Valid ∧
      (∀ k < p.len, k < p'.len → p'.arr[k]? = p.arr[k]?) ∧
      ∀ k, p.len ≤ k → k < p'.len → p'.arr[k]? = some .undefined := by
  obtain ⟨hlen_le, hsize_le⟩ := hp
  unfold jsArrayResize at hr
  dsimp only at hr
  split_ifs at hr with hrange hlt hsmall hgt
  · -- the table gets smaller
    obtain rfl := Option.some.inj hr
    have harr : (JSArrayData.mk (jsShrinkValueArray p.tab n.toNat) n.toNat).arr
        = p.arr.take n.toNat := by
      unfold JSArrayData.arr jsShrinkValueArray
      rcases p.tab with _ | arr
      · simp
      · simp only [Option.bind_some, Option.getD_some]
        split_ifs with h0
        · simp [h0]
        · rfl
    refine ⟨by omega, rfl, ⟨?_, ?_⟩, ?_, fun k hk hk' => absurd hk' (by dsimp only; omega)⟩
    · rw [harr, List.length_take]
      exact (min_eq_left (hlt.le.trans hlen_le)).ge
    · rw [harr, List.length_take]
      exact (min_le_right _ _).trans hsize_le
    · intro k _ hk
      rw [harr, List.getElem?_take, if_pos hk]
  · obtain rfl := Option.some.inj hr
    have hbound : n.toNat + (List.replicate (p.len - n.toNat) (.undefined : Val β)).length
        ≤ p.arr.length := by
      rw [List.length_replicate]
      omega
    have harr : (JSArrayData.mk (clearSlots p.tab n.toNat p.len) n.toNat).arr
        = store p.arr n.toNat (List.replicate (p.len - n.toNat) .undefined) := getD_map_store hbound
    refine ⟨by omega, rfl, ⟨?_, ?_⟩, ?_, fun k hk hk' => absurd hk' (by dsimp only; omega)⟩
    · rw [harr, length_store hbound]
      exact hlt.le.trans hlen_le
    · rwa [harr, length_store hbound]
    · intro k _ hk
      rw [harr, getElem?_store hbound, if_neg (fun h => Nat.not_le.2 hk h.1)]
  · obtain ⟨tab, htab, rfl⟩ := Option.map_eq_some_iff.1 hr
    obtain ⟨hlen, hsize, rest, hrest⟩ := jsResizeValueArray_spec htab
    have hbound : p.len + (List.replicate (n.toNat - p.len) (.undefined : Val β)).length
        ≤ (tab.getD []).length := by
      rw [List.length_replicate]
      omega
    have harr : (JSArrayData.mk (clearSlots tab p.len n.toNat) n.toNat).arr
        = store (tab.getD []) p.len (List.replicate (n.toNat - p.len) .undefined) :=
      getD_map_store hbound
    refine ⟨by omega, rfl, ⟨?_, ?_⟩, ?_, ?_⟩
    · rw [harr, length_store hbound]
      exact hlen
    · rw [harr, length_store hbound]
      exact hsize hsize_le
    · intro k hk _
      rw [harr, getElem?_store hbound, if_neg (by omega), hrest]
      exact List.getElem?_append_left (hk.trans_le hlen_le)
    · intro k hk hk'
      have hk' : k < n.toNat := hk'
      rw [harr, getElem?_store hbound, List.length_replicate, if_pos (by omega),
        List.getElem?_replicate, if_pos (by omega)]
  · obtain rfl := Option.some.inj hr
    have hlen : n.toNat = p.len := by omega
    exact ⟨by omega, rfl, ⟨hlen.trans_le hlen_le, hsize_le⟩, fun _ _ _ => rfl,
      fun k hk hk' => absurd hk' (by dsimp only; omega)⟩

/-- A length in range is refused only for lack of memory. -/
theorem jsArrayResize_isSome {n : ℕ} (hn : n ≤ jsShortIntMax)
    (hsize : p.arr.length < n → grownSize p.arr.length n ≤ jsValueArraySizeMax) :
    ∃ p', jsArrayResize true p n = some p' := by
  unfold jsArrayResize
  rw [if_neg (by omega)]
  dsimp only
  rw [Int.toNat_natCast]
  split_ifs
  · exact ⟨_, rfl⟩
  · exact ⟨_, rfl⟩
  · obtain ⟨tab, htab⟩ := jsResizeValueArray_isSome hsize
    exact ⟨_, by rw [htab]; rfl⟩
  · exact ⟨_, rfl⟩

/-- A shorter array is never refused. -/
theorem jsArrayResize_shorter (ok : Bool) {n : ℕ} (hp : p.Valid) (hn : n < p.len) :
    ∃ p', jsArrayResize ok p n = some p' := by
  have hmax : (jsValueArraySizeMax : ℤ) ≤ jsShortIntMax := by decide
  have hlen := hp.len_le
  have hsize := hp.size_le
  unfold jsArrayResize
  rw [if_neg (by omega)]
  dsimp only
  rw [Int.toNat_natCast, if_pos hn]
  split_ifs <;> exact ⟨_, rfl⟩

/-! ### Heaps -/

theorem Heap.visible_eq {id : ℕ} (hid : h.arrays id = some p) : h.visible id = some p.visible := by
  rw [Heap.visible, hid]
  rfl

theorem Heap.put_self {id : ℕ} : (h.put id p).visible id = some p.visible :=
  Heap.visible_eq (by simp [Heap.put])

theorem Heap.put_of_ne {id j : ℕ} (hj : j ≠ id) : (h.put id p).arrays j = h.arrays j := by
  simp [Heap.put, hj]

theorem Heap.visible_put_of_ne {id j : ℕ} (hj : j ≠ id) : (h.put id p).visible j = h.visible j := by
  rw [Heap.visible, Heap.visible, Heap.put_of_ne hj]

theorem Heap.put_eq_self {id : ℕ} (hid : h.arrays id = some p) : h.put id p = h := by
  rw [Heap.put, ← hid, Function.update_eq_self]

theorem Heap.Valid.put (hh : h.Valid) {id : ℕ} {q : JSArrayData β} (hid : h.arrays id = some q)
    (hp : p.Valid) : (h.put id p).Valid := by
  constructor
  · intro j r hr
    by_cases hj : j = id
    · subst hj
      obtain rfl : p = r := by simpa [Heap.put] using hr
      exact hp
    · rw [Heap.put_of_ne hj] at hr
      exact hh.array j r hr
  · intro j hj
    have hne : j ≠ id := by
      rintro rfl
      simp [hh.fresh j hj] at hid
    rw [Heap.put_of_ne hne]
    exact hh.fresh j hj

/-- A new array holds undefined values only. -/
theorem jsNewArray_spec {ok₁ ok₂ : Bool} {n obj : ℕ} (hh : h.Valid)
    (hr : jsNewArray ok₁ ok₂ h n = some (obj, h')) :
    h.arrays obj = none ∧ (∀ j, j ≠ obj → h'.arrays j = h.arrays j) ∧ h'.Valid ∧
      ∃ tab, h'.arrays obj = some ⟨tab, n⟩ ∧ tab.getD [] = List.replicate n .undefined := by
  have halloc (tab : Option (List (Val β))) (htab : tab.getD [] = List.replicate n .undefined)
      (hn : n ≤ jsValueArraySizeMax) (heq : h' = { h with
        arrays := Function.update h.arrays h.next (some ⟨tab, n⟩)
        next := h.next + 1 }) :
      h.arrays h.next = none ∧ (∀ j, j ≠ h.next → h'.arrays j = h.arrays j) ∧ h'.Valid ∧
        ∃ tab, h'.arrays h.next = some ⟨tab, n⟩ ∧ tab.getD [] = List.replicate n .undefined := by
    subst heq
    refine ⟨hh.fresh _ le_rfl, fun j hj => by simp [hj], ⟨?_, ?_⟩, tab, by simp, htab⟩
    · intro j r hr
      by_cases hj : j = h.next
      · subst hj
        obtain rfl : ⟨tab, n⟩ = r := by simpa using hr
        have harr : (JSArrayData.mk tab n).arr.length = n := by simp [JSArrayData.arr, htab]
        exact ⟨harr.ge, harr.trans_le hn⟩
      · exact hh.array j r (by simpa [hj] using hr)
    · intro j hj
      have hj : h.next + 1 ≤ j := hj
      simpa [show j ≠ h.next by omega] using hh.fresh j (by omega)
  unfold jsNewArray at hr
  dsimp only at hr
  split_ifs at hr with h₁ h₂ h₃
  · obtain ⟨rfl, rfl⟩ := Prod.mk.inj (Option.some.inj hr)
    exact halloc none (by simp [h₂]) (by omega) rfl
  · obtain ⟨rfl, rfl⟩ := Prod.mk.inj (Option.some.inj hr)
    rw [allocates, Bool.and_eq_true] at h₃
    exact halloc _ rfl (of_decide_eq_true h₃.1) rfl

/-! ### Calls -/

/-- What a call does: it refuses a receiver that is not an array; when it throws, every array is as
the conversion of the arguments left it, and when it returns, the receiver has changed as its list
operation says and the other arrays have not changed. -/
structure CallSpec (eng : Engine β U) (c : Call β) (h : Heap β U) : Prop where
  valid : (c.op.run eng c.alloc c.this h).2.Valid
  notArray : h.arrays c.this = none → c.op.run eng c.alloc c.this h = (none, h)
  throws : (h.arrays c.this).isSome → (c.op.run eng c.alloc c.this h).1 = none →
    ∀ id l, (c.op.convert eng h).2.visible id = some l →
      (c.op.run eng c.alloc c.this h).2.visible id = some l
  returns : ∀ v, (c.op.run eng c.alloc c.this h).1 = some v →
    ∃ op l, (c.op.convert eng h).1 = some op ∧ (c.op.convert eng h).2.visible c.this = some l ∧
      (c.op.run eng c.alloc c.this h).2.visible c.this = some (op.apply l) ∧
      op.Returns c.this l (c.op.convert eng h).2 (c.op.run eng c.alloc c.this h).2 v ∧
      ∀ id l', id ≠ c.this → (c.op.convert eng h).2.visible id = some l' →
        (c.op.run eng c.alloc c.this h).2.visible id = some l'
  /-- It returns unless a conversion throws or changes the length, the new length is not one or
  memory runs out. -/
  succeeds : ∀ op p p', h.arrays c.this = some p → (c.op.convert eng h).1 = some op →
    (c.op.convert eng h).2.arrays c.this = some p' → p'.len = p.len →
    op.Fits p'.arr.length p'.visible → (∀ k, c.alloc k = true) →
    ((c.op.run eng c.alloc c.this h).1).isSome

/-- Some heap in which nothing has changed yet, and nothing more or one array stored. -/
def Outcome (hc : Heap β U) (this : ℕ) (o : Option (ListOp β)) (out : Option (Val β) × Heap β U) :
    Prop :=
  ∃ h₂ : Heap β U, h₂.Valid ∧ (∀ id l, hc.visible id = some l → h₂.visible id = some l) ∧
    (out = (none, h₂) ∨ ∃ op p q v, o = some op ∧ hc.arrays this = some p ∧
      h₂.arrays this = some p ∧ out = (some v, h₂.put this q) ∧ q.Valid ∧
      q.visible = op.apply p.visible ∧ op.Returns this p.visible hc (h₂.put this q) v)

theorem outcome_throw {hc : Heap β U} {this : ℕ} {o : Option (ListOp β)} (hh : hc.Valid) :
    Outcome hc this o (none, hc) := ⟨hc, hh, fun _ _ hl => hl, .inl rfl⟩

theorem outcome_put {hc : Heap β U} {this : ℕ} {op : ListOp β} {q : JSArrayData β} {v : Val β}
    (hh : hc.Valid) (hp : hc.arrays this = some p)
    (hq : q.Valid ∧ q.visible = op.apply p.visible)
    (hv : op.Returns this p.visible hc (hc.put this q) v) :
    Outcome hc this (some op) (some v, hc.put this q) :=
  ⟨hc, hh, fun _ _ hl => hl, .inr ⟨op, p, q, v, rfl, hp, hp, rfl, hq.1, hq.2, hv⟩⟩

theorem callSpec_of_outcome {eng : Engine β U} {c : Call β} (hh : h.Valid)
    (hnot : h.arrays c.this = none → c.op.run eng c.alloc c.this h = (none, h))
    (hout : (h.arrays c.this).isSome →
      Outcome (c.op.convert eng h).2 c.this (c.op.convert eng h).1 (c.op.run eng c.alloc c.this h))
    (hsome : ∀ op p p', h.arrays c.this = some p → (c.op.convert eng h).1 = some op →
      (c.op.convert eng h).2.arrays c.this = some p' → p'.len = p.len →
      op.Fits p'.arr.length p'.visible → (∀ k, c.alloc k = true) →
      ((c.op.run eng c.alloc c.this h).1).isSome) :
    CallSpec eng c h := by
  refine ⟨?_, hnot, ?_, ?_, hsome⟩
  · cases hthis : h.arrays c.this with
    | none =>
      rw [hnot hthis]
      exact hh
    | some p =>
      obtain ⟨h₂, hh₂, -, hrun | ⟨-, p, q, v, -, -, hp, hrun, hq, -⟩⟩ := hout (by simp [hthis])
      · rw [hrun]
        exact hh₂
      · rw [hrun]
        exact hh₂.put hp hq
  · intro hthis hnone id l hl
    obtain ⟨h₂, -, hsame, hrun | ⟨-, p, q, v, -, -, -, hrun, -⟩⟩ := hout hthis
    · rw [hrun]
      exact hsame id l hl
    · rw [hrun] at hnone
      cases hnone
  · intro v hv
    have hthis : (h.arrays c.this).isSome := by
      rw [Option.isSome_iff_ne_none]
      intro hthis
      rw [hnot hthis] at hv
      cases hv
    obtain ⟨h₂, -, hsame, hrun | ⟨op, p, q, v', ho, hp, -, hrun, -, happly, hret⟩⟩ := hout hthis
    · rw [hrun] at hv
      cases hv
    · rw [hrun] at hv ⊢
      obtain rfl := Option.some.inj hv
      refine ⟨op, p.visible, ho, Heap.visible_eq hp, ?_, hret, ?_⟩
      · rw [Heap.put_self, happly]
      · intro id l' hid hl'
        rw [Heap.visible_put_of_ne hid]
        exact hsame id l' hl'

/-- Room for more elements: the old ones are where they were. -/
theorem resized_getElem? {ok : Bool} {tab : Option (List (Val β))} {n : ℕ}
    (hp : p.Valid) (hr : jsResizeValueArray ok p.tab n = some tab) {k : ℕ}
    (hk : k < p.len) : (tab.getD [])[k]? = p.visible[k]? := by
  obtain ⟨-, -, rest, hrest⟩ := jsResizeValueArray_spec hr
  rw [hrest, getElem?_visible hk]
  exact List.getElem?_append_left (hk.trans_le hp.len_le)

theorem pushed_visible {ok : Bool} {tab : Option (List (Val β))} {xs : List (Val β)}
    {q : JSArrayData β} (hp : p.Valid)
    (hr : jsResizeValueArray ok p.tab (p.len + xs.length) = some tab)
    (hq : q = JSArrayData.storeAt ⟨tab, p.len + xs.length⟩ p.len xs) :
    q.Valid ∧ q.visible = p.visible ++ xs := by
  have hlen := (jsResizeValueArray_spec hr).1
  have harr : q.arr = store (tab.getD []) p.len xs := hq ▸ storeAt_arr hlen
  have hqlen : q.len = p.len + xs.length := by rw [hq]; rfl
  have hqv : q.Valid := by
    constructor
    · rw [harr, length_store hlen, hqlen]
      exact hlen
    · rw [harr, length_store hlen]
      exact (jsResizeValueArray_spec hr).2.1 hp.size_le
  have hvis := length_visible hp
  refine ⟨hqv, visible_eq hqv (by rw [List.length_append, hvis, hqlen]) ?_⟩
  intro k hk
  rw [harr, getElem?_store hlen, List.getElem?_append, hvis]
  split_ifs with h₁ h₂ h₃
  · omega
  · rfl
  · exact resized_getElem? hp hr h₃
  · omega

theorem unshifted_visible {ok : Bool} {tab : Option (List (Val β))} {xs : List (Val β)}
    {q : JSArrayData β} (hp : p.Valid)
    (hr : jsResizeValueArray ok p.tab (p.len + xs.length) = some tab)
    (hq : q = (JSArrayData.move ⟨tab, p.len + xs.length⟩ xs.length 0 p.len).storeAt 0 xs) :
    q.Valid ∧ q.visible = xs ++ p.visible := by
  have hlen := (jsResizeValueArray_spec hr).1
  have hdst : xs.length + p.len ≤ (tab.getD []).length := by omega
  have hmove : (moveWithin (tab.getD []) xs.length 0 p.len).length = (tab.getD []).length :=
    length_moveWithin hdst
  have hstore : 0 + xs.length ≤ (moveWithin (tab.getD []) xs.length 0 p.len).length := by omega
  have harr : q.arr = store (moveWithin (tab.getD []) xs.length 0 p.len) 0 xs := by
    rw [hq, storeAt_arr (by rw [move_arr]; exact hstore), move_arr]
    rfl
  have hqlen : q.len = p.len + xs.length := by rw [hq]; rfl
  have hqv : q.Valid := by
    constructor
    · rw [harr, length_store hstore, hmove, hqlen]
      exact hlen
    · rw [harr, length_store hstore, hmove]
      exact (jsResizeValueArray_spec hr).2.1 hp.size_le
  have hvis := length_visible hp
  refine ⟨hqv, visible_eq hqv (by rw [List.length_append, hvis, hqlen, Nat.add_comm]) ?_⟩
  intro k hk
  rw [harr, getElem?_store hstore, getElem?_moveWithin hdst (by omega), List.getElem?_append]
  split_ifs with h₁ h₂ h₃ h₄
  · rfl
  · omega
  · omega
  · rw [Nat.zero_add]
    exact resized_getElem? hp hr (by omega)
  · omega
  · omega

theorem popped_visible (hp : p.Valid) (h0 : 0 < p.len) :
    let q : JSArrayData β := { p with len := p.len - 1 }
    q.Valid ∧ q.visible = p.visible.dropLast ∧
      p.arr.getD (p.len - 1) .undefined = p.visible.getLast?.getD .undefined := by
  have hvis := length_visible hp
  refine ⟨⟨(Nat.sub_le _ _).trans hp.len_le, hp.size_le⟩, ?_, ?_⟩
  · rw [List.dropLast_eq_take, hvis]
    simp only [JSArrayData.visible, JSArrayData.arr, List.take_take]
    rw [min_eq_left (Nat.sub_le _ _)]
  · rw [List.getLast?_eq_getElem?, hvis, getElem?_visible (by omega), List.getD_eq_getElem?_getD]

theorem shifted_visible {q : JSArrayData β} (hp : p.Valid) (h0 : 0 < p.len)
    (hq : q = JSArrayData.move { p with len := p.len - 1 } 0 1 (p.len - 1)) :
    q.Valid ∧ q.visible = p.visible.tail ∧
      p.arr.getD 0 .undefined = p.visible.head?.getD .undefined := by
  have hvis := length_visible hp
  have hle := hp.len_le
  have hdst : 0 + (p.len - 1) ≤ p.arr.length := by omega
  have harr : q.arr = moveWithin p.arr 0 1 (p.len - 1) := hq ▸ move_arr _ _ _ _
  have hqlen : q.len = p.len - 1 := by rw [hq]; rfl
  have hqv : q.Valid := by
    constructor
    · rw [harr, length_moveWithin hdst, hqlen]
      exact (Nat.sub_le _ _).trans hle
    · rw [harr, length_moveWithin hdst]
      exact hp.size_le
  refine ⟨hqv, visible_eq hqv (by rw [List.length_tail, hvis, hqlen]) ?_, ?_⟩
  · intro k hk
    rw [harr, getElem?_moveWithin hdst (by omega), if_pos (by omega), List.getElem?_tail,
      getElem?_visible (by omega), Nat.sub_zero, Nat.add_comm]
  · rw [List.head?_eq_getElem?, getElem?_visible h0, List.getD_eq_getElem?_getD]

theorem reversed_visible (hp : p.Valid) :
    let q : JSArrayData β :=
      { p with tab := p.tab.map fun arr => reverseLoop arr p.len (p.len / 2) 0 }
    q.Valid ∧ q.visible = p.visible.reverse := by
  intro q
  have harr : q.arr = reverseLoop p.arr p.len (p.len / 2) 0 := by
    apply getD_map
    intro htab
    exact List.eq_nil_of_length_eq_zero (length_reverseLoop _ _ _ _)
  refine ⟨⟨?_, ?_⟩, ?_⟩
  · rw [harr, length_reverseLoop]
    exact hp.len_le
  · rw [harr, length_reverseLoop]
    exact hp.size_le
  · rw [JSArrayData.visible, harr]
    exact take_reverseLoop hp.len_le

theorem resized_visible {ok : Bool} {n : ℤ} (hp : p.Valid)
    (hr : jsArrayResize ok p n = some p') :
    p'.Valid ∧
      p'.visible =
        p.visible.take n.toNat ++ List.replicate (n.toNat - p.visible.length) .undefined := by
  obtain ⟨-, hlen, hp', hold, hnew⟩ := jsArrayResize_spec hp hr
  have hvis := length_visible hp
  refine ⟨hp', visible_eq hp' ?_ ?_⟩
  · rw [List.length_append, List.length_take, List.length_replicate, hvis, hlen]
    omega
  · intro k hk
    rw [List.getElem?_append, List.length_take, hvis]
    rcases lt_or_ge k p.len with hk' | hk'
    · rw [if_pos (by omega), List.getElem?_take, if_pos (by omega), getElem?_visible hk',
        hold k hk' hk]
    · rw [if_neg (by omega), List.getElem?_replicate, if_pos (by omega), hnew k hk' hk]

/-! ### Splicing -/

section Splice

variable {s d : ℕ} {items : List (Val β)}

theorem getElem?_spliced {l : List (Val β)} (hs : s ≤ l.length) (k : ℕ) :
    (l.take s ++ items ++ l.drop (s + d))[k]? =
      if k < s then l[k]? else if k < s + items.length then items[k - s]?
      else l[k - items.length + d]? := by
  rw [List.append_assoc, List.getElem?_append, List.getElem?_append, List.length_take,
    min_eq_left hs]
  split_ifs with h₁ h₂ h₃ h₄
  · rw [List.getElem?_take, if_pos h₁]
  · rfl
  · omega
  · omega
  · rw [List.getElem?_drop]
    congr 1
    omega

/-- What the three cases of `js_array_splice` have in common: the elements before the position and
after the deleted ones are there, and then the new ones are stored. -/
theorem stored_visible (hp : p.Valid) (hsd : s + d ≤ p.len)
    (hlen : p'.len = p.len + items.length - d) (hp' : p'.Valid)
    (hlow : ∀ k < s, p'.arr[k]? = p.arr[k]?)
    (hhigh : ∀ k, s + items.length ≤ k → k < p'.len → p'.arr[k]? = p.arr[k - items.length + d]?) :
    (p'.storeAt s items).Valid ∧
      (p'.storeAt s items).visible = p.visible.take s ++ items ++ p.visible.drop (s + d) := by
  have hle := hp'.len_le
  have hstore : s + items.length ≤ p'.arr.length := by omega
  have hvis := length_visible hp
  have hqlen : (p'.storeAt s items).len = p'.len := rfl
  have hqv : (p'.storeAt s items).Valid := by
    constructor
    · rw [storeAt_arr hstore, length_store hstore]
      exact hle
    · rw [storeAt_arr hstore, length_store hstore]
      exact hp'.size_le
  refine ⟨hqv, visible_eq hqv ?_ ?_⟩
  · simp only [List.length_append, List.length_take, List.length_drop, hvis]
    omega
  · intro k hk
    rw [storeAt_arr hstore, getElem?_store hstore, getElem?_spliced (by omega)]
    split_ifs with h₁ h₂ h₃ h₄
    · omega
    · rfl
    · omega
    · rw [hlow k h₄, getElem?_visible (by omega)]
    · omega
    · rw [hhigh k (by omega) hk, getElem?_visible (by omega)]

theorem moved_valid (hp : p.Valid) (hsd : s + d ≤ p.len) (hitems : items.length < d) :
    (p.move (s + items.length) (s + d) (p.len - (s + d))).Valid := by
  have hle := hp.len_le
  have hdst : s + items.length + (p.len - (s + d)) ≤ p.arr.length := by omega
  constructor
  · rw [move_arr, length_moveWithin hdst]
    exact hle
  · rw [move_arr, length_moveWithin hdst]
    exact hp.size_le

/-- The rest is moved down and the array gets shorter. -/
theorem shrunk_spec {ok : Bool} (hp : p.Valid) (hsd : s + d ≤ p.len)
    (hitems : items.length < d)
    (hr : jsArrayResize ok (p.move (s + items.length) (s + d) (p.len - (s + d)))
      ((p.len : ℤ) + items.length - d) = some p') :
    p'.len = p.len + items.length - d ∧ p'.Valid ∧
      (∀ k < s, p'.arr[k]? = p.arr[k]?) ∧
      ∀ k, s + items.length ≤ k → k < p'.len → p'.arr[k]? = p.arr[k - items.length + d]? := by
  have hle := hp.len_le
  have hdst : s + items.length + (p.len - (s + d)) ≤ p.arr.length := by omega
  obtain ⟨-, hlen, hp', hold, -⟩ := jsArrayResize_spec (moved_valid hp hsd hitems) hr
  have hlen : p'.len = p.len + items.length - d := by omega
  rw [move_arr, show (p.move (s + items.length) (s + d) (p.len - (s + d))).len = p.len from rfl]
    at hold
  refine ⟨hlen, hp', ?_, ?_⟩
  · intro k hk
    rw [hold k (by omega) (by omega), getElem?_moveWithin hdst (by omega), if_neg (by omega)]
  · intro k hk hk'
    rw [hold k (by omega) hk', getElem?_moveWithin hdst (by omega), if_pos (by omega)]
    congr 1
    omega

/-- The array gets longer and the rest is moved up. -/
theorem grown_spec {ok : Bool} {r : JSArrayData β} (hp : p.Valid)
    (hsd : s + d ≤ p.len) (hitems : d < items.length)
    (hr : jsArrayResize ok p ((p.len : ℤ) + items.length - d) = some r)
    (hp' : p' = r.move (s + items.length) (s + d) (p.len - (s + d))) :
    p'.len = p.len + items.length - d ∧ p'.Valid ∧
      (∀ k < s, p'.arr[k]? = p.arr[k]?) ∧
      ∀ k, s + items.length ≤ k → k < p'.len → p'.arr[k]? = p.arr[k - items.length + d]? := by
  obtain ⟨-, hlen, hr', hold, -⟩ := jsArrayResize_spec hp hr
  have hlen : r.len = p.len + items.length - d := by omega
  have hle := hr'.len_le
  have hdst : s + items.length + (p.len - (s + d)) ≤ r.arr.length := by omega
  have harr : p'.arr = moveWithin r.arr (s + items.length) (s + d) (p.len - (s + d)) :=
    hp' ▸ move_arr _ _ _ _
  have hlen' : p'.len = r.len := by rw [hp']; rfl
  rw [harr, hlen']
  refine ⟨hlen, ⟨?_, ?_⟩, ?_, ?_⟩
  · rw [harr, length_moveWithin hdst, hlen']
    exact hle
  · rw [harr, length_moveWithin hdst]
    exact hr'.size_le
  · intro k hk
    rw [getElem?_moveWithin hdst (by omega), if_neg (by omega), hold k (by omega) (by omega)]
  · intro k hk hk'
    rw [getElem?_moveWithin hdst (by omega), if_pos (by omega), hold _ (by omega) (by omega)]
    congr 1
    omega

end Splice

/-! ### The methods -/

section Methods

variable {eng : Engine β U} {alloc : ℕ → Bool} {this : ℕ} {argv : List (Val β)} {op : ListOp β}

theorem push_outcome {isUnshift : Bool} (hh : h.Valid) (hp : h.arrays this = some p)
    (happly : op.apply p.visible = if isUnshift then argv ++ p.visible else p.visible ++ argv)
    (hret : ∀ h', op.Returns this p.visible h h' (.int (p.visible.length + argv.length : ℕ))) :
    Outcome h this (some op) (jsArrayPush alloc this argv h isUnshift) := by
  have hpv := hh.array _ _ hp
  rw [length_visible hpv] at hret
  rw [jsArrayPush, hp]
  dsimp only
  by_cases hmax : jsShortIntMax < ((p.len + argv.length : ℕ) : ℤ)
  · rw [if_pos hmax]
    exact outcome_throw hh
  rw [if_neg hmax]
  rcases hr : jsResizeValueArray (alloc 0) p.tab (p.len + argv.length) with _ | tab
  · exact outcome_throw hh
  dsimp only
  refine outcome_put hh hp ?_ (hret _)
  rw [happly]
  by_cases hfront : isUnshift = true ∧ 0 < argv.length
  · rw [if_pos hfront, if_pos hfront, if_pos hfront.1]
    exact unshifted_visible hpv hr rfl
  · rw [if_neg hfront, if_neg hfront]
    have hq := pushed_visible hpv hr rfl
    cases isUnshift with
    | false => exact hq
    | true =>
      -- nothing is put in front
      obtain rfl : argv = [] := by simpa using hfront
      rw [List.append_nil] at hq
      exact hq

theorem fits_length (hp : p.Valid) (hfits : op.Fits p.arr.length p.visible) :
    (op.apply p.visible).length ≤ jsValueArraySizeMax := by
  have hsize := hp.size_le
  rcases lt_or_ge p.arr.length (op.apply p.visible).length with hlt | hge
  · exact (le_max_left _ _).trans (hfits.2 hlt)
  · exact hge.trans hsize

theorem push_isSome {isUnshift : Bool} (hp : h.arrays this = some p)
    (hmax : p.len + argv.length ≤ jsValueArraySizeMax)
    (hsize : p.arr.length < p.len + argv.length →
      grownSize p.arr.length (p.len + argv.length) ≤ jsValueArraySizeMax)
    (halloc : ∀ k, alloc k = true) : (jsArrayPush alloc this argv h isUnshift).1.isSome := by
  have hshort : (jsValueArraySizeMax : ℤ) ≤ jsShortIntMax := by decide
  obtain ⟨tab, htab⟩ : ∃ tab, jsResizeValueArray true p.tab (p.len + argv.length) = some tab :=
    jsResizeValueArray_isSome hsize
  rw [jsArrayPush, hp]
  dsimp only
  rw [if_neg (by omega), halloc, htab]
  rfl

theorem pop_outcome (hh : h.Valid) (hp : h.arrays this = some p) :
    Outcome h this (some .pop) (jsArrayPop this h) := by
  have hpv := hh.array _ _ hp
  rw [jsArrayPop, hp]
  dsimp only
  split_ifs with h0
  · obtain ⟨hq, hvis, hv⟩ := popped_visible hpv h0
    exact outcome_put hh hp ⟨hq, hvis⟩ hv
  · have hnil : p.visible = [] := List.eq_nil_of_length_eq_zero (by rw [length_visible hpv]; omega)
    have hsame : Outcome h this (some .pop) (some .undefined, h.put this p) :=
      outcome_put hh hp ⟨hpv, by rw [hnil]; rfl⟩ (by rw [hnil]; rfl)
    rwa [Heap.put_eq_self hp] at hsame

theorem shift_outcome (hh : h.Valid) (hp : h.arrays this = some p) :
    Outcome h this (some .shift) (jsArrayShift this h) := by
  have hpv := hh.array _ _ hp
  rw [jsArrayShift, hp]
  dsimp only
  split_ifs with h0
  · obtain ⟨hq, hvis, hv⟩ := shifted_visible hpv h0 rfl
    exact outcome_put hh hp ⟨hq, hvis⟩ hv
  · have hnil : p.visible = [] := List.eq_nil_of_length_eq_zero (by rw [length_visible hpv]; omega)
    have hsame : Outcome h this (some .shift) (some .undefined, h.put this p) :=
      outcome_put hh hp ⟨hpv, by rw [hnil]; rfl⟩ (by rw [hnil]; rfl)
    rwa [Heap.put_eq_self hp] at hsame

theorem reverse_outcome (hh : h.Valid) (hp : h.arrays this = some p) :
    Outcome h this (some .reverse) (jsArrayReverse this h) := by
  rw [jsArrayReverse, hp]
  exact outcome_put hh hp (reversed_visible (hh.array _ _ hp)) rfl

theorem setLength_outcome {v : Val β} (hh : h.Valid) (hp : h.arrays this = some p) :
    Outcome (eng.toInt32 v h).2 this ((eng.toInt32 v h).1.map .setLength)
      (jsArraySetLength eng alloc this h v) := by
  obtain ⟨hhc, hkeep⟩ := eng.toInt32_valid v hh
  obtain ⟨p', hp'⟩ := Option.isSome_iff_exists.1 (hkeep this (by simp [hp]))
  rw [jsArraySetLength, hp]
  dsimp only
  rcases hconv : eng.toInt32 v h with ⟨_ | n, hc⟩
  · rw [hconv] at hhc
    exact outcome_throw hhc
  · rw [hconv] at hhc hp'
    dsimp only at hhc hp' ⊢
    rw [hp', Option.bind_some]
    rcases hr : jsArrayResize (alloc 0) p' n with _ | q
    · exact outcome_throw hhc
    · exact outcome_put hhc hp' (resized_visible (hhc.array _ _ hp') hr) rfl

/-- The new array of `splice` with the elements that are removed. -/
theorem removed_spec {obj len start d : ℕ} {h₁ : Heap β U} (hh : h.Valid)
    (hp : h.arrays this = some p) (hlen : p.len = len) (hsd : start + d ≤ len)
    (hnew : jsNewArray (alloc 0) (alloc 1) h d = some (obj, h₁)) :
    let h₂ := h₁.modify obj fun p1 => p1.storeAt 0 ((p.arr.drop start).take d)
    h₂.Valid ∧ h₂.arrays this = some p ∧
      (∀ id l, h.visible id = some l → h₂.visible id = some l) ∧ obj ≠ this ∧
      h.arrays obj = none ∧ h₂.visible obj = some ((p.visible.drop start).take d) := by
  intro h₂
  have hpv := hh.array _ _ hp
  have hle := hpv.len_le
  have hsize := hpv.size_le
  obtain ⟨hfresh, hsame, hh₁, tab, htab, hundef⟩ := jsNewArray_spec hh hnew
  have hne : obj ≠ this := by
    rintro rfl
    simp [hfresh] at hp
  have hremoved : ((p.arr.drop start).take d).length = d := by
    simp only [List.length_take, List.length_drop]
    omega
  have hnewArr : (JSArrayData.mk tab d).arr = List.replicate d .undefined := hundef
  have hstore : 0 + ((p.arr.drop start).take d).length ≤ (JSArrayData.mk tab d).arr.length := by
    rw [hnewArr, List.length_replicate, hremoved, Nat.zero_add]
  have harr : (JSArrayData.storeAt ⟨tab, d⟩ 0 ((p.arr.drop start).take d)).arr
      = (p.arr.drop start).take d := by
    rw [storeAt_arr hstore, store, hnewArr, hremoved]
    simp
  have hobj : h₂ = h₁.put obj (JSArrayData.storeAt ⟨tab, d⟩ 0 ((p.arr.drop start).take d)) := by
    simp only [h₂, Heap.modify, Heap.put, htab, Option.map_some]
  have hvalid : (JSArrayData.storeAt ⟨tab, d⟩ 0 ((p.arr.drop start).take d)).Valid := by
    constructor
    · rw [harr, hremoved]
      exact le_rfl
    · rw [harr, hremoved]
      omega
  rw [hobj]
  refine ⟨hh₁.put htab hvalid, ?_, ?_, hne, hfresh, ?_⟩
  · rw [Heap.put_of_ne hne.symm, hsame _ hne.symm, hp]
  · intro id l hl
    have hid : id ≠ obj := by
      rintro rfl
      rw [Heap.visible, hfresh] at hl
      cases hl
    rw [Heap.visible_put_of_ne hid, Heap.visible, hsame _ hid]
    exact hl
  · rw [Heap.put_self, JSArrayData.visible, harr]
    congr 1
    have hd : (JSArrayData.storeAt ⟨tab, d⟩ 0 ((p.arr.drop start).take d)).len = d := rfl
    rw [hd, List.take_take, min_self, JSArrayData.visible, List.drop_take, List.take_take,
      min_eq_left (by omega)]

theorem spliceAt_outcome {len start d : ℕ} {items : List (Val β)} {hop : ListOp β} (hh : h.Valid)
    (hp : h.arrays this = some p) (hsd : start + d ≤ len)
    (happly : p.len = len →
      hop.apply p.visible = p.visible.take start ++ items ++ p.visible.drop (start + d))
    (hret : p.len = len → ∀ h' id, h.arrays id = none →
      h'.visible id = some ((p.visible.drop start).take d) →
      hop.Returns this p.visible h h' (.obj id)) :
    Outcome h this (some hop) (spliceAt alloc this h len start d items) := by
  have hpv := hh.array _ _ hp
  rw [spliceAt]
  rcases hnew : jsNewArray (alloc 0) (alloc 1) h d with _ | ⟨obj, h₁⟩
  · exact outcome_throw hh
  dsimp only
  obtain ⟨hfresh, hsame, hh₁, -⟩ := jsNewArray_spec hh hnew
  have hne : this ≠ obj := by
    rintro rfl
    simp [hfresh] at hp
  rw [hsame _ hne, hp]
  dsimp only
  by_cases hlen : p.len = len
  · rw [if_neg (not_not.2 hlen)]
    obtain ⟨hh₂, hp₂, hkeep, -, -, hobj⟩ := removed_spec hh hp hlen hsd hnew
    generalize h₁.modify obj (fun p1 => p1.storeAt 0 ((p.arr.drop start).take d)) = h₂ at *
    subst hlen
    -- the array that is stored at last
    have hput {q : JSArrayData β} (hq : q.Valid ∧
        q.visible = p.visible.take start ++ items ++ p.visible.drop (start + d)) :
        Outcome h this (some hop) (some (.obj obj), h₂.put this q) := by
      refine ⟨h₂, hh₂, hkeep, .inr ⟨hop, p, q, .obj obj, rfl, hp, hp₂, rfl, hq.1, ?_, ?_⟩⟩
      · rw [happly rfl, hq.2]
      · refine hret rfl _ _ hfresh ?_
        rwa [Heap.visible_put_of_ne hne.symm]
    rcases lt_trichotomy items.length d with hlt | heq | hgt
    · rw [if_neg hlt.ne, if_pos hlt]
      rcases hr : jsArrayResize (alloc 2)
        (p.move (start + items.length) (start + d) (p.len - (start + d)))
        ((p.len : ℤ) + items.length - d) with _ | r
      · obtain ⟨r, hr'⟩ := jsArrayResize_shorter (alloc 2) (n := p.len + items.length - d)
          (moved_valid hpv hsd hlt) (show _ < p.len by omega)
        rw [show ((p.len + items.length - d : ℕ) : ℤ) = (p.len : ℤ) + items.length - d by omega,
          hr] at hr'
        cases hr'
      · dsimp only
        rw [if_neg (by omega)]
        obtain ⟨h₁, h₂, h₃, h₄⟩ := shrunk_spec hpv hsd hlt hr
        exact hput (stored_visible hpv hsd h₁ h₂ h₃ h₄)
    · rw [if_pos heq]
      refine hput (stored_visible hpv hsd (by omega) hpv (fun _ _ => rfl) ?_)
      intro k hk _
      congr 1
      omega
    · rw [if_neg hgt.ne', if_neg (by omega)]
      rcases hr : jsArrayResize (alloc 2) p ((p.len : ℤ) + items.length - d) with _ | r
      · refine ⟨h₂, hh₂, hkeep, .inl ?_⟩
        dsimp only
        rw [Heap.put_eq_self hp₂]
      · dsimp only
        rw [if_pos hgt]
        obtain ⟨h₁, h₂, h₃, h₄⟩ := grown_spec hpv hsd hgt hr rfl
        exact hput (stored_visible hpv hsd h₁ h₂ h₃ h₄)
  · rw [if_pos hlen]
    refine ⟨h₁, hh₁, ?_, .inl rfl⟩
    intro id l hl
    have hid : id ≠ obj := by
      rintro rfl
      rw [Heap.visible, hfresh] at hl
      cases hl
    rwa [Heap.visible, hsame _ hid]

theorem jsNewArray_isSome {n : ℕ} (hn : n ≤ jsValueArraySizeMax) :
    ∃ obj h₁, jsNewArray true true h n = some (obj, h₁) := by
  unfold jsNewArray
  dsimp only
  rw [if_pos rfl]
  split_ifs with h0 hok
  · exact ⟨_, _, rfl⟩
  · exact ⟨_, _, rfl⟩
  · exact absurd (by simp [allocates, hn]) hok

theorem spliceAt_isSome {start d : ℕ} {items : List (Val β)} (hh : h.Valid)
    (hp : h.arrays this = some p) (hsd : start + d ≤ p.len)
    (hmax : p.len + items.length - d ≤ jsValueArraySizeMax)
    (hsize : p.arr.length < p.len + items.length - d →
      grownSize p.arr.length (p.len + items.length - d) ≤ jsValueArraySizeMax)
    (halloc : ∀ k, alloc k = true) : (spliceAt alloc this h p.len start d items).1.isSome := by
  have hpv := hh.array _ _ hp
  have hle := hpv.len_le
  have hsz := hpv.size_le
  have hshort : (jsValueArraySizeMax : ℤ) ≤ jsShortIntMax := by decide
  obtain ⟨obj, h₁, hnew⟩ := jsNewArray_isSome (h := h) (n := d) (by omega)
  obtain ⟨hfresh, hsame, -⟩ := jsNewArray_spec hh hnew
  have hne : this ≠ obj := by
    rintro rfl
    simp [hfresh] at hp
  have hcast : ((p.len + items.length - d : ℕ) : ℤ) = (p.len : ℤ) + items.length - d := by omega
  rw [spliceAt, halloc, halloc, hnew]
  dsimp only
  rw [hsame _ hne, hp]
  dsimp only
  rw [if_neg (not_not.2 rfl), halloc, ← hcast]
  rcases lt_trichotomy items.length d with hlt | heq | hgt
  · obtain ⟨r, hr⟩ := jsArrayResize_shorter true (n := p.len + items.length - d)
      (moved_valid hpv hsd hlt) (show _ < p.len by omega)
    rw [if_neg hlt.ne, if_pos hlt, hr]
    rfl
  · rw [if_pos heq]
    rfl
  · obtain ⟨r, hr⟩ := jsArrayResize_isSome (p := p) (n := p.len + items.length - d) (by omega) hsize
    rw [if_neg hgt.ne', if_neg (by omega), hr]
    rfl

theorem toNat_clamp_start (start : ℤ) (len : ℕ) :
    (clamp start 0 len len).toNat = relIndex start len := by
  unfold clamp relIndex
  split_ifs <;> omega

theorem toNat_clamp_del (d : ℤ) (len s : ℕ) :
    (clamp d 0 (len - s : ℕ) 0).toNat = delAt (some d) len s := by
  unfold clamp delAt
  dsimp only
  split_ifs <;> omega

theorem relIndex_le (start : ℤ) (len : ℕ) : relIndex start len ≤ len := by
  unfold relIndex
  split_ifs <;> omega

theorem delAt_le (del : Option ℤ) (len s : ℕ) : delAt del len s ≤ len - s := by
  unfold delAt
  split
  · exact le_rfl
  · exact min_le_right _ _

/-- The end of `splice` with converted arguments. -/
theorem splice_outcome_of_converted {start : ℤ} {del : Option ℤ} {items : List (Val β)} {len : ℕ}
    (hh : h.Valid) (hp : h.arrays this = some p) :
    Outcome h this (some (.splice start del items))
      (spliceAt alloc this h len (relIndex start len) (delAt del len (relIndex start len))
        items) := by
  have hs := relIndex_le start len
  have hd := delAt_le del len (relIndex start len)
  refine spliceAt_outcome hh hp (by omega) ?_ ?_
  · rintro rfl
    rw [ListOp.apply, length_visible (hh.array _ _ hp)]
  · rintro rfl h' id hid hvis
    rw [ListOp.Returns, length_visible (hh.array _ _ hp)]
    exact ⟨id, rfl, hid, hvis⟩

theorem splice_outcome (hh : h.Valid) (hp : h.arrays this = some p) :
    Outcome ((Op.splice argv).convert eng h).2 this ((Op.splice argv).convert eng h).1
      (jsArraySplice eng alloc this argv h) := by
  obtain ⟨hh₁, hkeep₁⟩ := eng.toInt32Sat_valid (arg argv 0) hh
  obtain ⟨p₁, hp₁⟩ := Option.isSome_iff_exists.1 (hkeep₁ this (by simp [hp]))
  rw [Op.convert, jsArraySplice, hp]
  dsimp only
  rcases hc₁ : eng.toInt32Sat (arg argv 0) h with ⟨_ | start, h₁⟩
  · rw [hc₁] at hh₁
    exact outcome_throw hh₁
  rw [hc₁] at hh₁ hp₁
  dsimp only at hh₁ hp₁ ⊢
  rw [toNat_clamp_start]
  have hs := relIndex_le start p.len
  split_ifs with h0 h1
  · have hzero : 0 = delAt (some 0) p.len (relIndex start p.len) := by simp [delAt]
    rw [hzero]
    exact splice_outcome_of_converted hh₁ hp₁
  · have hrest : p.len - relIndex start p.len = delAt none p.len (relIndex start p.len) := rfl
    rw [hrest]
    exact splice_outcome_of_converted hh₁ hp₁
  · obtain ⟨hh₂, hkeep₂⟩ := eng.toInt32Sat_valid (arg argv 1) hh₁
    obtain ⟨p₂, hp₂⟩ := Option.isSome_iff_exists.1 (hkeep₂ this (by simp [hp₁]))
    rcases hc₂ : eng.toInt32Sat (arg argv 1) h₁ with ⟨_ | d, h₂⟩
    · rw [hc₂] at hh₂
      exact outcome_throw hh₂
    · rw [hc₂] at hh₂ hp₂
      dsimp only at hh₂ hp₂ ⊢
      rw [toNat_clamp_del]
      exact splice_outcome_of_converted hh₂ hp₂

/-- The length of what `splice` leaves. -/
theorem length_spliced {l items : List (Val β)} {s d : ℕ} (hsd : s + d ≤ l.length) :
    (l.take s ++ items ++ l.drop (s + d)).length = l.length + items.length - d := by
  simp only [List.length_append, List.length_take, List.length_drop]
  omega

theorem splice_isSome (hh : h.Valid) (hp : h.arrays this = some p)
    (hop : ((Op.splice argv).convert eng h).1 = some op)
    {p' : JSArrayData β} (hp' : ((Op.splice argv).convert eng h).2.arrays this = some p')
    (hlen : p'.len = p.len) (hfits : op.Fits p'.arr.length p'.visible)
    (halloc : ∀ k, alloc k = true) : (jsArraySplice eng alloc this argv h).1.isSome := by
  obtain ⟨hh₁, hkeep₁⟩ := eng.toInt32Sat_valid (arg argv 0) hh
  have hend {start : ℤ} {del : Option ℤ} {items : List (Val β)} {h₁ : Heap β U} (hh₁ : h₁.Valid)
      (hp' : h₁.arrays this = some p') (hop : op = .splice start del items) :
      (spliceAt alloc this h₁ p.len (relIndex start p.len)
        (delAt del p.len (relIndex start p.len)) items).1.isSome := by
    subst hop
    have hvis := length_visible (hh₁.array _ _ hp')
    have hs := relIndex_le start p'.len
    have hd := delAt_le del p'.len (relIndex start p'.len)
    have hmax := fits_length (hh₁.array _ _ hp') hfits
    have hnew := hfits.2
    rw [ListOp.apply, hvis] at hmax hnew
    rw [length_spliced (by omega), hvis] at hmax hnew
    rw [← hlen]
    exact spliceAt_isSome hh₁ hp' (by omega) hmax hnew halloc
  rw [Op.convert] at hop hp'
  rw [jsArraySplice, hp]
  dsimp only at hop hp' ⊢
  rcases hc₁ : eng.toInt32Sat (arg argv 0) h with ⟨_ | start, h₁⟩
  · rw [hc₁] at hop
    cases hop
  rw [hc₁] at hh₁ hop hp'
  dsimp only at hh₁ hop hp' ⊢
  rw [toNat_clamp_start]
  split_ifs at hop hp' ⊢ with h0 h1
  · have hzero : 0 = delAt (some 0) p.len (relIndex start p.len) := by simp [delAt]
    rw [hzero]
    exact hend hh₁ hp' (Option.some.inj hop).symm
  · have hrest : p.len - relIndex start p.len = delAt none p.len (relIndex start p.len) := rfl
    rw [hrest]
    exact hend hh₁ hp' (Option.some.inj hop).symm
  · obtain ⟨hh₂, -⟩ := eng.toInt32Sat_valid (arg argv 1) hh₁
    rcases hc₂ : eng.toInt32Sat (arg argv 1) h₁ with ⟨_ | d, h₂⟩
    · rw [hc₂] at hop
      cases hop
    · rw [hc₂] at hh₂ hop hp'
      dsimp only at hh₂ hp' ⊢
      rw [toNat_clamp_del]
      exact hend hh₂ hp' (Option.some.inj hop).symm

theorem setLength_isSome {v : Val β} (hh : h.Valid) (hp : h.arrays this = some p)
    (hop : (eng.toInt32 v h).1.map .setLength = some op) {p' : JSArrayData β}
    (hp' : (eng.toInt32 v h).2.arrays this = some p') (hfits : op.Fits p'.arr.length p'.visible)
    (halloc : ∀ k, alloc k = true) : (jsArraySetLength eng alloc this h v).1.isSome := by
  obtain ⟨hhc, -⟩ := eng.toInt32_valid v hh
  have hshort : (jsValueArraySizeMax : ℤ) ≤ jsShortIntMax := by decide
  rw [jsArraySetLength, hp]
  dsimp only
  rcases hconv : eng.toInt32 v h with ⟨_ | n, hc⟩
  · rw [hconv] at hop
    cases hop
  rw [hconv] at hhc hop hp'
  obtain rfl := Option.some.inj hop
  have hpv := hhc.array _ _ hp'
  have hlen : (ListOp.apply p'.visible (.setLength n)).length = n.toNat := by
    simp only [ListOp.apply, List.length_append, List.length_take, List.length_replicate]
    omega
  have hn : 0 ≤ n := hfits.1 n rfl
  have hmax := fits_length hpv hfits
  have hsize := hfits.2
  rw [hlen] at hmax hsize
  obtain ⟨q, hq⟩ := jsArrayResize_isSome (p := p') (n := n.toNat) (by omega) hsize
  rw [Int.toNat_of_nonneg hn] at hq
  dsimp only at hp' ⊢
  rw [hp', Option.bind_some, halloc, hq]
  rfl

end Methods

/-! ### Sequences of calls -/

theorem callSpec (eng : Engine β U) (c : Call β) (hh : h.Valid) : CallSpec eng c h := by
  obtain ⟨op, this, alloc⟩ := c
  cases op with
  | push argv =>
    refine callSpec_of_outcome hh (fun hthis => ?_) (fun hthis => ?_) ?_
    · rw [Op.run, jsArrayPush, hthis]
    · obtain ⟨p, hp⟩ := Option.isSome_iff_exists.1 hthis
      exact push_outcome hh hp rfl (fun _ => rfl)
    · intro op p p' hp hop hp' _ hfits halloc
      obtain rfl := Option.some.inj hop
      have hvis := length_visible (hh.array _ _ hp')
      have hmax := fits_length (hh.array _ _ hp') hfits
      have hsize := hfits.2
      rw [ListOp.apply, List.length_append, hvis] at hmax hsize
      exact push_isSome hp' hmax hsize halloc
  | unshift argv =>
    refine callSpec_of_outcome hh (fun hthis => ?_) (fun hthis => ?_) ?_
    · rw [Op.run, jsArrayPush, hthis]
    · obtain ⟨p, hp⟩ := Option.isSome_iff_exists.1 hthis
      exact push_outcome hh hp rfl (fun _ => rfl)
    · intro op p p' hp hop hp' _ hfits halloc
      obtain rfl := Option.some.inj hop
      have hvis := length_visible (hh.array _ _ hp')
      have hmax := fits_length (hh.array _ _ hp') hfits
      have hsize := hfits.2
      rw [ListOp.apply, List.length_append, hvis, Nat.add_comm] at hmax hsize
      exact push_isSome hp' hmax hsize halloc
  | pop =>
    refine callSpec_of_outcome hh (fun hthis => ?_) (fun hthis => ?_) ?_
    · rw [Op.run, jsArrayPop, hthis]
    · obtain ⟨p, hp⟩ := Option.isSome_iff_exists.1 hthis
      exact pop_outcome hh hp
    · intro op p p' hp _ _ _ _ _
      rw [Op.run, jsArrayPop, hp]
      dsimp only
      split_ifs <;> rfl
  | shift =>
    refine callSpec_of_outcome hh (fun hthis => ?_) (fun hthis => ?_) ?_
    · rw [Op.run, jsArrayShift, hthis]
    · obtain ⟨p, hp⟩ := Option.isSome_iff_exists.1 hthis
      exact shift_outcome hh hp
    · intro op p p' hp _ _ _ _ _
      rw [Op.run, jsArrayShift, hp]
      dsimp only
      split_ifs <;> rfl
  | reverse =>
    refine callSpec_of_outcome hh (fun hthis => ?_) (fun hthis => ?_) ?_
    · rw [Op.run, jsArrayReverse, hthis]
    · obtain ⟨p, hp⟩ := Option.isSome_iff_exists.1 hthis
      exact reverse_outcome hh hp
    · intro op p p' hp _ _ _ _ _
      rw [Op.run, jsArrayReverse, hp]
      rfl
  | setLength v =>
    refine callSpec_of_outcome hh (fun hthis => ?_) (fun hthis => ?_) ?_
    · rw [Op.run, jsArraySetLength, hthis]
    · obtain ⟨p, hp⟩ := Option.isSome_iff_exists.1 hthis
      exact setLength_outcome hh hp
    · intro op p p' hp hop hp' _ hfits halloc
      exact setLength_isSome hh hp hop hp' hfits halloc
  | splice argv =>
    refine callSpec_of_outcome hh (fun hthis => ?_) (fun hthis => ?_) ?_
    · rw [Op.run, jsArraySplice, hthis]
    · obtain ⟨p, hp⟩ := Option.isSome_iff_exists.1 hthis
      exact splice_outcome hh hp
    · intro op p p' hp hop hp' hlen hfits halloc
      exact splice_isSome hh hp hop hp' hlen hfits halloc

theorem runCalls_valid (eng : Engine β U) : ∀ (cs : List (Call β)) {h : Heap β U}, h.Valid →
    (runCalls eng h cs).Valid
  | [], _, hh => hh
  | c :: cs, _, hh => runCalls_valid eng cs (callSpec eng c hh).valid

/-- After every sequence of calls the arrays are valid, and the next call does to its receiver what
its list operation does, or throws and changes no array. -/
theorem calls_refine_lists (eng : Engine β U) (hh : h.Valid) (cs : List (Call β)) (c : Call β) :
    (runCalls eng h cs).Valid ∧ CallSpec eng c (runCalls eng h cs) :=
  ⟨runCalls_valid eng cs hh, callSpec eng c (runCalls_valid eng cs hh)⟩

/-- Numbers convert to themselves, and the conversion of anything else throws. -/
def numberEngine : Engine ℕ Unit where
  toInt32 v h := (match v with | .int z => some z | _ => none, h)
  toInt32Sat v h := (match v with | .int z => some z | _ => none, h)
  toInt32_valid _ _ hh := ⟨hh, fun _ hid => hid⟩
  toInt32Sat_valid _ _ hh := ⟨hh, fun _ hid => hid⟩

/-- One array, whose table has a slot beyond the length. -/
def staleHeap : Heap ℕ Unit where
  arrays id := if id = 0 then some ⟨some [.int 1, .int 2, .int 3], 2⟩ else none
  next := 1
  user := ()

theorem staleHeap_valid : staleHeap.Valid := by
  constructor
  · intro id p hp
    simp only [staleHeap] at hp
    split_ifs at hp
    rw [← Option.some.inj hp]
    exact ⟨by simp [JSArrayData.arr], by simp [JSArrayData.arr, jsValueArraySizeMax]⟩
  · intro id hid
    have hid : 1 ≤ id := hid
    simp [staleHeap, show id ≠ 0 by omega]

theorem calls_refine_lists_staleHeap :
    (runCalls numberEngine staleHeap [⟨.setLength (.int 3), 0, fun _ => true⟩]).Valid ∧
      CallSpec numberEngine ⟨.splice [.int (-2), .int 1], 0, fun _ => true⟩
        (runCalls numberEngine staleHeap [⟨.setLength (.int 3), 0, fun _ => true⟩]) :=
  calls_refine_lists numberEngine staleHeap_valid _ _

end Arrays

end Qjs
