import Qjs.Pqueue
import Qjs.Proofs.HeapSort

/-!
# The priority queue is one

The heap order but for one element is kept by each turn of the loops, upwards (`heapifyUp_heap`) and
downwards (`heapifyDown_heap`), with the notions of the heap sort. So every run of calls serves its
elements as a multiset does that gives a least one (`run_serves`), from a queue that is made empty
or of an array whose length is below 2^31.
-/

namespace Qjs

namespace Pqueue

open HeapSort

variable {α : Type*} {compare : α → α → ℤ}

/-- `a` does not come before `b`. -/
def After (compare : α → α → ℤ) (a b : α) : Prop := compare b a ≤ 0

section Order

variable (hc : TotalPreorder compare)

include hc

theorem TotalPreorder.total (a b : α) : compare a b ≤ 0 ∨ compare b a ≤ 0 := by
  have := hc.swap_iff b a
  omega

theorem TotalPreorder.after_refl (a : α) : After compare a a := by
  have := hc.total a a
  unfold After
  omega

theorem TotalPreorder.after_trans {a b c : α} (hab : After compare a b) (hbc : After compare b c) :
    After compare a c := hc.trans c b a hbc hab

theorem TotalPreorder.after_of_not {a b : α} (h : ¬ compare a b < 0) : After compare a b := by
  have := hc.swap_iff a b
  have := hc.swap_iff b a
  unfold After
  omega

end Order

theorem swap_eq (data : ℕ → α) (i j : ℕ) : swap data i j = data ∘ Equiv.swap i j := by
  funext k
  rw [swap_apply, swap, Function.update_apply, Function.update_apply]
  by_cases hj : k = j
  · rw [if_pos hj, hj]
    by_cases hij : j = i
    · rw [if_pos hij, hij]
    · rw [if_neg hij, if_pos rfl]
  · rw [if_neg hj, if_neg hj]

/-! ### The loops -/

/-- A heap but for `i`, whose children do not come before its parent. -/
structure UpBut (compare : α → α → ℤ) (f : ℕ → α) (n i : ℕ) : Prop where
  dominates : ∀ p c, c = 2 * p + 1 ∨ c = 2 * p + 2 → c < n → c ≠ i → After compare (f c) (f p)
  grand : ∀ p, i = 2 * p + 1 ∨ i = 2 * p + 2 → ∀ c, c = 2 * i + 1 ∨ c = 2 * i + 2 → c < n →
    After compare (f c) (f p)

section Loops

variable {f : ℕ → α} {n lo i : ℕ} (hc : TotalPreorder compare)

include hc

/-- The element changes places with its parent, which it comes before. -/
theorem UpBut.risen (h : UpBut compare f n i) (h0 : 0 < i)
    (hlt : compare (f i) (f ((i - 1) / 2)) < 0) :
    UpBut compare (f ∘ Equiv.swap i ((i - 1) / 2)) n ((i - 1) / 2) := by
  obtain ⟨q, hq⟩ : ∃ q, (i - 1) / 2 = q := ⟨_, rfl⟩
  have hchild : i = 2 * q + 1 ∨ i = 2 * q + 2 := by omega
  rw [hq] at hlt ⊢
  have hafter : After compare (f q) (f i) := hlt.le
  constructor
  · intro p c hcp hcn hcq
    rw [swap_apply f i q c, swap_apply f i q p, if_neg hcq]
    by_cases hci : c = i
    · have hpq : p = q := by omega
      rw [if_pos hci, if_neg (by omega), if_pos hpq]
      exact hafter
    · rw [if_neg hci]
      by_cases hpi : p = i
      · rw [if_pos hpi]
        exact h.grand q hchild c (by omega) hcn
      · rw [if_neg hpi]
        have hcp' := h.dominates p c hcp hcn hci
        by_cases hpq : p = q
        · rw [if_pos hpq]
          rw [hpq] at hcp'
          exact hc.after_trans hcp' hafter
        · rw [if_neg hpq]
          exact hcp'
  · intro p hqp c hcq hcn
    have hup := h.dominates p q hqp (by omega) (by omega)
    rw [swap_apply f i q c, swap_apply f i q p, if_neg (by omega : p ≠ i),
      if_neg (by omega : p ≠ q)]
    by_cases hci : c = i
    · rw [if_pos hci]
      exact hup
    · rw [if_neg hci, if_neg (by omega)]
      exact hc.after_trans (h.dominates q c hcq hcn hci) hup

/-- The element rises as long as it comes before its parent: what was a heap but for it becomes one.
-/
theorem heapifyUp_heap : ∀ {fuel i : ℕ} {f : ℕ → α}, i ≤ fuel → i < n →
    UpBut compare f n i → Moves 0 n f (heapifyUp compare fuel i f)
      ∧ Heap (After compare) (heapifyUp compare fuel i f) n 0 := by
  have hheap : ∀ {i : ℕ} {f : ℕ → α}, UpBut compare f n i →
      (i = 0 ∨ After compare (f i) (f ((i - 1) / 2))) → Heap (After compare) f n 0 := by
    intro i f h htop p _ c hcp hcn
    by_cases hci : c = i
    · have hp : (i - 1) / 2 = p := by omega
      rw [hp] at htop
      rw [hci]
      exact htop.resolve_left (by omega)
    · exact h.dominates p c hcp hcn hci
  intro fuel
  induction fuel with
  | zero =>
    intro i f hf _ h
    exact ⟨.refl _ _ _, hheap h (.inl (by omega))⟩
  | succ fuel ih =>
    intro i f hf hin h
    rw [heapifyUp]
    by_cases h0 : i > 0
    · rw [if_pos h0]
      dsimp only
      by_cases hlt : compare (f i) (f ((i - 1) / 2)) < 0
      · rw [if_pos hlt, swap_eq]
        obtain ⟨hmv, hres⟩ := ih (by omega) (by omega) (h.risen hc h0 hlt)
        exact ⟨(Moves.of_swap f ⟨Nat.zero_le _, hin⟩ ⟨Nat.zero_le _, by omega⟩).trans hmv, hres⟩
      · rw [if_neg hlt]
        exact ⟨.refl _ _ _, hheap h (.inr (hc.after_of_not hlt))⟩
    · rw [if_neg h0]
      exact ⟨.refl _ _ _, hheap h (.inl (by omega))⟩

/-- The element that the loop downwards picks. -/
theorem smallest_spec (r : ℕ) (f : ℕ → α) (n : ℕ) {s₁ s : ℕ}
    (hs₁ : s₁ = if 2 * r + 1 < n ∧ compare (f (2 * r + 1)) (f r) < 0 then 2 * r + 1 else r)
    (hs : s = if 2 * r + 2 < n ∧ compare (f (2 * r + 2)) (f s₁) < 0 then 2 * r + 2 else s₁) :
    (s = r ∨ ((s = 2 * r + 1 ∨ s = 2 * r + 2) ∧ s < n)) ∧ After compare (f r) (f s)
      ∧ ∀ c, c = 2 * r + 1 ∨ c = 2 * r + 2 → c < n → After compare (f c) (f s) := by
  have h₁ : (s₁ = r ∨ (s₁ = 2 * r + 1 ∧ s₁ < n)) ∧ After compare (f r) (f s₁)
      ∧ (2 * r + 1 < n → After compare (f (2 * r + 1)) (f s₁)) := by
    split_ifs at hs₁ with h
    · rw [hs₁]
      exact ⟨.inr ⟨rfl, h.1⟩, h.2.le, fun _ => hc.after_refl _⟩
    · rw [hs₁]
      exact ⟨.inl rfl, hc.after_refl _, fun hn => hc.after_of_not fun hlt => h ⟨hn, hlt⟩⟩
  obtain ⟨hwhere, hr, hleft⟩ := h₁
  split_ifs at hs with h
  · rw [hs]
    have hs₁' : After compare (f s₁) (f (2 * r + 2)) := h.2.le
    refine ⟨.inr ⟨.inr rfl, h.1⟩, hc.after_trans hr hs₁', ?_⟩
    rintro c (rfl | rfl) hcn
    · exact hc.after_trans (hleft hcn) hs₁'
    · exact hc.after_refl _
  · rw [hs]
    refine ⟨by omega, hr, ?_⟩
    rintro c (rfl | rfl) hcn
    · exact hleft hcn
    · exact hc.after_of_not fun hlt => h ⟨hcn, hlt⟩

/-- The element sinks as long as a child comes before it: what was a heap but for it becomes one. -/
theorem heapifyDown_heap : ∀ {fuel r : ℕ} {f : ℕ → α}, lo ≤ r → r < n → n ≤ r + fuel →
    HeapBut (After compare) f n lo r → Moves r n f (heapifyDown compare n fuel r f)
      ∧ Heap (After compare) (heapifyDown compare n fuel r f) n lo := by
  intro fuel
  induction fuel with
  | zero =>
    intro r f hlo hr hf h
    omega
  | succ fuel ih =>
    intro r f hlo hr hf h
    rw [heapifyDown]
    generalize hs₁ : (if 2 * r + 1 < n ∧ compare (f (2 * r + 1)) (f r) < 0 then 2 * r + 1 else r)
      = s₁
    generalize hs : (if 2 * r + 2 < n ∧ compare (f (2 * r + 2)) (f s₁) < 0 then 2 * r + 2 else s₁)
      = s
    obtain ⟨hwhere, hrs, hmax⟩ := smallest_spec hc r f n hs₁.symm hs.symm
    by_cases hsr : s = r
    · rw [if_pos hsr]
      refine ⟨.refl _ _ _, ?_⟩
      intro i hi
      by_cases hir : i = r
      · rw [hir]
        rwa [hsr] at hmax
      · exact h.dominates i hi hir
    · rw [if_neg hsr, swap_eq]
      obtain ⟨hchild, hsn⟩ := hwhere.resolve_left hsr
      obtain ⟨hmv, hres⟩ := ih (by omega) hsn (by omega) (h.sunk hlo hchild hsn hrs hmax)
      have hmv₀ : Moves r n f (f ∘ Equiv.swap r s) :=
        .of_swap f ⟨le_rfl, hr⟩ ⟨by omega, hsn⟩
      exact ⟨hmv₀.trans (hmv.mono (by omega) le_rfl), hres⟩

/-- The loop over the elements that have children makes a heap. -/
theorem buildHeap_heap : ∀ {i : ℕ} {f : ℕ → α}, i ≤ n → Heap (After compare) f n i →
    Moves 0 n f (buildHeap compare n i f) ∧ Heap (After compare) (buildHeap compare n i f) n 0 := by
  intro i
  induction i with
  | zero => exact fun _ h => ⟨.refl _ _ _, h⟩
  | succ i ih =>
    intro f hi h
    have hbut : HeapBut (After compare) f n i i :=
      ⟨fun j hj hji => h j (by omega), fun p hp hip => by omega⟩
    obtain ⟨hmv, hheap⟩ := heapifyDown_heap hc le_rfl hi (show n ≤ i + n by omega) hbut
    obtain ⟨hmv', hheap'⟩ := ih (by omega) hheap
    exact ⟨(hmv.mono (by omega) le_rfl).trans hmv', hheap'⟩

/-- The first element of a heap is a least one. -/
theorem root_least (h : Heap (After compare) f n 0) (hi : i < n) : compare (f 0) (f i) ≤ 0 := by
  induction i using Nat.strong_induction_on with
  | _ i ih =>
    by_cases h0 : i = 0
    · rw [h0]
      exact hc.after_refl (f 0)
    · have hp : After compare (f i) (f ((i - 1) / 2)) :=
        h ((i - 1) / 2) (Nat.zero_le _) i (by omega) hi
      exact hc.trans _ _ _ (ih ((i - 1) / 2) (by omega) (by omega)) hp

end Loops

/-! ### What is stored -/

section Contents

variable {f g : ℕ → α} {n : ℕ}

theorem map_range_of_moves (h : Moves 0 n f g) :
    (Multiset.range n).map g = (Multiset.range n).map f := by
  have := h.perm
  rwa [← Multiset.coe_eq_coe] at this

theorem map_range_update (f : ℕ → α) (n : ℕ) (x : α) :
    (Multiset.range (n + 1)).map (Function.update f n x) = x ::ₘ (Multiset.range n).map f := by
  rw [Multiset.range_succ, Multiset.map_cons, Function.update_self]
  congr 1
  refine Multiset.map_congr rfl fun k hk => Function.update_of_ne ?_ _ _
  have := Multiset.mem_range.1 hk
  omega

/-- The last element takes the place of the first. -/
theorem map_range_first (f : ℕ → α) (n : ℕ) : (Multiset.range (n + 1)).map f
    = f 0 ::ₘ (Multiset.range n).map (Function.update f 0 (f n)) := by
  have hmv : Moves 0 (n + 1) f (f ∘ Equiv.swap 0 n) := .of_swap f (by omega) (by omega)
  rw [← map_range_of_moves hmv, Multiset.range_succ, Multiset.map_cons]
  congr 1
  · rw [swap_apply]
    by_cases h : n = 0
    · rw [if_pos h, h]
    · rw [if_neg h, if_pos rfl]
  · refine Multiset.map_congr rfl fun k hk => ?_
    have := Multiset.mem_range.1 hk
    rw [swap_apply, Function.update_apply]
    split_ifs with h h'
    · rfl
    · omega
    · rfl

end Contents

theorem card_contents (pq : PriorityQueue α) : pq.contents.card = pq.size := by
  rw [PriorityQueue.contents, Multiset.card_map, Multiset.card_range]

/-! ### Calls -/

/-- A heap in a block that is as large as the capacity says. -/
structure Good (compare : α → α → ℤ) (pq : PriorityQueue α) : Prop where
  heap : Heap (After compare) pq.data pq.size 0
  size_le : pq.size ≤ pq.capacity
  slots : pq.slots = pq.capacity
  bytes : pq.capacity * 8 < 2 ^ 63

theorem alloc_some {ok : Bool} {n s : ℕ} (hn : n * 8 < 2 ^ 64) (h : alloc ok n = some s) :
    s = n ∧ n * 8 < 2 ^ 63 := by
  rw [alloc, Nat.mod_eq_of_lt hn] at h
  split_ifs at h with hok
  have := Option.some.inj h
  omega

theorem Good.ordered {pq : PriorityQueue α} (h : Good compare pq) : pq.Ordered compare :=
  fun i h0 hi => h.heap ((i - 1) / 2) (Nat.zero_le _) i (by omega) hi

section Step

variable {pq pq' : PriorityQueue α} {ok : Bool}

theorem ensureCapacity_good (h : Good compare pq)
    (he : ensureCapacity ok pq (pq.size + 1) = some pq') :
    pq'.data = pq.data ∧ pq'.size = pq.size ∧ pq.size < pq'.capacity
      ∧ pq'.slots = pq'.capacity ∧ pq'.capacity * 8 < 2 ^ 63 := by
  have hbytes := h.bytes
  have hsize := h.size_le
  unfold ensureCapacity at he
  split_ifs at he with hcap
  · cases he
    exact ⟨rfl, rfl, hcap, h.slots, hbytes⟩
  · dsimp only at he
    rw [growthFactor, Nat.mod_eq_of_lt (show pq.capacity * 2 < 2 ^ 64 by omega)] at he
    generalize hnew : (if pq.capacity * 2 < pq.size + 1 then pq.size + 1 else pq.capacity * 2) = new
      at he
    have hle : pq.size + 1 ≤ new ∧ new * 8 < 2 ^ 64 := by
      split_ifs at hnew <;> omega
    obtain ⟨slots, halloc, rfl⟩ := Option.map_eq_some_iff.1 he
    obtain ⟨hslots, hbytes'⟩ := alloc_some hle.2 halloc
    exact ⟨rfl, rfl, hle.1, hslots, hbytes'⟩

variable (hc : TotalPreorder compare)

include hc

theorem insert_good (h : Good compare pq) (ok : Bool) (x : α) : ∃ b q,
    insert compare ok pq x = some (b, q) ∧ Good compare q
      ∧ q.contents = if b then x ::ₘ pq.contents else pq.contents := by
  unfold insert
  rcases he : ensureCapacity ok pq (pq.size + 1) with _ | q
  · exact ⟨false, pq, rfl, h, rfl⟩
  · obtain ⟨hdata, hsize, hlt, hslots, hbytes⟩ := ensureCapacity_good h he
    dsimp only
    rw [if_pos (by omega), hdata, hsize]
    have hup : UpBut compare (Function.update pq.data pq.size x) (pq.size + 1) pq.size := by
      constructor
      · intro p c hcp hcn hc'
        rw [Function.update_of_ne hc', Function.update_of_ne (by omega)]
        exact h.heap p (Nat.zero_le _) c hcp (by omega)
      · intro p _ c hcc hcn
        omega
    obtain ⟨hmv, hheap⟩ := heapifyUp_heap hc le_rfl (Nat.lt_succ_self _) hup
    refine ⟨true, _, rfl, ⟨hheap, hlt, hslots, hbytes⟩, ?_⟩
    exact (map_range_of_moves hmv).trans (map_range_update _ _ _)

theorem extract_good (h : Good compare pq) : Good compare (extract compare pq).2
    ∧ Serves compare pq.contents .extract (.extracted (extract compare pq).1)
        (extract compare pq).2.contents := by
  unfold extract
  by_cases h0 : pq.size = 0
  · rw [if_pos h0]
    have hempty : pq.contents = 0 := by
      rw [PriorityQueue.contents, h0]
      rfl
    exact ⟨h, by rw [hempty]; exact .empty⟩
  · rw [if_neg h0]
    obtain ⟨m, hm⟩ : ∃ m, pq.size = m + 1 := ⟨pq.size - 1, by omega⟩
    have hsize := h.size_le
    have hfirst : pq.contents = pq.data 0
        ::ₘ (Multiset.range m).map (Function.update pq.data 0 (pq.data m)) := by
      rw [PriorityQueue.contents, hm]
      exact map_range_first pq.data m
    have hleast : ∀ y ∈ pq.contents, compare (pq.data 0) y ≤ 0 := by
      intro y hy
      obtain ⟨i, hi, rfl⟩ := Multiset.mem_map.1 hy
      exact root_least hc h.heap (Multiset.mem_range.1 hi)
    dsimp only
    rw [hm, Nat.add_sub_cancel]
    have hdown : Moves 0 m (Function.update pq.data 0 (pq.data m))
        (if m > 0 then heapifyDown compare m m 0 (Function.update pq.data 0 (pq.data m))
          else Function.update pq.data 0 (pq.data m))
        ∧ Heap (After compare)
          (if m > 0 then heapifyDown compare m m 0 (Function.update pq.data 0 (pq.data m))
            else Function.update pq.data 0 (pq.data m)) m 0 := by
      split_ifs with hpos
      · refine heapifyDown_heap hc le_rfl hpos (by omega) ⟨?_, fun p _ hp => by omega⟩
        intro i _ hi c hci hcm
        rw [Function.update_of_ne (by omega), Function.update_of_ne hi]
        exact h.heap i (Nat.zero_le _) c hci (by omega)
      · exact ⟨.refl _ _ _, fun i _ c hci hcm => by omega⟩
    refine ⟨⟨hdown.2, by dsimp only; omega, h.slots, h.bytes⟩, ?_⟩
    have hrest := map_range_of_moves hdown.1
    rw [hfirst]
    rw [hfirst] at hleast
    rw [PriorityQueue.contents]
    dsimp only
    rw [hrest]
    exact .extracted _ _ fun y hy => hleast y (Multiset.mem_cons_of_mem hy)

/-- A call keeps the heap and serves as a multiset does. -/
theorem step_good (h : Good compare pq) (op : Op α) : ∃ out q, step compare pq op = some (out, q)
    ∧ Good compare q ∧ Serves compare pq.contents op out q.contents := by
  cases op with
  | insert x ok =>
    obtain ⟨b, q, hins, hgood, hcont⟩ := insert_good hc h ok x
    refine ⟨.inserted b, q, by rw [step, hins]; rfl, hgood, ?_⟩
    cases b with
    | true =>
      rw [hcont]
      exact .inserted _ _ _
    | false =>
      rw [hcont]
      exact .refused _ _ _
  | extract =>
    obtain ⟨hgood, hserves⟩ := extract_good hc h
    exact ⟨_, _, rfl, hgood, hserves⟩
  | clear =>
    refine ⟨_, _, rfl, ⟨fun i _ c _ hcn => ?_, Nat.zero_le _, h.slots, h.bytes⟩, .cleared _⟩
    exact absurd hcn (Nat.not_lt_zero c)

/-- So does a run. -/
theorem run_good (ops : List (Op α)) : ∀ {pq : PriorityQueue α}, Good compare pq →
    ∃ outs q, run compare pq ops = some (outs, q) ∧ Good compare q
      ∧ ServesAll compare pq.contents ops outs q.contents := by
  induction ops with
  | nil => exact fun {pq} h => ⟨[], pq, rfl, h, .nil _⟩
  | cons op ops ih =>
    intro pq h
    obtain ⟨out, q, hstep, hgood, hserves⟩ := step_good hc h op
    obtain ⟨outs, q', hrun, hgood', hserves'⟩ := ih hgood
    refine ⟨out :: outs, q', ?_, hgood', .cons hserves hserves'⟩
    rw [run, hstep, Option.bind_some, hrun, Option.map_some]

/-- As many extracts as there are elements give them in order. -/
theorem drain_sorted : ∀ {n : ℕ} {pq : PriorityQueue α}, Good compare pq → pq.size = n →
    ∃ (xs : List α) (q : PriorityQueue α), run compare pq (List.replicate n .extract)
        = some (xs.map fun x => Out.extracted (some x), q)
      ∧ (xs : Multiset α) = pq.contents ∧ xs.Pairwise fun a b => compare a b ≤ 0 := by
  intro n
  induction n with
  | zero =>
    intro pq _ hn
    refine ⟨[], pq, rfl, ?_, .nil⟩
    rw [PriorityQueue.contents, hn]
    rfl
  | succ n ih =>
    intro pq h hn
    obtain ⟨hgood, hserves⟩ := extract_good hc h
    rcases hr : extract compare pq with ⟨out, q⟩
    rw [hr] at hgood hserves
    dsimp only at hgood hserves
    have hcard : pq.contents.card = n + 1 := by rw [card_contents, hn]
    generalize hm : pq.contents = m at hserves hcard
    generalize hm' : q.contents = m' at hserves
    cases hserves with
    | extracted _ x hleast =>
      rw [Multiset.card_cons, ← hm', card_contents] at hcard
      obtain ⟨xs, q', hrun, hxs, hsorted⟩ := ih hgood (by omega)
      refine ⟨x :: xs, q', ?_, ?_, ?_⟩
      · rw [List.replicate_succ, run, step, hr, Option.bind_some, hrun]
        rfl
      · rw [← Multiset.cons_coe, hxs, hm']
      · refine List.pairwise_cons.2 ⟨fun y hy => hleast y ?_, hsorted⟩
        rw [← hm', ← hxs]
        exact hy
    | empty => simp at hcard

end Step

/-! ### From the start -/

/-- The queue serves `m`: after any calls it is in order, its elements are those of a multiset that
has served the same calls, and as many extracts as there are elements give them in order. -/
def Serving (compare : α → α → ℤ) (pq : PriorityQueue α) (m : Multiset α) : Prop :=
  ∀ ops, ∃ outs q, run compare pq ops = some (outs, q) ∧ q.Ordered compare
    ∧ ServesAll compare m ops outs q.contents
    ∧ ∃ (xs : List α) (q' : PriorityQueue α), run compare q (List.replicate q.size .extract)
        = some (xs.map fun x => Out.extracted (some x), q')
      ∧ (xs : Multiset α) = q.contents ∧ xs.Pairwise fun a b => compare a b ≤ 0

theorem Good.serving {pq : PriorityQueue α} (hc : TotalPreorder compare) (h : Good compare pq) :
    Serving compare pq pq.contents := by
  intro ops
  obtain ⟨outs, q, hrun, hgood, hserves⟩ := run_good hc ops h
  exact ⟨outs, q, hrun, hgood.ordered, hserves, drain_sorted hc hgood rfl⟩

theorem create_some {ok : Bool} {junk : ℕ → α} {n : ℕ} {pq : PriorityQueue α} (hn : n * 8 < 2 ^ 64)
    (h : create ok junk n = some pq) : pq.data = junk ∧ pq.size = 0 ∧ n ≤ pq.capacity
      ∧ pq.slots = pq.capacity ∧ pq.capacity * 8 < 2 ^ 63 := by
  unfold create at h
  dsimp only at h
  generalize hcap : (if n < defaultCapacity then defaultCapacity else n) = cap at h
  have hle : n ≤ cap ∧ cap * 8 < 2 ^ 64 := by
    rw [defaultCapacity] at hcap
    split_ifs at hcap <;> omega
  obtain ⟨slots, halloc, rfl⟩ := Option.map_eq_some_iff.1 h
  obtain ⟨hslots, hbytes⟩ := alloc_some hle.2 halloc
  exact ⟨rfl, rfl, hle.1, hslots, hbytes⟩

theorem intOf_eq {n : ℕ} (hn : n < 2 ^ 31) : intOf n = n := by
  rw [intOf, BitVec.toInt_eq_toNat_of_lt]
  · rw [BitVec.toNat_ofNat, Nat.mod_eq_of_lt (by omega)]
  · rw [BitVec.toNat_ofNat, Nat.mod_eq_of_lt (by omega)]
    omega

theorem fromArray_good (hc : TotalPreorder compare) (ok : Bool) (junk elements : ℕ → α) {count : ℕ}
    (elementClone : Option (α → α)) (hn : count < 2 ^ 31) :
    ∃ r, fromArray compare ok junk elements count elementClone = some r ∧ ∀ pq ∈ r,
      Good compare pq ∧ pq.contents
        = (Multiset.range count).map fun i => elementClone.getD id (elements i) := by
  unfold fromArray
  rcases hcreate : create ok junk count with _ | pq
  · exact ⟨none, rfl, by simp⟩
  · obtain ⟨-, -, hcap, hslots, hbytes⟩ := create_some (by omega) hcreate
    have hstart : ((intOf count).tdiv 2 - 1 + 1).toNat = count / 2 := by
      rw [intOf_eq hn, Int.tdiv_eq_ediv_of_nonneg (by omega)]
      omega
    dsimp only
    rw [if_pos (by omega), hstart]
    refine ⟨_, rfl, ?_⟩
    rintro q ⟨⟩
    obtain ⟨hmv, hheap⟩ := buildHeap_heap hc (n := count) (i := count / 2)
      (f := fun i => if i < count then elementClone.getD id (elements i) else pq.data i) (by omega)
      fun i hi c hci hcn => by omega
    refine ⟨⟨hheap, hcap, hslots, hbytes⟩, ?_⟩
    rw [PriorityQueue.contents]
    dsimp only
    rw [map_range_of_moves hmv]
    exact Multiset.map_congr rfl fun i hi => if_pos (Multiset.mem_range.1 hi)

/-- A queue that is made empty, of a size that does not wrap around, or of an array of fewer than
2^31 elements, serves its elements. -/
theorem queue_serves (hc : TotalPreorder compare) :
    (∀ (ok : Bool) (junk : ℕ → α) (initialCapacity : ℕ), initialCapacity * 8 < 2 ^ 64 →
        ∀ pq ∈ create ok junk initialCapacity, Serving compare pq 0)
      ∧ ∀ (ok : Bool) (junk elements : ℕ → α) (count : ℕ) (elementClone : Option (α → α)),
        count < 2 ^ 31 → ∃ r, fromArray compare ok junk elements count elementClone = some r
          ∧ ∀ pq ∈ r, pq.Ordered compare ∧ Serving compare pq
            ((Multiset.range count).map fun i => elementClone.getD id (elements i)) := by
  constructor
  · intro ok junk n hn pq hpq
    obtain ⟨-, hsize, -, hslots, hbytes⟩ := create_some hn hpq
    have hgood : Good compare pq :=
      ⟨fun i _ c _ hcn => by omega, by omega, hslots, hbytes⟩
    have hempty : pq.contents = 0 := by
      rw [PriorityQueue.contents, hsize]
      rfl
    rw [← hempty]
    exact hgood.serving hc
  · intro ok junk elements count elementClone hn
    obtain ⟨r, hr, hall⟩ := fromArray_good hc ok junk elements elementClone hn
    refine ⟨r, hr, fun pq hpq => ?_⟩
    obtain ⟨hgood, hcont⟩ := hall pq hpq
    rw [← hcont]
    exact ⟨hgood.ordered, hgood.serving hc⟩

theorem totalPreorder_sub : TotalPreorder fun a b : ℤ => a - b :=
  ⟨fun a b => by omega, fun a b c => by omega⟩

theorem queue_serves_three : ∃ r, fromArray (fun a b : ℤ => a - b) true (fun _ => 0)
      (fun i => 3 - i) 3 none = some r
    ∧ ∀ pq ∈ r, pq.Ordered (fun a b : ℤ => a - b) ∧ Serving (fun a b : ℤ => a - b) pq
      ((Multiset.range 3).map fun i => (none : Option (ℤ → ℤ)).getD id (3 - i)) :=
  (queue_serves totalPreorder_sub).2 true (fun _ => 0) (fun i => 3 - i) 3 none (by decide)

/-- An array of 2^31 elements, the first one the only 1 among zeros. -/
def oneFirst (i : ℕ) : ℤ := if i = 0 then 1 else 0

/-- The length is negative as an `int`, so no heap is made, and 1 is given first. -/
theorem long_array_unordered : ∃ pq,
    fromArray (fun a b : ℤ => a - b) true (fun _ => 0) oneFirst (2 ^ 31) none = some (some pq)
      ∧ ¬ pq.Ordered (fun a b : ℤ => a - b)
      ∧ (extract (fun a b : ℤ => a - b) pq).1 = some 1 ∧ 0 ∈ pq.contents := by
  have hstart : ((intOf (2 ^ 31)).tdiv 2 - 1 + 1).toNat = 0 := by decide
  have halloc : create true (fun _ => (0 : ℤ)) (2 ^ 31)
      = some ⟨fun _ => 0, 0, 2 ^ 31, 2 ^ 31⟩ := by
    rw [create, defaultCapacity]
    norm_num [alloc]
  have hmade : fromArray (fun a b : ℤ => a - b) true (fun _ => 0) oneFirst (2 ^ 31) none
      = some (some ⟨fun i => if i < 2 ^ 31 then oneFirst i else 0, 2 ^ 31, 2 ^ 31, 2 ^ 31⟩) := by
    rw [fromArray, halloc]
    dsimp only
    rw [if_pos le_rfl, hstart, buildHeap]
    rfl
  refine ⟨_, hmade, ?_, ?_, ?_⟩
  · intro h
    have := h 1 (by decide) (by norm_num)
    norm_num [oneFirst] at this
  · rw [extract, if_neg (by norm_num)]
    norm_num [oneFirst]
  · refine Multiset.mem_map.2 ⟨1, Multiset.mem_range.2 (by norm_num), ?_⟩
    norm_num [oneFirst]

end Pqueue

end Qjs
