import Mathlib.Logic.Equiv.Basic
import Mathlib.Data.List.Perm.Basic
import Mathlib.Data.List.Nodup
import Mathlib.Data.List.Range
import Mathlib.Tactic.Linarith
import Qjs.HeapSort

/-!
# Heap sort sorts

The elements are seen through `get`, and compared up to a total preorder. The inner loop makes a
heap of a heap but for one element (`sink_heap`), so the first loop makes a heap (`heapify_heap`)
and the second one keeps a heap in front of a sorted end (`extract_sorted`).
-/

namespace Qjs.HeapSort

variable {σ β : Type*}

/-- What the sort may rely on: through `get` the comparison is that of a total preorder and changes
nothing, and the swap exchanges two elements; `P` is kept. -/
structure Sortable (cmp : ℕ → ℕ → σ → ℤ × σ) (swap : ℕ → ℕ → σ → σ) (get : σ → ℕ → β)
    (le : β → β → Prop) (P : σ → Prop) (nmemb : ℕ) : Prop where
  total : ∀ a b, le a b ∨ le b a
  trans : ∀ {a b c}, le a b → le b c → le a c
  cmp_inv : ∀ {i j s}, i < nmemb → j < nmemb → P s → P (cmp i j s).2
  cmp_get : ∀ {i j s}, i < nmemb → j < nmemb → P s → get (cmp i j s).2 = get s
  cmp_le : ∀ {i j s}, i < nmemb → j < nmemb → P s → ((cmp i j s).1 ≤ 0 ↔ le (get s i) (get s j))
  swap_inv : ∀ {i j s}, i < nmemb → j < nmemb → P s → P (swap i j s)
  swap_get : ∀ {i j s}, i < nmemb → j < nmemb → P s → get (swap i j s) = get s ∘ Equiv.swap i j

variable {cmp : ℕ → ℕ → σ → ℤ × σ} {swap : ℕ → ℕ → σ → σ} {get : σ → ℕ → β} {le : β → β → Prop}
  {P : σ → Prop} {nmemb : ℕ}

/-- The element at `i` is at least its children among the first `n`. -/
def Over (le : β → β → Prop) (f : ℕ → β) (n i : ℕ) : Prop :=
  ∀ c, c = 2 * i + 1 ∨ c = 2 * i + 2 → c < n → le (f c) (f i)

/-- From `lo` on. -/
def Heap (le : β → β → Prop) (f : ℕ → β) (n lo : ℕ) : Prop := ∀ i, lo ≤ i → Over le f n i

/-- A heap but for `r`, whose children are below its parent. -/
structure HeapBut (le : β → β → Prop) (f : ℕ → β) (n lo r : ℕ) : Prop where
  dominates : ∀ i, lo ≤ i → i ≠ r → Over le f n i
  grand : ∀ p, lo ≤ p → r = 2 * p + 1 ∨ r = 2 * p + 2 →
    ∀ c, c = 2 * r + 1 ∨ c = 2 * r + 2 → c < n → le (f c) (f p)

/-- A rearrangement of the elements from `r` up to `n`. -/
def Moves (r n : ℕ) (f g : ℕ → β) : Prop :=
  ∃ e : Equiv.Perm ℕ, (∀ k, k < r ∨ n ≤ k → e k = k) ∧ g = f ∘ e

theorem Moves.refl (r n : ℕ) (f : ℕ → β) : Moves r n f f := ⟨Equiv.refl ℕ, fun _ _ => rfl, rfl⟩

theorem Moves.trans {r n : ℕ} {f g h : ℕ → β} (h₁ : Moves r n f g) (h₂ : Moves r n g h) :
    Moves r n f h := by
  obtain ⟨e₁, hfix₁, rfl⟩ := h₁
  obtain ⟨e₂, hfix₂, rfl⟩ := h₂
  refine ⟨e₂.trans e₁, ?_, rfl⟩
  intro k hk
  rw [Equiv.trans_apply, hfix₂ k hk, hfix₁ k hk]

theorem Moves.mono {r r' n n' : ℕ} {f g : ℕ → β} (h : Moves r n f g) (hr : r' ≤ r) (hn : n ≤ n') :
    Moves r' n' f g := by
  obtain ⟨e, hfix, rfl⟩ := h
  exact ⟨e, fun k hk => hfix k (by omega), rfl⟩

theorem Moves.of_swap {r n i j : ℕ} (f : ℕ → β) (hi : r ≤ i ∧ i < n) (hj : r ≤ j ∧ j < n) :
    Moves r n f (f ∘ Equiv.swap i j) :=
  ⟨Equiv.swap i j, fun _ hk => Equiv.swap_apply_of_ne_of_ne (by omega) (by omega), rfl⟩

theorem Moves.eq {r n k : ℕ} {f g : ℕ → β} (h : Moves r n f g) (hk : k < r ∨ n ≤ k) :
    g k = f k := by
  obtain ⟨e, hfix, rfl⟩ := h
  rw [Function.comp_apply, hfix k hk]

/-- What is below `n` stays there. -/
theorem Moves.exists_eq {r n k : ℕ} {f g : ℕ → β} (h : Moves r n f g) (hk : k < n) :
    ∃ j < n, g k = f j := by
  obtain ⟨e, hfix, rfl⟩ := h
  refine ⟨e k, ?_, rfl⟩
  by_contra hle
  have h1 := hfix (e k) (.inr (by omega))
  have h2 := e.injective h1
  omega

theorem Moves.perm {r n : ℕ} {f g : ℕ → β} (h : Moves r n f g) :
    ((List.range n).map g).Perm ((List.range n).map f) := by
  obtain ⟨e, hfix, rfl⟩ := h
  rw [← List.map_map]
  refine List.Perm.map f ?_
  refine (List.perm_ext_iff_of_nodup (List.nodup_range.map e.injective) List.nodup_range).2 ?_
  intro k
  rw [List.mem_map, List.mem_range]
  have hlt : ∀ {i}, i < n → e i < n := by
    intro i hi
    by_contra hle
    have h1 := hfix (e i) (.inr (by omega))
    have h2 := e.injective h1
    omega
  constructor
  · rintro ⟨i, hi, rfl⟩
    exact hlt (List.mem_range.1 hi)
  · intro hk
    refine ⟨e.symm k, List.mem_range.2 ?_, e.apply_symm_apply k⟩
    by_contra hle
    have h1 := hfix (e.symm k) (.inr (by omega))
    rw [e.apply_symm_apply] at h1
    omega

theorem swap_apply (f : ℕ → β) (i j k : ℕ) :
    (f ∘ Equiv.swap i j) k = if k = i then f j else if k = j then f i else f k := by
  rw [Function.comp_apply, Equiv.swap_apply_def]
  split_ifs <;> rfl

/-- The greatest child of the element changes places with it. -/
theorem HeapBut.sunk {f : ℕ → β} {n lo r c : ℕ} (hb : HeapBut le f n lo r) (hlo : lo ≤ r)
    (hc : c = 2 * r + 1 ∨ c = 2 * r + 2) (hcn : c < n) (hrc : le (f r) (f c))
    (hmax : ∀ c', c' = 2 * r + 1 ∨ c' = 2 * r + 2 → c' < n → le (f c') (f c)) :
    HeapBut le (f ∘ Equiv.swap r c) n lo c := by
  constructor
  · intro i hi hic c' hc' hlt
    rw [swap_apply f r c c', swap_apply f r c i, if_neg hic]
    by_cases hir : i = r
    · subst hir
      rw [if_pos rfl, if_neg (by omega)]
      by_cases hcc : c' = c
      · rwa [if_pos hcc]
      · rw [if_neg hcc]
        exact hmax c' hc' hlt
    · rw [if_neg hir]
      by_cases hcr : c' = r
      · rw [if_pos hcr]
        exact hb.grand i hi (by omega) c (by omega) hcn
      · rw [if_neg hcr, if_neg (by omega)]
        exact hb.dominates i hi hir c' hc' hlt
  · intro p hp hcp c' hc' hlt
    have hpr : p = r := by omega
    rw [swap_apply f r c c', swap_apply f r c p, if_neg (by omega), if_neg (by omega), if_pos hpr]
    exact hb.dominates c (by omega) (by omega) c' hc' hlt

/-! ### The inner loop -/

section Sink

variable (hs : Sortable cmp swap get le P nmemb)

include hs

theorem Sortable.refl (a : β) : le a a := (hs.total a a).elim id id

theorem greaterChild_spec {n c : ℕ} {s : σ} (hP : P s) (hn : n ≤ nmemb) (hc : c < n) :
    P (greaterChild cmp n c s).2 ∧ get (greaterChild cmp n c s).2 = get s
      ∧ c ≤ (greaterChild cmp n c s).1 ∧ (greaterChild cmp n c s).1 ≤ c + 1
      ∧ (greaterChild cmp n c s).1 < n
      ∧ ∀ c', c' = c ∨ c' = c + 1 → c' < n → le (get s c') (get s (greaterChild cmp n c s).1) := by
  unfold greaterChild
  by_cases h1 : c < n - 1
  · rw [if_pos h1]
    have hc0 : c < nmemb := by omega
    have hc1 : c + 1 < nmemb := by omega
    have hle := hs.cmp_le hc0 hc1 hP
    simp only
    refine ⟨hs.cmp_inv hc0 hc1 hP, hs.cmp_get hc0 hc1 hP, ?_⟩
    by_cases h2 : (cmp c (c + 1) s).1 ≤ 0
    · rw [if_pos h2]
      refine ⟨by omega, le_rfl, by omega, ?_⟩
      rintro c' (rfl | rfl) _
      · exact hle.1 h2
      · exact hs.refl _
    · rw [if_neg h2]
      refine ⟨le_rfl, by omega, by omega, ?_⟩
      rintro c' (rfl | rfl) _
      · exact hs.refl _
      · exact (hs.total _ _).resolve_left (hle.not.1 h2)
  · rw [if_neg h1]
    refine ⟨hP, rfl, le_rfl, by omega, hc, ?_⟩
    rintro c' (rfl | rfl) hlt
    · exact hs.refl _
    · omega

/-- The element goes down as long as a child is greater: what was a heap but for it becomes one. -/
theorem sink_heap {n lo : ℕ} (hn : n ≤ nmemb) : ∀ {fuel r : ℕ} {s : σ}, P s → lo ≤ r →
    n ≤ r + fuel → HeapBut le (get s) n lo r →
    P (sink cmp swap n fuel r s) ∧ Moves r n (get s) (get (sink cmp swap n fuel r s))
      ∧ Heap le (get (sink cmp swap n fuel r s)) n lo := by
  intro fuel
  induction fuel with
  | zero =>
    intro r s hP hlo hf hb
    refine ⟨hP, .refl _ _ _, ?_⟩
    intro i hi
    by_cases hir : i = r
    · intro c hc hlt
      omega
    · exact hb.dominates i hi hir
  | succ fuel ih =>
    intro r s hP hlo hf hb
    rw [sink]
    by_cases hc : 2 * r + 1 < n
    · rw [if_pos hc]
      obtain ⟨hP', hget, h1, h2, h3, hmax⟩ := greaterChild_spec hs hP hn hc
      rcases hg : greaterChild cmp n (2 * r + 1) s with ⟨c, s₁⟩
      rw [hg] at hP' hget h1 h2 h3 hmax
      simp only at hP' hget h1 h2 h3 hmax ⊢
      have hr' : r < nmemb := by omega
      have hc' : c < nmemb := by omega
      have hle := hs.cmp_le hr' hc' hP'
      have hP₂ := hs.cmp_inv hr' hc' hP'
      have hget₂ := hs.cmp_get hr' hc' hP'
      rcases hcmp : cmp r c s₁ with ⟨v, s₂⟩
      rw [hcmp] at hle hP₂ hget₂
      simp only at hle hP₂ hget₂ ⊢
      rw [hget] at hle hget₂
      have hch : ∀ {c'}, c' = 2 * r + 1 ∨ c' = 2 * r + 2 → c' < n → le (get s c') (get s c) :=
        fun h => hmax _ h
      by_cases hv : v > 0
      · -- no child is greater
        rw [if_pos hv, hget₂]
        refine ⟨hP₂, .refl _ _ _, ?_⟩
        intro i hi
        by_cases hir : i = r
        · rw [hir]
          intro c' hc' hlt
          have hcr : le (get s c) (get s r) := (hs.total _ _).resolve_right (hle.not.1 (by omega))
          exact hs.trans (hch hc' hlt) hcr
        · exact hb.dominates i hi hir
      · rw [if_neg hv]
        have hrc : le (get s r) (get s c) := hle.1 (by omega)
        have hswap := hs.swap_get hr' hc' hP₂
        rw [hget₂] at hswap
        have hmv : Moves r n (get s) (get (swap r c s₂)) := by
          rw [hswap]
          exact .of_swap _ ⟨le_rfl, by omega⟩ ⟨by omega, h3⟩
        have hbut : HeapBut le (get (swap r c s₂)) n lo c := by
          rw [hswap]
          exact hb.sunk hlo (by omega) h3 hrc fun c' hc' hlt => hch hc' hlt
        obtain ⟨hP₃, hmv', hheap⟩ := ih (hs.swap_inv hr' hc' hP₂) (by omega) (by omega) hbut
        exact ⟨hP₃, hmv.trans (hmv'.mono (by omega) le_rfl), hheap⟩
    · rw [if_neg hc]
      refine ⟨hP, .refl _ _ _, ?_⟩
      intro i hi
      by_cases hir : i = r
      · intro c hc hlt
        omega
      · exact hb.dominates i hi hir

/-! ### The two loops -/

theorem heapify_heap {n : ℕ} (hn : n ≤ nmemb) : ∀ {i : ℕ} {s : σ}, P s → Heap le (get s) n i →
    P (heapify cmp swap n i s) ∧ Moves 0 n (get s) (get (heapify cmp swap n i s))
      ∧ Heap le (get (heapify cmp swap n i s)) n 0 := by
  intro i
  induction i with
  | zero =>
    intro s hP hheap
    exact ⟨hP, .refl _ _ _, hheap⟩
  | succ i ih =>
    intro s hP hheap
    have hbut : HeapBut le (get s) n i i :=
      ⟨fun j hj hji => hheap j (by omega), fun p hp hip => by omega⟩
    obtain ⟨hP', hmv, hheap'⟩ := sink_heap hs hn hP le_rfl (show n ≤ i + n by omega) hbut
    obtain ⟨hP'', hmv', hheap''⟩ := ih hP' hheap'
    exact ⟨hP'', (hmv.mono (by omega) le_rfl).trans hmv', hheap''⟩

/-- The first element of a heap is the greatest. -/
theorem Heap.le_root {f : ℕ → β} {n : ℕ} (h : Heap le f n 0) : ∀ i, i < n → le (f i) (f 0) := by
  intro i
  induction i using Nat.strong_induction_on with
  | _ i ih =>
    intro hi
    by_cases h0 : i = 0
    · rw [h0]
      exact hs.refl _
    · have hp := h ((i - 1) / 2) (Nat.zero_le _) i (by omega) hi
      exact hs.trans hp (ih _ (by omega) (by omega))

/-- The elements from `n` on are in order, and none before them is greater. -/
def SortedFrom (le : β → β → Prop) (f : ℕ → β) (n nmemb : ℕ) : Prop :=
  ∀ i j, i < j → n ≤ j → j < nmemb → le (f i) (f j)

theorem extract_sorted : ∀ {i : ℕ} {s : σ}, i < nmemb → P s → Heap le (get s) (i + 1) 0 →
    SortedFrom le (get s) (i + 1) nmemb →
    P (extract cmp swap i s) ∧ Moves 0 nmemb (get s) (get (extract cmp swap i s))
      ∧ SortedFrom le (get (extract cmp swap i s)) 1 nmemb := by
  intro i
  induction i with
  | zero =>
    intro s _ hP _ hsorted
    exact ⟨hP, .refl _ _ _, hsorted⟩
  | succ i ih =>
    intro s hi hP hheap hsorted
    rw [extract]
    have h0 : 0 < nmemb := by omega
    have hget := hs.swap_get h0 hi hP
    have hat : ∀ k, get (swap 0 (i + 1) s) k
        = if k = 0 then get s (i + 1) else if k = i + 1 then get s 0 else get s k := by
      intro k
      rw [hget, Function.comp_apply, Equiv.swap_apply_def]
      split_ifs <;> rfl
    have hmv₀ : Moves 0 (i + 2) (get s) (get (swap 0 (i + 1) s)) := by
      rw [hget]
      exact .of_swap _ ⟨le_rfl, by omega⟩ ⟨by omega, by omega⟩
    have hbut : HeapBut le (get (swap 0 (i + 1) s)) (i + 1) 0 0 := by
      constructor
      · intro j _ hj c hc hlt
        rw [hat c, hat j, if_neg (by omega), if_neg (by omega), if_neg (by omega),
          if_neg (by omega)]
        exact hheap j (Nat.zero_le _) c hc (by omega)
      · intro p _ hp
        omega
    obtain ⟨hP', hmv, hheap'⟩ :=
      sink_heap hs (n := i + 1) (by omega) (hs.swap_inv h0 hi hP) le_rfl
        (show i + 1 ≤ 0 + (i + 1) by omega) hbut
    have hmv₁ := hmv₀.trans (hmv.mono le_rfl (by omega))
    obtain ⟨hP'', hmv', hsorted'⟩ := ih (by omega) hP' hheap' (by
      intro k j hkj hj hjn
      have hjeq : get (sink cmp swap (i + 1) (i + 1) 0 (swap 0 (i + 1) s)) j
          = get (swap 0 (i + 1) s) j := hmv.eq (by omega)
      rw [hjeq, hat j, if_neg (by omega)]
      by_cases hj' : j = i + 1
      · -- the greatest of the first `i + 2`
        rw [if_pos hj']
        obtain ⟨m, hm, hmeq⟩ := hmv₁.exists_eq (show k < i + 2 by omega)
        rw [hmeq]
        exact hheap.le_root hs m hm
      · rw [if_neg hj']
        by_cases hk : k < i + 2
        · obtain ⟨m, hm, hmeq⟩ := hmv₁.exists_eq hk
          rw [hmeq]
          exact hsorted m j (by omega) (by omega) hjn
        · have hkeq := hmv₁.eq (k := k) (by omega)
          rw [hkeq]
          exact hsorted k j hkj (by omega) hjn)
    exact ⟨hP'', (hmv₁.mono le_rfl (by omega)).trans hmv', hsorted'⟩

/-- The result is a rearrangement in order. -/
theorem rqsortIdx_sorted {s : σ} (hP : P s) :
    P (rqsortIdx cmp swap nmemb s)
      ∧ Moves 0 nmemb (get s) (get (rqsortIdx cmp swap nmemb s))
      ∧ SortedFrom le (get (rqsortIdx cmp swap nmemb s)) 1 nmemb := by
  unfold rqsortIdx
  by_cases hn : nmemb > 1
  · rw [if_pos hn]
    obtain ⟨hP', hmv, hheap⟩ := heapify_heap hs le_rfl (i := nmemb / 2) hP (by
      intro i hi c hc hlt
      omega)
    have hn' : nmemb - 1 + 1 = nmemb := by omega
    obtain ⟨hP'', hmv', hsorted⟩ := extract_sorted hs (i := nmemb - 1) (by omega) hP'
      (by rwa [hn']) (by
        intro i j _ hj hjn
        omega)
    exact ⟨hP'', hmv.trans hmv', hsorted⟩
  · rw [if_neg hn]
    refine ⟨hP, .refl _ _ _, ?_⟩
    intro i j hij hj hjn
    omega

end Sink

end Qjs.HeapSort
