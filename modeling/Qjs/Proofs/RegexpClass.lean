import Qjs.Lib.Intervals
import Qjs.Proofs.HeapSort
import Qjs.Proofs.RegexpCode

/-!
# Regular expressions: character classes

`re_range_optimize` gives the normal list of intervals of the same characters, or of the other ones
(`reRangeOptimize_spec`), and the instruction for it accepts these (`matchOp_reEmitRange`). What is
emitted for an item has the characters that the item denotes.
-/

namespace Qjs.Regexp

open Intervals HeapSort

variable {l : List (ℕ × ℕ)} {c : ℕ}

/-! ### Bounds and intervals -/

@[simp] theorem intervals_bounds : ∀ l : List (ℕ × ℕ), intervals (bounds l) = l
  | [] => rfl
  | (lo, hi) :: l => by
    change (lo, hi) :: intervals (bounds l) = _
    rw [intervals_bounds l]

theorem bounds_cons (x : ℕ × ℕ) (l : List (ℕ × ℕ)) : bounds (x :: l) = x.1 :: x.2 :: bounds l := rfl

@[simp] theorem length_bounds : ∀ l : List (ℕ × ℕ), (bounds l).length = 2 * l.length
  | [] => rfl
  | x :: l => by
    rw [bounds_cons, List.length_cons, List.length_cons, length_bounds l, List.length_cons]
    omega

theorem intervals_append : ∀ {t : List ℕ} (t' : List ℕ), t.length % 2 = 0 →
    intervals (t ++ t') = intervals t ++ intervals t'
  | [], _, _ => rfl
  | [_], _, h => by simp at h
  | lo :: hi :: t, t', h => by
    have h' : t.length % 2 = 0 := by
      simp only [List.length_cons] at h
      omega
    change (lo, hi) :: intervals (t ++ t') = _
    rw [intervals_append t' h']
    rfl

/-- The gaps, as bounds. -/
theorem intervals_gaps (top : ℕ) : ∀ (lo : ℕ) (l : List (ℕ × ℕ)),
    intervals (lo :: bounds l ++ [top]) = gaps top lo l
  | lo, [] => rfl
  | lo, (a, b) :: l => by
    change (lo, a) :: intervals (b :: bounds l ++ [top]) = _
    rw [intervals_gaps top b l]
    rfl

theorem getD_bounds : ∀ (l : List (ℕ × ℕ)) (i : ℕ),
    (bounds l).getD (2 * i) 0 = (l.getD i (0, 0)).1
      ∧ (bounds l).getD (2 * i + 1) 0 = (l.getD i (0, 0)).2
  | [], i => by simp [bounds]
  | x :: l, 0 => by simp [bounds_cons]
  | x :: l, i + 1 => by
    obtain ⟨h1, h2⟩ := getD_bounds l i
    rw [bounds_cons, Nat.mul_succ, List.getD_cons_succ, List.getD_cons_succ, List.getD_cons_succ,
      List.getD_cons_succ, List.getD_cons_succ, h1, h2]
    exact ⟨rfl, rfl⟩

/-! ### Sorting and merging -/

theorem rangeSort_sortable (n : ℕ) :
    Sortable rangeSortCmp rangeSortSwap (fun tab i => tab.getD i (0, 0))
      (fun x y : ℕ × ℕ => x.1 ≤ y.1) (fun tab => tab.length = n ∧ ∀ x ∈ tab, x.1 < 2 ^ 31) n where
  total := fun a b => le_total a.1 b.1
  trans := fun h h' => h.trans h'
  cmp_inv := fun _ _ h => h
  cmp_get := fun _ _ _ => rfl
  cmp_le := by
    intro i j tab hi hj h
    have hlt : ∀ {k}, k < n → (tab.getD k (0, 0)).1 < 2 ^ 31 := by
      intro k hk
      rw [List.getD_eq_getElem _ _ (by omega)]
      exact h.2 _ (List.getElem_mem _)
    have h1 := hlt hi
    have h2 := hlt hj
    simp only [rangeSortCmp]
    rw [toI32_toU32 (by omega) (by omega)]
    omega
  swap_inv := by
    intro i j tab hi hj h
    refine ⟨by simp [rangeSortSwap, h.1], ?_⟩
    intro x hx
    have hmem : ∀ {k}, k < n → tab.getD k (0, 0) ∈ tab := by
      intro k hk
      rw [List.getD_eq_getElem _ _ (by omega)]
      exact List.getElem_mem _
    rcases List.mem_or_eq_of_mem_set hx with hx | rfl
    · rcases List.mem_or_eq_of_mem_set hx with hx | rfl
      · exact h.2 x hx
      · exact h.2 _ (hmem hj)
    · exact h.2 _ (hmem hi)
  swap_get := by
    intro i j tab hi hj h
    funext k
    have hlen := h.1
    simp only [rangeSortSwap, Function.comp_apply, Equiv.swap_apply_def]
    rw [List.getD_eq_getElem?_getD, List.getElem?_set, List.getElem?_set, List.length_set]
    by_cases hkj : k = j
    · subst hkj
      by_cases hki : k = i
      · rw [if_pos rfl, if_pos (by omega), if_pos hki, hki]
        rfl
      · rw [if_pos rfl, if_pos (by omega), if_neg hki, if_pos rfl]
        rfl
    · rw [if_neg (fun he => hkj he.symm), if_neg hkj]
      by_cases hki : k = i
      · rw [if_pos hki.symm, if_pos (by omega), if_pos hki]
        rfl
      · rw [if_neg (fun he => hki he.symm), if_neg hki, ← List.getD_eq_getElem?_getD]

theorem map_range_getD (l : List (ℕ × ℕ)) :
    (List.range l.length).map (fun i => l.getD i (0, 0)) = l := by
  refine List.ext_getElem (by simp) ?_
  intro i h1 h2
  rw [List.getElem_map, List.getElem_range, List.getD_eq_getElem _ _ h2]

/-- The intervals in the order of their starts. -/
theorem rangeSort_spec (h : ∀ x ∈ l, x.1 < 2 ^ 31) :
    (rqsortIdx rangeSortCmp rangeSortSwap l.length l).Perm l
      ∧ Sorted (rqsortIdx rangeSortCmp rangeSortSwap l.length l) := by
  obtain ⟨hP, hmv, hsorted⟩ := rqsortIdx_sorted (rangeSort_sortable l.length) ⟨rfl, h⟩
  have hperm := hmv.perm
  have hlen := hP.1
  constructor
  · rw [map_range_getD l] at hperm
    have hself := map_range_getD (rqsortIdx rangeSortCmp rangeSortSwap l.length l)
    rw [hlen] at hself
    rwa [hself] at hperm
  · refine List.pairwise_iff_getElem.2 ?_
    intro i j hi hj hij
    have hle := hsorted i j hij (by omega) (by omega)
    simp only at hle
    rwa [List.getD_eq_getElem _ _ hi, List.getD_eq_getElem _ _ hj] at hle

/-- What is left starts where something started. -/
theorem compressFrom_start : ∀ {l : List (ℕ × ℕ)} {lo hi : ℕ}, ∀ x ∈ compressFrom lo hi l,
    x.1 = lo ∨ ∃ y ∈ l, y.1 = x.1
  | [], lo, hi, x, hx => by
    rw [compressFrom] at hx
    split_ifs at hx
    · cases hx
    · rw [List.mem_singleton.1 hx]
      exact .inl rfl
  | (lo2, hi2) :: l, lo, hi, x, hx => by
    have hlater : x ∈ compressFrom lo2 hi2 l → ∃ y ∈ (lo2, hi2) :: l, y.1 = x.1 := by
      intro hx
      rcases compressFrom_start x hx with h | ⟨y, hy, h⟩
      · exact ⟨_, List.mem_cons_self, h.symm⟩
      · exact ⟨y, List.mem_cons_of_mem _ hy, h⟩
    rw [compressFrom] at hx
    split_ifs at hx
    · exact .inr (hlater hx)
    · rcases List.mem_cons.1 hx with rfl | hx
      · exact .inl rfl
      · exact .inr (hlater hx)
    · rcases compressFrom_start x hx with h | ⟨y, hy, h⟩
      · exact .inl h
      · exact .inr ⟨y, List.mem_cons_of_mem _ hy, h⟩

theorem compressFrom_spec : ∀ {l : List (ℕ × ℕ)} {lo hi : ℕ}, Sorted ((lo, hi) :: l) →
    Valid ((lo, hi) :: l) →
    Normal (compressFrom lo hi l) ∧ ∀ c, Mem (compressFrom lo hi l) c ↔ Mem ((lo, hi) :: l) c
  | [], lo, hi, _, hv => by
    have hle := hv _ List.mem_cons_self
    rw [compressFrom]
    split_ifs with h
    · refine ⟨.nil, fun c => ?_⟩
      simp only [mem_nil, mem_cons, or_false, false_iff]
      omega
    · refine ⟨⟨fun x hx => ?_, List.pairwise_singleton _ _⟩, fun _ => Iff.rfl⟩
      rw [List.mem_singleton.1 hx]
      exact lt_of_le_of_ne hle h
  | (lo2, hi2) :: l, lo, hi, hs, hv => by
    have hs' := List.pairwise_cons.1 hs
    have hv' : Valid ((lo2, hi2) :: l) := fun x hx => hv x (List.mem_cons_of_mem _ hx)
    have hle := hv (lo, hi) List.mem_cons_self
    have hle2 := hv' (lo2, hi2) List.mem_cons_self
    have hlo : lo ≤ lo2 := hs'.1 _ List.mem_cons_self
    simp only at hle hle2
    rw [compressFrom]
    split_ifs with h1 h2
    · -- an empty interval
      obtain ⟨hn, hm⟩ := compressFrom_spec hs'.2 hv'
      refine ⟨hn, fun c => ?_⟩
      rw [hm, @mem_cons _ lo]
      constructor
      · exact .inr
      · rintro (h | h)
        · omega
        · exact h
    · -- apart from the next one
      obtain ⟨hn, hm⟩ := compressFrom_spec hs'.2 hv'
      refine ⟨⟨?_, List.pairwise_cons.2 ⟨?_, hn.apart⟩⟩, fun c => by
        rw [mem_cons, hm, @mem_cons _ lo]⟩
      · intro x hx
        rcases List.mem_cons.1 hx with rfl | hx
        · exact lt_of_le_of_ne hle h1
        · exact hn.nonempty x hx
      · intro x hx
        simp only
        rcases compressFrom_start x hx with h | ⟨y, hy, hyx⟩
        · omega
        · have h3 : lo2 ≤ y.1 := (List.pairwise_cons.1 hs'.2).1 y hy
          omega
    · -- joined with the next one
      obtain ⟨hn, hm⟩ := @compressFrom_spec l lo (max hi hi2)
        (List.pairwise_cons.2 ⟨fun x hx => hs'.1 x (List.mem_cons_of_mem _ hx),
          (List.pairwise_cons.1 hs'.2).2⟩)
        (fun x hx => by
          rcases List.mem_cons.1 hx with rfl | hx
          · exact hle.trans (le_max_left _ _)
          · exact hv' x (List.mem_cons_of_mem _ hx))
      refine ⟨hn, fun c => ?_⟩
      rw [hm, mem_cons, mem_cons, mem_cons]
      have hunion : (lo ≤ c ∧ c < max hi hi2) ↔ (lo ≤ c ∧ c < hi) ∨ (lo2 ≤ c ∧ c < hi2) := by
        rw [lt_max_iff]
        omega
      rw [hunion, or_assoc]

/-- Intervals in order become a normal list of the same elements. -/
theorem rangeCompress_spec (hs : Sorted l) (hv : Valid l) :
    Normal (rangeCompress l) ∧ ∀ c, Mem (rangeCompress l) c ↔ Mem l c := by
  rcases l with _ | ⟨⟨lo, hi⟩, l⟩
  · exact ⟨.nil, fun _ => Iff.rfl⟩
  · exact compressFrom_spec hs hv

/-- The same elements have the same bound. -/
theorem end_le_of_mem {l' : List (ℕ × ℕ)} {top : ℕ} (hn : Normal l) (hm : ∀ c, Mem l c → Mem l' c)
    (htop : ∀ x ∈ l', x.2 ≤ top) : ∀ x ∈ l, x.2 ≤ top := by
  intro x hx
  have hlt := hn.nonempty x hx
  obtain ⟨y, hy, _, h⟩ := hm (x.2 - 1) ⟨x, hx, by omega, by omega⟩
  have := htop y hy
  omega

/-- The list of intervals is normal, with the characters of the bounds or the other ones. -/
theorem reRangeOptimize_spec {tab : List ℕ} (hv : Valid (intervals tab))
    (htop : ∀ x ∈ intervals tab, x.2 ≤ 0x110000) (invert : Bool) :
    Normal (reRangeOptimize tab invert)
      ∧ (∀ x ∈ reRangeOptimize tab invert, x.2 ≤ 0x110000)
      ∧ ∀ c < 0x110000, Mem (reRangeOptimize tab invert) c ↔
        (if invert then ¬ Mem (intervals tab) c else Mem (intervals tab) c) := by
  have hlt : ∀ x ∈ intervals tab, x.1 < 2 ^ 31 := by
    intro x hx
    have h1 := hv x hx
    have h2 := htop x hx
    omega
  obtain ⟨hperm, hsorted⟩ := rangeSort_spec hlt
  obtain ⟨hn, hm⟩ := rangeCompress_spec hsorted fun x hx => hv x (hperm.mem_iff.1 hx)
  have hmem : ∀ c, Mem (rangeCompress (rqsortIdx rangeSortCmp rangeSortSwap (intervals tab).length
      (intervals tab))) c ↔ Mem (intervals tab) c := fun c => (hm c).trans (mem_of_perm hperm)
  have hend := end_le_of_mem hn (fun c => (hmem c).1) htop
  unfold reRangeOptimize
  rcases invert with _ | _
  · simp only [Bool.false_eq_true, if_false]
    exact ⟨hn, hend, fun c _ => hmem c⟩
  · simp only [if_true]
    rw [intervals_gaps]
    have hbound : ∀ x ∈ rangeCompress (rqsortIdx rangeSortCmp rangeSortSwap (intervals tab).length
        (intervals tab)), 0 ≤ x.1 ∧ x.2 ≤ 0x110000 := fun x hx => ⟨Nat.zero_le _, hend x hx⟩
    have hvalid := gaps_valid hn (Nat.zero_le _) hbound
    obtain ⟨hn', hm'⟩ := rangeCompress_spec (gaps_sorted hn fun x _ => Nat.zero_le _) hvalid
    have hgaps := fun c => @mem_gaps 0x110000 c _ _ hn hbound
    refine ⟨hn', ?_, fun c hc => ?_⟩
    · intro x hx
      have hlt := hn'.nonempty x hx
      have := (hgaps _).1 ((hm' (x.2 - 1)).1 ⟨x, hx, by omega, by omega⟩)
      omega
    · rw [hm', hgaps, hmem]
      exact ⟨fun h => h.2.2, fun h => ⟨Nat.zero_le _, hc, h⟩⟩

/-! ### Searching -/

/-- The search finds the interval of a character between its bounds. -/
theorem rangeSearch_iff (hn : Normal l) (hlen : l.length < 2 ^ 31)
    (hlow : 0 < l.length → (l.getD 0 (0, 0)).1 ≤ c) : ∀ {fuel lo hi : ℕ},
    hi < l.length → hi + 1 ≤ lo + fuel →
    (∀ i < l.length, (l.getD i (0, 0)).1 ≤ c → c < (l.getD i (0, 0)).2 → lo ≤ i ∧ i ≤ hi) →
    (rangeSearch c (bounds l) fuel lo hi = true ↔ Mem l c) := by
  have hfound : ∀ {lo hi : ℕ}, hi < lo →
      (∀ i < l.length, (l.getD i (0, 0)).1 ≤ c → c < (l.getD i (0, 0)).2 → lo ≤ i ∧ i ≤ hi) →
      ¬ Mem l c := by
    intro lo hi hlt hin hmem
    obtain ⟨i, hi', h1, h2⟩ := mem_iff_idx.1 hmem
    have := hin i hi' h1 h2
    omega
  intro fuel
  induction fuel with
  | zero =>
    intro lo hi hhi hf hin
    have := hfound (by omega) hin
    simp [rangeSearch, this]
  | succ fuel ih =>
    intro lo hi hhi hf hin
    rw [rangeSearch]
    by_cases hle : lo ≤ hi
    · rw [if_pos hle]
      have hidx : (lo + hi) / 2 < l.length := by omega
      simp only [(getD_bounds l _).1, (getD_bounds l _).2]
      by_cases h1 : c < (l.getD ((lo + hi) / 2) (0, 0)).1
      · rw [if_pos h1]
        have hpos : 0 < (lo + hi) / 2 := by
          by_contra h0
          have h0' : (lo + hi) / 2 = 0 := by omega
          rw [h0'] at h1
          have := hlow (by omega)
          omega
        have hsub : toU32 (((lo + hi) / 2 : ℕ) - 1) = (lo + hi) / 2 - 1 := by
          unfold toU32
          omega
        rw [hsub]
        refine ih (by omega) (by omega) fun i hi' h2 h3 => ⟨(hin i hi' h2 h3).1, ?_⟩
        by_contra hgt
        rcases eq_or_lt_of_le (show (lo + hi) / 2 ≤ i by omega) with rfl | hlt
        · omega
        · have h4 := hn.end_lt_of_idx hlt hi'
          have h5 := hn.nonempty (l.getD ((lo + hi) / 2) (0, 0)) (by
            rw [List.getD_eq_getElem _ _ hidx]
            exact List.getElem_mem _)
          omega
      · rw [if_neg h1]
        by_cases h2 : (l.getD ((lo + hi) / 2) (0, 0)).2 ≤ c
        · rw [if_pos h2]
          refine ih (by omega) (by omega) fun i hi' h3 h4 => ⟨?_, (hin i hi' h3 h4).2⟩
          by_contra hlt
          rcases eq_or_lt_of_le (show i ≤ (lo + hi) / 2 by omega) with rfl | hlt
          · omega
          · have h5 := hn.end_lt_of_idx hlt hidx
            have h6 := hn.nonempty (l.getD ((lo + hi) / 2) (0, 0)) (by
              rw [List.getD_eq_getElem _ _ hidx]
              exact List.getElem_mem _)
            omega
        · rw [if_neg h2]
          simp only [true_iff]
          exact mem_iff_idx.2 ⟨_, hidx, by omega, by omega⟩
    · rw [if_neg hle]
      have := hfound (by omega) hin
      simp [this]

theorem inRange_iff (hn : Normal l) (hlen : l.length < 2 ^ 31) :
    inRange c (bounds l) = true ↔ Mem l c := by
  unfold inRange
  rw [length_bounds, Nat.mul_div_cancel_left _ (by omega)]
  by_cases h0 : l.length = 0
  · rw [if_pos h0, List.length_eq_zero_iff.1 h0]
    simp
  rw [if_neg h0]
  have hlow := (getD_bounds l 0).1
  have hhigh := (getD_bounds l (l.length - 1)).2
  rw [Nat.mul_zero] at hlow
  rw [hlow, hhigh]
  have hle_of_mem : ∀ i < l.length, (l.getD 0 (0, 0)).1 ≤ (l.getD i (0, 0)).1
      ∧ (l.getD i (0, 0)).2 ≤ (l.getD (l.length - 1) (0, 0)).2 := by
    intro i hi
    have hne : ∀ {j}, j < l.length → (l.getD j (0, 0)).1 < (l.getD j (0, 0)).2 := by
      intro j hj
      rw [List.getD_eq_getElem _ _ hj]
      exact hn.nonempty _ (List.getElem_mem _)
    constructor
    · rcases Nat.eq_zero_or_pos i with rfl | h
      · exact le_rfl
      · have h1 := hn.end_lt_of_idx h hi
        have h2 := hne (show 0 < l.length by omega)
        omega
    · rcases eq_or_lt_of_le (show i ≤ l.length - 1 by omega) with rfl | h
      · exact le_rfl
      · have h1 := hn.end_lt_of_idx h (by omega)
        have h2 := hne (show l.length - 1 < l.length by omega)
        omega
  by_cases h1 : c < (l.getD 0 (0, 0)).1
  · rw [if_pos h1]
    simp only [Bool.false_eq_true, false_iff]
    intro hmem
    obtain ⟨i, hi, h2, _⟩ := mem_iff_idx.1 hmem
    have := hle_of_mem i hi
    omega
  rw [if_neg h1]
  by_cases h2 : (l.getD (l.length - 1) (0, 0)).2 ≤ c
  · rw [if_pos h2]
    simp only [Bool.false_eq_true, false_iff]
    intro hmem
    obtain ⟨i, hi, _, h3⟩ := mem_iff_idx.1 hmem
    have := hle_of_mem i hi
    omega
  rw [if_neg h2]
  exact rangeSearch_iff hn hlen (fun _ => by omega) (by omega) (by omega)
    fun i hi _ _ => ⟨Nat.zero_le _, by omega⟩

/-- A bound in 8 bits. -/
def bound8 (b : ℕ) : ℕ := (if b = 0x110000 then 0xff else b) % 256

theorem bound8_of_lt {b : ℕ} (h : b < 254) : bound8 b = b := by
  rw [bound8, if_neg (by omega)]
  omega

/-- The instruction for a normal list accepts its elements. -/
def accepts (c : ℕ) : Op → Bool
  | .range8 tab => inRange8 c tab
  | .range tab => inRange c tab
  | _ => false

/-- The last bound may be the end of all characters. -/
theorem inRange8_iff : ∀ {l : List (ℕ × ℕ)}, Normal l → l ≠ [] → c < 0x110000 →
    (∀ x ∈ l, x.1 < 254 ∧ (x.2 < 254 ∨ x.2 = 0x110000)) →
    (inRange8 c ((bounds l).map bound8) = true ↔ Mem l c)
  | [], _, hne, _, _ => absurd rfl hne
  | [(lo, hi)], _, _, hc, h => by
    obtain ⟨h1, h2⟩ := h (lo, hi) List.mem_cons_self
    change (decide (bound8 lo ≤ c) && (decide (c < bound8 hi) || bound8 hi == 0xff)) = true ↔ _
    rw [bound8_of_lt h1, mem_cons]
    rcases h2 with h2 | h2
    · have h3 : hi < 254 := h2
      rw [bound8_of_lt h3]
      simp only [Bool.and_eq_true, Bool.or_eq_true, decide_eq_true_eq, beq_iff_eq, mem_nil,
        or_false]
      omega
    · have h3 : hi = 0x110000 := h2
      subst h3
      have h8 : bound8 0x110000 = 0xff := rfl
      rw [h8]
      simp only [beq_self_eq_true, Bool.or_true, Bool.and_true, decide_eq_true_eq, mem_nil,
        or_false]
      omega
  | (lo, hi) :: y :: l, hn, _, hc, h => by
    obtain ⟨h1, _⟩ := h (lo, hi) List.mem_cons_self
    have hy := h y (by simp)
    have hlt := hn.lt_start y List.mem_cons_self
    have ih := inRange8_iff (l := y :: l) hn.tail (by simp) hc
      fun x hx => h x (List.mem_cons_of_mem _ hx)
    change ((decide (bound8 lo ≤ c) && decide (c < bound8 hi))
      || inRange8 c ((bounds (y :: l)).map bound8)) = true ↔ _
    rw [bound8_of_lt h1, bound8_of_lt (by omega), Bool.or_eq_true, ih, @mem_cons _ lo]
    simp only [Bool.and_eq_true, decide_eq_true_eq]

/-- The instruction for the intervals of a class accepts their characters. -/
theorem reEmitRange_spec {pos : ℕ} {op : Op} (hn : Normal l) (htop : ∀ x ∈ l, x.2 ≤ 0x110000)
    (h : reEmitRange pos l = .ok op) :
    op.Plain 0 ∧ ∀ c < 0x110000, accepts c op = true ↔ Mem l c := by
  unfold reEmitRange at h
  simp only at h
  split_ifs at h with h1 h2
  · obtain ⟨h0, h16, hlast⟩ := h2
    cases h
    refine ⟨by simp [Op.Plain], fun c hc => ?_⟩
    have hl : 2 * l.length - 1 = 2 * (l.length - 1) + 1 := by omega
    have hl' : 2 * l.length - 2 = 2 * (l.length - 1) := by omega
    rw [hl, hl', (getD_bounds l _).1, (getD_bounds l _).2] at hlast
    refine inRange8_iff hn (by rintro rfl; simp at h0) hc ?_
    intro x hx
    obtain ⟨i, hi, rfl⟩ := List.getElem_of_mem hx
    have hne := hn.nonempty _ hx
    have htop' := htop _ hx
    rcases eq_or_lt_of_le (show i ≤ l.length - 1 by omega) with rfl | hlt
    · rw [List.getD_eq_getElem _ _ (by omega)] at hlast
      omega
    · have hend := hn.end_lt_of_idx hlt (by omega)
      rw [List.getD_eq_getElem _ _ hi] at hend
      have hne' := hn.nonempty (l.getD (l.length - 1) (0, 0)) (by
        rw [List.getD_eq_getElem _ _ (by omega)]
        exact List.getElem_mem _)
      omega
  · cases h
    refine ⟨⟨by simp, by simp; omega, ?_⟩, fun c _ => inRange_iff hn (by omega)⟩
    intro v hv
    obtain ⟨x, hx, hv⟩ := List.mem_flatMap.1 hv
    have h3 := hn.nonempty x hx
    have h4 := htop x hx
    simp only [List.mem_cons, List.not_mem_nil, or_false] at hv
    omega

end Qjs.Regexp
