import Qjs.GcMark

/-!
# The mark phase marks what is reachable

What keeps the argument together is an invariant on edges: an edge out of a marked block leads to a
marked block, or to a word that an entry of the mark stack has yet to scan. An overflow breaks it,
and a scan of the heap restores it block by block; `P` says which blocks are still to come.
-/

namespace Qjs.GcMark

open Reach

variable {n : ℕ} {h : Fin n → Block n} {cap : ℕ} {R D P : Fin n → Prop}
  {L L' : List (Word n)} {s : State n} {e : Entry n} {v : Word n} {i : Fin n}

/-- The words that an entry has yet to scan. -/
def Entry.rest (h : Fin n → Block n) : Entry n → List (Word n)
  | .block i => (h i).fields
  | .array i pos => (h i).arr.drop pos

/-- The invariant. The roots are `R`, those of `D` have been met, and the words of `L` are scanned
at the moment. -/
structure Inv (h : Fin n → Block n) (cap : ℕ) (R D P : Fin n → Prop) (L : List (Word n))
    (s : State n) : Prop where
  met : ∀ i, D i → i ∈ s.marked
  sound : ∀ i ∈ s.marked, Reachable (Points h) R i
  current : ∀ j, .block j ∈ L → Reachable (Points h) R j
  pending : ∀ e ∈ s.stack, ∀ j, .block j ∈ e.rest h → Reachable (Points h) R j
  covered : s.overflow = false → ∀ i ∈ s.marked, ¬P i → ∀ j, Points h i j →
    j ∈ s.marked ∨ .block j ∈ L ∨ ∃ e ∈ s.stack, .block j ∈ e.rest h
  space : words s.stack ≤ cap
  inside : s.outside = false

/-! ### Entries -/

@[simp] theorem words_nil : words ([] : List (Entry n)) = 0 := rfl

@[simp] theorem words_cons (e : Entry n) (l : List (Entry n)) :
    words (e :: l) = e.words + words l := by simp [words]

theorem scanned_of_not_hasReferences (hi : ¬(h i).hasReferences) : (h i).scanned = [] := by
  unfold Block.hasReferences at hi
  unfold Block.scanned Block.fields Block.arr
  split at hi <;> simp_all

theorem mem_scanned_firstEntry : v ∈ (firstEntry h i).rest h ↔ v ∈ (h i).scanned := by
  unfold firstEntry Block.scanned
  rcases hb : h i with _ | ⟨p, q, u⟩ | _ | _ | ⟨f1, f2, f3, f4, f5, f6, f7⟩ | arr | _ | w <;>
    simp [Entry.rest, hb, Block.fields, Block.arr]

theorem firstEntry_words_le : (firstEntry h i).words ≤ 2 := by
  unfold firstEntry
  split <;> simp [Entry.words]

theorem mem_drop_findIdx {j : Fin n} (l : List (Word n)) :
    Word.block j ∈ l.drop (l.findIdx jsIsPtr) ↔ Word.block j ∈ l := by
  induction l with
  | nil => simp
  | cons v l ih =>
    rw [List.findIdx_cons]
    rcases v with _ | _ | i
    · simpa [jsIsPtr] using ih
    all_goals simp [jsIsPtr]

/-- Words that are no pointers are skipped. -/
theorem mem_drop_skip {arr : List (Word n)} {pos : ℕ} {j : Fin n} :
    Word.block j ∈ arr.drop (skipNonPointers arr pos) ↔ Word.block j ∈ arr.drop pos := by
  rw [skipNonPointers, ← List.drop_drop]
  exact mem_drop_findIdx _

/-! ### Steps -/

theorem Inv.congr (hL : ∀ j, Word.block j ∈ L ↔ Word.block j ∈ L') (hs : Inv h cap R D P L s) :
    Inv h cap R D P L' s where
  met := hs.met
  sound := hs.sound
  current j hj := hs.current j ((hL j).2 hj)
  pending := hs.pending
  covered ho i hi hP j hj := by
    simpa only [hL] using hs.covered ho i hi hP j hj
  space := hs.space
  inside := hs.inside

/-- An entry that is pushed takes words over. -/
theorem Inv.push (hs : Inv h cap R D P (L ++ e.rest h) s) (hcap : words s.stack + e.words ≤ cap) :
    Inv h cap R D P L (s.push cap e) where
  met := hs.met
  sound := hs.sound
  current j hj := hs.current j (List.mem_append_left _ hj)
  pending e' he' j hj := by
    rcases List.mem_cons.1 he' with rfl | he'
    · exact hs.current j (List.mem_append_right _ hj)
    · exact hs.pending e' he' j hj
  covered ho i hi hP j hj := by
    rcases hs.covered ho i hi hP j hj with hm | hL | ⟨e', he', hr⟩
    · exact Or.inl hm
    · rcases List.mem_append.1 hL with hL | hL
      · exact Or.inr (Or.inl hL)
      · exact Or.inr (Or.inr ⟨e, List.mem_cons_self .., hL⟩)
    · exact Or.inr (Or.inr ⟨e', List.mem_cons_of_mem _ he', hr⟩)
  space := by
    simp only [State.push, words_cons]
    omega
  inside := by
    simp only [State.push, hs.inside, words_cons, Bool.false_or, decide_eq_false_iff_not]
    omega

/-- An entry that is popped leaves its words to be scanned. -/
theorem Inv.pop {rest : List (Entry n)} (hst : s.stack = e :: rest) (hs : Inv h cap R D P [] s) :
    Inv h cap R D P (e.rest h) s.pop ∧ words s.pop.stack + e.words ≤ cap := by
  have hspace := hs.space
  have hpop : s.pop.stack = rest := by simp [State.pop, hst]
  rw [hst, words_cons] at hspace
  refine ⟨⟨hs.met, hs.sound, ?_, ?_, ?_, ?_, hs.inside⟩, by rw [hpop]; omega⟩
  · exact hs.pending e (by simp [hst])
  · intro e' he'
    rw [hpop] at he'
    exact hs.pending e' (by simp [hst, he'])
  · intro ho i hi hP j hj
    rcases hs.covered ho i hi hP j hj with hm | hL | ⟨e', he', hr⟩
    · exact Or.inl hm
    · simp at hL
    · rw [hst] at he'
      rcases List.mem_cons.1 he' with rfl | he'
      · exact Or.inr (Or.inl hr)
      · exact Or.inr (Or.inr ⟨e', by rwa [hpop], hr⟩)
  · rw [hpop]
    omega

/-- A block is marked, and its words are to be scanned. -/
theorem Inv.mark (hs : Inv h cap R D P (.block i :: L) s)
    (hL' : ∀ j, Word.block j ∈ L' ↔ Points h i j) : Inv h cap R D P (L ++ L') (s.mark i) where
  met j hj := Finset.mem_insert_of_mem (hs.met j hj)
  sound j hj := by
    rcases Finset.mem_insert.1 hj with rfl | hj
    · exact hs.current j (List.mem_cons_self ..)
    · exact hs.sound j hj
  current j hj := by
    rcases List.mem_append.1 hj with hj | hj
    · exact hs.current j (List.mem_cons_of_mem _ hj)
    · exact (hs.current i (List.mem_cons_self ..)).tail ((hL' j).1 hj)
  pending := hs.pending
  covered ho k hk hP j hj := by
    rcases Finset.mem_insert.1 hk with rfl | hk
    · exact Or.inr (Or.inl (List.mem_append_right _ ((hL' j).2 hj)))
    rcases hs.covered ho k hk hP j hj with hm | hL | hst
    · exact Or.inl (Finset.mem_insert_of_mem hm)
    · rcases List.mem_cons.1 hL with he | hL
      · exact Or.inl (Finset.mem_insert.2 (Or.inl (Word.block.inj he)))
      · exact Or.inr (Or.inl (List.mem_append_left _ hL))
    · exact Or.inr (Or.inr hst)
  space := hs.space
  inside := hs.inside

/-- After an overflow nothing is claimed about edges. -/
theorem Inv.overflow (hs : Inv h cap R D P (L ++ L') s) :
    Inv h cap R D P L { s with overflow := true } where
  met := hs.met
  sound := hs.sound
  current j hj := hs.current j (List.mem_append_left _ hj)
  pending := hs.pending
  covered ho := by simp at ho
  space := hs.space
  inside := hs.inside

theorem Inv.marked (hs : Inv h cap R D P (.block i :: L) s) (hi : i ∈ s.marked) :
    Inv h cap R D P L s where
  met := hs.met
  sound := hs.sound
  current j hj := hs.current j (List.mem_cons_of_mem _ hj)
  pending := hs.pending
  covered ho k hk hP j hj := by
    rcases hs.covered ho k hk hP j hj with hm | hL | hst
    · exact Or.inl hm
    · rcases List.mem_cons.1 hL with he | hL
      · exact Or.inl (Word.block.inj he ▸ hi)
      · exact Or.inr (Or.inl hL)
    · exact Or.inr (Or.inr hst)
  space := hs.space
  inside := hs.inside

theorem gcMark_inv (hs : Inv h cap R D P (v :: L) s) : Inv h cap R D P L (gcMark h cap s v) := by
  rcases v with _ | _ | i
  · exact hs.congr (by simp)
  · exact hs.congr (by simp)
  by_cases hi : i ∈ s.marked
  · rw [gcMark, if_pos hi]
    exact hs.marked hi
  simp only [gcMark, if_neg hi]
  have hm : Inv h cap R D P (L ++ (firstEntry h i).rest h) (s.mark i) :=
    hs.mark fun j => mem_scanned_firstEntry
  by_cases hr : (h i).hasReferences
  · rw [if_pos hr]
    split_ifs with hroom
    · exact hm.overflow
    · refine hm.push ?_
      have hspace := hs.space
      have hpos : 0 < (firstEntry h i).words := by
        rcases firstEntry h i with _ | ⟨_, _⟩ <;> simp [Entry.words]
      simp only [State.mark] at hroom ⊢
      omega
  · rw [if_neg hr]
    have hnone := scanned_of_not_hasReferences hr
    exact hm.congr fun j => by simp [mem_scanned_firstEntry, hnone]

theorem foldl_gcMark_inv (l : List (Word n)) : ∀ {s : State n}, Inv h cap R D P (l ++ L) s →
    Inv h cap R D P L (l.foldl (gcMark h cap) s) := by
  induction l with
  | nil => exact fun hs => hs
  | cons v l ih => exact fun hs => ih (gcMark_inv hs)

/-- The words of an entry are scanned, or those of an array that are left go back on the stack. -/
theorem scanEntry_inv (hs : Inv h cap R D P (e.rest h) s) (hcap : words s.stack + e.words ≤ cap) :
    Inv h cap R D P [] (scanEntry h cap s e) := by
  rcases e with i | ⟨i, pos⟩
  · exact foldl_gcMark_inv _ (by simpa [Entry.rest] using hs)
  replace hs : Inv h cap R D P ((h i).arr.drop (skipNonPointers (h i).arr pos)) s :=
    hs.congr fun j => mem_drop_skip.symm
  simp only [scanEntry]
  generalize skipNonPointers (h i).arr pos = q at hs ⊢
  by_cases hq : q < (h i).arr.length
  · rw [if_pos hq]
    rw [List.drop_eq_getElem_cons hq] at hs
    have hget : (h i).arr.getD q .other = (h i).arr[q] := by simp [List.getD, hq]
    rw [hget]
    by_cases hq' : q + 1 < (h i).arr.length
    · rw [if_pos hq']
      exact gcMark_inv (hs.push (L := [(h i).arr[q]]) (e := .array i (q + 1)) hcap)
    · rw [if_neg hq']
      rw [List.drop_of_length_le (by omega)] at hs
      exact gcMark_inv hs
  · rw [if_neg hq]
    rwa [List.drop_of_length_le (by omega)] at hs

theorem gcMarkFlush_inv (hs : Inv h cap R D P [] s) :
    Inv h cap R D P [] (gcMarkFlush h cap s) ∧ (gcMarkFlush h cap s).stack = [] := by
  induction s using gcMarkFlush.induct h cap with
  | case1 s hst =>
    rw [gcMarkFlush.eq_def]
    split
    · exact ⟨hs, hst⟩
    · simp_all
  | case2 s e rest hst ih =>
    rw [gcMarkFlush.eq_def]
    split
    · simp_all
    · rename_i e' rest' hst'
      obtain rfl : e = e' := (List.cons.inj (hst.symm.trans hst')).1
      obtain ⟨hp, hcap⟩ := hs.pop hst
      exact ih (scanEntry_inv hp hcap)

/-! ### The roots and the heap -/

/-- The loops leave the mark stack empty. -/
def Idle (h : Fin n → Block n) (cap : ℕ) (R D P : Fin n → Prop) (s : State n) : Prop :=
  Inv h cap R D P [] s ∧ s.stack = []

theorem gcMark_marks (h : Fin n → Block n) (cap : ℕ) (s : State n) (i : Fin n) :
    i ∈ (gcMark h cap s (.block i)).marked := by
  by_cases hi : i ∈ s.marked
  · rwa [gcMark, if_pos hi]
  · simp only [gcMark, if_neg hi]
    split_ifs <;> exact Finset.mem_insert_self ..

theorem gcMark_marked_subset (h : Fin n → Block n) (cap : ℕ) (s : State n) (v : Word n) :
    s.marked ⊆ (gcMark h cap s v).marked := by
  rcases v with _ | _ | i
  · exact Finset.Subset.refl _
  · exact Finset.Subset.refl _
  by_cases hi : i ∈ s.marked
  · rw [gcMark, if_pos hi]
  · simp only [gcMark, if_neg hi]
    split_ifs <;> exact Finset.subset_insert ..

theorem gcMarkRoot_idle (hv : ∀ i, v = .block i → R i) (hs : Idle h cap R D P s) :
    Idle h cap R (fun i => D i ∨ v = .block i) P (gcMarkRoot h cap s v) := by
  have hcur : Inv h cap R D P [v] s :=
    { hs.1 with
      current := fun j hj => .root (hv j (List.mem_singleton.1 hj).symm)
      covered := fun ho i hi hP j hj => by
        rcases hs.1.covered ho i hi hP j hj with hm | hL | hst
        · exact Or.inl hm
        · simp at hL
        · exact Or.inr (Or.inr hst) }
  refine gcMarkFlush_inv { gcMark_inv hcur with met := ?_ }
  rintro i (hi | rfl)
  · exact gcMark_marked_subset h cap s v (hs.1.met i hi)
  · exact gcMark_marks h cap s i

theorem foldl_gcMarkRoot_idle (l : List (Word n)) : ∀ {D : Fin n → Prop} {s : State n},
    (∀ i, Word.block i ∈ l → R i) → Idle h cap R D P s →
    Idle h cap R (fun i => D i ∨ Word.block i ∈ l) P (l.foldl (gcMarkRoot h cap) s) := by
  induction l with
  | nil => simp
  | cons v l ih =>
    intro D s hl hs
    rw [List.foldl_cons]
    have hv := gcMarkRoot_idle (fun i hi => hl i (hi ▸ List.mem_cons_self ..)) hs
    have hrest := ih (fun i hi => hl i (List.mem_cons_of_mem _ hi)) hv
    have hD : (fun i => (D i ∨ v = .block i) ∨ Word.block i ∈ l)
        = fun i => D i ∨ Word.block i ∈ v :: l := by
      funext i
      rw [List.mem_cons, or_assoc, eq_comm (a := v)]
    rwa [hD] at hrest

/-- A block of the heap that is met in a scan is covered from then on. -/
theorem rescanBlock_idle {l : List (Fin n)} (hcap : 2 ≤ cap)
    (hs : Idle h cap R D (· ∈ i :: l) s) : Idle h cap R D (· ∈ l) (rescanBlock h cap s i) := by
  unfold rescanBlock
  split_ifs with hi
  · refine gcMarkFlush_inv (Inv.push ?_ ?_)
    · refine { hs.1 with current := ?_, covered := ?_ }
      · intro j hj
        exact (hs.1.sound i hi.1).tail (mem_scanned_firstEntry.1 hj)
      · intro ho k hk hP j hj
        by_cases hki : k = i
        · subst hki
          exact Or.inr (Or.inl (mem_scanned_firstEntry.2 hj))
        rcases hs.1.covered ho k hk (by simp [hki, hP]) j hj with hm | hL | hst
        · exact Or.inl hm
        · simp at hL
        · exact Or.inr (Or.inr hst)
    · rw [hs.2, words_nil, Nat.zero_add]
      exact firstEntry_words_le.trans hcap
  · refine ⟨{ hs.1 with covered := ?_ }, hs.2⟩
    intro ho k hk hP j hj
    by_cases hki : k = i
    · subst hki
      have hnone := scanned_of_not_hasReferences fun hr => hi ⟨hk, hr⟩
      simp [Points, hnone] at hj
    · exact hs.1.covered ho k hk (by simp [hki, hP]) j hj

theorem foldl_rescanBlock_idle (hcap : 2 ≤ cap) (l : List (Fin n)) : ∀ {s : State n},
    Idle h cap R D (· ∈ l) s → Idle h cap R D (fun _ => False) (l.foldl (rescanBlock h cap) s) := by
  induction l with
  | nil => simp
  | cons i l ih => exact fun hs => ih (rescanBlock_idle hcap hs)

theorem rescanHeap_idle (hcap : 2 ≤ cap) (hs : Idle h cap R D (fun _ => False) s) :
    Idle h cap R D (fun _ => False) (rescanHeap h cap s) := by
  refine foldl_rescanBlock_idle hcap _ ⟨{ hs.1 with covered := ?_ }, hs.2⟩
  intro _ i _ hi
  exact absurd (List.mem_finRange i) hi

/-- Whatever overflows there were, the heap is scanned until there is none. -/
theorem rescan_idle (hcap : 2 ≤ cap) (hs : Idle h cap R D (fun _ => False) s) :
    Idle h cap R D (fun _ => False) (rescan h cap s) ∧ (rescan h cap s).overflow = false := by
  induction s using rescan.induct h cap with
  | case1 s ho ih =>
    rw [rescan, dif_pos ho]
    exact ih (rescanHeap_idle hcap hs)
  | case2 s ho =>
    rw [rescan, dif_neg ho]
    exact ⟨hs, by simpa using ho⟩

/-- When nothing overflowed and nothing is left to be scanned, the marked blocks are those that the
roots reach. -/
theorem Idle.marked_iff (hs : Idle h cap R R (fun _ => False) s) (ho : s.overflow = false) :
    i ∈ s.marked ↔ Reachable (Points h) R i := by
  refine Reachable.iff_of_closed hs.1.sound hs.1.met ?_
  intro j k hj hk
  rcases hs.1.covered ho j hj not_false k hk with hm | hL | ⟨e, he, -⟩
  · exact hm
  · simp at hL
  · rw [hs.2] at he
    simp at he

variable (r : Roots n) (keepAtoms : Bool) (uniqueStrings : Option (Fin n))

theorem markAll_idle (hcap : 2 ≤ cap) :
    Idle h cap (fun i => Word.block i ∈ r.words keepAtoms)
      (fun i => Word.block i ∈ r.words keepAtoms) (fun _ => False) (markAll h cap r keepAtoms)
      ∧ (markAll h cap r keepAtoms).overflow = false := by
  have hinit : Idle h cap (fun i => Word.block i ∈ r.words keepAtoms) (fun _ => False)
      (fun _ => False) ⟨∅, [], false, false⟩ :=
    ⟨⟨by simp, by simp, by simp, by simp, by simp, by simp, rfl⟩, rfl⟩
  have hroots := foldl_gcMarkRoot_idle (r.words keepAtoms) (fun _ hi => hi) hinit
  simp only [false_or] at hroots
  exact rescan_idle hcap hroots

theorem markAll_marked_iff (hcap : 2 ≤ cap) :
    i ∈ (markAll h cap r keepAtoms).marked ↔ ReachableFrom h (r.words keepAtoms) i := by
  obtain ⟨hidle, ho⟩ := markAll_idle (h := h) r keepAtoms hcap
  exact hidle.marked_iff ho

theorem gcMbIsMarked_iff {marked : Finset (Fin n)} :
    gcMbIsMarked marked v = true ↔ ∃ j ∈ marked, v = .block j := by
  rcases v with _ | _ | j <;> simp [gcMbIsMarked]

/-- Of the table of unique strings only the strings decide. -/
theorem mem_updateUniqueStrings {marked : Finset (Fin n)} :
    i ∈ updateUniqueStrings h uniqueStrings marked ↔
      (uniqueStrings = some i ∧ ∃ j ∈ marked, .block j ∈ (h i).arr)
        ∨ (uniqueStrings ≠ some i ∧ i ∈ marked) := by
  rcases uniqueStrings with _ | t
  · simp [updateUniqueStrings]
  have hkept : ((h t).arr.filter (gcMbIsMarked marked)).length > 0
      ↔ ∃ j ∈ marked, .block j ∈ (h t).arr := by
    rw [gt_iff_lt, List.length_pos_iff_exists_mem]
    constructor
    · rintro ⟨v, hv⟩
      obtain ⟨hv, hm⟩ := List.mem_filter.1 hv
      obtain ⟨j, hj, rfl⟩ := gcMbIsMarked_iff.1 hm
      exact ⟨j, hj, hv⟩
    · rintro ⟨j, hj, hv⟩
      exact ⟨_, List.mem_filter.2 ⟨hv, gcMbIsMarked_iff.2 ⟨j, hj, rfl⟩⟩⟩
  rw [updateUniqueStrings]
  by_cases ht : t = i
  · subst ht
    split_ifs with hk <;> simp [hkept.symm, hk]
  · split_ifs <;> simp [ht, Ne.symm ht]

/-- The mark phase stays within the free space, leaves nothing to be scanned and has marked what the
roots reach; the table of unique strings is then marked if it has a string that is marked, and only
then. -/
theorem gcMarkAll_marks (h : Fin n → Block n) (cap : ℕ) (hcap : 2 ≤ cap) (r : Roots n)
    (keepAtoms : Bool) (uniqueStrings : Option (Fin n)) :
    ((markAll h cap r keepAtoms).outside = false ∧ (markAll h cap r keepAtoms).stack = []
        ∧ (markAll h cap r keepAtoms).overflow = false)
      ∧ (∀ i, i ∈ (markAll h cap r keepAtoms).marked ↔ ReachableFrom h (r.words keepAtoms) i)
      ∧ ∀ i, i ∈ gcMarkAll h cap r keepAtoms uniqueStrings ↔
        (uniqueStrings = some i ∧
          ∃ j, .block j ∈ (h i).arr ∧ ReachableFrom h (r.words keepAtoms) j)
          ∨ (uniqueStrings ≠ some i ∧ ReachableFrom h (r.words keepAtoms) i) := by
  obtain ⟨hidle, ho⟩ := markAll_idle (h := h) r keepAtoms hcap
  refine ⟨⟨hidle.1.inside, hidle.2, ho⟩, fun i => hidle.marked_iff ho, fun i => ?_⟩
  rw [gcMarkAll, mem_updateUniqueStrings]
  simp only [markAll_marked_iff r keepAtoms hcap, and_comm]

/-- A table of unique strings with a string in it. -/
def tableAndString : Fin 2 → Block 2
  | 0 => .valueArray [.block 1]
  | 1 => .string

/-- The stack of the interpreter holds the string. -/
def stringOnStack : Roots 2 := ⟨[], [], [.block 1], [], [], none⟩

theorem gcMarkAll_marks_string :
    2 ≤ 2 ∧ (markAll tableAndString 2 stringOnStack false).outside = false
      ∧ 1 ∈ (markAll tableAndString 2 stringOnStack false).marked := by
  obtain ⟨⟨hout, -⟩, hmarked, -⟩ :=
    gcMarkAll_marks tableAndString 2 (by decide) stringOnStack false (some 0)
  exact ⟨le_rfl, hout, (hmarked 1).2 (.root (by decide))⟩

/-- The table is marked though nothing leads to it. -/
theorem table_marked_not_reached : 0 ∈ gcMarkAll tableAndString 2 stringOnStack false (some 0)
    ∧ ¬ReachableFrom tableAndString (stringOnStack.words false) 0 := by
  have hcap : 2 ≤ 2 := le_rfl
  constructor
  · refine (mem_updateUniqueStrings _).2 (Or.inl ⟨rfl, 1, ?_, by decide⟩)
    exact (markAll_marked_iff _ _ hcap).2 (.root (by decide))
  · intro hr
    have hone : (0 : Fin 2) = 1 := by
      refine hr.mem_of_closed (M := (· = 1)) ?_ ?_
      · intro r hr
        simpa [stringOnStack, Roots.words] using hr
      · rintro v w rfl hw
        simp [Points, tableAndString, Block.scanned, Block.fields, Block.arr] at hw
    simp at hone

end Qjs.GcMark
