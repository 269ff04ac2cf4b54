import Qjs.StringSeq

/-!
# The reference counts of string sequences are exact

What a function holds for itself counts as owned while it runs, so one invariant (`Inv`) is kept by
each `cons`, `retain` and `free` and with them by all that is built of these. A free hands the tail
of a cell on to the next turn of its loop, which owns it then (`free_spec`). The loops that build
only ever allocate (`consFree_eq`), nothing but the counters of a cell ever changes (`Frame`), and
so a sequence spells the same list as long as it is held (`spells_frame`).
-/

namespace Qjs

namespace StringSeq

variable {σ α β : Type}

/-- What fits goes well, and what does not fit is an overflow. -/
def Does (x : Except Fault α) (fits : Prop) (Q : α → Prop) : Prop :=
  (fits → ∃ a, x = .ok a ∧ Q a) ∧ (¬ fits → x = .error .overflow)

theorem Does.ok {a : α} {fits : Prop} {Q : α → Prop} (hf : fits) (h : Q a) : Does (.ok a) fits Q :=
  ⟨fun _ => ⟨a, rfl, h⟩, fun hn => absurd hf hn⟩

theorem Does.overflow {fits : Prop} {Q : α → Prop} (hf : ¬ fits) :
    Does (.error .overflow) fits Q := ⟨fun h => absurd h hf, fun _ => rfl⟩

theorem Does.imp {x : Except Fault α} {fits fits' : Prop} {Q R : α → Prop} (h : Does x fits Q)
    (hf : fits ↔ fits') (hqr : ∀ a, Q a → R a) : Does x fits' R :=
  ⟨fun h' => (h.1 (hf.2 h')).imp fun a ha => ⟨ha.1, hqr a ha.2⟩,
    fun h' => h.2 fun hn => h' (hf.1 hn)⟩

theorem Does.bind {x : Except Fault α} {f : α → Except Fault β} {fits fits' : Prop}
    {Q : α → Prop} {R : β → Prop} (h : Does x fits Q) (himp : fits' → fits)
    (hf : fits → ∀ a, Q a → Does (f a) fits' R) : Does (x >>= f) fits' R := by
  by_cases hx : fits
  · obtain ⟨a, rfl, ha⟩ := h.1 hx
    exact hf hx a ha
  · rw [h.2 hx]
    exact .overflow fun h' => hx (himp h')

theorem Does.map {x : Except Fault α} {f : α → β} {fits : Prop} {Q : α → Prop} {R : β → Prop}
    (h : Does x fits Q) (hf : ∀ a, Q a → R (f a)) : Does (x.map f) fits R := by
  by_cases hx : fits
  · obtain ⟨a, rfl, ha⟩ := h.1 hx
    exact .ok hx (hf a ha)
  · rw [h.2 hx]
    exact .overflow hx

/-! ### The invariant -/

/-- The counts of the heap are exact, of what is owned and of the tails. -/
structure Inv (h : Heap σ) (owned : Multiset ℕ) : Prop where
  fresh : ∀ a, h.next ≤ a → h.cells a = none
  tail : ∀ a c t, h.cells a = some c → c.tail = some t → t < a ∧ ∃ d, h.cells t = some d
  live : ∀ a ∈ owned, ∃ c, h.cells a = some c
  count : ∀ a c, h.cells a = some c → c.refCount = owned.count a + h.tailsTo a
  pos : ∀ a c, h.cells a = some c → 0 < c.refCount
  length : ∀ a c, h.cells a = some c → c.length = h.lengthAt c.tail + 1
  bound : ∀ a c, h.cells a = some c → c.length ≤ intMax

/-- What is left of the old cells is as it was but for the counts. -/
structure Frame (h h' : Heap σ) : Prop where
  next : h.next ≤ h'.next
  cells : ∀ a c', a < h.next → h'.cells a = some c' →
    ∃ c, h.cells a = some c ∧ c.head = c'.head ∧ c.tail = c'.tail ∧ c.length = c'.length

variable {h h' h'' : Heap σ} {owned : Multiset ℕ} {s t : Option ℕ} {a b : ℕ} {c : Cell σ}

theorem Frame.refl (h : Heap σ) : Frame h h :=
  ⟨le_rfl, fun _ c _ hc => ⟨c, hc, rfl, rfl, rfl⟩⟩

theorem Frame.trans (h₁ : Frame h h') (h₂ : Frame h' h'') : Frame h h'' := by
  refine ⟨h₁.next.trans h₂.next, fun a c'' ha hc'' => ?_⟩
  obtain ⟨c', hc', hhead', htail', hlen'⟩ := h₂.cells a c'' (ha.trans_le h₁.next) hc''
  obtain ⟨c, hc, hhead, htail, hlen⟩ := h₁.cells a c' ha hc'
  exact ⟨c, hc, hhead.trans hhead', htail.trans htail', hlen.trans hlen'⟩

theorem Inv.lt_next (hi : Inv h owned) (ha : h.cells a = some c) : a < h.next := by
  by_contra hle
  rw [hi.fresh a (by omega)] at ha
  cases ha

/-! ### The three writes -/

@[simp] theorem write_next (h : Heap σ) (a : ℕ) (c : Option (Cell σ)) :
    (h.write a c).next = h.next := rfl

theorem write_cells (h : Heap σ) (a b : ℕ) (c : Option (Cell σ)) :
    (h.write a c).cells b = if b = a then c else h.cells b := by
  simp [Heap.write, Function.update_apply]

theorem push_cells (h : Heap σ) (b : ℕ) (c : Cell σ) :
    (h.push c).cells b = if b = h.next then some c else h.cells b := by
  simp [Heap.push, Function.update_apply]

/-- The counter of a cell changes with the number of those who own it. -/
theorem inv_recount (owned' : Multiset ℕ) (n : ℤ) (hi : Inv h owned) (ha : h.cells a = some c)
    (hlive : ∀ b ∈ owned', ∃ d, h.cells b = some d) (hn : 0 < n)
    (hcount : n = owned'.count a + h.tailsTo a)
    (hother : ∀ b, b ≠ a → owned'.count b = owned.count b) :
    Inv (h.write a (some { c with refCount := n })) owned'
      ∧ Frame h (h.write a (some { c with refCount := n })) := by
  have hcells : ∀ b d', (h.write a (some { c with refCount := n })).cells b = some d' →
      ∃ d, h.cells b = some d ∧ d.head = d'.head ∧ d.tail = d'.tail ∧ d.length = d'.length
        ∧ d'.refCount = owned'.count b + h.tailsTo b ∧ 0 < d'.refCount := by
    intro b d' hd'
    rw [write_cells] at hd'
    split_ifs at hd' with hb
    · cases hd'
      subst hb
      exact ⟨c, ha, rfl, rfl, rfl, hcount, hn⟩
    · exact ⟨d', hd', rfl, rfl, rfl, by rw [hother b hb]; exact hi.count b d' hd', hi.pos b d' hd'⟩
  have hlive' : ∀ b, (∃ d, h.cells b = some d) →
      ∃ d, (h.write a (some { c with refCount := n })).cells b = some d := by
    rintro b ⟨d, hd⟩
    rw [write_cells]
    split_ifs
    · exact ⟨_, rfl⟩
    · exact ⟨d, hd⟩
  have htails : ∀ b, (h.write a (some { c with refCount := n })).tailsTo b = h.tailsTo b := by
    intro b
    unfold Heap.tailsTo
    congr 1
    refine Finset.filter_congr fun x _ => ?_
    rw [write_cells]
    split_ifs with hx
    · rw [hx, ha]
      rfl
    · rfl
  have hlengths : ∀ t, (h.write a (some { c with refCount := n })).lengthAt t = h.lengthAt t := by
    rintro (_ | t)
    · rfl
    · unfold Heap.lengthAt
      rw [Option.bind_some, Option.bind_some, write_cells]
      split_ifs with ht
      · rw [ht, ha]
        rfl
      · rfl
  refine ⟨⟨?_, ?_, ?_, ?_, ?_, ?_, ?_⟩, le_rfl, ?_⟩
  · intro b hb
    rw [write_cells, if_neg]
    · exact hi.fresh b hb
    · rintro rfl
      have := hi.lt_next ha
      rw [write_next] at hb
      omega
  · intro b d' t hd' ht
    obtain ⟨d, hd, -, htail, -⟩ := hcells b d' hd'
    obtain ⟨hlt, hl⟩ := hi.tail b d t hd (by rw [htail, ht])
    exact ⟨hlt, hlive' t hl⟩
  · exact fun b hb => hlive' b (hlive b hb)
  · intro b d' hd'
    obtain ⟨d, hd, -, -, -, hrc, -⟩ := hcells b d' hd'
    rw [htails, hrc]
  · intro b d' hd'
    obtain ⟨d, hd, -, -, -, -, hpos⟩ := hcells b d' hd'
    exact hpos
  · intro b d' hd'
    obtain ⟨d, hd, -, htail, hlen, -⟩ := hcells b d' hd'
    rw [hlengths, ← hlen, ← htail]
    exact hi.length b d hd
  · intro b d' hd'
    obtain ⟨d, hd, -, -, hlen, -⟩ := hcells b d' hd'
    rw [← hlen]
    exact hi.bound b d hd
  · intro b d' _ hd'
    obtain ⟨d, hd, hhead, htail, hlen, -⟩ := hcells b d' hd'
    exact ⟨d, hd, hhead, htail, hlen⟩

/-- The last owner of a cell frees it: it owns the tail from then on. -/
theorem inv_remove (hi : Inv h (own (some a) + owned)) (ha : h.cells a = some c)
    (hlast : ¬ c.refCount - 1 > 0) :
    Inv (h.write a none) (own c.tail + owned) ∧ Frame h (h.write a none) := by
  have hcount := hi.count a c ha
  have hpos := hi.pos a c ha
  have hself : (own (some a) + owned).count a = 1 + owned.count a := by
    rw [Multiset.count_add]
    simp [own]
  rw [hself] at hcount
  have howned : owned.count a = 0 := by omega
  have htails : h.tailsTo a = 0 := by omega
  have hnotail : ∀ b d, h.cells b = some d → d.tail ≠ some a := by
    intro b d hb hd
    rw [Heap.tailsTo, Finset.card_eq_zero, Finset.filter_eq_empty_iff] at htails
    exact htails (Finset.mem_range.2 (hi.lt_next hb)) (by rw [hb]; exact hd)
  have hcells : ∀ b d, (h.write a none).cells b = some d → b ≠ a ∧ h.cells b = some d := by
    intro b d hd
    rw [write_cells] at hd
    split_ifs at hd with hb
    exact ⟨hb, hd⟩
  have hlive : ∀ b, b ≠ a → (∃ d, h.cells b = some d) → ∃ d, (h.write a none).cells b = some d := by
    rintro b hb ⟨d, hd⟩
    exact ⟨d, by rw [write_cells, if_neg hb, hd]⟩
  have hmoved : ∀ b, b ≠ a →
      (own c.tail).count b + (h.write a none).tailsTo b = h.tailsTo b := by
    intro b hb
    have hset : (Finset.range h.next).filter
          (fun x => ((h.write a none).cells x).bind Cell.tail = some b)
        = ((Finset.range h.next).filter fun x => (h.cells x).bind Cell.tail = some b).erase a := by
      ext x
      simp only [Finset.mem_filter, Finset.mem_erase, Finset.mem_range, write_cells]
      by_cases hx : x = a
      · simp [hx]
      · simp [hx]
    rw [Heap.tailsTo, write_next, hset, Heap.tailsTo]
    have hmem : a ∈ (Finset.range h.next).filter (fun x => (h.cells x).bind Cell.tail = some b)
        ↔ c.tail = some b := by
      rw [Finset.mem_filter, Finset.mem_range, ha]
      exact and_iff_right (hi.lt_next ha)
    by_cases ht : c.tail = some b
    · have hin := hmem.2 ht
      rw [Finset.card_erase_of_mem hin, ht]
      have := Finset.card_pos.2 ⟨a, hin⟩
      simp only [own, Option.elim_some, Multiset.count_singleton_self]
      omega
    · rw [Finset.erase_eq_of_notMem fun hin => ht (hmem.1 hin)]
      rcases htc : c.tail with _ | t
      · simp [own]
      · have hne : b ≠ t := fun hbt => ht (by rw [htc, hbt])
        simp [own, hne]
  refine ⟨⟨?_, ?_, ?_, ?_, ?_, ?_, ?_⟩, le_rfl, ?_⟩
  · intro b hb
    rw [write_cells]
    split_ifs
    · rfl
    · exact hi.fresh b hb
  · intro b d t hd ht
    obtain ⟨-, hd'⟩ := hcells b d hd
    obtain ⟨hlt, hl⟩ := hi.tail b d t hd' ht
    refine ⟨hlt, hlive t ?_ hl⟩
    rintro rfl
    exact hnotail b d hd' ht
  · intro b hb
    rcases Multiset.mem_add.1 hb with hb | hb
    · rcases htc : c.tail with _ | t
      · rw [htc] at hb
        simp [own] at hb
      · rw [htc] at hb
        obtain rfl : b = t := by simpa [own] using hb
        obtain ⟨hlt, hl⟩ := hi.tail a c b ha htc
        exact hlive b (by omega) hl
    · refine hlive b ?_ (hi.live b (Multiset.mem_add.2 (.inr hb)))
      rintro rfl
      exact Multiset.count_eq_zero.1 howned hb
  · intro b d hd
    obtain ⟨hb, hd'⟩ := hcells b d hd
    have hc := hi.count b d hd'
    have hmv := hmoved b hb
    have hzero : (own (some a)).count b = 0 := by simp [own, hb]
    rw [Multiset.count_add, hzero] at hc
    rw [Multiset.count_add]
    omega
  · intro b d hd
    exact hi.pos b d (hcells b d hd).2
  · intro b d hd
    obtain ⟨hb, hd'⟩ := hcells b d hd
    rw [hi.length b d hd']
    rcases ht : d.tail with _ | t
    · rfl
    · have hta : t ≠ a := by
        rintro rfl
        exact hnotail b d hd' ht
      simp only [Heap.lengthAt, Option.bind_some, write_cells, if_neg hta]
  · intro b d hd
    exact hi.bound b d (hcells b d hd).2
  · intro b d _ hd
    exact ⟨d, (hcells b d hd).2, rfl, rfl, rfl⟩

/-- A new cell takes over what is owned of its tail. -/
theorem inv_push (x : σ) (hi : Inv h (own t + owned)) (hlen : h.lengthAt t < intMax) :
    Inv (h.push ⟨1, h.lengthAt t + 1, x, t⟩) (own (some h.next) + owned) := by
  generalize hcell : (⟨1, h.lengthAt t + 1, x, t⟩ : Cell σ) = c
  have hrc : c.refCount = 1 := by rw [← hcell]
  have hct : c.tail = t := by rw [← hcell]
  have hcl : c.length = h.lengthAt t + 1 := by rw [← hcell]
  have hnone := hi.fresh h.next le_rfl
  have hcells : ∀ b d, (h.push c).cells b = some d →
      (b = h.next ∧ d = c) ∨ (b ≠ h.next ∧ h.cells b = some d) := by
    intro b d hd
    rw [push_cells] at hd
    split_ifs at hd with hb
    · exact .inl ⟨hb, (Option.some.inj hd).symm⟩
    · exact .inr ⟨hb, hd⟩
  have hlive : ∀ b, (∃ d, h.cells b = some d) → ∃ d, (h.push c).cells b = some d := by
    rintro b ⟨d, hd⟩
    have := hi.lt_next hd
    exact ⟨d, by rw [push_cells, if_neg (by omega), hd]⟩
  have hnext : ∀ u, u = some h.next → ∀ b d, h.cells b = some d → d.tail ≠ u := by
    rintro _ rfl b d hd ht
    obtain ⟨-, e, he⟩ := hi.tail b d _ hd ht
    rw [hnone] at he
    cases he
  have hgot : ∀ b, (h.push c).tailsTo b = (own t).count b + h.tailsTo b := by
    intro b
    have hrange : (Finset.range (h.push c).next).filter
          (fun y => ((h.push c).cells y).bind Cell.tail = some b)
        = (if t = some b then {h.next} else ∅)
          ∪ (Finset.range h.next).filter fun y => (h.cells y).bind Cell.tail = some b := by
      ext y
      simp only [Heap.push, Finset.mem_filter, Finset.mem_range, Finset.mem_union,
        Function.update_apply]
      by_cases hy : y = h.next
      · subst hy
        rw [if_pos rfl, Option.bind_some, hct]
        split_ifs <;> simp_all
      · have hlt : y < h.next + 1 ↔ y < h.next := by omega
        rw [if_neg hy, hlt]
        split_ifs <;> simp [hy]
    rw [Heap.tailsTo, hrange, Heap.tailsTo, Finset.card_union_of_disjoint]
    · congr 1
      rcases t with _ | t
      · simp [own]
      · by_cases htb : t = b
        · simp [own, htb]
        · simp [own, htb, Ne.symm htb]
    · rw [Finset.disjoint_left]
      intro y hy
      split_ifs at hy
      · simp [Finset.mem_singleton.1 hy]
      · simp at hy
  have hdead : ∀ {m : Multiset ℕ}, (∀ b ∈ m, ∃ d, h.cells b = some d) → m.count h.next = 0 := by
    intro m hm
    refine Multiset.count_eq_zero.2 fun hin => ?_
    obtain ⟨d, hd⟩ := hm _ hin
    rw [hnone] at hd
    cases hd
  have hliveT : ∀ b ∈ own t, ∃ d, h.cells b = some d :=
    fun b hb => hi.live b (Multiset.mem_add.2 (.inl hb))
  have hliveO : ∀ b ∈ owned, ∃ d, h.cells b = some d :=
    fun b hb => hi.live b (Multiset.mem_add.2 (.inr hb))
  have hnotails : h.tailsTo h.next = 0 := by
    rw [Heap.tailsTo, Finset.card_eq_zero, Finset.filter_eq_empty_iff]
    intro b _ hb
    obtain ⟨d, hd, ht⟩ := Option.bind_eq_some_iff.1 hb
    exact hnext _ rfl b d hd ht
  have hlengths : ∀ u, u ≠ some h.next → (h.push c).lengthAt u = h.lengthAt u := by
    rintro (_ | u) hu
    · rfl
    · have hne : u ≠ h.next := fun hu' => hu (by rw [hu'])
      simp only [Heap.lengthAt, Option.bind_some, push_cells, if_neg hne]
  have htn : t ≠ some h.next := by
    rintro rfl
    obtain ⟨d, hd⟩ := hliveT h.next (by simp [own])
    rw [hnone] at hd
    cases hd
  refine ⟨?_, ?_, ?_, ?_, ?_, ?_, ?_⟩
  · intro b hb
    have hb' : h.next + 1 ≤ b := hb
    rw [push_cells, if_neg (by omega)]
    exact hi.fresh b (by omega)
  · intro b d u hd hu
    rcases hcells b d hd with ⟨rfl, rfl⟩ | ⟨hb, hd'⟩
    · rw [hct] at hu
      obtain ⟨e, he⟩ := hliveT u (by rw [hu]; simp [own])
      exact ⟨hi.lt_next he, hlive u ⟨e, he⟩⟩
    · obtain ⟨hlt, hl⟩ := hi.tail b d u hd' hu
      exact ⟨hlt, hlive u hl⟩
  · intro b hb
    rcases Multiset.mem_add.1 hb with hb | hb
    · obtain rfl : b = h.next := by simpa [own] using hb
      exact ⟨c, by rw [push_cells, if_pos rfl]⟩
    · exact hlive b (hliveO b hb)
  · intro b d hd
    rw [hgot]
    rcases hcells b d hd with ⟨rfl, rfl⟩ | ⟨hb, hd'⟩
    · rw [hrc, Multiset.count_add, hdead hliveO, hdead hliveT, hnotails]
      simp [own]
    · have hc := hi.count b d hd'
      have hzero : (own (some h.next)).count b = 0 := by simp [own, hb]
      rw [Multiset.count_add] at hc
      rw [Multiset.count_add, hzero]
      omega
  · intro b d hd
    rcases hcells b d hd with ⟨-, rfl⟩ | ⟨-, hd'⟩
    · rw [hrc]
      exact one_pos
    · exact hi.pos b d hd'
  · intro b d hd
    rcases hcells b d hd with ⟨-, rfl⟩ | ⟨-, hd'⟩
    · rw [hct, hcl, hlengths t htn]
    · rw [hi.length b d hd', hlengths]
      intro hu
      exact hnext _ rfl b d hd' hu
  · intro b d hd
    rcases hcells b d hd with ⟨-, rfl⟩ | ⟨-, hd'⟩
    · rw [hcl]
      exact hlen
    · exact hi.bound b d hd'

/-! ### What a sequence spells -/

/-- A sequence that is still there spells what it did. -/
theorem spells_frame {owned₁ owned₂ : Multiset ℕ} {xs : List σ} (hi : Inv h owned₁)
    (hi' : Inv h' owned₂) (hf : Frame h h') (hs : Spells h t xs)
    (hl : ∀ a, t = some a → ∃ c, h'.cells a = some c) : Spells h' t xs := by
  induction hs with
  | nil => exact .nil
  | @cons a c xs hc _ ih =>
    obtain ⟨c', hc'⟩ := hl a rfl
    obtain ⟨d, hd, hhead, htail, -⟩ := hf.cells a c' (hi.lt_next hc) hc'
    rw [hc] at hd
    cases hd
    rw [hhead]
    refine .cons hc' ?_
    rw [← htail]
    exact ih fun t ht => (hi'.tail a c' t hc' (by rw [← htail, ht])).2

theorem Spells.live {xs : List σ} (hs : Spells h t xs) (a : ℕ) (ha : t = some a) :
    ∃ c, h.cells a = some c := by
  cases hs with
  | nil => cases ha
  | @cons b c xs hc _ =>
    cases ha
    exact ⟨c, hc⟩

theorem Spells.unique {xs ys : List σ} (hx : Spells h t xs) (hy : Spells h t ys) : xs = ys := by
  induction hx generalizing ys with
  | nil =>
    cases hy
    rfl
  | cons hc _ ih =>
    cases hy with
    | cons hd ht =>
      rw [hc] at hd
      cases hd
      rw [ih ht]

theorem lengthAt_of_some (ha : h.cells a = some c) : h.lengthAt (some a) = c.length := by
  rw [Heap.lengthAt, Option.bind_some, ha]
  rfl

theorem lengthAt_eq {xs : List σ} (hi : Inv h owned) (hs : Spells h t xs) :
    h.lengthAt t = xs.length := by
  induction hs with
  | nil => rfl
  | @cons a c xs hc _ ih =>
    rw [lengthAt_of_some hc, hi.length a c hc, ih, List.length_cons]
    omega

theorem lengthAt_le (hi : Inv h owned) (t : Option ℕ) : h.lengthAt t ≤ intMax := by
  have hzero : (0 : ℤ) ≤ intMax := by decide
  rcases t with _ | a
  · exact hzero
  · rcases hc : h.cells a with _ | c
    · rw [Heap.lengthAt, Option.bind_some, hc]
      exact hzero
    · rw [lengthAt_of_some hc]
      exact hi.bound a c hc

theorem exists_spells (hi : Inv h owned) (hl : ∀ a, t = some a → ∃ c, h.cells a = some c) :
    ∃ xs, Spells h t xs := by
  rcases t with _ | a
  · exact ⟨[], .nil⟩
  · induction a using Nat.strong_induction_on with
    | _ a ih =>
      obtain ⟨c, hc⟩ := hl a rfl
      have hrest : ∃ xs, Spells h c.tail xs := by
        rcases ht : c.tail with _ | u
        · exact ⟨[], .nil⟩
        · obtain ⟨hlt, d, hd⟩ := hi.tail a c u hc ht
          exact ih u hlt fun b hb => by
            cases hb
            exact ⟨d, hd⟩
      obtain ⟨xs, hxs⟩ := hrest
      exact ⟨c.head :: xs, .cons hc hxs⟩

/-! ### Reads, retains and frees -/

theorem read_of_some (ha : h.cells a = some c) : h.read a = .ok c := by rw [Heap.read, ha]

theorem length_spec (hl : ∀ a, s = some a → ∃ c, h.cells a = some c) :
    stringSeqLength s h = .ok (h.lengthAt s) := by
  rcases s with _ | a
  · rfl
  · obtain ⟨c, hc⟩ := hl a rfl
    rw [stringSeqLength, read_of_some hc, lengthAt_of_some hc]
    rfl

theorem count_own (a b : ℕ) : (own (some a)).count b = if b = a then 1 else 0 := by
  simp [own, Multiset.count_singleton]

theorem live_own (hi : Inv h (own s + owned)) (a : ℕ) (ha : s = some a) :
    ∃ c, h.cells a = some c := hi.live a (by simp [ha, own])

theorem room_none (h : Heap σ) (k : ℤ) : h.Room k none := fun _ _ ha => nomatch ha

theorem room_iff (hc : h.cells a = some c) (k : ℤ) :
    h.Room k (some a) ↔ c.refCount + k ≤ intMax := by
  refine ⟨fun hr => hr a c rfl hc, fun hle b d hb hd => ?_⟩
  cases hb
  rw [hc] at hd
  cases hd
  exact hle

/-- What a retain leaves: one more owner of the sequence, and all cells. -/
structure Retained (h : Heap σ) (owned : Multiset ℕ) (s : Option ℕ) (h' : Heap σ) : Prop where
  inv : Inv h' (own s + owned)
  frame : Frame h h'
  next : h'.next = h.next
  live : ∀ b, (∃ c, h.cells b = some c) → ∃ c, h'.cells b = some c
  room : ∀ k, h'.Room k s ↔ h.Room (k + 1) s

theorem Retained.spells {xs : List σ} (hr : Retained h owned s h') (hi : Inv h owned)
    (hs : Spells h t xs) : Spells h' t xs :=
  spells_frame hi hr.inv hr.frame hs fun a ha => hr.live a (hs.live a ha)

theorem retain_eq (hc : h.cells a = some c) : stringSeqRetain (some a) h =
    if c.refCount < intMax then .ok (h.write a (some { c with refCount := c.refCount + 1 }))
    else .error .overflow := by
  rw [stringSeqRetain, read_of_some hc]
  rfl

theorem retain_spec (hi : Inv h owned) (hl : ∀ a, s = some a → ∃ c, h.cells a = some c) :
    Does (stringSeqRetain s h) (h.Room 1 s) (Retained h owned s) := by
  rcases s with _ | a
  · exact .ok (room_none h 1) ⟨by simpa [own] using hi, .refl h, rfl, fun _ => id,
      fun k => iff_of_true (room_none h k) (room_none h _)⟩
  · obtain ⟨c, hc⟩ := hl a rfl
    have hif : c.refCount < intMax ↔ h.Room 1 (some a) := by
      rw [room_iff hc]
      omega
    rw [retain_eq hc]
    split_ifs with hlt
    · have hcount := hi.count a c hc
      have hpos := hi.pos a c hc
      have hcells := write_cells h a a (some { c with refCount := c.refCount + 1 })
      rw [if_pos rfl] at hcells
      obtain ⟨h1, h2⟩ := inv_recount (own (some a) + owned) (c.refCount + 1) hi hc
        (by
          intro b hb
          rcases Multiset.mem_add.1 hb with hb | hb
          · obtain rfl : b = a := by simpa [own] using hb
            exact ⟨c, hc⟩
          · exact hi.live b hb)
        (by omega) (by rw [Multiset.count_add, count_own, if_pos rfl, hcount]; omega)
        (fun b hb => by rw [Multiset.count_add, count_own, if_neg hb, Nat.zero_add])
      refine .ok (hif.1 hlt) ⟨h1, h2, rfl, ?_, fun k => ?_⟩
      · rintro b ⟨d, hd⟩
        rw [write_cells]
        split_ifs
        · exact ⟨_, rfl⟩
        · exact ⟨d, hd⟩
      · rw [room_iff hcells, room_iff hc]
        dsimp only
        omega
    · exact .overflow fun hr => hlt (hif.2 hr)

theorem freeLoop_spec : ∀ {fuel : ℕ} {s : Option ℕ} {h : Heap σ}, Inv h (own s + owned) →
    (∀ a, s = some a → a < fuel) →
    ∃ h', freeLoop fuel s h = .ok h' ∧ Inv h' owned ∧ Frame h h' := by
  intro fuel
  induction fuel with
  | zero =>
    rintro (_ | a) h hi hf
    · exact ⟨h, by rw [freeLoop], by simpa [own] using hi, .refl h⟩
    · exact absurd (hf a rfl) (Nat.not_lt_zero a)
  | succ fuel ih =>
    rintro (_ | a) h hi hf
    · exact ⟨h, by rw [freeLoop], by simpa [own] using hi, .refl h⟩
    · obtain ⟨c, hc⟩ := hi.live a (by simp [own])
      have hcount := hi.count a c hc
      rw [Multiset.count_add, count_own, if_pos rfl] at hcount
      rw [freeLoop, read_of_some hc]
      by_cases hlast : c.refCount - 1 > 0
      · obtain ⟨h1, h2⟩ := inv_recount owned (c.refCount - 1) hi hc
          (fun b hb => hi.live b (Multiset.mem_add.2 (.inr hb))) hlast (by omega) (fun b hb => by
            rw [Multiset.count_add, count_own, if_neg hb, Nat.zero_add])
        exact ⟨_, if_pos hlast, h1, h2⟩
      · obtain ⟨h1, h2⟩ := inv_remove hi hc hlast
        obtain ⟨h', hfree, hi', hf'⟩ := ih h1 fun t ht => by
          have := (hi.tail a c t hc ht).1
          have := hf a rfl
          omega
        exact ⟨h', (if_neg hlast).trans hfree, hi', h2.trans hf'⟩

/-- A free of what is owned never fails. -/
theorem free_spec (hi : Inv h (own s + owned)) :
    ∃ h', stringSeqFree s h = .ok h' ∧ Inv h' owned ∧ Frame h h' :=
  freeLoop_spec hi fun a ha => by
    obtain ⟨c, hc⟩ := live_own hi a ha
    exact hi.lt_next hc

/-! ### The loops that build -/

/-- The old cells are all as they were. -/
structure Grows (h h' : Heap σ) : Prop where
  next : h.next ≤ h'.next
  cells : ∀ a, a < h.next → h'.cells a = h.cells a

theorem Grows.refl (h : Heap σ) : Grows h h := ⟨le_rfl, fun _ _ => rfl⟩

theorem Grows.trans (h₁ : Grows h h') (h₂ : Grows h' h'') : Grows h h'' :=
  ⟨h₁.next.trans h₂.next, fun a ha =>
    (h₂.cells a (ha.trans_le h₁.next)).trans (h₁.cells a ha)⟩

theorem grows_push (h : Heap σ) (c : Cell σ) : Grows h (h.push c) :=
  ⟨Nat.le_succ _, fun a ha => by rw [push_cells, if_neg ha.ne]⟩

theorem Grows.frame (hg : Grows h h') : Frame h h' :=
  ⟨hg.next, fun a c' ha hc' => ⟨c', by rw [← hg.cells a ha, hc'], rfl, rfl, rfl⟩⟩

theorem Grows.cells_eq (hg : Grows h h') (hi : Inv h owned) (ha : h.cells a = some c) :
    h'.cells a = some c := by rw [hg.cells a (hi.lt_next ha), ha]

theorem Grows.spells {xs : List σ} (hg : Grows h h') (hi : Inv h owned) (hs : Spells h t xs) :
    Spells h' t xs := by
  induction hs with
  | nil => exact .nil
  | cons hc _ ih => exact .cons (hg.cells_eq hi hc) ih

theorem room_mono {k n : ℤ} (hk : k ≤ n) (hr : h.Room n s) : h.Room k s := fun a c ha hc =>
  (add_le_add_right hk _).trans (hr a c ha hc)

theorem Grows.room {xs : List σ} (hg : Grows h h') (hi : Inv h owned) (hs : Spells h s xs) (k : ℤ) :
    h'.Room k s ↔ h.Room k s := by
  rcases s with _ | a
  · exact iff_of_true (room_none h' k) (room_none h k)
  · obtain ⟨c, hc⟩ := hs.live a rfl
    rw [room_iff hc, room_iff (hg.cells_eq hi hc)]

/-- What was retained of the sequence is given back: a turn of the loops is an allocation. -/
theorem consFree_spec (x : σ) (hi : Inv h (own s + owned)) :
    Does (consFree x s h) (h.lengthAt s < intMax ∧ h.Room 1 s) fun p =>
      p = (h.next, h.push ⟨1, h.lengthAt s + 1, x, s⟩) := by
  rw [consFree, stringSeqCons, length_spec (live_own hi)]
  change Does ((if h.lengthAt s < intMax then _ else _) >>= _) _ _
  split_ifs with hlt
  · rcases s with _ | a
    · exact .ok ⟨hlt, room_none h 1⟩ rfl
    · obtain ⟨c, hc⟩ := live_own hi a rfl
      have hne := (hi.lt_next hc).ne
      have hpos := hi.pos a c hc
      have hif : c.refCount < intMax ↔ h.Room 1 (some a) := by
        rw [room_iff hc]
        omega
      have hpush : (h.push ⟨1, h.lengthAt (some a) + 1, x, some a⟩).cells a = some c := by
        rw [push_cells, if_neg hne, hc]
      rw [retain_eq hpush]
      change Does (((if c.refCount < intMax then _ else _) >>= _) >>= _) _ _
      split_ifs with hroom
      · generalize hcell : (⟨1, h.lengthAt (some a) + 1, x, some a⟩ : Cell σ) = d at *
        have hfree : stringSeqFree (some a)
            ((h.push d).write a (some { c with refCount := c.refCount + 1 })) = .ok (h.push d) := by
          have hcells := write_cells (h.push d) a a (some { c with refCount := c.refCount + 1 })
          rw [if_pos rfl] at hcells
          rw [stringSeqFree, write_next, show (h.push d).next = h.next + 1 from rfl, freeLoop,
            read_of_some hcells]
          refine (if_pos (by dsimp only; omega)).trans (congrArg Except.ok ?_)
          have hsame : (h.push d).cells a = some { c with refCount := c.refCount + 1 - 1 } := by
            rw [hpush, add_sub_cancel_right]
          simp only [Heap.write, Function.update_idem, ← hsame, Function.update_eq_self]
        refine ⟨fun _ => ⟨_, ?_, rfl⟩, fun hn => absurd ⟨hlt, hif.1 hroom⟩ hn⟩
        change (stringSeqFree (some a) _ >>= _) = _
        rw [hfree]
        rfl
      · exact .overflow fun hf => hroom (hif.2 hf.2)
  · exact .overflow fun hf => hlt hf.1

/-- What a function gives: a sequence that is owned, of the list. -/
structure Gives (h : Heap σ) (owned : Multiset ℕ) (xs : List σ) (p : Option ℕ × Heap σ) : Prop where
  inv : Inv p.2 (own p.1 + owned)
  frame : Frame h p.2
  spells : Spells p.2 p.1 xs

theorem Gives.trans {xs : List σ} {p : Option ℕ × Heap σ} (hg : Gives h' owned xs p)
    (hf : Frame h h') : Gives h owned xs p := ⟨hg.inv, hf.trans hg.frame, hg.spells⟩

/-- One more element in front, of which nobody else knows. -/
theorem gives_push {ys : List σ} (x : σ) (hi : Inv h (own s + owned)) (hs : Spells h s ys)
    (hlen : h.lengthAt s < intMax) :
    Gives h owned (x :: ys) (some h.next, h.push ⟨1, h.lengthAt s + 1, x, s⟩)
      ∧ (h.push ⟨1, h.lengthAt s + 1, x, s⟩).Room 1 (some h.next) := by
  have hcell := push_cells h h.next ⟨1, h.lengthAt s + 1, x, s⟩
  rw [if_pos rfl] at hcell
  have hg := grows_push h ⟨1, h.lengthAt s + 1, x, s⟩
  refine ⟨⟨inv_push x hi hlen, hg.frame, .cons hcell (hg.spells hi hs)⟩, ?_⟩
  have htwo : (1 : ℤ) + 1 ≤ intMax := by decide
  exact (room_iff hcell 1).2 htwo

/-- To allocate and then retain is as to retain and then allocate. -/
theorem retain_push (hi : Inv h owned) (hl : ∀ a, s = some a → ∃ c, h.cells a = some c) :
    stringSeqRetain s (h.push c) = (stringSeqRetain s h).map fun h' => h'.push c := by
  rcases s with _ | a
  · rfl
  · obtain ⟨d, hd⟩ := hl a rfl
    have hne := (hi.lt_next hd).ne
    have hd' : (h.push c).cells a = some d := by rw [push_cells, if_neg hne, hd]
    rw [retain_eq hd, retain_eq hd']
    split_ifs
    · refine congrArg Except.ok ?_
      simp only [Heap.push, Heap.write, Heap.mk.injEq, and_true]
      exact Function.update_comm hne.symm _ _ _
    · rfl

theorem cons_spec {xs : List σ} (x : σ) (hi : Inv h owned) (hs : Spells h t xs) :
    Does (stringSeqCons x t h) (h.lengthAt t < intMax ∧ h.Room 1 t) fun p =>
      Gives h owned (x :: xs) (some p.1, p.2) := by
  rw [stringSeqCons, length_spec hs.live]
  change Does (if h.lengthAt t < intMax then _ else _) _ _
  split_ifs with hlt
  · rw [retain_push hi hs.live]
    have hretain := retain_spec hi hs.live
    by_cases hroom : h.Room 1 t
    · obtain ⟨h', hr, hr'⟩ := hretain.1 hroom
      have hs' := hr'.spells hi hs
      have hlen : h'.lengthAt t = h.lengthAt t := by
        rw [lengthAt_eq hi hs, lengthAt_eq hr'.inv hs']
      obtain ⟨hgive, -⟩ := gives_push x hr'.inv hs' (hlen ▸ hlt)
      rw [hlen, hr'.next] at hgive
      rw [hr]
      exact .ok ⟨hlt, hroom⟩ (hgive.trans hr'.frame)
    · rw [hretain.2 hroom]
      exact .overflow fun hf => hroom hf.2
  · exact .overflow fun hf => hlt hf.1

/-- The elements that the loop takes. -/
def upTo (limit : Option ℕ) (xs : List σ) : List σ := limit.elim xs fun n => xs.take n

theorem upTo_nil (limit : Option ℕ) : upTo limit ([] : List σ) = [] := by
  rcases limit with _ | n <;> simp [upTo]

theorem upTo_cons {limit : Option ℕ} (hl : limit ≠ some 0) (x : σ) (xs : List σ) :
    upTo limit (x :: xs) = x :: upTo (limit.map Nat.pred) xs := by
  rcases limit with _ | _ | n
  · rfl
  · exact absurd rfl hl
  · rfl

/-- There is room for `n` elements in front of the sequence. -/
def Heap.Takes (h : Heap σ) (n : ℕ) (s : Option ℕ) : Prop :=
  n = 0 ∨ (h.Room 1 s ∧ h.lengthAt s + n ≤ intMax)

/-- The first of the elements takes what room there is, and the others follow it. -/
theorem takes_succ {n : ℕ} {x : σ} {ys : List σ} (hi : Inv h (own s + owned)) (hs : Spells h s ys)
    (hfit : h.lengthAt s < intMax ∧ h.Room 1 s) :
    (h.push ⟨1, h.lengthAt s + 1, x, s⟩).Takes n (some h.next) ↔ h.Takes (n + 1) s := by
  obtain ⟨hgive, hroom⟩ := gives_push x hi hs hfit.1
  have hl := lengthAt_eq hi hs
  have hl' := lengthAt_eq hgive.inv hgive.spells
  have hlt := hfit.1
  dsimp only at hl'
  rw [List.length_cons, Nat.cast_succ, ← hl] at hl'
  unfold Heap.Takes
  rw [hl', Nat.cast_succ]
  constructor
  · rintro (rfl | ⟨-, hle⟩)
    · exact .inr ⟨hfit.2, by push_cast; omega⟩
    · exact .inr ⟨hfit.2, by omega⟩
  · rintro (hn | ⟨-, hle⟩)
    · cases hn
    · exact .inr ⟨hroom, by omega⟩

theorem prependLoop_spec : ∀ {fuel : ℕ} {limit cur result : Option ℕ} {h : Heap σ}
    {xs ys : List σ}, Inv h (own result + owned) → (∀ a, cur = some a → a < fuel) →
    Spells h cur xs → Spells h result ys →
    Does (prependLoop fuel limit cur result h) (h.Takes (upTo limit xs).length result) fun p =>
      Gives h owned ((upTo limit xs).reverse ++ ys) p ∧ Grows h p.2 := by
  intro fuel
  induction fuel with
  | zero =>
    rintro limit (_ | a) result h xs ys hi hf hcur hresult
    · cases hcur
      rw [prependLoop, upTo_nil]
      exact .ok (.inl rfl) ⟨⟨hi, .refl h, hresult⟩, .refl h⟩
    · exact absurd (hf a rfl) (Nat.not_lt_zero a)
  | succ fuel ih =>
    rintro limit (_ | a) result h xs ys hi hf hcur hresult
    · cases hcur
      rw [prependLoop, upTo_nil]
      exact .ok (.inl rfl) ⟨⟨hi, .refl h, hresult⟩, .refl h⟩
    · rw [prependLoop]
      split_ifs with hlimit
      · rw [hlimit]
        exact .ok (.inl rfl) ⟨⟨hi, .refl h, hresult⟩, .refl h⟩
      · cases hcur with
        | @cons _ c xs hc hrest =>
        rw [read_of_some hc, upTo_cons hlimit]
        refine (consFree_spec c.head hi).bind ?_ ?_
        · rintro (hz | ⟨hroom, hle⟩)
          · cases hz
          · rw [List.length_cons] at hle
            exact ⟨by omega, hroom⟩
        · rintro hfit _ rfl
          have hg := grows_push h ⟨1, h.lengthAt result + 1, c.head, result⟩
          obtain ⟨hgive, -⟩ := gives_push c.head hi hresult hfit.1
          refine (ih hgive.inv ?_ (hg.spells hi hrest) hgive.spells).imp
            (takes_succ hi hresult hfit) fun p hp => ⟨?_, hg.trans hp.2⟩
          · intro t ht
            have := (hi.tail a c t hc ht).1
            have := hf a rfl
            omega
          · rw [List.reverse_cons, List.append_assoc]
            exact hp.1.trans hgive.frame

/-! ### The functions of a sequence -/

theorem inv_none (hi : Inv h owned) : Inv h (own none + owned) := by simpa [own] using hi

theorem takes_none {xs : List σ} (hi : Inv h owned) (hs : Spells h s xs) :
    h.Takes xs.length none := by
  have hle := lengthAt_le hi s
  rw [lengthAt_eq hi hs] at hle
  exact .inr ⟨room_none h 1, by simpa [Heap.lengthAt] using hle⟩

theorem Spells.lt_next {xs : List σ} (hs : Spells h s xs) (hi : Inv h owned) (a : ℕ)
    (ha : s = some a) : a < h.next := by
  obtain ⟨c, hc⟩ := hs.live a ha
  exact hi.lt_next hc

theorem reverse_spec {xs : List σ} (hi : Inv h owned) (hs : Spells h s xs) :
    Does (stringSeqReverse s h) True fun p => Gives h owned xs.reverse p ∧ Grows h p.2 := by
  refine (prependLoop_spec (inv_none hi) (hs.lt_next hi) hs .nil).imp
    (iff_true_intro (takes_none hi hs)) fun p hp => ?_
  rw [List.append_nil] at hp
  exact hp

/-- What was built for the result alone is freed, the result stays. -/
theorem free_gives {xs : List σ} {p : Option ℕ × Heap σ} (hg : Gives h (own s + owned) xs p) :
    Does (stringSeqFree s p.2 >>= fun h => .ok (p.1, h)) True (Gives h owned xs) := by
  have hi := hg.inv
  rw [add_left_comm] at hi
  obtain ⟨h', hfree, hi', hf⟩ := free_spec hi
  rw [hfree]
  exact .ok trivial ⟨hi', hg.frame.trans hf, spells_frame hg.inv hi' hf hg.spells (live_own hi')⟩

theorem take_spec {xs : List σ} (n : ℤ) (hi : Inv h owned) (hs : Spells h s xs) :
    Does (stringSeqTake s n h) True (Gives h owned (xs.take n.toNat)) := by
  unfold stringSeqTake
  split_ifs with hnone
  · refine .ok trivial ⟨inv_none hi, .refl h, ?_⟩
    have hnil : xs.take n.toNat = [] := by
      rcases hnone with hn | rfl
      · rw [Int.toNat_of_nonpos hn, List.take_zero]
      · cases hs
        rw [List.take_nil]
    rw [hnil]
    exact .nil
  · have htake : h.Takes (upTo (some n.toNat) xs).length none := by
      rw [upTo, Option.elim_some]
      rcases takes_none hi hs with hz | ⟨hroom, hle⟩
      · exact .inl (by rw [List.length_take, hz, Nat.min_zero])
      · refine .inr ⟨hroom, le_trans ?_ hle⟩
        rw [List.length_take]
        omega
    refine ((prependLoop_spec (inv_none hi) (hs.lt_next hi) hs .nil).imp
      (iff_true_intro htake) fun _ => id).bind id ?_
    rintro - ⟨reversedPrefix, h₁⟩ ⟨hg₁, -⟩
    rw [List.append_nil] at hg₁
    refine (reverse_spec hg₁.inv hg₁.spells).bind id ?_
    rintro - p ⟨hp, -⟩
    rw [List.reverse_reverse] at hp
    exact free_gives (hp.trans hg₁.frame)

theorem drop_spells : ∀ (n : ℕ) {s : Option ℕ} {xs : List σ}, Spells h s xs →
    dropLoop n s h = .ok (h.nthTail n s) ∧ Spells h (h.nthTail n s) (xs.drop n) := by
  intro n
  induction n with
  | zero => exact fun hs => ⟨rfl, hs⟩
  | succ n ih =>
    intro s xs hs
    cases hs with
    | nil =>
      have hnil : ∀ n, h.nthTail n none = none := fun n => by
        induction n with
        | zero => rfl
        | succ n ih => exact ih
      rw [dropLoop, hnil, List.drop_nil]
      exact ⟨rfl, .nil⟩
    | @cons a c xs hc ht =>
      have htail : h.nthTail (n + 1) (some a) = h.nthTail n c.tail := by
        rw [Heap.nthTail, Option.bind_some, hc, Option.bind_some]
      rw [dropLoop, read_of_some hc, htail]
      exact ih ht

theorem retain_gives {xs : List σ} (hi : Inv h owned) (hs : Spells h s xs) :
    Does (stringSeqRetain s h >>= fun h => .ok (s, h)) (h.Room 1 s) (Gives h owned xs) := by
  refine (retain_spec hi hs.live).bind id ?_
  rintro hroom h' hr
  exact .ok hroom ⟨hr.inv, hr.frame, hr.spells hi hs⟩

theorem drop_spec {xs : List σ} (n : ℤ) (hi : Inv h owned) (hs : Spells h s xs) :
    Does (stringSeqDrop s n h) (h.Room 1 (h.nthTail n.toNat s))
      (Gives h owned (xs.drop n.toNat)) := by
  unfold stringSeqDrop
  split_ifs with hn
  · rw [Int.toNat_of_nonpos hn]
    exact retain_gives hi hs
  · obtain ⟨hloop, hspells⟩ := drop_spells n.toNat hs
    rw [hloop]
    exact retain_gives hi hspells

theorem concat_spec {xs ys : List σ} (hi : Inv h owned) (ha : Spells h (some a) xs)
    (hb : Spells h t ys) :
    Does (stringSeqConcat (some a) t h)
      (h.Room 2 t ∧ h.lengthAt (some a) + h.lengthAt t ≤ intMax) (Gives h owned (xs ++ ys)) := by
  refine (reverse_spec hi ha).bind (fun _ => trivial) ?_
  rintro - ⟨reversed, h₁⟩ ⟨hg₁, hgrows⟩
  dsimp only at hgrows
  have hb₁ := hgrows.spells hi hb
  have hroom := hgrows.room hi hb
  refine (retain_spec hg₁.inv hb₁.live).bind ?_ ?_
  · exact fun hf => (hroom 1).2 (room_mono one_le_two hf.1)
  rintro - h₂ hr
  have hb₂ := hr.spells hg₁.inv hb₁
  have ha₂ := hr.spells hg₁.inv hg₁.spells
  refine ((prependLoop_spec hr.inv (ha₂.lt_next hr.inv) ha₂ hb₂).imp ?_ fun _ => id).bind id ?_
  · rw [Heap.Takes, hr.room, hroom, lengthAt_eq hr.inv hb₂, lengthAt_eq hi ha, lengthAt_eq hi hb]
    have hpos : 0 < xs.length := by
      cases ha
      exact Nat.succ_pos _
    simp only [upTo, Option.elim_none, List.length_reverse]
    refine ⟨fun hor => ?_, fun hf => .inr ⟨hf.1, by omega⟩⟩
    rcases hor with hz | ⟨hr, hle⟩
    · omega
    · exact ⟨hr, by omega⟩
  · rintro hf p ⟨hp, -⟩
    simp only [upTo, Option.elim_none, List.reverse_reverse] at hp
    exact (free_gives (hp.trans (hg₁.frame.trans hr.frame))).imp
      (iff_of_true trivial hf) fun _ => id

theorem toArrayLoop_spec : ∀ {s : Option ℕ} {xs : List σ}, Spells h s xs →
    toArrayLoop xs.length s h = .ok xs := by
  intro s xs hs
  induction hs with
  | nil => rfl
  | cons hc _ ih =>
    rw [List.length_cons, toArrayLoop, read_of_some hc]
    change (toArrayLoop _ _ _ >>= _) = _
    rw [ih]
    rfl

theorem fromArrayLoop_spec {strings : List σ} : ∀ {i : ℕ} {s : Option ℕ} {h : Heap σ} {ys : List σ},
    Inv h (own s + owned) → i ≤ strings.length → Spells h s ys →
    Does (fromArrayLoop strings i s h) (h.Takes i s) (Gives h owned (strings.take i ++ ys)) := by
  intro i
  induction i with
  | zero =>
    intro s h ys hi _ hs
    exact .ok (.inl rfl) ⟨hi, .refl h, hs⟩
  | succ i ih =>
    intro s h ys hi hle hs
    have hget : strings[i]? = some strings[i] := List.getElem?_eq_getElem (by omega)
    rw [fromArrayLoop, hget]
    refine (consFree_spec strings[i] hi).bind ?_ ?_
    · rintro (hz | ⟨hroom, hle⟩)
      · cases hz
      · exact ⟨by omega, hroom⟩
    · rintro hfit _ rfl
      obtain ⟨hgive, -⟩ := gives_push strings[i] hi hs hfit.1
      refine (ih hgive.inv (by omega) hgive.spells).imp (takes_succ hi hs hfit)
        fun p hp => (?_ : Gives h owned _ p)
      rw [List.take_add_one, hget, List.append_assoc]
      exact hp.trans hgive.frame

theorem toArray_spec {xs : List σ} (hi : Inv h owned) (hs : Spells h s xs) :
    stringSeqToArray s h
      = .ok (if s = none then none else some ((xs.length : ℤ), xs)) := by
  rcases s with _ | a
  · rfl
  · obtain ⟨c, hc⟩ := hs.live a rfl
    have hlen : c.length = xs.length := by rw [← lengthAt_of_some hc, lengthAt_eq hi hs]
    rw [stringSeqToArray, read_of_some hc]
    change (toArrayLoop c.length.toNat (some a) h >>= _) = _
    rw [hlen, Int.toNat_natCast, toArrayLoop_spec hs]
    rfl

theorem fromArray_spec {arr : Option (List σ)} {count : ℤ} (hi : Inv h owned)
    (hmax : count ≤ intMax) (hle : ∀ strings ∈ arr, count ≤ strings.length) :
    Does (stringSeqFromArray arr count h) True
      (Gives h owned ((arr.getD []).take count.toNat)) := by
  rcases arr with _ | strings
  · refine .ok trivial ⟨inv_none hi, .refl h, ?_⟩
    rw [Option.getD_none, List.take_nil]
    exact .nil
  · rw [stringSeqFromArray]
    split_ifs with hcount
    · rw [Int.toNat_of_nonpos hcount]
      exact .ok trivial ⟨inv_none hi, .refl h, .nil⟩
    · have := hle strings rfl
      have hlen : count.toNat ≤ strings.length := by omega
      have htakes : h.Takes count.toNat none :=
        .inr ⟨room_none h 1, by simp only [Heap.lengthAt, Option.bind_none]; simp; omega⟩
      refine (fromArrayLoop_spec (inv_none hi) hlen .nil).imp (iff_true_intro htakes) fun p hp => ?_
      rw [List.append_nil] at hp
      exact hp

/-! ### Clients -/

theorem names_live {s : State σ} (hi : Inv s.heap s.owned) (hn : s.Names t) :
    ∀ a, t = some a → ∃ c, s.heap.cells a = some c := by
  intro a ha
  obtain ⟨o, ho, hr⟩ := hn a ha
  have hlive := hi.live o ho
  clear ho ha
  induction hr with
  | refl => exact hlive
  | tail hc ht _ ih => exact ih (hi.tail _ _ _ hc ht).2

/-- What a call leaves. -/
structure Served (s : State σ) (op : Op σ) (p : State σ × Ret σ) : Prop where
  inv : Inv p.1.heap p.1.owned
  frame : Frame s.heap p.1.heap
  computes : Computes s op p.1 p.2

theorem give_spec {s : State σ} {op : Op σ} {x : Except Fault (Option ℕ × Heap σ)} {xs : List σ}
    {fits : Prop} (h : Does x fits (Gives s.heap s.owned xs))
    (hc : ∀ p : Option ℕ × Heap σ, Spells p.2 p.1 xs →
      Computes s op ⟨p.2, own p.1 + s.owned⟩ (.seq p.1)) :
    Does (s.give x) fits (Served s op) :=
  h.map fun p hp => ⟨hp.inv, hp.frame, hc p hp.spells⟩

theorem step_spec {s : State σ} {op : Op σ} (hi : Inv s.heap s.owned) (ha : s.Allows op) :
    Does (step s op) (s.Fits op) (Served s op) := by
  have hspells : ∀ {t}, s.Names t → ∃ xs, Spells s.heap t xs := fun hn =>
    exists_spells hi (names_live hi hn)
  cases op with
  | cons x t =>
    obtain ⟨xs, hxs⟩ := hspells ha
    refine give_spec ((cons_spec x hi hxs).map fun _ => id) fun p hp ys hys => ?_
    rw [← hxs.unique hys]
    exact ⟨p.1, rfl, hp⟩
  | tail t =>
    obtain ⟨xs, hxs⟩ := hspells ha
    cases hxs with
    | nil =>
      refine .ok trivial ⟨hi, .refl _, fun ys hys => ?_⟩
      cases hys
      exact ⟨none, rfl, .nil⟩
    | @cons a c xs hc ht =>
      rw [step, stringSeqTail, read_of_some hc]
      refine .ok trivial ⟨hi, .refl _, fun ys hys => ⟨c.tail, rfl, ?_⟩⟩
      rw [← (Spells.cons hc ht).unique hys]
      exact ht
  | retain t =>
    obtain ⟨xs, hxs⟩ := hspells ha
    exact Does.map ((retain_spec hi hxs.live).map (R := fun p : Option ℕ × Heap σ =>
        p.1 = t ∧ Inv p.2 (own t + s.owned) ∧ Frame s.heap p.2)
      fun h' hr => ⟨rfl, hr.inv, hr.frame⟩) fun p hp => by
        obtain ⟨t', h'⟩ := p
        obtain ⟨rfl, hi', hf⟩ := hp
        exact ⟨hi', hf, rfl⟩
  | free t =>
    have howned : own t + (s.owned - own t) = s.owned := add_tsub_cancel_of_le ha
    rw [← howned] at hi
    obtain ⟨h', hfree, hi', hf⟩ := free_spec hi
    rw [step, hfree]
    exact .ok trivial ⟨hi', hf, rfl⟩
  | reverse t =>
    obtain ⟨xs, hxs⟩ := hspells ha
    refine give_spec ((reverse_spec hi hxs).imp Iff.rfl fun _ hp => hp.1) fun p hp ys hys => ?_
    rw [← hxs.unique hys]
    exact ⟨p.1, rfl, hp⟩
  | concat a b =>
    obtain ⟨xs, hxs⟩ := hspells ha.1
    obtain ⟨ys, hys⟩ := hspells ha.2
    rcases a with _ | a
    · refine give_spec (retain_gives hi hys) fun p hp xs' ys' hxs' hys' => ?_
      cases hxs'
      rw [← hys.unique hys']
      exact ⟨p.1, rfl, hp⟩
    · refine give_spec (concat_spec hi hxs hys) fun p hp xs' ys' hxs' hys' => ?_
      rw [← hxs.unique hxs', ← hys.unique hys']
      exact ⟨p.1, rfl, hp⟩
  | take t n =>
    obtain ⟨xs, hxs⟩ := hspells ha
    refine give_spec (take_spec n hi hxs) fun p hp ys hys => ?_
    rw [← hxs.unique hys]
    exact ⟨p.1, rfl, hp⟩
  | drop t n =>
    obtain ⟨xs, hxs⟩ := hspells ha
    refine give_spec (drop_spec n hi hxs) fun p hp ys hys => ?_
    rw [← hxs.unique hys]
    exact ⟨p.1, rfl, hp⟩
  | fromArray arr count =>
    exact give_spec (fromArray_spec hi ha.1 ha.2) fun p hp => ⟨p.1, rfl, hp⟩
  | toArray t =>
    obtain ⟨xs, hxs⟩ := hspells ha
    rw [step, toArray_spec hi hxs]
    refine .ok trivial ⟨hi, .refl _, fun ys hys => ?_⟩
    rw [← hxs.unique hys]

theorem reached_inv {s : State σ} (hr : Reached s) : Inv s.heap s.owned := by
  induction hr with
  | start =>
    have hnone : ∀ {a c}, (Heap.empty : Heap σ).cells a = some c → False := fun hc => by cases hc
    exact ⟨fun _ _ => rfl, fun _ _ _ hc => (hnone hc).elim,
      fun _ ha => absurd ha (Multiset.notMem_zero _), fun _ _ hc => (hnone hc).elim,
      fun _ _ hc => (hnone hc).elim, fun _ _ hc => (hnone hc).elim, fun _ _ hc => (hnone hc).elim⟩
  | @step s s' op r _ ha hs ih =>
    have hdoes := step_spec ih ha
    by_cases hf : s.Fits op
    · obtain ⟨p, hp, hserved⟩ := hdoes.1 hf
      rw [hs] at hp
      cases hp
      exact hserved.inv
    · rw [hdoes.2 hf] at hs
      cases hs

/-- The last of the cells has no owner but the client. -/
theorem cells_of_owned_zero (hi : Inv h 0) (a : ℕ) : h.cells a = none := by
  by_contra hne
  classical
  obtain ⟨d, hd⟩ := Option.ne_none_iff_exists'.1 hne
  have hlive := Nat.findGreatest_spec (P := fun x => h.cells x ≠ none) (hi.lt_next hd).le hne
  have hlast : ∀ x, Nat.findGreatest (fun x => h.cells x ≠ none) h.next < x → x ≤ h.next →
      ¬ h.cells x ≠ none := fun _ hlt hle => Nat.findGreatest_is_greatest hlt hle
  generalize Nat.findGreatest (fun x => h.cells x ≠ none) h.next = b at hlive hlast
  obtain ⟨c, hc⟩ := Option.ne_none_iff_exists'.1 hlive
  have hcount := hi.count b c hc
  have hpos := hi.pos b c hc
  have hzero : h.tailsTo b = 0 := by
    rw [Heap.tailsTo, Finset.card_eq_zero, Finset.filter_eq_empty_iff]
    intro x _ hx
    obtain ⟨d, hd, ht⟩ := Option.bind_eq_some_iff.1 hx
    refine hlast x (hi.tail x d b hd ht).1 (hi.lt_next hd).le ?_
    rw [hd]
    exact Option.some_ne_none d
  rw [hzero, Multiset.count_zero] at hcount
  omega

theorem exact_of_inv {s : State σ} (hi : Inv s.heap s.owned) : s.Exact where
  fresh := hi.fresh
  count := hi.count
  live o ho a hr := names_live hi (t := some a) (fun b hb => by
    cases hb
    exact ⟨o, ho, hr⟩) a rfl
  list t hn := by
    obtain ⟨xs, hxs⟩ := exists_spells hi (names_live hi hn)
    exact ⟨xs, hxs, by rw [length_spec hxs.live, lengthAt_eq hi hxs]⟩
  freed ho := cells_of_owned_zero (ho ▸ hi)

/-- In every run the counts are exact, and a call does what its name says, and leaves what is still
owned as it was, if and only if no cell gets more owners and no list more elements than an `int`
counts. -/
theorem calls_exact {s : State σ} (hr : Reached s) : s.Exact ∧ ∀ op, s.Allows op →
    ((∃ s' r, step s op = .ok (s', r) ∧ Computes s op s' r ∧ s.Keeps s') ↔ s.Fits op) := by
  have hi := reached_inv hr
  refine ⟨exact_of_inv hi, fun op ha => ?_⟩
  have hdoes := step_spec hi ha
  constructor
  · rintro ⟨s', r, hs, -⟩
    by_contra hf
    rw [hdoes.2 hf] at hs
    cases hs
  · intro hf
    obtain ⟨⟨s', r⟩, hs, hserved⟩ := hdoes.1 hf
    exact ⟨s', r, hs, hserved.computes, fun t xs hxs hn =>
      spells_frame hi hserved.inv hserved.frame hxs (names_live hserved.inv hn)⟩

theorem manyOwners_names {n : ℕ} (hpos : 1 ≤ n) : (manyOwners n).Names (some 0) := by
  intro a ha
  cases ha
  exact ⟨0, Multiset.mem_replicate.2 ⟨by omega, rfl⟩, .refl 0⟩

theorem manyOwners_cell (n : ℕ) : (manyOwners n).heap.cells 0 = some ⟨n, 1, (), none⟩ := by
  simp [manyOwners]

theorem manyOwners_retain (n : ℕ) : step (manyOwners n) (.retain (some 0))
    = if (n : ℤ) < intMax then .ok (manyOwners (n + 1), .seq (some 0)) else .error .overflow := by
  split_ifs with hlt
  · have hretain : stringSeqRetain (some 0) (manyOwners n).heap
        = .ok (manyOwners (n + 1)).heap := by
      rw [retain_eq (manyOwners_cell n), if_pos hlt]
      refine congrArg Except.ok ?_
      simp only [manyOwners, Heap.write, Function.update_idem, Nat.cast_succ]
    have howned : own (some 0) + (manyOwners n).owned = (manyOwners (n + 1)).owned :=
      (Multiset.replicate_succ 0 n).symm
    rw [step, hretain, State.give, Except.map, Except.map, howned]
  · have hretain : stringSeqRetain (some 0) (manyOwners n).heap = .error .overflow := by
      rw [retain_eq (manyOwners_cell n), if_neg hlt]
    rw [step, hretain, State.give, Except.map, Except.map]

theorem manyOwners_reached {n : ℕ} (hpos : 1 ≤ n) (hmax : (n : ℤ) ≤ intMax) :
    Reached (manyOwners n) := by
  induction n, hpos using Nat.le_induction with
  | base =>
    have hallows : State.Allows (⟨.empty, 0⟩ : State Unit) (.cons () none) :=
      fun a ha => nomatch ha
    have hstep : step (⟨.empty, 0⟩ : State Unit) (.cons () none)
        = .ok (manyOwners 1, .seq (some 0)) := rfl
    exact .step .start hallows hstep
  | succ n hpos ih =>
    have hlt : (n : ℤ) < intMax := by omega
    have hallows : (manyOwners n).Allows (.retain (some 0)) := manyOwners_names hpos
    exact .step (ih hlt.le) hallows ((manyOwners_retain n).trans (if_pos hlt))

/-- The owner after the last that an `int` counts. -/
theorem retain_overflows : Reached (manyOwners (2 ^ 31 - 1))
    ∧ (manyOwners (2 ^ 31 - 1)).Allows (.retain (some 0))
    ∧ step (manyOwners (2 ^ 31 - 1)) (.retain (some 0)) = .error .overflow := by
  have hmax : ((2 ^ 31 - 1 : ℕ) : ℤ) = intMax := by norm_num [intMax]
  refine ⟨manyOwners_reached (by norm_num) hmax.le, manyOwners_names (by norm_num), ?_⟩
  rw [manyOwners_retain, hmax, if_neg (lt_irrefl _)]

/-- A list of one element, and its reverse. -/
theorem calls_exact_reverse : (manyOwners 2).Exact
    ∧ ∃ s' r, step (manyOwners 2) (.reverse (some 0)) = .ok (s', r)
      ∧ Computes (manyOwners 2) (.reverse (some 0)) s' r ∧ (manyOwners 2).Keeps s' := by
  have hr : Reached (manyOwners 2) := manyOwners_reached (by decide) (by decide)
  have hnames : (manyOwners 2).Names (some 0) := by
    intro a ha
    cases ha
    exact ⟨0, Multiset.mem_replicate.2 ⟨by decide, rfl⟩, .refl 0⟩
  exact ⟨(calls_exact hr).1, ((calls_exact hr).2 (.reverse (some 0)) hnames).2 trivial⟩

end StringSeq

end Qjs
