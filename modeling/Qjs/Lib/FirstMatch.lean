import Mathlib

/-!
# The first occurrence of a list in another

`cut n s` is what stands before and after the first occurrence of `n` in `s`. Where no end of `n` is
a beginning of it, an `n` that follows a list without `n` is the first (`cut_append`).
-/

namespace FirstMatch

universe u

variable {α : Type u} [DecidableEq α]

def cut (n : List α) : List α → Option (List α × List α)
  | [] => if n = [] then some ([], []) else none
  | a :: s =>
    if n <+: a :: s then some ([], (a :: s).drop n.length)
    else (cut n s).map fun p => (a :: p.1, p.2)

theorem cut_cons_pos {n s : List α} {a : α} (h : n <+: a :: s) :
    cut n (a :: s) = some ([], (a :: s).drop n.length) := if_pos h

theorem cut_cons_neg {n s : List α} {a : α} (h : ¬ n <+: a :: s) :
    cut n (a :: s) = (cut n s).map fun p => (a :: p.1, p.2) := if_neg h

theorem cut_self (n s : List α) : cut n (n ++ s) = some ([], s) := by
  rcases h : n ++ s with _ | ⟨a, t⟩
  · obtain ⟨rfl, rfl⟩ := List.append_eq_nil_iff.1 h
    rfl
  · rw [cut_cons_pos ⟨s, h⟩, ← h, List.drop_left]

theorem eq_of_cut {n s a b : List α} (h : cut n s = some (a, b)) : s = a ++ (n ++ b) := by
  induction s generalizing a with
  | nil =>
    rw [cut] at h
    split_ifs at h with hn
    obtain ⟨rfl, rfl⟩ := Prod.mk.inj (Option.some.inj h)
    rw [hn]
    rfl
  | cons c s ih =>
    by_cases hp : n <+: c :: s
    · rw [cut_cons_pos hp] at h
      obtain ⟨rfl, rfl⟩ := Prod.mk.inj (Option.some.inj h)
      obtain ⟨t, ht⟩ := hp
      rw [← ht, List.drop_left]
      rfl
    · rw [cut_cons_neg hp] at h
      obtain ⟨⟨a', b'⟩, hcut, heq⟩ := Option.map_eq_some_iff.1 h
      obtain ⟨rfl, rfl⟩ := Prod.mk.inj heq
      rw [ih hcut]
      rfl

theorem length_of_cut {n s a b : List α} (h : cut n s = some (a, b)) :
    s.length = a.length + n.length + b.length := by
  rw [eq_of_cut h, List.length_append, List.length_append, Nat.add_assoc]

/-- No occurrence comes before the first. -/
theorem cut_le {n s a b : List α} (h : cut n s = some (a, b)) {x y : List α}
    (hs : s = x ++ (n ++ y)) : a.length ≤ x.length := by
  induction s generalizing a x with
  | nil =>
    have hx := congrArg List.length (eq_of_cut h)
    simp at hx
    omega
  | cons c s ih =>
    by_cases hp : n <+: c :: s
    · rw [cut_cons_pos hp] at h
      obtain ⟨rfl, rfl⟩ := Prod.mk.inj (Option.some.inj h)
      exact Nat.zero_le _
    · rw [cut_cons_neg hp] at h
      obtain ⟨⟨a', b'⟩, hcut, heq⟩ := Option.map_eq_some_iff.1 h
      obtain ⟨rfl, rfl⟩ := Prod.mk.inj heq
      rcases x with _ | ⟨d, x⟩
      · exact absurd ⟨y, hs.symm⟩ hp
      · have := ih hcut (List.cons.inj hs).2
        simpa using this

theorem cut_isSome {n x y : List α} : (cut n (x ++ (n ++ y))).isSome := by
  induction x with
  | nil =>
    rw [List.nil_append, cut_self]
    rfl
  | cons c x ih =>
    by_cases hp : n <+: c :: (x ++ (n ++ y))
    · rw [List.cons_append, cut_cons_pos hp]
      rfl
    · rw [List.cons_append, cut_cons_neg hp, Option.isSome_map]
      exact ih

theorem cut_eq_none {n s : List α} : cut n s = none ↔ ¬ n <:+: s := by
  constructor
  · rintro h ⟨x, y, rfl⟩
    have := @cut_isSome α _ n x y
    rw [← List.append_assoc, h] at this
    cases this
  · intro h
    rcases hcut : cut n s with _ | ⟨a, b⟩
    · rfl
    · exact absurd ⟨a, b, by rw [eq_of_cut hcut, List.append_assoc]⟩ h

/-- The first occurrence is the one that no occurrence comes before. -/
theorem cut_of_first {n a b : List α}
    (h : ∀ x y, a ++ (n ++ b) = x ++ (n ++ y) → a.length ≤ x.length) :
    cut n (a ++ (n ++ b)) = some (a, b) := by
  rcases hcut : cut n (a ++ (n ++ b)) with _ | ⟨a', b'⟩
  · exact absurd hcut (Option.isSome_iff_ne_none.1 cut_isSome)
  · have hlen : a.length = a'.length := le_antisymm (h _ _ (eq_of_cut hcut)) (cut_le hcut rfl)
    obtain ⟨rfl, htail⟩ := List.append_inj (eq_of_cut hcut) hlen
    rw [List.append_cancel_left htail]

/-- The first occurrence stays the first when more follows. -/
theorem cut_append_right {n x a b : List α} (h : cut n x = some (a, b)) (y : List α) :
    cut n (x ++ y) = some (a, b ++ y) := by
  have hx := eq_of_cut h
  have hxy : x ++ y = a ++ (n ++ (b ++ y)) := by rw [hx, List.append_assoc, List.append_assoc]
  rw [hxy]
  refine cut_of_first fun c d hcd => ?_
  by_contra hlt
  have hlen : c.length + n.length ≤ x.length := by
    have := length_of_cut h
    omega
  have hpre : c ++ n <+: x := by
    refine @List.prefix_of_prefix_length_le _ _ _ (x ++ y) ?_ (List.prefix_append x y)
      (by simpa using hlen)
    exact ⟨d, by rw [hxy, hcd, List.append_assoc]⟩
  obtain ⟨e, he⟩ := hpre
  have := cut_le h (he.symm.trans (List.append_assoc c n e))
  omega

/-- The first occurrence is found in any beginning that reaches over it. -/
theorem cut_of_append {n x y a b : List α} (h : cut n (x ++ y) = some (a, b))
    (hlen : a.length + n.length ≤ x.length) : ∃ b', cut n x = some (a, b') ∧ b = b' ++ y := by
  have hpre : a ++ n <+: x := by
    refine @List.prefix_of_prefix_length_le _ _ _ (x ++ y) ?_ (List.prefix_append x y)
      (by simpa using hlen)
    exact ⟨b, by rw [eq_of_cut h, List.append_assoc]⟩
  obtain ⟨b', rfl⟩ := hpre
  have hcut : cut n (a ++ (n ++ b')) = some (a, b') := by
    refine cut_of_first fun c d hcd => cut_le h (y := d ++ y) ?_
    rw [List.append_assoc, List.append_assoc] at *
    rw [← List.append_assoc n, ← List.append_assoc a, hcd]
    simp
  refine ⟨b', by rw [List.append_assoc]; exact hcut, ?_⟩
  have := eq_of_cut h
  simpa using this.symm

/-- No end of `n` is a beginning of it. -/
def Unbordered (n : List α) : Prop := ∀ p s, n = p ++ s → s <+: n → p = [] ∨ s = []

omit [DecidableEq α] in
theorem unbordered_singleton (c : α) : Unbordered [c] := by
  intro p s h _
  rcases p with _ | ⟨d, p⟩
  · exact .inl rfl
  · have htail := (List.cons.inj h).2
    exact .inr (List.append_eq_nil_iff.1 htail.symm).2

omit [DecidableEq α] in
theorem unbordered_pair {c d : α} (h : c ≠ d) : Unbordered [c, d] := by
  intro p s hps hs
  rcases p with _ | ⟨a, _ | ⟨b, p⟩⟩
  · exact .inl rfl
  · have hs' : s = [d] := (List.cons.inj hps).2.symm
    subst hs'
    exact absurd (List.cons_prefix_cons.1 hs).1 h.symm
  · have htail := (List.cons.inj (List.cons.inj hps).2).2
    exact .inr (List.append_eq_nil_iff.1 htail.symm).2

theorem cut_append {n a : List α} (hn : Unbordered n) (ha : ¬ n <:+: a)
    (b : List α) : cut n (a ++ (n ++ b)) = some (a, b) := by
  induction a with
  | nil => exact cut_self n b
  | cons c a ih =>
    have hnot : ¬ n <+: c :: (a ++ (n ++ b)) := by
      intro hp
      rcases List.prefix_or_prefix_of_prefix hp (List.prefix_append (c :: a) (n ++ b)) with
        hpa | hpa
      · exact ha hpa.isInfix
      · obtain ⟨s, hs⟩ := hpa
        obtain ⟨t, ht⟩ := hp
        have hsn : s <+: n := by
          have hpre : s <+: n ++ b := by
            refine ⟨t, @List.append_cancel_left _ (c :: a) _ _ ?_⟩
            rw [← List.append_assoc, hs]
            exact ht
          have hlen := congrArg List.length hs
          rw [List.length_append, List.length_cons] at hlen
          exact List.prefix_of_prefix_length_le hpre (List.prefix_append n b) (by omega)
        rcases hn _ _ hs.symm hsn with h | h
        · cases h
        · rw [h, List.append_nil] at hs
          exact ha (hs ▸ List.infix_rfl)
    rw [List.cons_append, cut_cons_neg hnot, ih fun h => ha (List.infix_cons h)]
    rfl

omit [DecidableEq α] in
/-- What does not have `c` does not reach over it. -/
theorem infix_append_cons {n a b : List α} {c : α} (hc : c ∉ n) (h : n <:+: a ++ c :: b) :
    n <:+: a ∨ n <:+: b := by
  obtain ⟨s, t, hst⟩ := h
  rcases List.append_eq_append_iff.1 hst with ⟨m, ha, -⟩ | ⟨m, hsn, hm⟩
  · exact .inl ⟨s, m, ha.symm⟩
  · rcases m with _ | ⟨d, m⟩
    · exact .inl ⟨s, [], by rw [hsn, List.append_nil, List.append_nil]⟩
    · obtain ⟨rfl, rfl⟩ := List.cons.inj hm
      rcases List.append_eq_append_iff.1 hsn with ⟨k, -, hn⟩ | ⟨k, -, hn⟩
      · exact absurd (hn ▸ List.mem_append_right k List.mem_cons_self) hc
      · rcases k with _ | ⟨d, k⟩
        · rw [List.nil_append] at hn
          exact absurd (hn ▸ List.mem_cons_self) hc
        · rw [(List.cons.inj hn).2]
          exact .inr ⟨k, t, rfl⟩

theorem cut_singleton {c : α} {a : List α} (h : c ∉ a) (b : List α) :
    cut [c] (a ++ c :: b) = some (a, b) :=
  cut_append (unbordered_singleton c) (by rwa [List.singleton_infix_iff]) b

theorem cut_singleton_eq_none {c : α} {s : List α} : cut [c] s = none ↔ c ∉ s := by
  rw [cut_eq_none, List.singleton_infix_iff]

theorem notMem_of_cut {c : α} {s a b : List α} (h : cut [c] s = some (a, b)) : c ∉ a := by
  intro hmem
  obtain ⟨x, y, hxy⟩ := List.append_of_mem hmem
  have hle := cut_le h (x := x) (y := y ++ c :: b) (by rw [eq_of_cut h, hxy]; simp)
  rw [hxy] at hle
  simp at hle

/-- The first `c` is not in what has none. -/
theorem length_le_of_cut {c : α} {x y a b : List α} (h : cut [c] (x ++ y) = some (a, b))
    (hc : c ∉ x) : x.length ≤ a.length := by
  by_contra hlt
  rcases List.append_eq_append_iff.1 (eq_of_cut h) with ⟨m, ha, -⟩ | ⟨m, hx, hm⟩
  · rw [ha, List.length_append] at hlt
    omega
  · rcases m with _ | ⟨d, m⟩
    · rw [List.append_nil] at hx
      exact hlt (hx ▸ le_rfl)
    · obtain ⟨rfl, -⟩ := List.cons.inj hm
      exact hc (hx ▸ List.mem_append_right a List.mem_cons_self)

end FirstMatch
