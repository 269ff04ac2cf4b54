import Mathlib

/-!
# Replacing every occurrence, from left to right

`replaceBy f p r l` exchanges for `r` each occurrence of `p` in `l` that the search from the left
finds, the elements being seen through `f`. What no occurrence touches is left alone
(`replaceBy_append`). With each element may go the place it had at first (`mark`), so that it can be
told what has stood together since then (`Together`): what stands together after a pass did so
before it, and has none of the occurrences (`together_before`).
-/

namespace Replace

universe u v

variable {α : Type u} {β : Type v} [DecidableEq α]

def replaceBy (f : β → α) (p : List α) (r : List β) : List β → List β
  | [] => []
  | x :: l =>
    if p <+: (x :: l).map f then r ++ replaceBy f p r (l.drop (p.length - 1))
    else x :: replaceBy f p r l
  termination_by l => l.length
  decreasing_by
    all_goals
      simp only [List.length_drop, List.length_cons]
      omega

variable {f : β → α} {p : List α} {r l a b x : List β}

@[simp] theorem replaceBy_nil : replaceBy f p r [] = [] := by rw [replaceBy]

theorem replaceBy_cons_neg {c : β} (h : ¬ p <+: (c :: l).map f) :
    replaceBy f p r (c :: l) = c :: replaceBy f p r l := by
  rw [replaceBy, if_neg h]

theorem replaceBy_found (hp : p ≠ []) {m : List β} (hm : m.map f = p) :
    replaceBy f p r (m ++ l) = r ++ replaceBy f p r l := by
  rcases m with _ | ⟨c, m⟩
  · exact absurd hm.symm hp
  · have hlen : p.length - 1 = m.length := by
      rw [← hm, List.length_map]
      rfl
    rw [List.cons_append, replaceBy, if_pos, hlen, List.drop_left]
    rw [← List.cons_append, List.map_append, hm]
    exact List.prefix_append p _

omit [DecidableEq α] in
/-- A beginning of a list that is an occurrence, as a part of the list. -/
theorem exists_of_prefix_map (h : p <+: l.map f) : ∃ m t, l = m ++ t ∧ m.map f = p := by
  refine ⟨l.take p.length, l.drop p.length, (List.take_append_drop _ _).symm, ?_⟩
  rw [List.map_take]
  exact (List.prefix_iff_eq_take.1 h).symm

/-- The cases of a pass over `l`, one for each way that it goes on. -/
theorem replace_induction (hp : p ≠ []) {P : List β → Prop} (nil : P [])
    (found : ∀ m l, m.map f = p → P l → P (m ++ l))
    (keep : ∀ c l, ¬ p <+: (c :: l).map f → P l → P (c :: l)) (l : List β) : P l := by
  induction hlen : l.length using Nat.strong_induction_on generalizing l with
  | h n ih =>
    by_cases h : p <+: l.map f
    · obtain ⟨m, t, rfl, hm⟩ := exists_of_prefix_map h
      have hpos := List.length_pos_of_ne_nil hp
      rw [← hm, List.length_map] at hpos
      exact found m t hm (ih _ (by rw [← hlen, List.length_append]; omega) t rfl)
    · rcases l with _ | ⟨c, l⟩
      · exact nil
      · exact keep c l h (ih _ (by rw [← hlen, List.length_cons]; omega) l rfl)

theorem map_replaceBy {γ : Type*} (h : γ → β) (hp : p ≠ []) (r l : List γ) :
    (replaceBy (f ∘ h) p r l).map h = replaceBy f p (r.map h) (l.map h) := by
  induction l using replace_induction (f := f ∘ h) hp with
  | nil => simp
  | found m l hm ih =>
    rw [replaceBy_found hp hm, List.map_append, List.map_append, ih,
      replaceBy_found hp (by rw [List.map_map, hm])]
  | keep c l hno ih =>
    rw [replaceBy_cons_neg hno, List.map_cons, List.map_cons, ih, replaceBy_cons_neg]
    rwa [← List.map_cons, List.map_map]

theorem replaceBy_of_absent (h : ¬ p <:+: l.map f) : replaceBy f p r l = l := by
  induction l with
  | nil => simp
  | cons c l ih =>
    rw [replaceBy_cons_neg fun hpre => h hpre.isInfix, ih]
    intro hin
    rw [List.map_cons] at h
    exact h (List.infix_cons hin)

/-- What no occurrence begins in is passed over. -/
theorem replaceBy_skip (h : ∀ k < x.length, ¬ p <+: ((x ++ b).drop k).map f) :
    replaceBy f p r (x ++ b) = x ++ replaceBy f p r b := by
  induction x with
  | nil => rfl
  | cons c x ih =>
    have h0 := h 0 (by simp)
    rw [List.cons_append] at h0 ⊢
    rw [replaceBy_cons_neg h0, ih, List.cons_append]
    intro k hk
    simpa using h (k + 1) (by simpa using hk)

/-- What no occurrence touches is left alone, and both sides of it are replaced as if alone. -/
theorem replaceBy_append (hp : p ≠ [])
    (h : ∀ k, p <+: ((a ++ (x ++ b)).drop k).map f →
      k + p.length ≤ a.length ∨ a.length + x.length ≤ k) :
    replaceBy f p r (a ++ (x ++ b)) = replaceBy f p r a ++ (x ++ replaceBy f p r b) := by
  have hpos := List.length_pos_of_ne_nil hp
  induction a using replace_induction (f := f) hp with
  | nil =>
    rw [List.nil_append] at h ⊢
    rw [replaceBy_nil, List.nil_append]
    refine replaceBy_skip fun k hk hpre => ?_
    have := h k hpre
    rw [List.length_nil] at this
    omega
  | found m a hm ih =>
    rw [List.append_assoc, replaceBy_found hp hm, replaceBy_found hp hm, ih]
    · simp only [List.append_assoc]
    · intro k hpre
      have := h (m.length + k) (by rwa [List.append_assoc, ← List.drop_drop, List.drop_left])
      rw [List.length_append] at this
      omega
  | keep c a hno ih =>
    have hno' : ¬ p <+: (c :: (a ++ (x ++ b))).map f := by
      intro hpre
      have hle := h 0 hpre
      refine hno (List.prefix_of_prefix_length_le hpre ?_ ?_)
      · rw [← List.cons_append, List.map_append]
        exact List.prefix_append _ _
      · rw [List.length_map]
        rw [List.length_cons] at hle
        rw [List.length_cons]
        omega
    rw [List.cons_append, replaceBy_cons_neg hno', replaceBy_cons_neg hno, ih, List.cons_append]
    intro k hpre
    have := h (k + 1) (by simpa using hpre)
    rw [List.length_cons] at this
    omega

/-! ### What has stood together -/

/-- Each element with its place, from the place `i` on. -/
def markFrom (i : ℕ) (s : List α) : List (α × Option ℕ) :=
  (s.zipIdx i).map fun e => (e.1, some e.2)

/-- Each element with its place. -/
def mark (s : List α) : List (α × Option ℕ) := markFrom 0 s

/-- What is put in has no place. -/
def unplaced (r : List α) : List (α × Option ℕ) := r.map fun c => (c, none)

/-- The elements stood together at first. -/
def Together (m : List (α × Option ℕ)) : Prop :=
  ∃ i, m.map Prod.snd = (List.range' i m.length).map some

/-- The elements that have places are those of `s` there, in order. -/
structure Placed (s : List α) (l : List (α × Option ℕ)) : Prop where
  mem : ∀ c i, (c, some i) ∈ l → s[i]? = some c
  incr : (l.filterMap Prod.snd).Pairwise (· < ·)

variable {s : List α} {m n t : List (α × Option ℕ)}

omit [DecidableEq α] in
theorem map_fst_markFrom (i : ℕ) (s : List α) : (markFrom i s).map Prod.fst = s := by
  rw [markFrom, List.map_map]
  exact List.zipIdx_map_fst i s

omit [DecidableEq α] in
theorem map_fst_unplaced (r : List α) : (unplaced r).map Prod.fst = r := by
  rw [unplaced, List.map_map]
  exact List.map_id r

omit [DecidableEq α] in
theorem map_snd_markFrom (i : ℕ) (s : List α) :
    (markFrom i s).map Prod.snd = (List.range' i s.length).map some := by
  rw [markFrom, List.map_map]
  have : (s.zipIdx i).map Prod.snd = List.range' i s.length := List.zipIdx_map_snd i s
  rw [← this, List.map_map]
  rfl

omit [DecidableEq α] in
theorem mark_append (a x b : List α) : mark (a ++ (x ++ b))
    = markFrom 0 a ++ (markFrom a.length x ++ markFrom (a.length + x.length) b) := by
  simp [mark, markFrom, List.zipIdx_append]

omit [DecidableEq α] in
theorem placed_mark (s : List α) : Placed s (mark s) := by
  constructor
  · intro c i h
    obtain ⟨⟨d, j⟩, hmem, heq⟩ := List.mem_map.1 h
    cases heq
    exact List.mk_mem_zipIdx_iff_getElem?.1 hmem
  · have h : (mark s).filterMap Prod.snd = List.range' 0 s.length := by
      have := congrArg (List.filterMap id) (map_snd_markFrom 0 s)
      rw [List.filterMap_map, List.filterMap_map] at this
      exact this.trans List.filterMap_some
    rw [h]
    exact List.pairwise_lt_range'

theorem mem_of_mem_replaceBy (hp : p ≠ []) {q : List α} {c : α} {i : ℕ}
    (h : (c, some i) ∈ replaceBy Prod.fst p (unplaced q) t) : (c, some i) ∈ t := by
  induction t using replace_induction (f := (Prod.fst : α × Option ℕ → α)) hp with
  | nil => simp at h
  | found m t hm ih =>
    rw [replaceBy_found hp hm, List.mem_append] at h
    rcases h with h | h
    · obtain ⟨d, -, hd⟩ := List.mem_map.1 h
      cases hd
    · exact List.mem_append_right m (ih h)
  | keep d t hno ih =>
    rw [replaceBy_cons_neg hno] at h
    rcases List.mem_cons.1 h with rfl | h
    · exact List.mem_cons_self
    · exact List.mem_cons_of_mem d (ih h)

theorem placed_replaceBy (hp : p ≠ []) {q : List α} (h : Placed s t) :
    Placed s (replaceBy Prod.fst p (unplaced q) t) := by
  refine ⟨fun c i hc => h.mem c i (mem_of_mem_replaceBy hp hc), ?_⟩
  refine List.Pairwise.sublist ?_ h.incr
  clear h
  induction t using replace_induction (f := (Prod.fst : α × Option ℕ → α)) hp with
  | nil => simp
  | found m t hm ih =>
    have hnone : (unplaced q).filterMap Prod.snd = [] := by
      simp [unplaced, List.filterMap_map]
    rw [replaceBy_found hp hm, List.filterMap_append, hnone, List.nil_append,
      List.filterMap_append]
    exact ih.trans (List.sublist_append_right _ _)
  | keep d t hno ih =>
    rw [replaceBy_cons_neg hno]
    rcases d with ⟨d, _ | i⟩
    · exact ih
    · exact ih.cons_cons i

omit [DecidableEq α] in
theorem together_cons {c : α × Option ℕ} {j : ℕ}
    (h : (c :: m).map Prod.snd = (List.range' j (c :: m).length).map some) :
    c.2 = some j ∧ m.map Prod.snd = (List.range' (j + 1) m.length).map some := by
  rw [List.map_cons, List.length_cons, List.range'_succ, List.map_cons] at h
  exact List.cons.inj h

omit [DecidableEq α] in
theorem no_occurrence_cons {c : β} (hno : ¬ p <+: (c :: l).map f)
    (h : a <+: l ∧ ¬ p <:+: a.map f) : c :: a <+: c :: l ∧ ¬ p <:+: (c :: a).map f := by
  have hpre : c :: a <+: c :: l := List.cons_prefix_cons.2 ⟨rfl, h.1⟩
  refine ⟨hpre, ?_⟩
  intro hin
  rcases List.infix_cons_iff.1 hin with hp | hp
  · exact hno (hp.trans (hpre.map f))
  · exact h.2 hp

/-- What stands together behind the place `j` after a pass, in a list of places from `j` on. -/
theorem together_start (hp : p ≠ []) {q : List α} {j : ℕ}
    (hocc : ∀ o, o <:+: t → o.map Prod.fst = p → Together o)
    (hincr : (t.filterMap Prod.snd).Pairwise (· < ·)) (hj : ∀ i ∈ t.filterMap Prod.snd, j ≤ i)
    (hm : m <+: replaceBy Prod.fst p (unplaced q) t)
    (htags : m.map Prod.snd = (List.range' j m.length).map some) :
    m <+: t ∧ ¬ p <:+: m.map Prod.fst := by
  have hnil : ∀ t : List (α × Option ℕ),
      [] <+: t ∧ ¬ p <:+: ([] : List (α × Option ℕ)).map Prod.fst := fun t =>
    ⟨List.nil_prefix, fun h => hp (List.infix_nil.1 h)⟩
  induction t using replace_induction (f := (Prod.fst : α × Option ℕ → α)) hp
    generalizing m j with
  | nil =>
    rw [replaceBy_nil, List.prefix_nil] at hm
    rw [hm]
    exact hnil []
  | found o t ho ih =>
    rcases m with _ | ⟨⟨c, g⟩, m⟩
    · exact hnil _
    · -- the place `j` is behind the occurrence, but no place before it is left
      obtain ⟨rfl, -⟩ := together_cons htags
      rw [replaceBy_found hp ho] at hm
      have hmem : (c, some j) ∈ t := by
        have := hm.subset List.mem_cons_self
        rw [List.mem_append] at this
        rcases this with h | h
        · obtain ⟨d, -, hd⟩ := List.mem_map.1 h
          cases hd
        · exact mem_of_mem_replaceBy hp h
      obtain ⟨i, hi⟩ := hocc o (List.prefix_append o t).isInfix ho
      rcases o with _ | ⟨d, o⟩
      · exact absurd ho.symm hp
      · have hd := (together_cons hi).1
        have hle : j ≤ i := hj i (List.mem_filterMap.2 ⟨d, by simp, hd⟩)
        rw [List.filterMap_append, List.pairwise_append] at hincr
        have hlt := hincr.2.2 i (List.mem_filterMap.2 ⟨d, by simp, hd⟩) j
          (List.mem_filterMap.2 ⟨_, hmem, rfl⟩)
        omega
  | keep d t hno ih =>
    rcases m with _ | ⟨c, m⟩
    · exact hnil _
    · obtain ⟨hc, htags'⟩ := together_cons htags
      rw [replaceBy_cons_neg hno] at hm
      obtain ⟨rfl, htail⟩ := List.cons_prefix_cons.1 hm
      rw [List.filterMap_cons, hc, List.pairwise_cons] at hincr
      exact no_occurrence_cons hno (ih (fun o ho => hocc o (List.infix_cons ho)) hincr.2
        (fun i hi => hincr.1 i hi) htail htags')

omit [DecidableEq α] in
/-- What has places is not in what is put in. -/
theorem infix_of_unplaced {q : List α} (hne : m ≠ []) (h : Together m)
    (hm : m <:+: unplaced q ++ t) : m <:+: t := by
  induction q with
  | nil => exact hm
  | cons c q ih =>
    rw [unplaced, List.map_cons, List.cons_append] at hm
    rcases List.infix_cons_iff.1 hm with hpre | hin
    · obtain ⟨d, m, rfl⟩ := List.exists_cons_of_ne_nil hne
      obtain ⟨i, hi⟩ := h
      obtain ⟨rfl, -⟩ := List.cons_prefix_cons.1 hpre
      cases (together_cons hi).1
    · exact ih hin

/-- What stands together after a pass stood together before it, and is no occurrence. -/
theorem together_before (hp : p ≠ []) {q : List α}
    (hocc : ∀ o, o <:+: t → o.map Prod.fst = p → Together o)
    (hincr : (t.filterMap Prod.snd).Pairwise (· < ·)) (hne : m ≠ []) (h : Together m)
    (hm : m <:+: replaceBy Prod.fst p (unplaced q) t) : m <:+: t ∧ ¬ p <:+: m.map Prod.fst := by
  induction t using replace_induction (f := (Prod.fst : α × Option ℕ → α)) hp with
  | nil =>
    rw [replaceBy_nil, List.infix_nil] at hm
    exact absurd hm hne
  | found o t ho ih =>
    rw [replaceBy_found hp ho] at hm
    rw [List.filterMap_append, List.pairwise_append] at hincr
    obtain ⟨h1, h2⟩ := ih (fun o' ho' => hocc o' (ho'.trans (List.suffix_append o t).isInfix))
      hincr.2.1 (infix_of_unplaced hne h hm)
    exact ⟨h1.trans (List.suffix_append o t).isInfix, h2⟩
  | keep c t hno ih =>
    have hincr' : (t.filterMap Prod.snd).Pairwise (· < ·) :=
      hincr.sublist ((List.sublist_cons_self c t).filterMap _)
    rw [replaceBy_cons_neg hno] at hm
    rcases List.infix_cons_iff.1 hm with hpre | hin
    · obtain ⟨d, m, rfl⟩ := List.exists_cons_of_ne_nil hne
      obtain ⟨rfl, htail⟩ := List.cons_prefix_cons.1 hpre
      obtain ⟨j, hj⟩ := h
      obtain ⟨hd, htags⟩ := together_cons hj
      rw [List.filterMap_cons, hd, List.pairwise_cons] at hincr
      obtain ⟨h1, h2⟩ := no_occurrence_cons hno (together_start hp
        (fun o ho => hocc o (List.infix_cons ho)) hincr' (fun i hi => hincr.1 i hi) htail htags)
      exact ⟨h1.isInfix, h2⟩
    · obtain ⟨h1, h2⟩ := ih (fun o ho => hocc o (List.infix_cons ho)) hincr' hin
      exact ⟨List.infix_cons h1, h2⟩

/-! ### One pass after another -/

/-- The pairs of a pattern and a replacement, each in a pass of its own. -/
def passes (rs : List (List α × List α)) (s : List α) : List α :=
  rs.foldl (fun s q => replaceBy id q.1 q.2 s) s

/-- The same, with the places. -/
def markedPasses (rs : List (List α × List α)) (t : List (α × Option ℕ)) : List (α × Option ℕ) :=
  rs.foldl (fun t q => replaceBy Prod.fst q.1 (unplaced q.2) t) t

/-- Before and after each pass, an occurrence of a pattern is of elements that stood together at
first: none is formed where something was replaced. -/
def SeamFree (rs : List (List α × List α)) (s : List α) : Prop :=
  ∀ qs, qs <+: rs → ∀ m, m <:+: markedPasses qs (mark s) → (∃ q ∈ rs, m.map Prod.fst = q.1) →
    Together m

variable {rs qs : List (List α × List α)}

theorem markedPasses_concat (q : List α × List α) : markedPasses (qs ++ [q]) t
    = replaceBy Prod.fst q.1 (unplaced q.2) (markedPasses qs t) := by
  simp [markedPasses]

theorem map_markedPasses (hp : ∀ q ∈ qs, q.1 ≠ []) :
    (markedPasses qs t).map Prod.fst = passes qs (t.map Prod.fst) := by
  induction qs generalizing t with
  | nil => rfl
  | cons q qs ih =>
    have h := map_replaceBy (f := id) (Prod.fst : α × Option ℕ → α) (hp q List.mem_cons_self)
      (unplaced q.2) t
    rw [Function.id_comp, map_fst_unplaced] at h
    rw [markedPasses, passes, List.foldl_cons, List.foldl_cons, ← h]
    exact ih fun q hq => hp q (List.mem_cons_of_mem _ hq)

theorem placed_markedPasses (hp : ∀ q ∈ qs, q.1 ≠ []) : Placed s (markedPasses qs (mark s)) := by
  induction qs using List.reverseRecOn with
  | nil => exact placed_mark s
  | append_singleton qs q ih =>
    rw [markedPasses_concat]
    exact placed_replaceBy (hp q (by simp)) (ih fun q hq => hp q (List.mem_append_left _ hq))

/-- Where no occurrence is formed at a seam, none is left. -/
theorem not_infix_passes (hp : ∀ q ∈ rs, q.1 ≠ []) (h : SeamFree rs s) {q : List α × List α}
    (hq : q ∈ rs) : ¬ q.1 <:+: passes rs s := by
  have hmarked : ∀ qs, qs <+: rs → q ∈ qs →
      ∀ m, m <:+: markedPasses qs (mark s) → m.map Prod.fst ≠ q.1 := by
    intro qs
    induction qs using List.reverseRecOn with
    | nil => exact fun _ h => absurd h List.not_mem_nil
    | append_singleton qs q' ih =>
      intro hqs hmem m hm hmq
      have hqs' : qs <+: rs := (List.prefix_append qs [q']).trans hqs
      have hq' : q' ∈ rs := hqs.subset (by simp)
      have hne : m ≠ [] := by
        rintro rfl
        exact hp q hq hmq.symm
      have htog := h _ hqs m hm ⟨q, hq, hmq⟩
      rw [markedPasses_concat] at hm
      obtain ⟨h1, h2⟩ := together_before (hp q' hq')
        (fun o ho hoq => h qs hqs' o ho ⟨q', hq', hoq⟩)
        (placed_markedPasses fun q hq => hp q (hqs'.subset hq)).incr hne htog hm
      rcases List.mem_append.1 hmem with hmem | hmem
      · exact ih hqs' hmem m h1 hmq
      · obtain rfl := List.mem_singleton.1 hmem
        exact h2 (hmq ▸ List.infix_rfl)
  have hmap := @map_markedPasses _ _ (mark s) rs hp
  rw [mark, map_fst_markFrom] at hmap
  rintro ⟨x, y, hxy⟩
  rw [← hmap] at hxy
  obtain ⟨l₁, l₂, hl, h1, h2⟩ := List.map_eq_append_iff.1 hxy.symm
  obtain ⟨l₃, l₄, rfl, h3, h4⟩ := List.map_eq_append_iff.1 h1
  exact hmarked rs List.prefix_rfl hq l₄ ⟨l₃, l₂, hl.symm⟩ h4

omit [DecidableEq α] in
/-- What stands together in order is a part of the list. -/
theorem prefix_of_together {i : ℕ} (h : Placed s t) (hm : m ⊆ t)
    (htags : m.map Prod.snd = (List.range' i m.length).map some) :
    m.map Prod.fst <+: s.drop i := by
  induction m generalizing i with
  | nil => exact List.nil_prefix
  | cons c m ih =>
    obtain ⟨hc, htags'⟩ := together_cons htags
    have hmem : (c.1, some i) ∈ t := by
      rw [← hc]
      exact hm List.mem_cons_self
    obtain ⟨hi, hget⟩ := List.getElem?_eq_some_iff.1 (h.mem _ _ hmem)
    rw [List.map_cons, List.drop_eq_getElem_cons hi, hget, List.cons_prefix_cons]
    exact ⟨rfl, ih (fun d hd => hm (List.mem_cons_of_mem c hd)) htags'⟩

/-- Where no occurrence is formed at a seam, what no occurrence touches is left alone, and both
sides of it are replaced as if alone. -/
theorem passes_append {a x b : List α} (hp : ∀ q ∈ rs, q.1 ≠ []) (h : SeamFree rs (a ++ (x ++ b)))
    (hx : x ≠ []) (hno : ∀ q ∈ rs, ∀ k, q.1 <+: (a ++ (x ++ b)).drop k →
      k + q.1.length ≤ a.length ∨ a.length + x.length ≤ k) :
    passes rs (a ++ (x ++ b)) = passes rs a ++ (x ++ passes rs b) := by
  have hmarked : ∀ qs, qs <+: rs → markedPasses qs (mark (a ++ (x ++ b)))
      = markedPasses qs (markFrom 0 a) ++ (markFrom a.length x
        ++ markedPasses qs (markFrom (a.length + x.length) b)) := by
    intro qs
    induction qs using List.reverseRecOn with
    | nil => exact fun _ => mark_append a x b
    | append_singleton qs q ih =>
      intro hqs
      have hqs' : qs <+: rs := (List.prefix_append qs [q]).trans hqs
      have hq : q ∈ rs := hqs.subset (by simp)
      have hpos := List.length_pos_of_ne_nil (hp q hq)
      have hseam := h qs hqs'
      have hplaced : Placed (a ++ (x ++ b)) (markedPasses qs (mark (a ++ (x ++ b)))) :=
        placed_markedPasses fun q hq => hp q (hqs'.subset hq)
      rw [ih hqs'] at hseam hplaced
      simp only [markedPasses_concat]
      rw [ih hqs']
      generalize markedPasses qs (markFrom 0 a) = A at hseam hplaced
      generalize markedPasses qs (markFrom (a.length + x.length) b) = B at hseam hplaced
      refine replaceBy_append (hp q hq) fun k hpre => ?_
      have hxlen : (markFrom a.length x).length = x.length := by
        rw [← List.length_map Prod.fst, map_fst_markFrom]
      obtain ⟨m, tail, htail, hm⟩ := exists_of_prefix_map hpre
      have hmlen : m.length = q.1.length := by rw [← hm, List.length_map]
      have hin : m <:+: A ++ (markFrom a.length x ++ B) := by
        refine (List.IsInfix.trans ?_ (List.drop_suffix k _).isInfix)
        exact ⟨[], tail, htail.symm⟩
      obtain ⟨i, hi⟩ := hseam m hin ⟨q, hq, hm⟩
      have hocc := prefix_of_together hplaced hin.subset hi
      rw [hm] at hocc
      have hside := hno q hq i hocc
      rw [hxlen]
      by_contra hover
      push Not at hover
      have hxpos := List.length_pos_of_ne_nil hx
      -- a place that the occurrence and the untouched part have in common
      obtain ⟨j, hj1, hj2, hj3, hj4⟩ : ∃ j, k ≤ j ∧ A.length ≤ j ∧ j < k + q.1.length
          ∧ j < A.length + x.length := ⟨max k A.length, by omega, by omega, by omega, by omega⟩
      have hleft : ((A ++ (markFrom a.length x ++ B))[j]?).map Prod.snd
          = some (some (a.length + (j - A.length))) := by
        rw [List.getElem?_append_right hj2, List.getElem?_append_left (by omega),
          ← List.getElem?_map, map_snd_markFrom, List.getElem?_map, List.getElem?_range' (by omega)]
        simp
      have hright : ((A ++ (markFrom a.length x ++ B))[j]?).map Prod.snd
          = some (some (i + (j - k))) := by
        have hdrop : (A ++ (markFrom a.length x ++ B))[j]?
            = ((A ++ (markFrom a.length x ++ B)).drop k)[j - k]? := by
          rw [List.getElem?_drop, Nat.add_sub_cancel' hj1]
        rw [hdrop, htail, List.getElem?_append_left (by omega), ← List.getElem?_map, hi,
          List.getElem?_map, List.getElem?_range' (by omega)]
        simp
      have heq := hleft.symm.trans hright
      simp only [Option.some.injEq] at heq
      omega
  have hmap := congrArg (List.map Prod.fst) (hmarked rs List.prefix_rfl)
  rw [List.map_append, List.map_append, map_markedPasses hp, map_markedPasses hp,
    map_markedPasses hp, map_fst_markFrom, map_fst_markFrom, mark, map_fst_markFrom,
    map_fst_markFrom] at hmap
  exact hmap

/-! ### Patterns that overlap no replacement -/

/-- In no list does `p` overlap `r`. -/
def Apart (p r : List α) : Prop :=
  ∀ (l : List α) (j k : ℕ), p <+: l.drop j → r <+: l.drop k →
    j + p.length ≤ k ∨ k + r.length ≤ j

/-- What stood together, and replacements between. -/
inductive Mixed (rs : List (List α × List α)) : List (α × Option ℕ) → Prop
  | run {m : List (α × Option ℕ)} (h : Together m) : Mixed rs m
  | block {a b : List (α × Option ℕ)} (q : List α × List α) (hq : q ∈ rs) (ha : Mixed rs a)
    (hb : Mixed rs b) : Mixed rs (a ++ (unplaced q.2 ++ b))

omit [DecidableEq α] in
theorem Together.part (h : Together t) (hm : m <:+: t) : Together m := by
  obtain ⟨i, hi⟩ := h
  obtain ⟨u, v, rfl⟩ := hm
  refine ⟨i + u.length, ?_⟩
  rw [List.append_assoc, List.length_append, ← List.range'_append_1, List.map_append,
    List.map_append, List.map_append] at hi
  have h1 := (List.append_inj hi (by simp)).2
  rw [List.length_append, ← List.range'_append_1, List.map_append] at h1
  exact (List.append_inj h1 (by simp)).1

/-- The first occurrence is replaced, and then what is behind it. -/
theorem replaceBy_first (hp : p ≠ []) (h : p <:+: l.map f) : ∃ a m b, l = a ++ (m ++ b)
    ∧ m.map f = p ∧ replaceBy f p r l = a ++ (r ++ replaceBy f p r b) := by
  induction l using replace_induction (f := f) hp with
  | nil => exact absurd (List.infix_nil.1 h) hp
  | found m l hm _ => exact ⟨[], m, l, rfl, hm, replaceBy_found hp hm⟩
  | keep c l hno ih =>
    rw [List.map_cons] at h
    obtain ⟨a, m, b, rfl, hm, hrep⟩ := ih ((List.infix_cons_iff.1 h).resolve_left hno)
    exact ⟨c :: a, m, b, rfl, hm, by rw [replaceBy_cons_neg hno, hrep, List.cons_append]⟩

theorem mixed_of_together (hp : p ≠ []) {q : List α} (hq : ∃ p', (p', q) ∈ rs)
    (h : Together t) : Mixed rs (replaceBy Prod.fst p (unplaced q) t) := by
  induction hlen : t.length using Nat.strong_induction_on generalizing t with
  | h n ih =>
    by_cases hin : p <:+: t.map Prod.fst
    · obtain ⟨a, m, b, rfl, hm, hrep⟩ := replaceBy_first (r := unplaced q) hp hin
      obtain ⟨p', hp'⟩ := hq
      have hpos := List.length_pos_of_ne_nil hp
      rw [← hm, List.length_map] at hpos
      rw [hrep]
      refine .block (p', q) hp' (.run (h.part ⟨[], m ++ b, rfl⟩)) (ih b.length ?_ (h.part ?_) rfl)
      · rw [← hlen, List.length_append, List.length_append]
        omega
      · exact ⟨a ++ m, [], by simp⟩
    · rw [replaceBy_of_absent hin]
      exact .run h

omit [DecidableEq α] in
/-- An occurrence is on one side of a replacement. -/
theorem Apart.side {q : List α} (h : Apart p q) {k : ℕ}
    (hpre : p <+: ((m ++ (unplaced q ++ n)).drop k).map Prod.fst) :
    k + p.length ≤ m.length ∨ m.length + (unplaced q).length ≤ k := by
  have hlen : (unplaced q).length = q.length := by rw [unplaced, List.length_map]
  rw [List.map_drop] at hpre
  have := h _ k m.length hpre (by
    rw [List.map_append, List.drop_left' (by simp), List.map_append, map_fst_unplaced]
    exact List.prefix_append q _)
  omega

theorem mixed_replaceBy (hp : p ≠ []) {q : List α} (hq : ∃ p', (p', q) ∈ rs)
    (hapart : ∀ q' ∈ rs, Apart p q'.2) (h : Mixed rs t) :
    Mixed rs (replaceBy Prod.fst p (unplaced q) t) := by
  induction h with
  | run h => exact mixed_of_together hp hq h
  | block q' hq' _ _ iha ihb =>
    rw [replaceBy_append hp fun k hpre => (hapart q' hq').side hpre]
    exact .block q' hq' iha ihb

omit [DecidableEq α] in
theorem Mixed.together (hapart : ∀ q ∈ rs, Apart p q.2) (h : Mixed rs t) {k : ℕ}
    (hm : m <+: t.drop k) (hmp : m.map Prod.fst = p) : Together m := by
  have hlen : m.length = p.length := by rw [← hmp, List.length_map]
  induction h generalizing k with
  | @run t h => exact h.part (hm.isInfix.trans (List.drop_suffix k t).isInfix)
  | @block a b q hq _ _ iha ihb =>
    have hpre : p <+: ((a ++ (unplaced q.2 ++ b)).drop k).map Prod.fst := by
      rw [← hmp]
      exact hm.map Prod.fst
    rcases (hapart q hq).side hpre with hside | hside
    · refine iha (k := k) (List.prefix_of_prefix_length_le hm ?_ ?_)
      · rw [List.drop_append_of_le_length (by omega)]
        exact List.prefix_append _ _
      · rw [List.length_drop]
        omega
    · refine ihb (k := k - (a.length + (unplaced q.2).length)) ?_
      rwa [← List.append_assoc, List.drop_append, List.drop_eq_nil_of_le (by simpa using hside),
        List.nil_append, List.length_append] at hm

/-- Where no pattern overlaps a replacement no occurrence is formed at a seam. -/
theorem seamFree_of_apart (hp : ∀ q ∈ rs, q.1 ≠ []) (h : ∀ q ∈ rs, ∀ q' ∈ rs, Apart q.1 q'.2)
    (s : List α) : SeamFree rs s := by
  have hmixed : ∀ qs, qs <+: rs → Mixed rs (markedPasses qs (mark s)) := by
    intro qs
    induction qs using List.reverseRecOn with
    | nil =>
      intro _
      refine .run ⟨0, ?_⟩
      rw [markedPasses, List.foldl_nil, mark, map_snd_markFrom, ← List.length_map Prod.fst,
        map_fst_markFrom]
    | append_singleton qs q ih =>
      intro hqs
      have hq : q ∈ rs := hqs.subset (by simp)
      rw [markedPasses_concat]
      exact mixed_replaceBy (hp q hq) ⟨q.1, hq⟩ (h q hq)
        (ih ((List.prefix_append qs [q]).trans hqs))
  rintro qs hqs m ⟨u, v, huv⟩ ⟨q, hq, hmq⟩
  refine (hmixed qs hqs).together (h q hq) (k := u.length) ?_ hmq
  rw [← huv, List.append_assoc, List.drop_left]
  exact List.prefix_append m v

end Replace
