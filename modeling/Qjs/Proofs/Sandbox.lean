import Qjs.Sandbox

/-!
# What the sandbox lets through

The table holds a grant for each line, cut (`sandboxInit_eq`). A call that is let in by a grant is
given by its line, or the grant is flawed for it (`grants_of_lets`); so the sandbox denies by
default exactly where no flaw decides (`defaultDeny_iff`).
-/

namespace Qjs

namespace Sandbox

/-! ### The table -/

theorem splitOn_line {line : Str} (h : newline ∉ line) : line.splitOn newline = [line] := by
  induction line with
  | nil => rfl
  | cons c line ih =>
    have hc : ¬ c = newline := fun hc => h (by simp [hc])
    have hline := ih fun hm => h (by simp [hm])
    rw [List.splitOn, List.splitOnP_cons_eq_if_modifyHead, if_neg (by simpa using hc)]
    rw [List.splitOn] at hline
    rw [hline]
    rfl

theorem splitOn_append {line : Str} (h : newline ∉ line) (s : Str) :
    (line ++ newline :: s).splitOn newline = line :: s.splitOn newline := by
  induction line with
  | nil =>
    rw [List.nil_append, List.splitOn, List.splitOnP_cons_eq_if_modifyHead, if_pos (by simp)]
    rfl
  | cons c line ih =>
    have hc : ¬ c = newline := fun hc => h (by simp [hc])
    have hline := ih fun hm => h (by simp [hm])
    rw [List.cons_append, List.splitOn, List.splitOnP_cons_eq_if_modifyHead,
      if_neg (by simpa using hc)]
    rw [List.splitOn] at hline
    rw [hline]
    rfl

theorem length_append_addGrant {grants : List Grant} (h : grants.length < maxGrants) (line : Str) :
    (grants ++ (addGrant line).toList).length ≤ maxGrants := by
  rcases addGrant line with _ | g
  · simpa using h.le
  · simpa using h

theorem filterMap_cons_eq {α β : Type} (f : α → Option β) (a : α) (l : List α) :
    (a :: l).filterMap f = (f a).toList ++ l.filterMap f := by
  rcases h : f a with _ | b
  · simp [h]
  · simp [h]

theorem filterMap_single {α β : Type} (f : α → Option β) (a : α) :
    [a].filterMap f = (f a).toList := by
  rw [filterMap_cons_eq, List.filterMap_nil, List.append_nil]

/-- The line so far is the first 319 bytes of `line`. -/
theorem parseLoop_eq (data : Str) : ∀ (line : Str) (grants : List Grant), newline ∉ line →
    grants.length ≤ maxGrants → parseLoop data (line.take 319) grants =
      (grants ++ ((line ++ data.takeWhile (· != 0)).splitOn newline).filterMap
        fun l => addGrant (l.take 319)).take maxGrants := by
  induction data with
  | nil =>
    intro line grants hline hlen
    rw [parseLoop]
    split_ifs with hfull
    · rw [List.take_append_of_le_length hfull, List.take_of_length_le hlen]
    · rw [List.takeWhile_nil, List.append_nil, splitOn_line hline, filterMap_single,
        List.take_of_length_le (length_append_addGrant (not_le.1 hfull) _)]
  | cons c data ih =>
    intro line grants hline hlen
    rw [parseLoop]
    split_ifs with hfull h0 hnl hshort
    · rw [List.take_append_of_le_length hfull, List.take_of_length_le hlen]
    · rw [List.takeWhile_cons_of_neg (by simpa using h0), List.append_nil, splitOn_line hline,
        filterMap_single, List.take_of_length_le (length_append_addGrant (not_le.1 hfull) _)]
    · have hnext := ih [] _ (by simp) (length_append_addGrant (not_le.1 hfull) (line.take 319))
      rw [List.take_nil] at hnext
      rw [hnext, List.takeWhile_cons_of_pos (by simpa using h0), hnl, splitOn_append hline,
        filterMap_cons_eq, List.append_assoc, List.nil_append]
    · have htake : line.take 319 ++ [c] = (line ++ [c]).take 319 := by
        rw [List.length_take] at hshort
        rw [List.take_of_length_le (by omega), List.take_of_length_le (by simp; omega)]
      rw [htake, ih _ _ (by simp [hline, Ne.symm hnl]) hlen,
        List.takeWhile_cons_of_pos (by simpa using h0)]
      simp
    · have htake : line.take 319 = (line ++ [c]).take 319 := by
        rw [List.length_take] at hshort
        rw [List.take_append_of_le_length (by omega)]
      rw [htake, ih _ _ (by simp [hline, Ne.symm hnl]) hlen,
        List.takeWhile_cons_of_pos (by simpa using h0)]
      simp

theorem parseGrants_eq (data : Str) : parseGrants data =
    ((completeLines data).filterMap fun l => addGrant (l.take 319)).take maxGrants := by
  have h := parseLoop_eq data [] [] (by simp) (by simp)
  rw [List.take_nil, List.nil_append, List.nil_append] at h
  exact h

theorem length_splitOn (s : Str) : (s.splitOn newline).length = s.count newline + 1 := by
  induction s with
  | nil => rfl
  | cons c s ih =>
    rw [List.splitOn] at ih ⊢
    rw [List.splitOnP_cons_eq_if_modifyHead]
    split_ifs with hc
    · have hc' : c = newline := by simpa using hc
      rw [hc', List.length_cons, ih, List.count_cons_self]
    · have hc' : c ≠ newline := by simpa using hc
      rw [List.length_modifyHead, ih, List.count_cons_of_ne hc']

theorem takeWhile_take_isInitial (text : Str) (n : ℕ) :
    (text.take n).takeWhile (· != 0) <+: text.takeWhile (· != 0) := by
  induction text generalizing n with
  | nil => simp
  | cons c text ih =>
    rcases n with _ | n
    · simp
    · rw [List.take_succ_cons, List.takeWhile_cons, List.takeWhile_cons]
      split_ifs
      · exact List.cons_prefix_cons.2 ⟨rfl, ih n⟩
      · exact List.prefix_rfl

/-- The table, with the lines it comes from. -/
theorem sandboxInit_eq (src : Source) (text : Str) :
    sandboxInit src text = (entries src text).map Prod.snd := by
  have hlen : (completeLines (loaded src text)).length ≤ (completeLines text).length := by
    rw [completeLines, completeLines, length_splitOn, length_splitOn]
    exact Nat.succ_le_succ ((takeWhile_take_isInitial text _).sublist.count_le _)
  rw [sandboxInit, parseGrants_eq, entries, List.map_take]
  congr 1
  conv_lhs => rw [← List.map_snd_zip hlen]
  rw [List.filterMap_map, List.map_filterMap]
  congr 1
  funext l
  rcases h : addGrant (l.2.take 319) with _ | g
  · simp [h]
  · simp [h]

theorem mem_entries {src : Source} {text : Str} {e : Str × Grant} (h : e ∈ entries src text) :
    e.1 ∈ completeLines text := by
  obtain ⟨l, hl, he⟩ := List.mem_filterMap.1 (List.mem_of_mem_take h)
  obtain ⟨g, -, rfl⟩ := Option.map_eq_some_iff.1 he
  exact (List.of_mem_zip hl).1

/-! ### One grant -/

theorem unmap_eq {s : Str} (h : ¬ mapped <+: s) : unmap s = s := if_neg h

theorem request_resource {c : Call} {category resource : Str}
    (h : request c = some (category, resource)) : c.resource = some resource := by
  rcases c with _ | _ | _ | _ | (_ | _ | _) <;> simp_all [request, Call.resource]

/-- The category that is checked is the call's own, but for a call that writes and is read as one
that does not. -/
theorem request_category {c : Call} {category resource : Str}
    (h : request c = some (category, resource)) :
    category = c.category ∨ (category = fsRead ∧ c.category = fsWrite) := by
  have hopen : ∀ flags : BitVec 32, openCategory flags =
      (if flags &&& (oWronly ||| oRdwr ||| oCreat ||| oTrunc ||| oAppend) ≠ 0 then fsWrite
        else fsRead) ∨
      (openCategory flags = fsRead ∧
        (if flags &&& (oWronly ||| oRdwr ||| oCreat ||| oTrunc ||| oAppend) ≠ 0 then fsWrite
        else fsRead) = fsWrite) := by
    intro flags
    rw [openCategory]
    by_cases hm : flags &&& (oWronly ||| oRdwr ||| oCreat ||| oAppend) = 0
    · by_cases ht : flags &&& (oWronly ||| oRdwr ||| oCreat ||| oTrunc ||| oAppend) = 0
      · rw [if_neg (not_not.2 hm), if_neg (not_not.2 ht)]
        exact .inl rfl
      · rw [if_neg (not_not.2 hm), if_pos ht]
        exact .inr ⟨rfl, rfl⟩
    · have ht : flags &&& (oWronly ||| oRdwr ||| oCreat ||| oTrunc ||| oAppend) ≠ 0 := by
        intro ht
        refine hm ?_
        have hsub : oWronly ||| oRdwr ||| oCreat ||| oAppend =
            (oWronly ||| oRdwr ||| oCreat ||| oTrunc ||| oAppend) &&&
              (oWronly ||| oRdwr ||| oCreat ||| oAppend) := by decide
        rw [hsub, ← BitVec.and_assoc, ht]
        simp
      rw [if_pos hm, if_pos ht]
      exact .inl rfl
  rcases c with name | ⟨path, flags⟩ | ⟨dirfd, path, flags⟩ | ⟨path, mode⟩ | (ip | ip | _)
  · simp only [request, Option.some.injEq, Prod.mk.injEq] at h
    exact .inl h.1.symm
  · simp only [request, Option.some.injEq, Prod.mk.injEq] at h
    rw [← h.1]
    exact hopen flags
  · simp only [request, Option.some.injEq, Prod.mk.injEq] at h
    rw [← h.1]
    exact hopen flags
  · simp only [request, Option.some.injEq, Prod.mk.injEq] at h
    rw [← h.1, Call.category]
    split_ifs with hr hp hp
    · exact .inl rfl
    · exact .inr ⟨rfl, rfl⟩
    · exact absurd hp.1 hr
    · exact .inl rfl
  · simp only [request, Option.some.injEq, Prod.mk.injEq] at h
    exact .inl h.1.symm
  · simp only [request, Option.some.injEq, Prod.mk.injEq] at h
    exact .inl h.1.symm
  · cases h

/-- What matches is covered, up to where the path of a directory's glob leads. -/
theorem covers_of_match {c : Call} {pat resource : Str} (h : patternMatch pat resource = true)
    (hdir : ∀ p, unmap pat = p ++ [star] → c.IsFile → p.getLast? = some slash →
      (place c.base (unmap resource)).Under (place .cwd p)) :
    Covers c (unmap pat) (unmap resource) := by
  unfold patternMatch at h
  simp only at h
  split_ifs at h with hstar hpre hsuf
  · exact .inr (.inl hstar)
  · obtain ⟨hlen, hlast, hpre⟩ := hpre
    have hpat : unmap pat = (unmap pat).dropLast ++ [star] :=
      (List.dropLast_append_getLast? star hlast).symm
    refine .inr (.inr (.inl ⟨(unmap pat).dropLast, ?_, hpat, hpre, hdir _ hpat⟩))
    intro hnil
    have := congrArg List.length hnil
    simp at this
    omega
  · obtain ⟨hlen, hhead, hsuf⟩ := hsuf
    have hpat : unmap pat = star :: (unmap pat).tail := by
      rcases hp : unmap pat with _ | ⟨b, bs⟩
      · rw [hp] at hlen
        simp at hlen
      · rw [hp] at hhead
        simp at hhead
        simp [hhead]
    refine .inr (.inr (.inr ⟨(unmap pat).tail, ?_, hpat, hsuf⟩))
    intro hnil
    have := congrArg List.length hnil
    simp at this
    omega
  · exact .inl (of_decide_eq_true h).symm

/-- A grant that lets a call in is flawed for it, or its line gives the call. -/
theorem grants_of_lets {line : Str} {g : Grant} {c : Call} {category resource : Str}
    (hreq : request c = some (category, resource)) (h : lets g category resource = true)
    (hf : ¬ Flawed line g c) : Grants line c := by
  have hline : line = g.cat ++ colon :: g.pat := by
    by_contra hne
    exact hf (.cut hne)
  have hres := request_resource hreq
  rw [lets, Bool.or_eq_true, Bool.and_eq_true, Bool.and_eq_true] at h
  rcases h with ⟨hc, hp⟩ | ⟨hcat, hpat⟩
  · by_cases hall : line = allLine
    · exact .inl hall
    · exact absurd (.stars (by simpa using hc) (by simpa using hp) hall) hf
  · have hcat' : g.cat = category := by simpa using hcat
    have hown : category = c.category := by
      rcases request_category hreq with hown | ⟨hr, hw⟩
      · exact hown
      · exact absurd (.misread (by rw [hreq, hr]) hw) hf
    refine .inr ⟨g.pat, resource, by rw [hline, hcat', hown], hres, ?_⟩
    by_cases hconn : c.IsConnect
    · obtain ⟨addr, rfl⟩ : ∃ addr, c = .connect addr := by
        rcases c with _ | _ | _ | _ | addr
        all_goals first | exact ⟨addr, rfl⟩ | exact hconn.elim
      exact covers_of_match hpat fun p _ hfile => hfile.elim
    · have hg : unmap g.pat = g.pat := unmap_eq fun hm => hf (.mapped hconn hres (.inl hm))
      have hr : unmap resource = resource := unmap_eq fun hm => hf (.mapped hconn hres (.inr hm))
      have hcov : Covers c g.pat resource := by
        have := covers_of_match (c := c) hpat fun p hp hfile hslash => by
          rw [hg] at hp
          rw [hr]
          by_contra hu
          exact hf (.escapes hfile hp hslash hres hu)
        rwa [hg, hr] at this
      rcases c with _ | _ | _ | _ | addr
      · exact hcov
      · exact hcov
      · exact hcov
      · exact hcov
      · exact absurd trivial hconn

/-! ### The sandbox -/

theorem letThrough_iff {src : Source} {text : Str} {c : Call} {category resource : Str}
    (h : request c = some (category, resource)) :
    letThrough (sandboxInit src text) c = true ↔
      ∃ e ∈ entries src text, lets e.2 category resource = true := by
  rw [letThrough, h]
  show checkGrant (sandboxInit src text) category resource = true ↔ _
  rw [checkGrant, List.any_eq_true, sandboxInit_eq]
  constructor
  · rintro ⟨g, hg, hlets⟩
    obtain ⟨e, he, rfl⟩ := List.mem_map.1 hg
    exact ⟨e, he, hlets⟩
  · rintro ⟨e, he, hlets⟩
    exact ⟨e.2, List.mem_map.2 ⟨e, he, rfl⟩, hlets⟩

end Sandbox

end Qjs
