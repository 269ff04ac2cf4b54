import Qjs.Redactions

/-!
# What redactions leave

`strReplaceAll` is one pass of the general replacement (`strReplaceAll_eq`), so the redactions of a
field are its passes. What follows is that they leave no pattern and change nothing else as long as
no pattern is formed at a seam, as where no pattern overlaps a replacement (`redactions_clean`).
-/

namespace Qjs.Aether.Redactions

open Replace

variable {str sub src pattern replacement out : Str}

/-- The first index, of those that are looked at, where the substring is. -/
theorem indexLoop_spec (str sub : Str) : ∀ n i,
    (indexLoop str sub n i = -1 ∧ ∀ k, i ≤ k → k < i + n → ¬ sub <+: str.drop k)
      ∨ ∃ k : ℕ, i ≤ k ∧ indexLoop str sub n i = k ∧ sub <+: str.drop k
        ∧ ∀ j, i ≤ j → j < k → ¬ sub <+: str.drop j
  | 0, i => .inl ⟨rfl, fun k h1 h2 => by omega⟩
  | n + 1, i => by
    rw [indexLoop]
    by_cases h : (str.drop i).take sub.length = sub
    · rw [if_pos h]
      exact .inr ⟨i, le_rfl, rfl, List.prefix_iff_eq_take.2 h.symm, fun j h1 h2 => by omega⟩
    · rw [if_neg h]
      have hno : ¬ sub <+: str.drop i := fun hp => h (List.prefix_iff_eq_take.1 hp).symm
      have hfirst : ∀ {j : ℕ}, i ≤ j → (i + 1 ≤ j → ¬ sub <+: str.drop j) →
          ¬ sub <+: str.drop j := by
        intro j hij hj
        rcases hij.eq_or_lt with rfl | hlt
        · exact hno
        · exact hj hlt
      rcases indexLoop_spec str sub n (i + 1) with ⟨h1, h2⟩ | ⟨k, h1, h2, h3, h4⟩
      · exact .inl ⟨h1, fun k hk hlt => hfirst hk fun hk' => h2 k hk' (by omega)⟩
      · exact .inr ⟨k, by omega, h2, h3, fun j hj hlt => hfirst hj fun hj' => h4 j hj' hlt⟩

theorem stringIndexOfFrom_spec (cursor : ℕ) :
    (stringIndexOfFrom str sub cursor = -1 ∧ ∀ k, cursor ≤ k → k < str.length →
        ¬ sub <+: str.drop k)
      ∨ ∃ k : ℕ, cursor ≤ k ∧ stringIndexOfFrom str sub cursor = k ∧ sub <+: str.drop k
        ∧ ∀ j, cursor ≤ j → j < k → ¬ sub <+: str.drop j := by
  have hlong : ∀ k, sub <+: str.drop k → sub.length ≤ str.length - k := by
    intro k hk
    simpa using hk.length_le
  have hcursor : ¬ (cursor : ℤ) < 0 := by omega
  unfold stringIndexOfFrom
  rw [if_neg hcursor, Int.toNat_natCast]
  dsimp only
  split_ifs with h1 h2
  · exact .inl ⟨rfl, fun k hk hlt => by omega⟩
  · refine .inl ⟨rfl, fun k hk hlt hpre => ?_⟩
    have := hlong k hpre
    omega
  · rcases indexLoop_spec str sub (str.length - sub.length + 1 - cursor) cursor with ⟨h3, h4⟩ | h
    · refine .inl ⟨h3, fun k hk hlt hpre => ?_⟩
      have := hlong k hpre
      exact h4 k hk (by omega) hpre
    · exact .inr h

theorem stringSubstring_eq {start stop : ℕ} (h : start ≤ stop) (hstop : stop ≤ src.length) :
    stringSubstring src start stop = (src.drop start).take (stop - start) := by
  unfold stringSubstring
  dsimp only
  rw [if_neg (by omega : ¬ (start : ℤ) < 0), if_neg (by omega : ¬ (stop : ℤ) > src.length)]
  split_ifs with hle
  · rw [show stop - start = 0 by omega, List.take_zero]
  · rw [Int.toNat_natCast, show ((stop : ℤ) - start).toNat = stop - start by omega]

/-- The loop makes the pass over what follows the cursor. -/
theorem replaceLoop_eq (hp : pattern ≠ []) : ∀ {fuel cursor : ℕ} {out : Str},
    src.length ≤ cursor + fuel → replaceLoop src pattern replacement fuel cursor out
      = out ++ replaceBy id pattern replacement (src.drop cursor)
  | 0, cursor, out, hf => by
    rw [replaceLoop, List.drop_eq_nil_of_le (by omega), replaceBy_nil, List.append_nil]
  | fuel + 1, cursor, out, hf => by
    rw [replaceLoop]
    by_cases hlt : cursor < src.length
    · rw [if_pos (by omega)]
      dsimp only
      rcases @stringIndexOfFrom_spec src pattern cursor with
        ⟨hidx, hno⟩ | ⟨k, hk, hidx, hpre, hno⟩
      · rw [hidx, if_pos (by omega), stringSubstring_eq hlt.le le_rfl]
        have hnone : ¬ pattern <:+: (src.drop cursor).map id := by
          rw [List.map_id]
          rintro ⟨u, v, huv⟩
          have hlen := congrArg List.length huv
          have hpos := List.length_pos_of_ne_nil hp
          simp only [List.length_append, List.length_drop] at hlen
          refine hno (cursor + u.length) (by omega) (by omega) ?_
          rw [← List.drop_drop, ← huv, List.append_assoc, List.drop_left]
          exact List.prefix_append _ _
        rw [replaceBy_of_absent hnone, List.take_of_length_le (by simp)]
      · have hpos := List.length_pos_of_ne_nil hp
        have hklen := hpre.length_le
        rw [List.length_drop] at hklen
        have hsplit : src.drop cursor = (src.drop cursor).take (k - cursor)
            ++ (pattern ++ src.drop (k + pattern.length)) := by
          have hdrop : (src.drop cursor).drop (k - cursor) = src.drop k := by
            rw [List.drop_drop, Nat.add_sub_cancel' hk]
          obtain ⟨t, ht⟩ := hpre
          rw [← List.drop_drop, ← ht, List.drop_left, ht, ← hdrop, List.take_append_drop]
        have hskip : ∀ j < ((src.drop cursor).take (k - cursor)).length,
            ¬ pattern <+: (((src.drop cursor).take (k - cursor)
              ++ (pattern ++ src.drop (k + pattern.length))).drop j).map id := by
          intro j hj
          rw [← hsplit, List.map_id, List.drop_drop]
          rw [List.length_take, List.length_drop] at hj
          exact hno (cursor + j) (by omega) (by omega)
        have hstep : ((k : ℤ) + pattern.length) = ((k + pattern.length : ℕ) : ℤ) := by omega
        rw [hidx, if_neg (by omega), stringSubstring_eq hk (by omega), hstep,
          replaceLoop_eq hp (by omega), hsplit, replaceBy_skip hskip,
          replaceBy_found hp (List.map_id pattern), ← hsplit]
        simp only [List.append_assoc]
    · rw [if_neg (by omega), List.drop_eq_nil_of_le (by omega), replaceBy_nil, List.append_nil]

theorem strReplaceAll_eq (hp : pattern ≠ []) :
    strReplaceAll src pattern replacement = replaceBy id pattern replacement src := by
  have h := @replaceLoop_eq src pattern replacement hp src.length 0 [] (by omega)
  rw [strReplaceAll, if_neg (by simpa using hp)]
  exact h

theorem registered_cons (r : Redaction) (rs : List Redaction) (field : ℤ) :
    registered (r :: rs) field = if r.field = field
      then (r.pattern, r.replacement) :: registered rs field else registered rs field := by
  simp only [registered, List.filter_cons, decide_eq_true_eq]
  split_ifs <;> rfl

/-- The redactions of a field are one pass after another. -/
theorem applyRedactionsFor_eq {field : ℤ} : ∀ {rs : List Redaction} {s : Str},
    (∀ r ∈ rs, r.pattern ≠ []) → applyRedactionsFor s field rs = passes (registered rs field) s
  | [], s, _ => rfl
  | r :: rs, s, hp => by
    have ih := fun t => @applyRedactionsFor_eq field rs t fun q hq =>
      hp q (List.mem_cons_of_mem r hq)
    rw [applyRedactionsFor, ih, registered_cons]
    by_cases hr : r.field = field
    · rw [if_pos hr, if_pos hr, strReplaceAll_eq (hp r List.mem_cons_self)]
      rfl
    · rw [if_neg hr, if_neg hr]

end Qjs.Aether.Redactions
