import Qjs.Proofs.RegexpShape

/-!
# Regular expressions: instructions that look at the text

They stay in the text and do not go back in it (`matchOp_le`), also from a position in the middle of
a character.
-/

namespace Qjs.Regexp

open Wtf8

variable {cbuf : List ℕ} {s : State} {i m : ℕ} {o : Op} {cc : ℕ}

/-! ### The text -/

theorem utf8CharLen_pos (c : ℕ) : 1 ≤ utf8CharLen c := by
  unfold utf8CharLen
  split_ifs <;> omega

theorem utf8CharLen_le_encode {c : ℕ} (hc : c < 0x110000) {i : ℕ} (hi : i < (encode c).length)
    (rest : List ℕ) : i + utf8CharLen (byteAt (encode c ++ rest) i) ≤ (encode c).length := by
  rcases Nat.eq_zero_or_pos i with rfl | hpos
  · rw [utf8CharLen_encode hc, Nat.zero_add]
  · have hcont : byteAt (encode c ++ rest) i < 0xc0 := by
      rw [byteAt_append_left hi]
      unfold encode at hi ⊢
      split_ifs at hi ⊢ <;> simp only [List.length_cons, List.length_nil] at hi
      · omega
      · obtain rfl : i = 1 := by omega
        simp only [byteAt, List.getD_cons_succ, List.getD_cons_zero]
        omega
      · rcases (by omega : i = 1 ∨ i = 2) with rfl | rfl <;>
        · simp only [byteAt, List.getD_cons_succ, List.getD_cons_zero]
          omega
      · rcases (by omega : i = 1 ∨ i = 2 ∨ i = 3) with rfl | rfl | rfl <;>
        · simp only [byteAt, List.getD_cons_succ, List.getD_cons_zero]
          omega
    have hone : utf8CharLen (byteAt (encode c ++ rest) i) = 1 := by
      unfold utf8CharLen
      split_ifs <;> omega
    omega

/-- A character that starts in the text ends in it. -/
theorem utf8CharLen_le : ∀ {cs : List ℕ}, (∀ c ∈ cs, c < 0x110000) → ∀ {i : ℕ},
    i < (encodeAll cs).length →
    i + utf8CharLen (byteAt (encodeAll cs) i) ≤ (encodeAll cs).length
  | [], _, i, hi => by simp at hi
  | c :: cs, hcs, i, hi => by
    rw [encodeAll_cons] at hi ⊢
    rw [List.length_append] at hi ⊢
    by_cases h : i < (encode c).length
    · have := utf8CharLen_le_encode (hcs c List.mem_cons_self) h (encodeAll cs)
      omega
    · obtain ⟨k, rfl⟩ := Nat.exists_eq_add_of_le (by omega : (encode c).length ≤ i)
      rw [byteAt_append_right]
      have hk : k < (encodeAll cs).length := by omega
      have := utf8CharLen_le (fun d hd => hcs d (List.mem_cons_of_mem c hd)) hk
      omega

theorem getChar_le (hv : Valid cbuf) (hi : i < cbuf.length) :
    i < (getChar cbuf i).2 ∧ (getChar cbuf i).2 ≤ cbuf.length := by
  obtain ⟨cs, hcs, rfl⟩ := hv
  have h1 := utf8CharLen_pos (byteAt (encodeAll cs) i)
  have h2 := utf8CharLen_le hcs.1 hi
  change i < i + utf8CharLen _ ∧ i + utf8CharLen _ ≤ _
  omega

/-- A character that is accepted is stepped over. -/
theorem matchChar_le (hv : Valid cbuf) {p : ℕ → Bool} (h : matchChar cbuf p i = some m) :
    i < m ∧ m ≤ cbuf.length := by
  unfold matchChar at h
  split_ifs at h with h1
  have hle := getChar_le hv (i := i) (by omega)
  dsimp only at h
  split_ifs at h
  cases h
  exact hle

theorem backReferenceLoop_le (hv : Valid cbuf) {ignoreCase : Bool} {end1 : ℕ} :
    ∀ {fuel cptr1 i : ℕ}, i ≤ cbuf.length →
    backReferenceLoop cbuf ignoreCase end1 fuel cptr1 i = some m → i ≤ m ∧ m ≤ cbuf.length
  | 0, _, i, hi, h => by
    cases h
    exact ⟨le_rfl, hi⟩
  | fuel + 1, cptr1, i, hi, h => by
    rw [backReferenceLoop] at h
    by_cases h1 : cptr1 < end1
    · rw [if_pos h1] at h
      by_cases h2 : cbuf.length ≤ i
      · rw [if_pos h2] at h
        cases h
      · rw [if_neg h2] at h
        have hle := getChar_le hv (i := i) (by omega)
        have hrec := Option.ite_none_left_eq_some.1 h
        have := backReferenceLoop_le hv hle.2 hrec.2
        omega
    · rw [if_neg h1] at h
      cases h
      exact ⟨le_rfl, hi⟩

/-- An instruction that looks at the text stays in it and does not go back. -/
theorem matchOp_le (hv : Valid cbuf) (ho : o.Plain cc) (hs : s.cptr ≤ cbuf.length)
    (h : matchOp cbuf s o = some m) :
    s.cptr ≤ m ∧ m ≤ cbuf.length ∧ (o.scan = some true → s.cptr < m) := by
  have char (p : ℕ → Bool) (h : matchChar cbuf p s.cptr = some m) :
      s.cptr ≤ m ∧ m ≤ cbuf.length ∧ (o.scan = some true → s.cptr < m) := by
    have := matchChar_le hv h
    exact ⟨this.1.le, this.2, fun _ => this.1⟩
  have same (ho : o.scan ≠ some true) (h : some s.cptr = some m) :
      s.cptr ≤ m ∧ m ≤ cbuf.length ∧ (o.scan = some true → s.cptr < m) := by
    cases h
    exact ⟨le_rfl, hs, fun h => absurd h ho⟩
  cases o with
  | char bs =>
    change (if _ then none else some (s.cptr + bs.length)) = some m at h
    split_ifs at h with h1
    cases h
    have hlen : 1 ≤ bs.length := ho.1
    refine ⟨by omega, ?_, fun _ => by omega⟩
    have h2 := not_or.1 h1
    omega
  | dot =>
    rw [matchOp] at h
    exact char _ h
  | any =>
    rw [matchOp] at h
    exact char _ h
  | space neg =>
    rw [matchOp] at h
    exact char _ h
  | range8 tab =>
    rw [matchOp] at h
    exact char _ h
  | range tab =>
    rw [matchOp] at h
    exact char _ h
  | lineStart multi =>
    rw [matchOp] at h
    split_ifs at h
    all_goals exact same (by simp [Op.scan]) h
  | lineEnd multi =>
    rw [matchOp] at h
    split_ifs at h
    all_goals exact same (by simp [Op.scan]) h
  | wordBoundary neg =>
    rw [matchOp] at h
    split_ifs at h
    all_goals exact same (by simp [Op.scan]) h
  | backReference ignoreCase i =>
    rw [matchOp] at h
    split_ifs at h
    · exact same (by simp [Op.scan]) h
    · have := backReferenceLoop_le hv hs h
      exact ⟨this.1, this.2, fun h => by simp [Op.scan] at h⟩
  | save | saveReset => cases h
  | _ => exact absurd ho id

end Qjs.Regexp
