import Qjs.Proofs.Utf8

/-!
# Positions in a string

The scans move between boundaries of code points and count units on the way, so both directions
stop where the wanted unit is (`posForward_stopped`, `posBackward_stopped`). A conversion that
starts from any boundary the cache holds then gives the position of the unit (`posScan_utf16`).
-/

namespace Qjs

open Wtf8

variable {cs pre post : List ℕ}

/-- Byte position `i` and unit position `j` belong to one boundary between code points. -/
def Boundary (cs : List ℕ) (i j : ℕ) : Prop :=
  ∃ pre post, cs = pre ++ post ∧ i = (encodeAll pre).length ∧ j = (unitsAll pre).length

/-- `p8` is the UTF-8 position of unit `pos`: of its code point, plus one for a second unit. -/
def PosOk (cs : List ℕ) (pos p8 : ℕ) : Prop :=
  ∃ pre post, cs = pre ++ post
    ∧ ((p8 = (encodeAll pre).length * 2 ∧ (unitsAll pre).length = pos)
      ∨ (p8 = (encodeAll pre).length * 2 + 1 ∧ (unitsAll pre).length + 1 = pos
        ∧ ∃ c rest, post = c :: rest ∧ 0x10000 ≤ c))

theorem units_length_pair {c : ℕ} (h : 0x10000 ≤ c) : (units c).length = 2 := by
  rw [units_length, if_neg (by omega)]

theorem units_length_single {c : ℕ} (h : c < 0x10000) : (units c).length = 1 := by
  rw [units_length, if_pos h]

theorem drop_encodeAll (pre post : List ℕ) :
    (encodeAll (pre ++ post)).drop (encodeAll pre).length = encodeAll post := by
  rw [encodeAll_append, List.drop_left]

/-- What a scan sees at the code point `c` that follows `pre`. -/
theorem scan_at {c : ℕ} (hc : c < 0x110000) (pre post : List ℕ) :
    utf8CharLen (byteAt (encodeAll (pre ++ c :: post)) (encodeAll pre).length) = (encode c).length
      ∧ ((encode c).length = 4
          ∧ isValidLen4Utf8 ((encodeAll (pre ++ c :: post)).drop (encodeAll pre).length) = true
        ↔ 0x10000 ≤ c) := by
  have hb := byteAt_drop (encodeAll (pre ++ c :: post)) (encodeAll pre).length 0
  rw [Nat.add_zero] at hb
  rw [← hb, drop_encodeAll, encodeAll_cons]
  exact ⟨utf8CharLen_encode hc _, isPair_iff hc _⟩

/-! ### Forward -/

/-- Where a scan may stop: at the unit `limit`, at or past the byte `len`, or between the two
units of a code point. -/
def Stopped (cs : List ℕ) (limit len : ℕ) (r : ℕ × ℕ × ℕ) : Prop :=
  ∃ pre post, cs = pre ++ post ∧ r.1 = (encodeAll pre).length ∧ r.2.1 = (unitsAll pre).length
    ∧ (unitsAll pre).length ≤ limit
    ∧ ((r.2.2 = 0 ∧ ((unitsAll pre).length = limit ∨ len ≤ r.1))
      ∨ (r.2.2 = 1 ∧ (unitsAll pre).length + 1 = limit ∧ ∃ c rest, post = c :: rest ∧ 0x10000 ≤ c))

theorem posForward_stopped {limit len : ℕ} :
    ∀ (fuel : ℕ) (pre post : List ℕ), (∀ c ∈ post, c < 0x110000) →
      (unitsAll pre).length ≤ limit → len ≤ (encodeAll pre).length + fuel →
      len ≤ (encodeAll (pre ++ post)).length →
      Stopped (pre ++ post) limit len (posForward (encodeAll (pre ++ post)) limit len fuel
        (encodeAll pre).length (unitsAll pre).length)
  | 0, pre, post, _, hl, hf, _ => ⟨pre, post, rfl, rfl, rfl, hl, .inl ⟨rfl, .inr hf⟩⟩
  | fuel + 1, pre, post, hp, hl, hf, hlen => by
    rw [posForward]
    by_cases hi : (encodeAll pre).length < len
    swap
    · rw [if_neg hi]
      exact ⟨pre, post, rfl, rfl, rfl, hl, .inl ⟨rfl, .inr (not_lt.1 hi)⟩⟩
    by_cases hj : (unitsAll pre).length = limit
    · rw [if_pos hi, if_pos hj]
      exact ⟨pre, post, rfl, rfl, rfl, hl, .inl ⟨rfl, .inl hj⟩⟩
    rw [if_pos hi, if_neg hj]
    cases post with
    | nil =>
      rw [List.append_nil] at hlen
      omega
    | cons c post =>
      have hc := hp c List.mem_cons_self
      obtain ⟨hclen, hpair⟩ := scan_at hc pre post
      have hsplit : pre ++ c :: post = (pre ++ [c]) ++ post := by simp
      have hE : (encodeAll (pre ++ [c])).length = (encodeAll pre).length + (encode c).length := by
        simp
      have hU : (unitsAll (pre ++ [c])).length = (unitsAll pre).length + (units c).length := by
        simp
      have hc1 := (encode_length c).1
      have ih := @posForward_stopped limit len fuel (pre ++ [c]) post
        (fun d hd => hp d (List.mem_cons_of_mem c hd))
      rw [← hsplit, hE, hU] at ih
      simp only [hclen, hpair]
      split_ifs with h4 hj1
      · exact ⟨pre, c :: post, rfl, rfl, rfl, hl, .inr ⟨rfl, hj1, c, post, rfl, h4⟩⟩
      · rw [units_length_pair h4] at ih
        exact ih (by omega) (by omega) hlen
      · rw [units_length_single (not_le.1 h4)] at ih
        exact ih (by omega) (by omega) hlen

/-! ### Backward -/

theorem and_c0 {b : ℕ} (h : b < 0x100) : b &&& 0xc0 = 0x80 ↔ 0x80 ≤ b ∧ b < 0xc0 := by
  revert b
  decide +kernel

/-- The first byte of a code point is not a continuation byte, the others are. -/
theorem encode_continuation {c : ℕ} (hc : c < 0x110000) {k : ℕ} (hk : k < (encode c).length) :
    byteAt (encode c) k &&& 0xc0 = 0x80 ↔ k ≠ 0 := by
  have hlt : byteAt (encode c) k < 0x100 := by
    unfold encode at hk ⊢
    split_ifs at hk ⊢ <;> simp only [List.length_cons, List.length_nil] at hk <;>
      interval_cases k <;> simp [byteAt] <;> omega
  rw [and_c0 hlt]
  unfold encode at hk ⊢
  split_ifs at hk ⊢ <;> simp only [List.length_cons, List.length_nil] at hk <;>
    interval_cases k <;> simp [byteAt] <;> omega

/-- Going back from any byte of a code point finds its first one. -/
theorem charStart_encode {c : ℕ} (hc : c < 0x110000) (pre post : List ℕ) :
    ∀ k, k < (encode c).length →
      charStart (encodeAll (pre ++ c :: post)) ((encodeAll pre).length + k)
        = (encodeAll pre).length := by
  have hbyte : ∀ k, k < (encode c).length →
      byteAt (encodeAll (pre ++ c :: post)) ((encodeAll pre).length + k) = byteAt (encode c) k := by
    intro k hk
    rw [encodeAll_append, byteAt_append_right, encodeAll_cons, byteAt_append_left hk]
  intro k
  induction k with
  | zero =>
    intro hk
    rw [Nat.add_zero]
    rcases hn : (encodeAll pre).length with _ | n
    · rfl
    · have h0 := (encode_continuation hc hk).not.2 (by simp)
      rw [← hbyte 0 hk, Nat.add_zero, hn] at h0
      rw [charStart, if_neg h0]
  | succ k ih =>
    intro hk
    have h1 := (encode_continuation hc hk).2 (by simp)
    rw [← hbyte _ hk, ← Nat.add_assoc] at h1
    rw [← Nat.add_assoc, charStart, if_pos h1]
    exact ih (by omega)

/-- A backward scan stops at a boundary; when it looks for a unit before its start, it stops at
that unit. -/
theorem posBackward_stopped {limit start : ℕ} :
    ∀ (fuel : ℕ) (pre post : List ℕ), (∀ c ∈ pre, c < 0x110000) →
      ∃ pre' post', pre ++ post = pre' ++ post' ∧
        let r := posBackward (encodeAll (pre ++ post)) limit start fuel (encodeAll pre).length
          (unitsAll pre).length
        r.1 = (encodeAll pre').length ∧ r.2.1 = (unitsAll pre').length
          ∧ (start = 0 → limit < (unitsAll pre).length → (encodeAll pre).length ≤ fuel →
            ((r.2.2 = 0 ∧ (unitsAll pre').length = limit)
              ∨ (r.2.2 = 1 ∧ (unitsAll pre').length + 1 = limit
                ∧ ∃ c rest, post' = c :: rest ∧ 0x10000 ≤ c)))
  | 0, pre, post, _ => by
    refine ⟨pre, post, rfl, rfl, rfl, ?_⟩
    intro _ hlt hf
    have : pre = [] := eq_nil_of_encodeAll (by omega)
    simp [this] at hlt
  | fuel + 1, pre, post, hp => by
    simp only [posBackward]
    by_cases hi : start < (encodeAll pre).length
    swap
    · rw [if_neg hi]
      refine ⟨pre, post, rfl, rfl, rfl, ?_⟩
      intro hs hlt _
      have : pre = [] := eq_nil_of_encodeAll (by omega)
      simp [this] at hlt
    rw [if_pos hi]
    rcases List.eq_nil_or_concat pre with rfl | ⟨init, c, rfl⟩
    · simp at hi
    rw [List.concat_eq_append] at *
    have hc := hp c (by simp)
    have hsplit : init ++ [c] ++ post = init ++ c :: post := by simp
    have hE : (encodeAll (init ++ [c])).length = (encodeAll init).length + (encode c).length := by
      simp
    have hU : (unitsAll (init ++ [c])).length = (unitsAll init).length + (units c).length := by simp
    have hc1 := (encode_length c).1
    have hstart := charStart_encode hc init post ((encode c).length - 1) (by omega)
    obtain ⟨-, hpair⟩ := scan_at hc init post
    have ih := @posBackward_stopped limit start fuel init (c :: post)
      (fun d hd => hp d (by simp [hd]))
    rw [hsplit, hE, show (encodeAll init).length + (encode c).length - 1
      = (encodeAll init).length + ((encode c).length - 1) by omega, hstart,
      Nat.add_sub_cancel_left, hU]
    simp only [hpair]
    obtain ⟨pre', post', hs', h1, h2, h3⟩ := ih
    split_ifs with h4 hj hj hj
    · rw [units_length_pair h4] at *
      exact ⟨init, c :: post, rfl, rfl, by simp, fun _ _ _ => .inr ⟨rfl, by omega, c, post, rfl, h4⟩⟩
    · rw [units_length_pair h4] at *
      exact ⟨init, c :: post, rfl, rfl, by simp, fun _ _ _ => .inl ⟨rfl, by omega⟩⟩
    · rw [units_length_pair h4] at *
      rw [Nat.add_sub_cancel]
      exact ⟨pre', post', hs', h1, h2, fun hs hlt hf => h3 hs (by omega) (by omega)⟩
    · rw [units_length_single (not_le.1 h4)] at *
      exact ⟨init, c :: post, rfl, rfl, by simp, fun _ _ _ => .inl ⟨rfl, by omega⟩⟩
    · rw [units_length_single (not_le.1 h4)] at *
      rw [Nat.add_sub_cancel]
      exact ⟨pre', post', hs', h1, h2, fun hs hlt hf => h3 hs (by omega) (by omega)⟩

/-! ### Scans from a boundary -/

/-- A forward scan that stopped because the string is over has seen all of it. -/
theorem Stopped.posOk {limit : ℕ} {r : ℕ × ℕ × ℕ}
    (h : Stopped cs limit (encodeAll cs).length r) :
    Boundary cs r.1 r.2.1 ∧ PosOk cs (min limit (unitsAll cs).length) (r.1 * 2 + r.2.2) := by
  obtain ⟨pre, post, rfl, h1, h2, hle, hstop⟩ := h
  refine ⟨⟨pre, post, rfl, h1, h2⟩, pre, post, rfl, ?_⟩
  rw [h1, unitsAll_append, List.length_append]
  rcases hstop with ⟨hf, hl | hl⟩ | ⟨hf, hl, c, rest, rfl, hc⟩
  · exact .inl ⟨by rw [hf, Nat.add_zero], by omega⟩
  · rw [h1, encodeAll_append, List.length_append] at hl
    have : post = [] := eq_nil_of_encodeAll (by omega)
    rw [this, unitsAll_nil, List.length_nil]
    exact .inl ⟨by rw [hf, Nat.add_zero], by omega⟩
  · rw [unitsAll_cons, List.length_append, units_length_pair hc]
    exact .inr ⟨by rw [hf], by omega, c, rest, rfl, hc⟩

/-- The scan for a unit, from any boundary. -/
theorem posScan_utf16 {i j : ℕ} (pos : ℕ) (hcs : ∀ c ∈ cs, c < 0x110000) (hb : Boundary cs i j) :
    Boundary cs (posScan (encodeAll cs) .utf16 pos i j).1 (posScan (encodeAll cs) .utf16 pos i j).2.1
      ∧ PosOk cs (min pos (unitsAll cs).length) ((posScan (encodeAll cs) .utf16 pos i j).1 * 2
        + (posScan (encodeAll cs) .utf16 pos i j).2.2) := by
  obtain ⟨pre, post, rfl, rfl, rfl⟩ := hb
  have hpre : ∀ c ∈ pre, c < 0x110000 := fun c hc => hcs c (List.mem_append_left _ hc)
  have hpost : ∀ c ∈ post, c < 0x110000 := fun c hc => hcs c (List.mem_append_right _ hc)
  simp only [posScan]
  split_ifs with h
  · exact (posForward_stopped (encodeAll (pre ++ post)).length pre post hpost h (by omega)
      le_rfl).posOk
  · obtain ⟨pre', post', hs, h1, h2, hstop⟩ := @posBackward_stopped pos 0 (encodeAll pre).length pre
      post hpre
    refine ⟨⟨pre', post', hs, h1, h2⟩, pre', post', hs, ?_⟩
    have hmin : min pos (unitsAll (pre ++ post)).length = pos := by
      rw [unitsAll_append, List.length_append]
      omega
    rw [h1, hmin]
    rcases hstop rfl (not_le.1 h) le_rfl with ⟨hf, hl⟩ | ⟨hf, hl, hc⟩
    · exact .inl ⟨by rw [hf, Nat.add_zero], hl⟩
    · exact .inr ⟨by rw [hf], hl, hc⟩

/-- The scan for a byte, from any boundary, ends at a boundary; for the end of the string it
counts all units. -/
theorem posScan_utf8 {pos i j : ℕ} (hcs : ∀ c ∈ cs, c < 0x110000) (hb : Boundary cs i j)
    (hpos : pos ≤ (encodeAll cs).length) (hmax : (unitsAll cs).length < int32Max) :
    Boundary cs (posScan (encodeAll cs) .utf8 pos i j).1 (posScan (encodeAll cs) .utf8 pos i j).2.1
      ∧ (pos = (encodeAll cs).length →
        (posScan (encodeAll cs) .utf8 pos i j).2.1 = (unitsAll cs).length) := by
  obtain ⟨pre, post, rfl, rfl, rfl⟩ := hb
  have hpre : ∀ c ∈ pre, c < 0x110000 := fun c hc => hcs c (List.mem_append_left _ hc)
  have hpost : ∀ c ∈ post, c < 0x110000 := fun c hc => hcs c (List.mem_append_right _ hc)
  simp only [posScan]
  split_ifs with h
  · have hU : (unitsAll pre).length ≤ int32Max := by
      rw [unitsAll_append, List.length_append] at hmax
      omega
    obtain ⟨pre', post', hs, h1, h2, -, hstop⟩ :=
      @posForward_stopped int32Max pos pos pre post hpost hU (by omega) hpos
    refine ⟨⟨pre', post', hs, h1, h2⟩, ?_⟩
    intro hp
    rw [h2]
    rw [hs, encodeAll_append, List.length_append] at hp
    rw [hs, unitsAll_append, List.length_append] at hmax ⊢
    rcases hstop with ⟨-, hl | hl⟩ | ⟨-, hl, c, rest, rfl, hc⟩
    · omega
    · rw [h1] at hl
      rw [show post' = [] from eq_nil_of_encodeAll (by omega), unitsAll_nil, List.length_nil,
        Nat.add_zero]
    · rw [unitsAll_cons, List.length_append, units_length_pair hc] at hmax
      omega
  · obtain ⟨pre', post', hs, h1, h2, -⟩ := @posBackward_stopped int32Max pos (encodeAll pre).length
      pre post hpre
    refine ⟨⟨pre', post', hs, h1, h2⟩, ?_⟩
    intro hp
    rw [encodeAll_append, List.length_append] at hp
    omega

end Qjs
