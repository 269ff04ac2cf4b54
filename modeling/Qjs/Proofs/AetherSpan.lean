import Qjs.AetherSpan
import Qjs.Proofs.AetherString

/-!
# A string fits the span of its pre-scan

Wherever the loop of `parse_string_raw` stands, the pre-scan from there finds the same quote
(`preScan_char`): each character is skipped by the one as it is decoded by the other. So all that is
written lies before that quote, and no character is shorter than its bytes.
-/

namespace Qjs

namespace Aether

open JsonText

variable {sc : Scanner} {span : ℕ}

/-! ### The writes leave the result alone -/

theorem tracedPut_snd {dst bs rest : List ℕ} {next : List ℕ → Traced} :
    (tracedPut span dst bs rest next).2
      = putBytes span dst bs >>= fun dst => (next dst).2 := by
  unfold tracedPut
  rcases putBytes span dst bs with e | dst'
  · rfl
  · rfl

theorem tracedLoop_snd : ∀ (fuel : ℕ) (dst p : List ℕ),
    (tracedLoop sc span fuel dst p).2 = stringLoop sc span fuel dst p
  | 0, _, _ => rfl
  | fuel + 1, dst, p => by
    rw [tracedLoop, stringLoop, tracedPut_snd]
    refine bind_congr fun dst => ?_
    rcases p.drop (scanStrSafe sc p) with _ | ⟨c, q⟩
    · rfl
    · dsimp only
      split_ifs
      · rcases putBytes span dst [0] with e | _ <;> rfl
      · rcases parseEscape q with e | ⟨bs, r⟩
        · rfl
        · dsimp only
          rw [tracedPut_snd]
          exact bind_congr fun dst => tracedLoop_snd fuel dst r
      · rfl
      · rcases parseUtf8 (c :: q) with e | ⟨bs, r⟩
        · rfl
        · dsimp only
          rw [tracedPut_snd]
          exact bind_congr fun dst => tracedLoop_snd fuel dst r

theorem tracedStringRaw_snd (p : List ℕ) : (tracedStringRaw sc p).2 = parseStringRaw sc p := by
  unfold tracedStringRaw parseStringRaw
  split_ifs
  · rfl
  · rcases preScan 0 p.tail with e | span
    · rfl
    · dsimp only
      rw [tracedLoop_snd]
      rcases hl : stringLoop sc span (p.length + 1) [] p.tail with e | ⟨dst, q⟩
      · rw [ok_bind, hl]
        rfl
      · rw [ok_bind, hl]
        rfl

/-! ### The span -/

theorem preScan_le : ∀ {n : ℕ} {p : List ℕ}, preScan n p = .ok span → n ≤ span
  | n, [], h => by cases h
  | n, [c], h => by
    rw [preScan.eq_def] at h
    dsimp only at h
    split_ifs at h
    · cases h
      exact le_rfl
    · cases h
  | n, c :: d :: p, h => by
    rw [preScan.eq_def] at h
    dsimp only at h
    split_ifs at h
    · cases h
      exact le_rfl
    · have := preScan_le h
      omega
    · have := preScan_le h
      omega

/-- What is written stands for raw bytes of the input that lie before the end of the span. -/
def Within (i : List ℕ) (span : ℕ) (w : List ℕ × List ℕ) : Prop :=
  ∃ k, w.2 = i.drop k ∧ w.1.length ≤ k ∧ k ≤ span

/-- The loop stands behind `k` raw bytes, from where the pre-scan finds the end of the span. -/
structure Stands (i : List ℕ) (span k : ℕ) (dst p : List ℕ) : Prop where
  rest : p = i.drop k
  scan : preScan k p = .ok span
  written : dst.length ≤ k

variable {i dst p bs q : List ℕ} {k : ℕ}

theorem Stands.within (h : Stands i span k dst p) : Within i span (dst, p) :=
  ⟨k, h.rest, h.written, preScan_le h.scan⟩

theorem Stands.char (h : Stands i span k dst p) (hc : CharText p bs q) :
    Stands i span (k + (p.length - q.length)) (dst ++ bs) q := by
  obtain ⟨front, rfl⟩ := charText_suffix hc
  have hlen := (charText_length hc).2
  have hdst := h.written
  rw [List.length_append] at hlen
  refine ⟨?_, ?_, ?_⟩
  · rw [← List.drop_drop, ← h.rest, List.length_append, Nat.add_sub_cancel, List.drop_left]
  · rw [← preScan_char hc]
    exact h.scan
  · rw [List.length_append, List.length_append]
    omega

theorem Stands.run (h : Stands i span k dst (bs ++ q)) (hbs : ∀ b ∈ bs, b ≠ 0x22 ∧ b ≠ 0x5c) :
    Stands i span (k + bs.length) (dst ++ bs) q := by
  have hdst := h.written
  refine ⟨?_, ?_, ?_⟩
  · rw [← List.drop_drop, ← h.rest, List.drop_left]
  · rw [← preScan_plain k bs q hbs]
    exact h.scan
  · rw [List.length_append]
    omega

theorem tracedPut_within {rest : List ℕ} {next : List ℕ → Traced}
    (hw : Within i span (dst ++ bs, rest))
    (hn : ∀ w ∈ (next (dst ++ bs)).1, Within i span w) :
    ∀ w ∈ (tracedPut span dst bs rest next).1, Within i span w := by
  unfold tracedPut
  rcases hp : putBytes span dst bs with e | dst'
  · exact List.forall_mem_singleton.2 hw
  · rw [putBytes_eq hp]
    exact List.forall_mem_cons.2 ⟨hw, hn⟩

theorem tracedLoop_within : ∀ (fuel : ℕ) {dst p : List ℕ} {k : ℕ}, Bytes p →
    Stands i span k dst p → ∀ w ∈ (tracedLoop sc span fuel dst p).1, Within i span w
  | 0, _, _, _, _, _ => fun w hw => absurd hw List.not_mem_nil
  | fuel + 1, dst, p, k, hp, hs => by
    have hsafe : ∀ b ∈ p.takeWhile isStrSafeByte, b ≠ 0x22 ∧ b ≠ 0x5c := by
      intro b hb
      have := isStrSafeByte_iff.1 (List.mem_takeWhile_imp hb)
      omega
    have hcut := List.takeWhile_append_dropWhile (p := isStrSafeByte) (l := p)
    rw [tracedLoop]
    simp only [take_scanStrSafe hp, drop_scanStrSafe hp]
    generalize p.takeWhile isStrSafeByte = run at hcut hsafe
    generalize hrest : p.dropWhile isStrSafeByte = q at hcut
    subst hcut
    have hq : Bytes q := hp.suffix (List.suffix_append run q)
    have hstands := hs.run hsafe
    refine tracedPut_within hstands.within ?_
    rcases q with _ | ⟨c, q⟩
    · exact fun w hw => absurd hw List.not_mem_nil
    · dsimp only
      split_ifs with hquote hback hctl
      · exact fun w hw => absurd hw List.not_mem_nil
      · subst hback
        rcases hesc : parseEscape q with e | ⟨bs, r⟩
        · exact fun w hw => absurd hw List.not_mem_nil
        · have hnext := hstands.char (parseEscape_ok hesc)
          have hr : Bytes r := hq.suffix (charText_suffix (parseEscape_ok hesc))
          exact tracedPut_within hnext.within (tracedLoop_within fuel hr hnext)
      · exact fun w hw => absurd hw List.not_mem_nil
      · have hutf : 0x80 ≤ c := by
          have := dropWhile_not hrest
          rw [isStrSafeByte_iff] at this
          omega
        rcases hchar : parseUtf8 (c :: q) with e | ⟨bs, r⟩
        · exact fun w hw => absurd hw List.not_mem_nil
        · have hnext := hstands.char (parseUtf8_ok hutf hq hchar)
          have hr : Bytes r := hq.suffix (charText_suffix (parseUtf8_ok hutf hq hchar))
          exact tracedPut_within hnext.within (tracedLoop_within fuel hr hnext)

/-- The bytes that are written never go beyond the raw bytes that they stand for, nor these beyond
the span, and a string ends at the quote that the pre-scan found. -/
theorem string_within_span (sc : Scanner) (data : List UInt8) :
    (tracedStringRaw sc (data.map UInt8.toNat)).2 = parseStringRaw sc (data.map UInt8.toNat)
      ∧ (∀ w ∈ (tracedStringRaw sc (data.map UInt8.toNat)).1, ∃ span,
        preScan 0 (data.map UInt8.toNat).tail = .ok span
          ∧ Within (data.map UInt8.toNat).tail span w)
      ∧ ∀ out r, parseStringRaw sc (data.map UInt8.toNat) = .ok (out, r) → ∃ span,
        preScan 0 (data.map UInt8.toNat).tail = .ok span
          ∧ (data.map UInt8.toNat).tail.drop span = 0x22 :: r := by
  have hbytes := bytes_map_toNat data
  generalize data.map UInt8.toNat = p at hbytes ⊢
  refine ⟨tracedStringRaw_snd p, ?_, ?_⟩
  · unfold tracedStringRaw
    split_ifs
    · exact fun w hw => absurd hw List.not_mem_nil
    · rcases hscan : preScan 0 p.tail with e | span
      · exact fun w hw => absurd hw List.not_mem_nil
      · exact fun w hw => ⟨span, rfl, tracedLoop_within _ (hbytes.suffix (List.tail_suffix p))
          ⟨rfl, hscan, le_rfl⟩ w hw⟩
  · rintro ⟨data, len⟩ r h
    obtain ⟨i, rfl, hchars⟩ := parseStringRaw_sound hbytes h
    refine ⟨_, preScan_chars hchars 0, ?_⟩
    obtain ⟨front, hfront⟩ := charsText_suffix hchars
    rw [List.tail_cons, ← hfront, List.length_append, List.length_cons, Nat.zero_add,
      Nat.add_sub_cancel, List.drop_left]

end Aether

end Qjs
