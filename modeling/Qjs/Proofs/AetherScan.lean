import Qjs.AetherJson

/-!
# The scanners of the JSON parser

The three scanners of plain bytes stop at the same byte (`scanStrSafe_eq`), and the automaton takes
the UTF-8 of one code point and nothing else (`utf8Loop_encode`, `utf8Loop_accept`).
-/

namespace Qjs

namespace Aether

open Wtf8 JsonText

/-- Bytes. -/
def Bytes (p : List ℕ) : Prop := ∀ b ∈ p, b < 0x100

theorem Bytes.suffix {p q : List ℕ} (hp : Bytes p) (h : q <:+ p) : Bytes q :=
  fun b hb => hp b (h.subset hb)

theorem Bytes.take {p : List ℕ} (hp : Bytes p) (n : ℕ) : Bytes (p.take n) :=
  fun b hb => hp b (List.mem_of_mem_take hb)

theorem Bytes.drop {p : List ℕ} (hp : Bytes p) (n : ℕ) : Bytes (p.drop n) :=
  hp.suffix (List.drop_suffix n p)

theorem Bytes.tail {c : ℕ} {p : List ℕ} (hp : Bytes (c :: p)) : Bytes p :=
  hp.suffix (List.suffix_cons c p)

theorem bytes_map_toNat (data : List UInt8) : Bytes (data.map UInt8.toNat) := by
  intro b hb
  obtain ⟨x, -, rfl⟩ := List.mem_map.1 hb
  exact x.toNat_lt

/-! ### Plain bytes -/

theorem badLane_eq : ∀ c < 0x100, badLane c = !isStrSafeByte c := by decide +kernel

theorem movemask_eq_zero : ∀ {bs : List Bool}, movemask bs = 0 ↔ ∀ b ∈ bs, b = false
  | [] => by simp [movemask]
  | b :: bs => by
    rw [movemask, List.forall_mem_cons, ← movemask_eq_zero]
    cases b <;> simp

theorem ctz_movemask : ∀ {bs : List Bool} {width : ℕ}, bs.length ≤ width → movemask bs ≠ 0 →
    ctz width (movemask bs) = (bs.takeWhile (! ·)).length
  | [], _, _, h => absurd rfl h
  | _ :: _, 0, hw, _ => by simp at hw
  | true :: bs, width + 1, _, _ => by
    rw [movemask, ctz, if_pos (by simp)]
    rfl
  | false :: bs, width + 1, hw, h => by
    have h' : movemask bs ≠ 0 := by
      intro h0
      simp [movemask, h0] at h
    have hd : movemask (false :: bs) / 2 = movemask bs := by simp [movemask]
    rw [ctz, if_neg (by simp [movemask]), hd,
      ctz_movemask (Nat.le_of_succ_le_succ hw) h']
    rfl

theorem ctz_byte (width n m : ℕ) (hn : n < 0x100) :
    ctz (width + 8) (n + 0x100 * m)
      = if n = 0 then ctz width m + 8 else ctz 8 n := by
  have key : ∀ k n m : ℕ, n < 2 ^ k →
      ctz (width + k) (n + 2 ^ k * m) = if n = 0 then ctz width m + k else ctz k n := by
    intro k
    induction k with
    | zero =>
      intro n m hn
      obtain rfl : n = 0 := by omega
      simp
    | succ k ih =>
      intro n m hn
      have hpow : 2 ^ (k + 1) * m = 2 * (2 ^ k * m) := by ring
      have hdiv : (n + 2 ^ (k + 1) * m) / 2 = n / 2 + 2 ^ k * m := by
        rw [hpow]
        omega
      have hmod : (n + 2 ^ (k + 1) * m) % 2 = n % 2 := by
        rw [hpow]
        omega
      rw [← Nat.add_assoc, ctz, hdiv, hmod, ih (n / 2) m (by omega), ctz]
      split_ifs with h1 h2 h3 <;> omega
  exact key 8 n m hn

/-- The bytes of `bad`. -/
def laneByte (b : Bool) : ℕ := if b then 0xff else 0

theorem ctz_shrn4 : ∀ {bs : List Bool} {width : ℕ}, bs.length % 2 = 0 → 4 * bs.length ≤ width →
    (∃ b ∈ bs, b = true) →
    ctz width (shrn4 (bs.map laneByte)) = 4 * (bs.takeWhile (! ·)).length
  | [], _, _, _, h => by simp at h
  | [_], _, h, _, _ => by simp at h
  | a :: b :: bs, width, he, hw, h => by
    obtain ⟨w, rfl⟩ : ∃ w, width = w + 8 := ⟨width - 8, by simp only [List.length_cons] at hw; omega⟩
    have hlt : (laneByte a + 0x100 * laneByte b) / 0x10 % 0x100 < 0x100 := Nat.mod_lt _ (by norm_num)
    rw [List.map_cons, List.map_cons, shrn4, ctz_byte w _ _ hlt]
    cases a
    · cases b
      · have h' : ∃ b ∈ bs, b = true := by simpa using h
        have he' : bs.length % 2 = 0 := by
          simp only [List.length_cons] at he
          omega
        have hw' : 4 * bs.length ≤ w := by
          simp only [List.length_cons] at hw
          omega
        rw [if_pos (by simp [laneByte]), ctz_shrn4 he' hw' h']
        simp only [Bool.not_false, List.takeWhile_cons_of_pos, List.length_cons]
        omega
      · rfl
    · cases b <;> rfl

theorem length_takeWhile_map {bs : List ℕ} (f : ℕ → Bool) :
    ((bs.map f).takeWhile (! ·)).length = (bs.takeWhile fun c => ! f c).length := by
  rw [List.takeWhile_map, List.length_map]
  rfl

/-- What is asked of a scanner of a block. -/
def FirstBad (firstBad : List ℕ → Option ℕ) : Prop :=
  ∀ block, Bytes block → block.length = 16 →
    firstBad block = if block.all isStrSafeByte then none else some (scanScalar block)

theorem takeWhile_badLane {block : List ℕ} (hb : Bytes block) :
    (block.takeWhile fun c => ! badLane c) = block.takeWhile isStrSafeByte := by
  induction block with
  | nil => rfl
  | cons c block ih =>
    have hc : (! badLane c) = isStrSafeByte c := by
      rw [badLane_eq c (hb c List.mem_cons_self), Bool.not_not]
    simp only [List.takeWhile_cons, hc, ih hb.tail]

theorem all_safe_iff {block : List ℕ} (hb : Bytes block) :
    block.all isStrSafeByte = true ↔ ∀ b ∈ block.map badLane, b = false := by
  rw [List.all_eq_true, List.forall_mem_map]
  refine forall₂_congr fun c hc => ?_
  rw [badLane_eq c (hb c hc), Bool.not_eq_false']

theorem firstBadSse2_spec : FirstBad firstBadSse2 := by
  intro block hb hlen
  unfold firstBadSse2
  simp only [movemask_eq_zero, all_safe_iff hb]
  split_ifs with h
  · rfl
  · rw [ctz_movemask (by simp [hlen]) (by rwa [ne_eq, movemask_eq_zero]), length_takeWhile_map,
      takeWhile_badLane hb]
    rfl

theorem firstBadNeon_spec : FirstBad firstBadNeon := by
  intro block hb hlen
  have hmap : (block.map fun c => if badLane c then 0xff else 0)
      = (block.map badLane).map laneByte := by
    rw [List.map_map]
    rfl
  have hall : ((block.map badLane).map laneByte).all (· == 0) = true
      ↔ ∀ b ∈ block.map badLane, b = false := by
    rw [List.all_eq_true, List.forall_mem_map]
    refine forall₂_congr fun b _ => ?_
    cases b <;> simp [laneByte]
  unfold firstBadNeon
  simp only [hmap, hall, all_safe_iff hb]
  split_ifs with h
  · rfl
  · have hex : ∃ b ∈ block.map badLane, b = true := by
      push Not at h
      simpa using h
    rw [ctz_shrn4 (by simp [hlen]) (by simp [hlen]) hex, length_takeWhile_map,
      takeWhile_badLane hb, Nat.mul_div_cancel_left _ (by norm_num)]
    rfl

theorem scanBlocks_eq {firstBad : List ℕ → Option ℕ} (hf : FirstBad firstBad) :
    ∀ (fuel : ℕ) {p : List ℕ}, Bytes p → scanBlocks firstBad fuel p = scanScalar p
  | 0, p, _ => rfl
  | fuel + 1, p, hp => by
    rw [scanBlocks]
    split_ifs with h16
    · have hcut : scanScalar p = scanScalar (p.take 16 ++ p.drop 16) := by
        rw [List.take_append_drop]
      have hlen : (p.take 16).length = 16 := by
        rw [List.length_take]
        omega
      rw [hf _ (hp.take 16) hlen, hcut]
      simp only [scanScalar, List.takeWhile_append]
      by_cases hall : (p.take 16).all isStrSafeByte = true
      · have hself : (p.take 16).takeWhile isStrSafeByte = p.take 16 :=
          List.takeWhile_eq_self_iff.2 (List.all_eq_true.1 hall)
        rw [if_pos hall, hself, if_pos rfl]
        simp only [scanBlocks_eq hf fuel (hp.drop 16), List.length_append, hlen, scanScalar]
      · rw [if_neg hall, if_neg]
        intro hl
        have hself := (List.takeWhile_prefix isStrSafeByte).eq_of_length hl
        exact hall (List.all_eq_true.2 (List.takeWhile_eq_self_iff.1 hself))
    · rfl

/-- The scanners find the same byte. -/
theorem scanStrSafe_eq (sc : Scanner) {p : List ℕ} (hp : Bytes p) :
    scanStrSafe sc p = (p.takeWhile isStrSafeByte).length := by
  cases sc
  · rfl
  · exact scanBlocks_eq firstBadSse2_spec _ hp
  · exact scanBlocks_eq firstBadNeon_spec _ hp

/-! ### The automaton -/

/-- The state after a byte. -/
def utf8Next (st byte : ℕ) : ℕ := utf8Dfa.getD (256 + st + utf8Dfa.getD byte 0) 0

/-- In the state `st` a byte from `lo` up to `hi` leads to `st'`, and no other is taken. -/
def Awaits (st lo hi st' : ℕ) : Prop :=
  ∀ b < 0x100, utf8Next st b = if lo ≤ b ∧ b < hi then st' else utf8Reject

/-- The class of a byte. -/
def byteClass (b : ℕ) : ℕ :=
  if b < 0x80 then 0 else if b < 0x90 then 1 else if b < 0xa0 then 9 else if b < 0xc0 then 7
  else if b < 0xc2 then 8 else if b < 0xe0 then 2 else if b = 0xe0 then 10
  else if b = 0xed then 4 else if b < 0xf0 then 3 else if b = 0xf0 then 11
  else if b < 0xf4 then 6 else if b = 0xf4 then 5 else 8

/-- The state after a byte of the class `t`. -/
def stateAfter (st t : ℕ) : ℕ :=
  if st = 24 then if t = 1 ∨ t = 9 ∨ t = 7 then 0 else 12
  else if st = 12 then 12
  else if st = 36 then if t = 1 ∨ t = 9 ∨ t = 7 then 24 else 12
  else if st = 48 then if t = 7 then 24 else 12
  else if st = 60 then if t = 1 ∨ t = 9 then 24 else 12
  else if st = 72 then if t = 9 ∨ t = 7 then 36 else 12
  else if st = 84 then if t = 1 ∨ t = 9 ∨ t = 7 then 36 else 12
  else if st = 96 then if t = 1 then 36 else 12
  else if t = 0 then 0 else if t = 2 then 24 else if t = 3 then 36 else if t = 4 then 60
  else if t = 5 then 96 else if t = 6 then 84 else if t = 10 then 48 else if t = 11 then 72 else 12

theorem utf8Dfa_tables : utf8Dfa.take 0x100 = (List.range 0x100).map byteClass ∧
    utf8Dfa.drop 0x100 =
      (List.range 108).map fun n => stateAfter (12 * (n / 12)) (n % 12) := by decide +kernel

theorem utf8Dfa_class (b : ℕ) (hb : b < 0x100) : utf8Dfa.getD b 0 = byteClass b := by
  have h := congrArg (·[b]?) utf8Dfa_tables.1
  simp only [List.getElem?_take_of_lt hb, List.getElem?_map, List.getElem?_range hb,
    Option.map_some] at h
  rw [List.getD_eq_getElem?_getD, h]
  rfl

theorem utf8Dfa_states {s t : ℕ} (hs : s < 9) (ht : t < 12) :
    utf8Dfa.getD (256 + 12 * s + t) 0 = stateAfter (12 * s) t := by
  have h := congrArg (·[12 * s + t]?) utf8Dfa_tables.2
  simp only [List.getElem?_drop, List.getElem?_map,
    List.getElem?_range (show 12 * s + t < 108 by omega), Option.map_some] at h
  rw [show (12 * s + t) / 12 = s by omega, show (12 * s + t) % 12 = t by omega, ← Nat.add_assoc] at h
  rw [List.getD_eq_getElem?_getD, h]
  rfl

/-- The classes of the continuation bytes, and the states after a first byte. -/
theorem byteClass_table : ∀ b < 0x100, byteClass b < 12 ∧
    ((byteClass b = 1 ↔ 0x80 ≤ b ∧ b < 0x90) ∧ (byteClass b = 9 ↔ 0x90 ≤ b ∧ b < 0xa0) ∧
      (byteClass b = 7 ↔ 0xa0 ≤ b ∧ b < 0xc0)) ∧
    stateAfter 0 (byteClass b) =
      if b < 0x80 then 0 else if b < 0xc2 then 12 else if b < 0xe0 then 24
      else if b = 0xe0 then 48 else if b = 0xed then 60 else if b < 0xf0 then 36
      else if b = 0xf0 then 72 else if b < 0xf4 then 84 else if b = 0xf4 then 96 else 12 := by
  decide +kernel

theorem byteClass_continuation (b : ℕ) (hb : b < 0x100) : (byteClass b = 1 ↔ 0x80 ≤ b ∧ b < 0x90) ∧
    (byteClass b = 9 ↔ 0x90 ≤ b ∧ b < 0xa0) ∧ (byteClass b = 7 ↔ 0xa0 ≤ b ∧ b < 0xc0) :=
  (byteClass_table b hb).2.1

theorem utf8Next_eq {s b : ℕ} (hs : s < 9) (hb : b < 0x100) :
    utf8Next (12 * s) b = stateAfter (12 * s) (byteClass b) := by
  rw [utf8Next, utf8Dfa_class b hb, utf8Dfa_states hs (byteClass_table b hb).1]

theorem utf8Next_start (b : ℕ) (hb : b < 0x100) : utf8Next 0 b =
    if b < 0x80 then 0 else if b < 0xc2 then 12 else if b < 0xe0 then 24
    else if b = 0xe0 then 48 else if b = 0xed then 60 else if b < 0xf0 then 36
    else if b = 0xf0 then 72 else if b < 0xf4 then 84 else if b = 0xf4 then 96 else 12 := by
  rw [show 0 = 12 * 0 from rfl, utf8Next_eq (by decide) hb]
  exact (byteClass_table b hb).2.2

theorem awaits_last : Awaits 24 0x80 0xc0 0 := by
  intro b hb
  have hc := byteClass_continuation b hb
  rw [show 24 = 12 * 2 from rfl, utf8Next_eq (by decide) hb]
  show (if byteClass b = 1 ∨ byteClass b = 9 ∨ byteClass b = 7 then 0 else 12) = _
  exact if_congr (by omega) rfl rfl

theorem awaits_two : Awaits 36 0x80 0xc0 24 := by
  intro b hb
  have hc := byteClass_continuation b hb
  rw [show 36 = 12 * 3 from rfl, utf8Next_eq (by decide) hb]
  show (if byteClass b = 1 ∨ byteClass b = 9 ∨ byteClass b = 7 then 24 else 12) = _
  exact if_congr (by omega) rfl rfl

/-- After 0xe0: no overlong form. -/
theorem awaits_e0 : Awaits 48 0xa0 0xc0 24 := by
  intro b hb
  have hc := byteClass_continuation b hb
  rw [show 48 = 12 * 4 from rfl, utf8Next_eq (by decide) hb]
  show (if byteClass b = 7 then 24 else 12) = _
  exact if_congr (by omega) rfl rfl

/-- After 0xed: no surrogate. -/
theorem awaits_ed : Awaits 60 0x80 0xa0 24 := by
  intro b hb
  have hc := byteClass_continuation b hb
  rw [show 60 = 12 * 5 from rfl, utf8Next_eq (by decide) hb]
  show (if byteClass b = 1 ∨ byteClass b = 9 then 24 else 12) = _
  exact if_congr (by omega) rfl rfl

theorem awaits_f0 : Awaits 72 0x90 0xc0 36 := by
  intro b hb
  have hc := byteClass_continuation b hb
  rw [show 72 = 12 * 6 from rfl, utf8Next_eq (by decide) hb]
  show (if byteClass b = 9 ∨ byteClass b = 7 then 36 else 12) = _
  exact if_congr (by omega) rfl rfl

theorem awaits_three : Awaits 84 0x80 0xc0 36 := by
  intro b hb
  have hc := byteClass_continuation b hb
  rw [show 84 = 12 * 7 from rfl, utf8Next_eq (by decide) hb]
  show (if byteClass b = 1 ∨ byteClass b = 9 ∨ byteClass b = 7 then 36 else 12) = _
  exact if_congr (by omega) rfl rfl

/-- After 0xf4: nothing above 0x10ffff. -/
theorem awaits_f4 : Awaits 96 0x80 0x90 36 := by
  intro b hb
  have hc := byteClass_continuation b hb
  rw [show 96 = 12 * 8 from rfl, utf8Next_eq (by decide) hb]
  show (if byteClass b = 1 then 36 else 12) = _
  exact if_congr (by omega) rfl rfl

theorem utf8Loop_cons (st cp b : ℕ) (p : List ℕ) :
    ∃ cp', utf8Loop st cp (b :: p) =
      if utf8Next st b = utf8Accept ∨ utf8Next st b = utf8Reject then (utf8Next st b, p)
      else utf8Loop (utf8Next st b) cp' p :=
  ⟨(utf8Step st cp b).2, rfl⟩

section Awaits

variable {st lo hi st' : ℕ} (h : Awaits st lo hi st')

include h

theorem Awaits.accept {b : ℕ} (hb : lo ≤ b ∧ b < hi) (hlt : b < 0x100) (h0 : st' = 0) (cp : ℕ)
    (p : List ℕ) : utf8Loop st cp (b :: p) = (0, p) := by
  obtain ⟨cp', he⟩ := utf8Loop_cons st cp b p
  have hn : utf8Next st b = 0 := by rw [h b hlt, if_pos hb, h0]
  rw [he, hn]
  rfl

theorem Awaits.next {b : ℕ} (hb : lo ≤ b ∧ b < hi) (hlt : b < 0x100) (h0 : st' ≠ 0)
    (h12 : st' ≠ 12) (cp : ℕ) (p : List ℕ) :
    ∃ cp', utf8Loop st cp (b :: p) = utf8Loop st' cp' p := by
  obtain ⟨cp', he⟩ := utf8Loop_cons st cp b p
  have hn : utf8Next st b = st' := by rw [h b hlt, if_pos hb]
  refine ⟨cp', ?_⟩
  rw [he, hn, if_neg (by rintro (h | h) <;> contradiction)]

/-- What is accepted from a state on starts with a byte that the state awaits. -/
theorem Awaits.of_accept {cp : ℕ} {p r : List ℕ} (hp : Bytes p) (hst : st ≠ 0)
    (ha : utf8Loop st cp p = (0, r)) : ∃ b q cp', p = b :: q ∧ (lo ≤ b ∧ b < hi) ∧ Bytes q
      ∧ (st' = 0 ∧ r = q ∨ st' ≠ 0 ∧ utf8Loop st' cp' q = (0, r)) := by
  cases p with
  | nil =>
    simp only [utf8Loop, Prod.mk.injEq] at ha
    exact absurd ha.1 hst
  | cons b q =>
    obtain ⟨cp', he⟩ := utf8Loop_cons st cp b q
    rw [he, h b (hp b List.mem_cons_self)] at ha
    by_cases hb : lo ≤ b ∧ b < hi
    · refine ⟨b, q, cp', rfl, hb, hp.tail, ?_⟩
      rw [if_pos hb] at ha
      split_ifs at ha with hend
      · simp only [Prod.mk.injEq] at ha
        exact .inl ⟨ha.1, ha.2.symm⟩
      · exact .inr ⟨fun h0 => hend (.inl h0), ha⟩
    · rw [if_neg hb, if_pos (.inr rfl)] at ha
      simp [utf8Reject] at ha

end Awaits

theorem encode_two {c : ℕ} (h : 0x80 ≤ c) (h' : c < 0x800) :
    encode c = [0xc0 + c / 0x40, 0x80 + c % 0x40] := by
  rw [encode, if_neg (by omega), if_pos h']

theorem encode_three {c : ℕ} (h : 0x800 ≤ c) (h' : c < 0x10000) :
    encode c = [0xe0 + c / 0x1000, 0x80 + c / 0x40 % 0x40, 0x80 + c % 0x40] := by
  rw [encode, if_neg (by omega), if_neg (by omega), if_pos h']

theorem encode_four {c : ℕ} (h : 0x10000 ≤ c) :
    encode c = [0xf0 + c / 0x40000, 0x80 + c / 0x1000 % 0x40, 0x80 + c / 0x40 % 0x40,
      0x80 + c % 0x40] := by
  rw [encode, if_neg (by omega), if_neg (by omega), if_neg (by omega)]

/-! ### The first byte of a character -/

theorem utf8Next_c2 {b : ℕ} (h : 0xc2 ≤ b ∧ b < 0xe0) : utf8Next 0 b = 24 := by
  rw [utf8Next_start b (by omega)]
  split_ifs <;> omega

theorem utf8Next_e1 {b : ℕ} (h : 0xe1 ≤ b ∧ b < 0xf0) (hne : b ≠ 0xed) : utf8Next 0 b = 36 := by
  rw [utf8Next_start b (by omega)]
  split_ifs <;> omega

theorem utf8Next_f1 {b : ℕ} (h : 0xf1 ≤ b ∧ b < 0xf4) : utf8Next 0 b = 84 := by
  rw [utf8Next_start b (by omega)]
  split_ifs <;> omega

theorem utf8Loop_first {b st : ℕ} (hn : utf8Next 0 b = st) (h0 : st ≠ 0)
    (h12 : st ≠ 12) (cp : ℕ) (p : List ℕ) :
    ∃ cp', utf8Loop 0 cp (b :: p) = utf8Loop st cp' p := by
  obtain ⟨cp', he⟩ := utf8Loop_cons 0 cp b p
  refine ⟨cp', ?_⟩
  rw [he, hn, if_neg (by rintro (h | h) <;> contradiction)]

/-- Two tails. -/
theorem utf8Loop_two {a b : ℕ} (ha : 0x80 ≤ a ∧ a < 0xc0) (hb : 0x80 ≤ b ∧ b < 0xc0) (cp : ℕ)
    (r : List ℕ) : utf8Loop 36 cp (a :: b :: r) = (0, r) := by
  obtain ⟨cp', he⟩ := awaits_two.next ha (by omega) (by norm_num) (by norm_num) cp (b :: r)
  rw [he]
  exact awaits_last.accept hb (by omega) rfl cp' r

/-- What the first byte of three or four bytes leads to. -/
structure Leads (b st lo hi st' : ℕ) : Prop where
  next : utf8Next 0 b = st
  ne : st ≠ 0 ∧ st ≠ 12
  awaits : Awaits st lo hi st'

theorem leads_e0 : Leads 0xe0 48 0xa0 0xc0 24 := ⟨utf8Next_start _ (by norm_num), by decide, awaits_e0⟩

theorem leads_ed : Leads 0xed 60 0x80 0xa0 24 := ⟨utf8Next_start _ (by norm_num), by decide, awaits_ed⟩

theorem leads_e1 {b : ℕ} (h : 0xe1 ≤ b ∧ b < 0xf0) (hne : b ≠ 0xed) : Leads b 36 0x80 0xc0 24 :=
  ⟨utf8Next_e1 h hne, by decide, awaits_two⟩

theorem leads_f0 : Leads 0xf0 72 0x90 0xc0 36 := ⟨utf8Next_start _ (by norm_num), by decide, awaits_f0⟩

theorem leads_f1 {b : ℕ} (h : 0xf1 ≤ b ∧ b < 0xf4) : Leads b 84 0x80 0xc0 36 :=
  ⟨utf8Next_f1 h, by decide, awaits_three⟩

theorem leads_f4 : Leads 0xf4 96 0x80 0x90 36 := ⟨utf8Next_start _ (by norm_num), by decide, awaits_f4⟩

/-- The first two bytes. -/
theorem Leads.run {b st lo hi st' : ℕ} (h : Leads b st lo hi st') (h0 : st' ≠ 0) (h12 : st' ≠ 12)
    {d : ℕ} (hd : lo ≤ d ∧ d < hi) (hlt : d < 0x100) (p : List ℕ) :
    ∃ cp, utf8Loop 0 0 (b :: d :: p) = utf8Loop st' cp p := by
  obtain ⟨cp, he⟩ := utf8Loop_first h.next h.ne.1 h.ne.2 0 (d :: p)
  obtain ⟨cp', he'⟩ := h.awaits.next hd hlt h0 h12 cp p
  exact ⟨cp', he.trans he'⟩

theorem utf8Loop_encode_three {c : ℕ} (h : 0x800 ≤ c) (h' : c < 0x10000) (hs : IsScalar c)
    (r : List ℕ) : utf8Loop 0 0 (encode c ++ r) = (0, r) := by
  have hsur := hs.2
  have hlead : ∃ st lo hi, Leads (0xe0 + c / 0x1000) st lo hi 24
      ∧ lo ≤ 0x80 + c / 0x40 % 0x40 ∧ 0x80 + c / 0x40 % 0x40 < hi := by
    by_cases he0 : c < 0x1000
    · rw [show c / 0x1000 = 0 by omega]
      exact ⟨_, _, _, leads_e0, by omega, by omega⟩
    by_cases hed : 0xd000 ≤ c ∧ c < 0xe000
    · rw [show c / 0x1000 = 0xd by omega]
      exact ⟨_, _, _, leads_ed, by omega, by omega⟩
    · exact ⟨_, _, _, leads_e1 (by omega) (by omega), by omega, by omega⟩
  obtain ⟨st, lo, hi, hl, h1, h2⟩ := hlead
  obtain ⟨cp, he⟩ := hl.run (by norm_num) (by norm_num) ⟨h1, h2⟩ (by omega)
    ((0x80 + c % 0x40) :: r)
  rw [encode_three h h']
  simp only [List.cons_append, List.nil_append, he]
  exact awaits_last.accept (by omega) (by omega) rfl cp r

theorem utf8Loop_encode_four {c : ℕ} (h : 0x10000 ≤ c) (hs : IsScalar c) (r : List ℕ) :
    utf8Loop 0 0 (encode c ++ r) = (0, r) := by
  have hmax := hs.1
  have hlead : ∃ st lo hi, Leads (0xf0 + c / 0x40000) st lo hi 36
      ∧ lo ≤ 0x80 + c / 0x1000 % 0x40 ∧ 0x80 + c / 0x1000 % 0x40 < hi := by
    by_cases hf0 : c < 0x40000
    · rw [show c / 0x40000 = 0 by omega]
      exact ⟨_, _, _, leads_f0, by omega, by omega⟩
    by_cases hf4 : 0x100000 ≤ c
    · rw [show c / 0x40000 = 4 by omega]
      exact ⟨_, _, _, leads_f4, by omega, by omega⟩
    · exact ⟨_, _, _, leads_f1 (by omega), by omega, by omega⟩
  obtain ⟨st, lo, hi, hl, h1, h2⟩ := hlead
  obtain ⟨cp, he⟩ := hl.run (by norm_num) (by norm_num) ⟨h1, h2⟩ (by omega)
    ((0x80 + c / 0x40 % 0x40) :: (0x80 + c % 0x40) :: r)
  rw [encode_four h]
  simp only [List.cons_append, List.nil_append, he]
  exact utf8Loop_two (by omega) (by omega) cp r

/-- The automaton takes the bytes of a code point. -/
theorem utf8Loop_encode {c : ℕ} (hc : 0x80 ≤ c) (hs : IsScalar c) (r : List ℕ) :
    utf8Loop 0 0 (encode c ++ r) = (0, r) := by
  by_cases h2 : c < 0x800
  · obtain ⟨cp, he⟩ := utf8Loop_first (utf8Next_c2 (b := 0xc0 + c / 0x40) (by omega)) (by norm_num)
      (by norm_num) 0 ((0x80 + c % 0x40) :: r)
    rw [encode_two hc h2]
    simp only [List.cons_append, List.nil_append, he]
    exact awaits_last.accept (by omega) (by omega) rfl cp r
  by_cases h3 : c < 0x10000
  · exact utf8Loop_encode_three (by omega) h3 hs r
  · exact utf8Loop_encode_four (by omega) hs r

/-! ### What is accepted -/

/-- The last tail. -/
theorem utf8Loop_last_accept {cp : ℕ} {p r : List ℕ} (hp : Bytes p)
    (ha : utf8Loop 24 cp p = (0, r)) : ∃ b, p = b :: r ∧ 0x80 ≤ b ∧ b < 0xc0 := by
  obtain ⟨b, q, cp', rfl, hb, -, h | h⟩ := awaits_last.of_accept hp (by norm_num) ha
  · exact ⟨b, by rw [h.2], hb⟩
  · exact absurd rfl h.1

/-- A byte of a range and a tail after it. -/
theorem Awaits.two_accept {st lo hi cp : ℕ} {p r : List ℕ} (h : Awaits st lo hi 24) (hp : Bytes p)
    (hst : st ≠ 0) (ha : utf8Loop st cp p = (0, r)) :
    ∃ a b, p = a :: b :: r ∧ (lo ≤ a ∧ a < hi) ∧ 0x80 ≤ b ∧ b < 0xc0 := by
  obtain ⟨a, q, cp', rfl, hb, hq, h | ⟨-, h⟩⟩ := h.of_accept hp hst ha
  · exact absurd h.1 (by norm_num)
  · obtain ⟨b, rfl, hb'⟩ := utf8Loop_last_accept hq h
    exact ⟨a, b, rfl, hb, hb'⟩

theorem Awaits.three_accept {st lo hi cp : ℕ} {p r : List ℕ} (h : Awaits st lo hi 36)
    (hp : Bytes p) (hst : st ≠ 0) (ha : utf8Loop st cp p = (0, r)) :
    ∃ a b c, p = a :: b :: c :: r ∧ (lo ≤ a ∧ a < hi) ∧ (0x80 ≤ b ∧ b < 0xc0)
      ∧ 0x80 ≤ c ∧ c < 0xc0 := by
  obtain ⟨a, q, cp', rfl, hb, hq, h | ⟨-, h⟩⟩ := h.of_accept hp hst ha
  · exact absurd h.1 (by norm_num)
  · obtain ⟨b, c, rfl, hb', hc⟩ := awaits_two.two_accept hq (by norm_num) h
    exact ⟨a, b, c, rfl, hb, hb', hc⟩

theorem encode_of_two {b₀ b : ℕ} (h₀ : 0xc2 ≤ b₀ ∧ b₀ < 0xe0) (h : 0x80 ≤ b ∧ b < 0xc0) :
    ∃ c, 0x80 ≤ c ∧ IsScalar c ∧ encode c = [b₀, b] := by
  refine ⟨(b₀ - 0xc0) * 0x40 + (b - 0x80), by omega, ⟨by omega, by omega⟩, ?_⟩
  rw [encode_two (by omega) (by omega)]
  simp only [List.cons.injEq, and_true]
  omega

theorem encode_of_three {b₀ b₁ b₂ : ℕ} (h₀ : 0xe0 ≤ b₀ ∧ b₀ < 0xf0) (h₁ : 0x80 ≤ b₁ ∧ b₁ < 0xc0)
    (h₂ : 0x80 ≤ b₂ ∧ b₂ < 0xc0) (he : b₀ = 0xe0 → 0xa0 ≤ b₁) (hd : b₀ = 0xed → b₁ < 0xa0) :
    ∃ c, 0x80 ≤ c ∧ IsScalar c ∧ encode c = [b₀, b₁, b₂] := by
  refine ⟨(b₀ - 0xe0) * 0x1000 + (b₁ - 0x80) * 0x40 + (b₂ - 0x80), by omega,
    ⟨by omega, by omega⟩, ?_⟩
  rw [encode_three (by omega) (by omega)]
  simp only [List.cons.injEq, and_true]
  omega

theorem encode_of_four {b₀ b₁ b₂ b₃ : ℕ} (h₀ : 0xf0 ≤ b₀ ∧ b₀ ≤ 0xf4) (h₁ : 0x80 ≤ b₁ ∧ b₁ < 0xc0)
    (h₂ : 0x80 ≤ b₂ ∧ b₂ < 0xc0) (h₃ : 0x80 ≤ b₃ ∧ b₃ < 0xc0) (h0 : b₀ = 0xf0 → 0x90 ≤ b₁)
    (h4 : b₀ = 0xf4 → b₁ < 0x90) : ∃ c, 0x80 ≤ c ∧ IsScalar c ∧ encode c = [b₀, b₁, b₂, b₃] := by
  refine ⟨(b₀ - 0xf0) * 0x40000 + (b₁ - 0x80) * 0x1000 + (b₂ - 0x80) * 0x40 + (b₃ - 0x80),
    by omega, ⟨by omega, by omega⟩, ?_⟩
  rw [encode_four (by omega)]
  simp only [List.cons.injEq, and_true]
  omega

theorem utf8Next_accept {b : ℕ} (hb : 0x80 ≤ b) (hlt : b < 0x100) (h : b < 0xc2 ∨ 0xf5 ≤ b) :
    utf8Next 0 b = 12 := by
  rw [utf8Next_start b hlt]
  split_ifs <;> omega

theorem Leads.of_accept {b st lo hi st' : ℕ} {p r : List ℕ} (h : Leads b st lo hi st')
    (ha : utf8Loop 0 0 (b :: p) = (0, r)) : ∃ cp, utf8Loop st cp p = (0, r) := by
  obtain ⟨cp, he⟩ := utf8Loop_first h.next h.ne.1 h.ne.2 0 p
  exact ⟨cp, he ▸ ha⟩

theorem Leads.three {b st lo hi : ℕ} {p r : List ℕ} (h : Leads b st lo hi 24)
    (hb : 0xe0 ≤ b ∧ b < 0xf0) (hlo : 0x80 ≤ lo) (hhi : hi ≤ 0xc0) (he : b = 0xe0 → 0xa0 ≤ lo)
    (hd : b = 0xed → hi ≤ 0xa0) (hp : Bytes p) (ha : utf8Loop 0 0 (b :: p) = (0, r)) :
    ∃ c, 0x80 ≤ c ∧ IsScalar c ∧ b :: p = encode c ++ r := by
  obtain ⟨cp, ha⟩ := h.of_accept ha
  obtain ⟨b₁, b₂, rfl, h₁, h₂⟩ := h.awaits.two_accept hp h.ne.1 ha
  obtain ⟨c, hc, hs, henc⟩ := @encode_of_three b b₁ b₂ hb (by omega) h₂ (by omega)
    (by omega)
  exact ⟨c, hc, hs, by rw [henc]; rfl⟩

theorem Leads.four {b st lo hi : ℕ} {p r : List ℕ} (h : Leads b st lo hi 36)
    (hb : 0xf0 ≤ b ∧ b ≤ 0xf4) (hlo : 0x80 ≤ lo) (hhi : hi ≤ 0xc0) (h0 : b = 0xf0 → 0x90 ≤ lo)
    (h4 : b = 0xf4 → hi ≤ 0x90) (hp : Bytes p) (ha : utf8Loop 0 0 (b :: p) = (0, r)) :
    ∃ c, 0x80 ≤ c ∧ IsScalar c ∧ b :: p = encode c ++ r := by
  obtain ⟨cp, ha⟩ := h.of_accept ha
  obtain ⟨b₁, b₂, b₃, rfl, h₁, h₂, h₃⟩ := h.awaits.three_accept hp h.ne.1 ha
  obtain ⟨c, hc, hs, henc⟩ := @encode_of_four b b₁ b₂ b₃ hb (by omega) h₂ h₃ (by omega)
    (by omega)
  exact ⟨c, hc, hs, by rw [henc]; rfl⟩

/-- What the automaton accepts, above ASCII, is the UTF-8 of one code point. -/
theorem utf8Loop_accept {b : ℕ} {p r : List ℕ} (hb : 0x80 ≤ b) (hbytes : Bytes (b :: p))
    (ha : utf8Loop 0 0 (b :: p) = (0, r)) :
    ∃ c, 0x80 ≤ c ∧ IsScalar c ∧ b :: p = encode c ++ r := by
  have hlt : b < 0x100 := hbytes b List.mem_cons_self
  have hp : Bytes p := hbytes.tail
  by_cases hbad : b < 0xc2 ∨ 0xf5 ≤ b
  · obtain ⟨cp, he⟩ := utf8Loop_cons 0 0 b p
    rw [he, utf8Next_accept hb hlt hbad, if_pos (.inr rfl)] at ha
    simp at ha
  push Not at hbad
  by_cases h2 : b < 0xe0
  · obtain ⟨cp, he⟩ := utf8Loop_first (utf8Next_c2 ⟨hbad.1, h2⟩) (by norm_num) (by norm_num) 0 p
    obtain ⟨b₁, rfl, h₁⟩ := utf8Loop_last_accept hp (he ▸ ha)
    obtain ⟨c, hc, hs, henc⟩ := encode_of_two ⟨hbad.1, h2⟩ h₁
    exact ⟨c, hc, hs, by rw [henc]; rfl⟩
  by_cases h3 : b < 0xf0
  · by_cases he0 : b = 0xe0
    · subst he0
      exact leads_e0.three (by omega) (by omega) (by omega) (by omega) (by omega) hp ha
    by_cases hed : b = 0xed
    · subst hed
      exact leads_ed.three (by omega) (by omega) (by omega) (by omega) (by omega) hp ha
    · exact (leads_e1 (by omega) hed).three (by omega) (by omega) (by omega) (by omega) (by omega)
        hp ha
  · by_cases hf0 : b = 0xf0
    · subst hf0
      exact leads_f0.four (by omega) (by omega) (by omega) (by omega) (by omega) hp ha
    by_cases hf4 : b = 0xf4
    · subst hf4
      exact leads_f4.four (by omega) (by omega) (by omega) (by omega) (by omega) hp ha
    · exact (leads_f1 (by omega)).four (by omega) (by omega) (by omega) (by omega) (by omega) hp ha

/-! ### Encoding -/

/-- `encode_utf8` is the encoding of a code point. -/
theorem encodeUtf8_eq {c : ℕ} (hs : IsScalar c) : encodeUtf8 c = encode c := by
  obtain ⟨hmax, hsur⟩ := hs
  have m6 : ∀ x : ℕ, x &&& 0x3f = x % 0x40 := fun x => Nat.and_two_pow_sub_one_eq_mod x 6
  have o7 : ∀ x : ℕ, x < 0x40 → 0x80 ||| x = 0x80 + x := fun x hx =>
    (Nat.two_pow_add_eq_or_of_lt (i := 7) (by omega) 1).symm
  have oc : ∀ x : ℕ, x < 0x20 → 0xc0 ||| x = 0xc0 + x := fun x hx =>
    (Nat.two_pow_add_eq_or_of_lt (i := 6) (by omega) 3).symm
  have oe : ∀ x : ℕ, x < 0x10 → 0xe0 ||| x = 0xe0 + x := fun x hx =>
    (Nat.two_pow_add_eq_or_of_lt (i := 5) (by omega) 7).symm
  have of' : ∀ x : ℕ, x < 0x10 → 0xf0 ||| x = 0xf0 + x := fun x hx =>
    (Nat.two_pow_add_eq_or_of_lt (i := 4) (by omega) 15).symm
  unfold encodeUtf8 encode
  simp only [Nat.shiftRight_eq_div_pow, m6]
  split_ifs with h1 h2 h3 h4
  · rfl
  · rw [oc _ (by omega), o7 _ (by omega)]
  · omega
  · rw [oe _ (by omega), o7 _ (by omega), o7 _ (by omega)]
  · rw [of' _ (by omega), o7 _ (by omega), o7 _ (by omega), o7 _ (by omega)]
  · omega

end Aether

end Qjs
