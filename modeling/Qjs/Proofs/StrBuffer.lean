import Qjs.Proofs.Str

/-!
# String buffers

A buffer holds the units of the pieces put into it, in order, whatever surrogates meet at the
seams (`stringBufferConcatStr_spec`). `strings_refine_units` states this for every way to build a
string value.
-/

namespace Qjs

open Wtf8

variable {a : Arch} {mem : ℕ → Bool} {h h' : StrHeap} {v v' : StrVal} {cs ds : List ℕ}

/-! ### Byte arrays -/

theorem take_writeAt {arr : List ℕ} {i : ℕ} (bs : List ℕ) (hi : i ≤ arr.length) :
    (writeAt arr i bs).take (i + bs.length) = arr.take i ++ bs := by
  unfold writeAt
  apply List.take_left'
  simp [hi]

theorem length_writeAt {arr : List ℕ} {i : ℕ} (bs : List ℕ) (h : i + bs.length ≤ arr.length) :
    (writeAt arr i bs).length = arr.length := by
  simp only [writeAt, List.length_append, List.length_take, List.length_drop]
  omega

/-- A larger array starts with the bytes of the old one. -/
theorem jsResizeByteArray_spec {arr arr' : List ℕ} {n : ℕ}
    (hr : jsResizeByteArray a mem arr n = some arr') :
    n ≤ arr'.length ∧ ∀ k ≤ arr.length, arr'.take k = arr.take k := by
  unfold jsResizeByteArray at hr
  split_ifs at hr with hn
  · obtain ⟨new, hnew, rfl⟩ := Option.map_eq_some_iff.1 hr
    have hlen : max n (arr.length + arr.length / 2) = new.length := by
      unfold jsAllocByteArray at hnew
      split_ifs at hnew
      rw [← Option.some.inj hnew, List.length_replicate]
    refine ⟨by rw [length_writeAt arr (by omega)]; omega, ?_⟩
    intro k hk
    have htake : (writeAt new 0 arr).take arr.length = arr := by
      have := take_writeAt arr (Nat.zero_le new.length)
      rwa [Nat.zero_add, List.take_zero, List.nil_append] at this
    nth_rewrite 2 [← htake]
    rw [List.take_take, min_eq_left hk]
  · obtain rfl := Option.some.inj hr
    exact ⟨not_lt.1 hn, fun _ _ => rfl⟩

/-- What a buffer holds. -/
def BufHolds (h : StrHeap) (s : StringBuffer) (cs : List ℕ) : Prop :=
  match s.val with
  | .exception => False
  | .str v => Holds h v cs
  | .bytes arr => CodePoints cs ∧ arr.take s.len = encodeAll cs ∧ s.len < arr.length
    ∧ (s.isAscii = true → ∀ c ∈ cs, c < 0x80)

theorem BufHolds.mono {s : StringBuffer} (hs : BufHolds h s cs) (he : Extends h h') :
    BufHolds h' s cs := by
  unfold BufHolds at *
  split at hs
  · exact hs
  · exact hs.mono he
  · exact hs

/-! ### The seam -/

/-- Surrogates take three bytes. -/
theorem encode_length_surrogate {c : ℕ} (h1 : 0xd800 ≤ c) (h2 : c < 0xe000) :
    (encode c).length = 3 := by
  rw [encode, if_neg (by omega), if_neg (by omega), if_pos (by omega)]
  rfl

theorem join_bits {l t : ℕ} :
    (((l &&& 0x3ff) <<< 10) ||| (t &&& 0x3ff)) + 0x10000 = join l t := by
  have hm : ∀ x : ℕ, x &&& 0x3ff = x % 0x400 := fun x => Nat.and_two_pow_sub_one_eq_mod x 10
  rw [hm, hm, or_shift (k := 10) (by omega), join]
  omega

/-- The test on the left of the seam sees the last code point. -/
theorem isUtf8LeftSurrogate_append (hcs : CodePoints cs) (h3 : 3 ≤ (encodeAll cs).length)
    (tail : List ℕ) :
    isUtf8LeftSurrogate ((encodeAll cs ++ tail).drop ((encodeAll cs).length - 3)) = true
      ↔ ∃ init l, cs = init ++ [l] ∧ IsLead l := by
  rw [← isUtf8LeftSurrogate_seam hcs h3]
  simp only [isUtf8LeftSurrogate, byteAt_drop]
  rw [byteAt_append_left (by omega), byteAt_append_left (by omega)]

/-- Appending bytes to an array that holds `cs`. -/
theorem appendBytes_spec {arr : List ℕ} {len1 : ℕ} {asc : Bool} {p2 : JSString}
    (hcs : CodePoints cs) (htake : arr.take len1 = encodeAll cs)
    (hroom : len1 + p2.buf.length < arr.length) (hasc : asc = true → ∀ c ∈ cs, c < 0x80)
    (hp2 : Rep p2 ds) :
    ∃ es, BufHolds h (appendBytes arr len1 asc p2) es ∧ unitsAll es = unitsAll cs ++ unitsAll ds := by
  have hlen1 : (encodeAll cs).length = len1 := by
    rw [← htake, List.length_take]
    omega
  have hlen2 : p2.buf.length = (encodeAll ds).length := by rw [hp2.buf_eq]
  have harr : arr = encodeAll cs ++ arr.drop len1 := by
    rw [← htake, List.take_append_drop]
  simp only [appendBytes]
  split_ifs with hseam
  · obtain ⟨h2, hright, h1, hleft⟩ := hseam
    rw [hp2.buf_eq] at hright
    obtain ⟨t, ds', rfl, ht⟩ := (isUtf8RightSurrogate_seam hp2.codePoints).1 hright
    rw [harr, ← hlen1] at hleft
    obtain ⟨init, l, rfl, hl⟩ := (isUtf8LeftSurrogate_append hcs (by omega) _).1 hleft
    have hll := encode_length_surrogate hl.1 (hl.2.trans (by norm_num))
    have htl := encode_length_surrogate (le_trans (by norm_num) ht.1) ht.2
    have hll' : l < 0x110000 := hcs.lt l (by simp)
    have htt' : t < 0x110000 := hp2.codePoints.lt t (by simp)
    have hinit : (encodeAll init).length = len1 - 3 := by
      rw [← hlen1, encodeAll_append, List.length_append, encodeAll_singleton, hll]
      omega
    have hds : (encodeAll (t :: ds')).length = 3 + (encodeAll ds').length := by
      rw [encodeAll_cons, List.length_append, htl]
    have hdrop : arr.drop (len1 - 3) = encode l ++ arr.drop len1 := by
      rw [← hinit]
      nth_rewrite 1 [harr]
      rw [encodeAll_append, List.append_assoc, List.drop_left, encodeAll_singleton]
    have hinit' : arr.take (len1 - 3) = encodeAll init := by
      rw [← hinit]
      nth_rewrite 1 [harr]
      rw [encodeAll_append, List.append_assoc, List.take_left]
    have hb2 : p2.buf.drop 3 = encodeAll ds' := by
      rw [hp2.buf_eq, encodeAll_cons, ← htl, List.drop_left]
    obtain ⟨hj1, hj2⟩ := join_bounds l t
    have hjl := encode_length_eq_four hj1
    have hget2 : utf8Get p2.buf = t := by
      rw [hp2.buf_eq, encodeAll_cons, utf8Get_encode htt']
    have hw1 : (writeAt arr (len1 - 3) (encode (join l t))).length = arr.length :=
      length_writeAt _ (by omega)
    simp only [hdrop, utf8Get_encode hll', hget2, join_bits, unicodeToUtf8_eq hj2, hjl, hb2]
    refine ⟨init ++ join l t :: ds', ⟨hcs.append_join hp2.codePoints, ?_, ?_, by simp⟩, ?_⟩
    · have hn : len1 + p2.buf.length - 2 = len1 - 3 + 4 + (encodeAll ds').length := by omega
      rw [hn, take_writeAt _ (by omega), ← hjl, take_writeAt _ (by omega), hinit']
      simp
    · rw [length_writeAt _ (by omega)]
      simp only
      omega
    · have hul : units l = [l] := if_pos (by have := hl.2; omega)
      have hut : units t = [t] := if_pos (by have := ht.2; omega)
      simp [units_join hl ht, hul, hut]
  · refine ⟨cs ++ ds, ⟨hcs.append hp2.codePoints ?_, ?_, ?_, ?_⟩, unitsAll_append cs ds⟩
    · -- a pair at the seam would have passed the test
      intro c hc d hd hp
      apply hseam
      obtain ⟨init, rfl⟩ : ∃ init, cs = init ++ [c] := by
        rw [Option.mem_def, List.getLast?_eq_some_iff] at hc
        exact hc
      obtain ⟨ds', rfl⟩ : ∃ ds', ds = d :: ds' := by
        cases ds with
        | nil => cases hd
        | cons e ds' => exact ⟨ds', by simpa using hd⟩
      have hll := encode_length_surrogate hp.1.1 (hp.1.2.trans (by norm_num))
      have htl := encode_length_surrogate (le_trans (by norm_num) hp.2.1) hp.2.2
      have h1 : 3 ≤ (encodeAll (init ++ [c])).length := by
        rw [encodeAll_append, List.length_append, encodeAll_singleton]
        omega
      have h2 : 3 ≤ p2.buf.length := by
        rw [hlen2, encodeAll_cons, List.length_append]
        omega
      refine ⟨h2, ?_, by omega, ?_⟩
      · rw [hp2.buf_eq, isUtf8RightSurrogate_seam hp2.codePoints]
        exact ⟨d, ds', rfl, hp.2⟩
      · rw [harr, ← hlen1, isUtf8LeftSurrogate_append hcs h1]
        exact ⟨init, c, rfl, hp.1⟩
    · rw [take_writeAt _ (by omega), htake, hp2.buf_eq, encodeAll_append]
    · rw [length_writeAt _ (by omega)]
      exact hroom
    · intro hb c hc
      rw [Bool.and_eq_true] at hb
      rcases List.mem_append.1 hc with hc | hc
      · exact hasc hb.1 c hc
      · exact hp2.ascii hb.2 c hc

/-! ### Operations on a buffer -/

/-- A piece with the units `us` was put into the buffer, unless there was an exception. -/
def Appended (h : StrHeap) (s : StringBuffer) (cs us : List ℕ) : Prop :=
  s.val = .exception ∨ ∃ es, BufHolds h s es ∧ unitsAll es = unitsAll cs ++ us

theorem BufHolds.appended_nil {s : StringBuffer} (hs : BufHolds h s cs) : Appended h s cs [] :=
  .inr ⟨cs, hs, by simp⟩

theorem Appended.of_holds {s : StringBuffer} {es us : List ℕ} (hs : BufHolds h s es)
    (hu : unitsAll es = unitsAll cs ++ us) : Appended h s cs us := .inr ⟨es, hs, hu⟩

theorem Holds.length (hv : Holds h v cs) : (getStringPtr h v).buf.length = (encodeAll cs).length := by
  rw [hv.rep.buf_eq]

theorem stringBufferConcatStr_spec {s : StringBuffer} (hs : BufHolds h s cs) (hv : Holds h v ds) :
    Appended h (stringBufferConcatStr a mem h s v) cs (unitsAll ds) := by
  have hrep := hv.rep
  have hlen2 := hv.length
  have hempty : (getStringPtr h v).buf.length = 0 → ds = [] := fun h0 =>
    eq_nil_of_encodeAll (hlen2 ▸ h0)
  unfold stringBufferConcatStr
  unfold BufHolds at hs
  cases hval : s.val with
  | exception =>
    rw [hval] at hs
    exact hs.elim
  | str v1 =>
    rw [hval] at hs
    simp only at hs ⊢
    have hrep1 := hs.rep
    have hlen1 := hs.length
    split_ifs with h2 h1 hmax
    · rw [hempty h2]
      exact BufHolds.appended_nil (by simpa [BufHolds, hval] using hs)
    · obtain rfl : cs = [] := eq_nil_of_encodeAll (hlen1 ▸ h1)
      exact .of_holds (by simpa [BufHolds] using hv) rfl
    · exact .inl rfl
    · cases hr : jsResizeByteArray a mem [] ((getStringPtr h v1).buf.length
          + (getStringPtr h v).buf.length + 1) with
      | none => exact .inl rfl
      | some arr =>
        obtain ⟨hroom, -⟩ := jsResizeByteArray_spec hr
        have htake := take_writeAt (getStringPtr h v1).buf (Nat.zero_le arr.length)
        rw [Nat.zero_add, List.take_zero, List.nil_append] at htake
        have hlen := length_writeAt (getStringPtr h v1).buf (show 0 + _ ≤ arr.length by omega)
        obtain ⟨es, hes, hu⟩ := appendBytes_spec (h := h) hrep1.codePoints
          (htake.trans hrep1.buf_eq) (by rw [hlen]; omega) hrep1.ascii hrep
        exact .of_holds hes hu
  | bytes arr =>
    rw [hval] at hs
    obtain ⟨hcs, htake, hroom, hasc⟩ := hs
    simp only
    split_ifs with h2 hmax hgrow
    · rw [hempty h2]
      exact BufHolds.appended_nil (by simpa [BufHolds, hval] using ⟨hcs, htake, hroom, hasc⟩)
    · exact .inl rfl
    · cases hr : jsResizeByteArray a mem arr (s.len + (getStringPtr h v).buf.length + 1) with
      | none => exact .inl rfl
      | some arr' =>
        obtain ⟨hroom', htake'⟩ := jsResizeByteArray_spec hr
        obtain ⟨es, hes, hu⟩ := appendBytes_spec (h := h) hcs ((htake' s.len hroom.le).trans htake)
          (by omega) hasc hrep
        exact .of_holds hes hu
    · obtain ⟨es, hes, hu⟩ := appendBytes_spec (h := h) hcs htake (by omega) hasc hrep
      exact .of_holds hes hu

/-- A unit has one UTF-8 position. -/
theorem PosOk.unique {i s8 e8 : ℕ} (hs : PosOk cs i s8) (he : PosOk cs i e8) : s8 = e8 := by
  have key : ∀ {s8 e8 : ℕ} {pre₁ post₁ pre₂ post₂ : List ℕ}, pre₁ ++ post₁ = pre₂ ++ post₂ →
      ((s8 = (encodeAll pre₁).length * 2 ∧ (unitsAll pre₁).length = i)
        ∨ (s8 = (encodeAll pre₁).length * 2 + 1 ∧ (unitsAll pre₁).length + 1 = i
          ∧ ∃ c rest, post₁ = c :: rest ∧ 0x10000 ≤ c)) →
      ((e8 = (encodeAll pre₂).length * 2 ∧ (unitsAll pre₂).length = i)
        ∨ (e8 = (encodeAll pre₂).length * 2 + 1 ∧ (unitsAll pre₂).length + 1 = i
          ∧ ∃ c rest, post₂ = c :: rest ∧ 0x10000 ≤ c)) →
      (unitsAll pre₁).length ≤ (unitsAll pre₂).length → s8 = e8 := by
    intro s8 e8 pre₁ post₁ pre₂ post₂ heq h1 h2 hle
    obtain ⟨mid, rfl, rfl⟩ := append_split heq hle
    rw [unitsAll_append, List.length_append] at h2
    rcases mid with _ | ⟨d, mid⟩
    · simp only [unitsAll_nil, List.length_nil, List.append_nil] at h2
      rcases h1 with ⟨h1, h1'⟩ | ⟨h1, h1', -⟩ <;> rcases h2 with ⟨h2, h2'⟩ | ⟨h2, h2', -⟩ <;> omega
    · exfalso
      rw [unitsAll_cons, List.length_append, units_length] at h2
      rcases h1 with ⟨-, h1⟩ | ⟨-, h1, c, rest, hc, hc4⟩
      · split_ifs at h2 <;> omega
      · obtain ⟨rfl, -⟩ := List.cons.inj hc
        rw [if_neg (by omega)] at h2
        omega
  obtain ⟨pre₁, post₁, rfl, h1⟩ := hs
  obtain ⟨pre₂, post₂, heq, h2⟩ := he
  rcases le_total (unitsAll pre₁).length (unitsAll pre₂).length with hle | hle
  · exact key heq h1 h2 hle
  · exact (key heq.symm h2 h1 hle).symm

theorem PosOk.lt {i j s8 e8 : ℕ} (hcs : CodePoints cs) (hi : PosOk cs i s8) (hj : PosOk cs j e8)
    (hij : i < j) : s8 < e8 := by
  obtain ⟨pre, r, mid, l, post, hcut, rfl, rfl, rfl, rfl⟩ := cut_of_posOk hcs hi hj hij
  simp only [unitsAll_append, encodeAll_append, List.length_append] at hij ⊢
  rcases hcut.halved_r with rfl | ⟨c, rfl, hc, -⟩
  · rcases mid with _ | ⟨c, mid⟩
    · simp at hij ⊢
      omega
    · have := (encode_length c).1
      simp
      omega
  · simp [encode_length_eq_four hc]
    omega

/-- What one buffer operation does to the heap and to the buffer. -/
structure OpSpec (h : StrHeap) (cs us : List ℕ) (r : StringBuffer × StrHeap) : Prop where
  heapOk : HeapOk r.2
  extends' : Extends h r.2
  appended : Appended r.2 r.1 cs us

theorem stringBufferConcatUtf8_spec {s : StringBuffer} {i j s8 e8 : ℕ} (hh : HeapOk h)
    (hs : BufHolds h s cs) (hv : Holds h v ds) (hi : PosOk ds i s8) (hj : PosOk ds j e8) :
    OpSpec h cs (((unitsAll ds).drop i).take (j - i))
      (stringBufferConcatUtf8 a mem h s v s8 e8) := by
  unfold stringBufferConcatUtf8
  rcases Nat.lt_or_ge i j with hij | hij
  · have h8 := hi.lt hv.rep.codePoints hj hij
    rw [if_neg (by omega)]
    cases hr : jsSubStringUtf8 a mem h v s8 e8 with
    | none => exact ⟨hh, .refl h, .inl rfl⟩
    | some r =>
      obtain ⟨v2, h2⟩ := r
      obtain ⟨rs, hg, hu⟩ := jsSubStringUtf8_gives hh hv hi hj hij hr
      rw [← hu]
      exact ⟨hg.heapOk, hg.extends', stringBufferConcatStr_spec (hs.mono hg.extends') hg.holds⟩
  · have h8 : e8 ≤ s8 := by
      rcases hij.lt_or_eq with hlt | rfl
      · exact (hj.lt hv.rep.codePoints hi hlt).le
      · exact (hj.unique hi).le
    rw [if_pos h8, Nat.sub_eq_zero_of_le hij, List.take_zero]
    exact ⟨hh, .refl h, hs.appended_nil⟩

theorem take_drop_clamp (us : List ℕ) (i j : ℕ) :
    (us.drop (min i us.length)).take (min j us.length - min i us.length)
      = (us.drop i).take (j - i) := by
  rcases Nat.lt_or_ge i us.length with hi | hi
  · rw [min_eq_left hi.le]
    rcases Nat.lt_or_ge j us.length with hj | hj
    · rw [min_eq_left hj.le]
    · rw [min_eq_right hj, List.take_of_length_le (by simp), List.take_of_length_le]
      rw [List.length_drop]
      omega
  · rw [min_eq_right hi, List.drop_length, List.drop_of_length_le hi]
    simp

theorem stringBufferConcatUtf16_spec {s : StringBuffer} (hh : HeapOk h) (hs : BufHolds h s cs)
    (hv : Holds h v ds) (i j : ℕ) :
    OpSpec h cs (((unitsAll ds).drop i).take (j - i)) (stringBufferConcatUtf16 a mem h s v i j) := by
  simp only [stringBufferConcatUtf16]
  split_ifs with hle
  · rw [Nat.sub_eq_zero_of_le hle, List.take_zero]
    exact ⟨hh, .refl h, hs.appended_nil⟩
  · obtain ⟨hs1, hp1⟩ := jsStringUtf16ToUtf8Pos_spec hh hv i
    have hv1 := hv.mono hs1.extends'
    obtain ⟨hs2, hp2⟩ := jsStringUtf16ToUtf8Pos_spec hs1.heapOk hv1 j
    have he := hs1.extends'.trans hs2.extends'
    have hop : OpSpec _ cs _ (stringBufferConcatUtf8 a mem _ s v _ _) :=
      stringBufferConcatUtf8_spec hs2.heapOk (hs.mono he) (hv.mono he) hp1 hp2
    rw [take_drop_clamp] at hop
    exact ⟨hop.heapOk, he.trans hop.extends', hop.appended⟩

/-- A byte array becomes the string of its first `len` bytes. -/
theorem jsByteArrayToString_gives {arr : List ℕ} {len : ℕ} {asc : Bool} (hh : HeapOk h)
    (hcs : CodePoints cs) (htake : arr.take len = encodeAll cs) (hlen : len ≤ arr.length)
    (hasc : asc = true → ∀ c ∈ cs, c < 0x80) :
    Gives h (jsByteArrayToString h arr len asc).1 (jsByteArrayToString h arr len asc).2 cs := by
  have hlen' : (encodeAll cs).length = len := by
    rw [← htake, List.length_take, min_eq_left hlen]
  unfold jsByteArrayToString
  split_ifs with h0 h1
  · obtain rfl : cs = [] := eq_nil_of_encodeAll (hlen'.trans h0)
    exact gives_empty hh
  · cases cs with
    | nil => exact absurd hlen'.symm h0
    | cons c cs =>
      have hc := hcs.lt c List.mem_cons_self
      have harr : arr = encode c ++ (encodeAll cs ++ arr.drop len) := by
        rw [← List.append_assoc, ← encodeAll_cons, ← htake, List.take_append_drop]
      rw [encodeAll_cons, List.length_append] at hlen'
      rw [harr, utf8CharLen_encode hc] at h1
      obtain rfl : cs = [] := eq_nil_of_encodeAll (by omega)
      rw [harr, utf8Get_encode hc]
      exact ⟨hh, .refl h, hc, rfl⟩
  · have hrep : Rep ⟨false, asc, false, arr.take len⟩ cs := ⟨hcs, htake, hasc⟩
    exact ⟨(hh.add hrep).1, hh.extends_add _, (hh.add hrep).2⟩

theorem stringBufferPop_gives {s : StringBuffer} (hh : HeapOk h) (hs : BufHolds h s cs)
    (hr : stringBufferPop h s = some (v', h')) : Gives h v' h' cs := by
  unfold stringBufferPop at hr
  unfold BufHolds at hs
  split at hr
  · cases hr
  · next v hval =>
    obtain ⟨rfl, rfl⟩ := Prod.mk.inj (Option.some.inj hr)
    rw [hval] at hs
    exact ⟨hh, .refl h, hs⟩
  · next arr hval =>
    rw [hval] at hs
    obtain ⟨hcs, htake, hroom, hasc⟩ := hs
    have hg := jsByteArrayToString_gives hh hcs htake hroom.le hasc
    rwa [Option.some.inj hr] at hg

theorem stringBufferPush_holds {n : ℕ} {s : StringBuffer} (hh : HeapOk h)
    (hr : stringBufferPush a mem n = some s) : BufHolds h s [] := by
  unfold stringBufferPush at hr
  split_ifs at hr with hn
  · obtain ⟨arr, harr, rfl⟩ := Option.map_eq_some_iff.1 hr
    unfold jsAllocByteArray at harr
    split_ifs at harr
    obtain rfl := Option.some.inj harr
    refine ⟨.nil, by simp, ?_, by simp⟩
    simpa using hn
  · obtain rfl := Option.some.inj hr
    exact hh.empty

/-! ### Well-formed values and their units -/

/-- The bytes are well formed, and below 0x80 when the value says so. -/
def WellFormed (h : StrHeap) : StrVal → Prop
  | .char c => c < 0x110000
  | .ref id => ∃ p, h.strings id = some p ∧ Valid p.buf ∧ (p.isAscii = true → ∀ b ∈ p.buf, b < 0x80)

/-- The UTF-16 code units of a string value. -/
def unitsOf (h : StrHeap) (v : StrVal) : List ℕ := unitsAll (decode (getStringPtr h v).buf)

theorem decode_ascii : ∀ {bs : List ℕ}, (∀ b ∈ bs, b < 0x80) → decode bs = bs
  | [], _ => by simp [decode]
  | b :: bs, hb => by
    have h0 := hb b List.mem_cons_self
    rw [decode_one (by omega), decode_ascii fun d hd => hb d (List.mem_cons_of_mem b hd)]

theorem WellFormed.holds (hv : WellFormed h v) : Holds h v (decode (getStringPtr h v).buf) := by
  cases v with
  | char c =>
    refine ⟨hv, ?_⟩
    have hd := (CodePoints.singleton hv).decode_encodeAll
    rw [encodeAll_singleton] at hd
    simpa [getStringPtr, unicodeToUtf8_eq hv] using hd
  | ref id =>
    obtain ⟨p, hp, hvalid, hasc⟩ := hv
    obtain ⟨hcs, he⟩ := valid_iff.1 hvalid
    refine ⟨p, hp, ?_⟩
    simp only [getStringPtr, hp, Option.getD_some]
    refine ⟨hcs, he.symm, ?_⟩
    intro ha c hc
    rw [decode_ascii (hasc ha)] at hc
    exact hasc ha c hc

theorem Holds.wellFormed (hv : Holds h v cs) : WellFormed h v := by
  cases v with
  | char c => exact hv.1
  | ref id =>
    obtain ⟨p, hp, hr⟩ := hv
    refine ⟨p, hp, ⟨cs, hr.codePoints, hr.buf_eq⟩, ?_⟩
    intro ha
    rw [hr.buf_eq, (encodeAll_ascii (hr.ascii ha)).1]
    exact hr.ascii ha

theorem Holds.unitsOf_eq (hv : Holds h v cs) : unitsOf h v = unitsAll cs := by
  rw [unitsOf, hv.rep.buf_eq, hv.rep.codePoints.decode_encodeAll]

/-- The bytes of a left surrogate are nowhere followed by those of a right surrogate. -/
theorem no_pair_of_codePoints : ∀ {cs : List ℕ}, CodePoints cs → ∀ i,
    ¬(isUtf8LeftSurrogate ((encodeAll cs).drop i) = true
      ∧ isUtf8RightSurrogate ((encodeAll cs).drop (i + 3)) = true)
  | [], _, i => by simp [isUtf8LeftSurrogate, byteAt]
  | c :: cs, hcs, i => by
    rintro ⟨hl, hr⟩
    have hc := hcs.lt c List.mem_cons_self
    have hcs' : CodePoints ([c] ++ cs) := hcs
    rcases Nat.lt_or_ge i (encode c).length with hi | hi
    · have h0 : byteAt (encode c) i = 0xed := by
        simp only [isUtf8LeftSurrogate, byteAt_drop, Bool.and_eq_true, beq_iff_eq] at hl
        rw [Nat.add_zero, encodeAll_cons, byteAt_append_left hi] at hl
        exact hl.1
      -- 0xed is no continuation byte
      have hzero : i = 0 := by
        by_contra hne
        have := (encode_continuation hc hi).2 hne
        rw [h0] at this
        simp at this
      subst hzero
      have hlead : IsLead c := by
        have := surrogate_bytes hc (encodeAll cs) 0xa0 0xaf (by norm_num) (by norm_num)
        rw [isUtf8LeftSurrogate, List.drop_zero, encodeAll_cons, Bool.and_eq_true, Bool.and_eq_true,
          beq_iff_eq, decide_eq_true_eq, decide_eq_true_eq, this] at hl
        exact ⟨by omega, by omega⟩
      have hlen := encode_length_surrogate hlead.1 (hlead.2.trans (by norm_num))
      rw [encodeAll_cons, Nat.zero_add, ← hlen, List.drop_left,
        isUtf8RightSurrogate_seam hcs'.right] at hr
      obtain ⟨t, rest, rfl, ht⟩ := hr
      exact (List.isChain_cons_cons.1 hcs.unjoined).1 ⟨hlead, ht⟩
    · apply no_pair_of_codePoints hcs'.right (i - (encode c).length)
      obtain ⟨k, rfl⟩ := Nat.exists_eq_add_of_le hi
      rw [encodeAll_cons, ← List.drop_drop, List.drop_left] at hl
      rw [encodeAll_cons, Nat.add_assoc, ← List.drop_drop, List.drop_left] at hr
      rw [Nat.add_sub_cancel_left]
      exact ⟨hl, hr⟩

/-- The bytes of `v` never have a left surrogate right before a right one. -/
def NoPair (h : StrHeap) (v : StrVal) : Prop :=
  ∀ i, ¬(isUtf8LeftSurrogate ((getStringPtr h v).buf.drop i) = true
    ∧ isUtf8RightSurrogate ((getStringPtr h v).buf.drop (i + 3)) = true)

/-- `v'` was built in `h'` with the units `us`, and the strings of `h` are still well formed. -/
structure Built (h : StrHeap) (v' : StrVal) (h' : StrHeap) (us : List ℕ) : Prop where
  heapOk : HeapOk h'
  extends' : Extends h h'
  wellFormed : WellFormed h' v'
  noPair : NoPair h' v'
  units_eq : unitsOf h' v' = us

theorem Gives.built (hg : Gives h v' h' cs) : Built h v' h' (unitsAll cs) := by
  refine ⟨hg.heapOk, hg.extends', hg.holds.wellFormed, ?_, hg.holds.unitsOf_eq⟩
  unfold NoPair
  rw [hg.holds.rep.buf_eq]
  exact no_pair_of_codePoints hg.holds.rep.codePoints

/-! ### Runs -/

/-- A UTF-8 position of `v`: the one of its unit `i`. -/
def IsPos (h : StrHeap) (v : StrVal) (i p8 : ℕ) : Prop := PosOk (decode (getStringPtr h v).buf) i p8

/-- What a caller hands to the buffer functions. -/
def BufOp.WellFormed (h : StrHeap) : BufOp → Prop
  | .concatStr v => Qjs.WellFormed h v
  | .concatUtf8 v start end' => Qjs.WellFormed h v ∧ (∃ i, IsPos h v i start) ∧ ∃ j, IsPos h v j end'
  | .concatUtf16 v _ _ => Qjs.WellFormed h v
  | .putc c => c < 0x110000

/-- The unit at a UTF-8 position. -/
def unitPos (h : StrHeap) (v : StrVal) (p8 : ℕ) : ℕ :=
  (unitsAll (decode ((getStringPtr h v).buf.take (p8 / 2)))).length + p8 % 2

/-- The units an operation puts into the buffer. -/
def BufOp.units (h : StrHeap) : BufOp → List ℕ
  | .concatStr v => unitsOf h v
  | .concatUtf8 v start end' =>
    ((unitsOf h v).drop (unitPos h v start)).take (unitPos h v end' - unitPos h v start)
  | .concatUtf16 v start end' => ((unitsOf h v).drop start).take (end' - start)
  | .putc c => Wtf8.units c

theorem unitPos_eq {i p8 : ℕ} (hv : Qjs.WellFormed h v) (hp : IsPos h v i p8) :
    unitPos h v p8 = i := by
  have hrep := hv.holds.rep
  obtain ⟨pre, post, hsplit, hp⟩ := hp
  have hpre : decode (encodeAll pre) = pre := by
    have hcs := hrep.codePoints
    rw [hsplit] at hcs
    exact hcs.left.decode_encodeAll
  have htake : (getStringPtr h v).buf.take (encodeAll pre).length = encodeAll pre := by
    rw [hrep.buf_eq, hsplit, encodeAll_append, List.take_left]
  unfold unitPos
  rcases hp with ⟨rfl, hu⟩ | ⟨rfl, hu, -⟩
  · rw [Nat.mul_div_cancel _ (by norm_num : 0 < 2), htake, hpre]
    omega
  · rw [show ((encodeAll pre).length * 2 + 1) / 2 = (encodeAll pre).length by omega, htake, hpre]
    omega

/-- One operation, at a later moment than the one its arguments were made at. -/
theorem BufOp.run_spec {h₁ : StrHeap} {s : StringBuffer} {op : BufOp} (hh : HeapOk h₁)
    (he : Extends h h₁) (hs : BufHolds h₁ s cs) (hop : op.WellFormed h) :
    OpSpec h₁ cs (op.units h) (op.run a mem h₁ s) := by
  cases op with
  | concatStr v => exact ⟨hh, .refl _, stringBufferConcatStr_spec hs (hop.holds.mono he)⟩
  | concatUtf8 v start end' =>
    obtain ⟨hv, ⟨i, hi⟩, j, hj⟩ := hop
    simp only [BufOp.units, unitPos_eq hv hi, unitPos_eq hv hj]
    exact stringBufferConcatUtf8_spec hh hs (hv.holds.mono he) hi hj
  | concatUtf16 v start end' => exact stringBufferConcatUtf16_spec hh hs (hop.holds.mono he) start end'
  | putc c =>
    have hc : Holds h₁ (.char c) [c] := ⟨hop, rfl⟩
    have hp : Appended h₁ (stringBufferPutc a mem h₁ s c) cs (unitsAll [c]) :=
      stringBufferConcatStr_spec hs hc
    rw [unitsAll_cons, unitsAll_nil, List.append_nil] at hp
    exact ⟨hh, .refl _, hp⟩

theorem stringBufferConcatStr_exception {s : StringBuffer} (hs : s.val = .exception) :
    (stringBufferConcatStr a mem h s v).val = .exception := by
  simp [stringBufferConcatStr, hs]

theorem stringBufferConcatUtf8_exception {s : StringBuffer} {i j : ℕ} (hs : s.val = .exception) :
    (stringBufferConcatUtf8 a mem h s v i j).1.val = .exception := by
  unfold stringBufferConcatUtf8
  split_ifs
  · exact hs
  · split
    · rfl
    · exact stringBufferConcatStr_exception hs

/-- After an exception the buffer stays as it is. -/
theorem BufOp.run_exception {s : StringBuffer} (op : BufOp) (hs : s.val = .exception) :
    (op.run a mem h s).1.val = .exception := by
  cases op with
  | concatStr v => exact stringBufferConcatStr_exception hs
  | concatUtf8 v start end' => exact stringBufferConcatUtf8_exception hs
  | concatUtf16 v start end' =>
    simp only [BufOp.run, stringBufferConcatUtf16]
    split_ifs
    · exact hs
    · exact stringBufferConcatUtf8_exception hs
  | putc c => exact stringBufferConcatStr_exception hs

theorem runOps_exception : ∀ (ops : List BufOp) {h : StrHeap} {s : StringBuffer},
    s.val = .exception → (runOps a mem ops h s).1.val = .exception
  | [], _, _, hs => hs
  | op :: ops, _, _, hs => runOps_exception ops (op.run_exception hs)

/-- A whole run appends the units of its pieces. The induction is over the operations, with the
heap the arguments belong to fixed. -/
theorem runOps_spec : ∀ (ops : List BufOp) {h₁ : StrHeap} {s : StringBuffer} {cs : List ℕ},
    HeapOk h₁ → Extends h h₁ → BufHolds h₁ s cs → (∀ op ∈ ops, op.WellFormed h) →
      (runOps a mem ops h₁ s).1.val = .exception
        ∨ OpSpec h₁ cs (ops.flatMap (BufOp.units h)) (runOps a mem ops h₁ s)
  | [], h₁, _, _, hh, _, hs, _ => .inr ⟨hh, .refl h₁, hs.appended_nil⟩
  | op :: ops, h₁, s, cs, hh, he, hs, hops => by
    have hop : OpSpec h₁ cs (op.units h) (op.run a mem h₁ s) :=
      BufOp.run_spec hh he hs (hops op List.mem_cons_self)
    rcases hop.appended with hex | ⟨es, hes, hu⟩
    · exact .inl (runOps_exception ops hex)
    have hrest := runOps_spec ops hop.heapOk (he.trans hop.extends') hes
      fun o ho => hops o (List.mem_cons_of_mem op ho)
    refine hrest.imp id fun ih => ⟨ih.heapOk, hop.extends'.trans ih.extends', ?_⟩
    refine ih.appended.imp id ?_
    rintro ⟨fs, hfs, hv⟩
    refine ⟨fs, hfs, ?_⟩
    rw [hv, hu, List.append_assoc, List.flatMap_cons]

theorem buildString_built {n : ℕ} {ops : List BufOp} (hh : HeapOk h)
    (hops : ∀ op ∈ ops, op.WellFormed h) (hr : buildString a mem h n ops = some (v', h')) :
    Built h v' h' (ops.flatMap (BufOp.units h)) := by
  obtain ⟨s, hs, hr⟩ := Option.bind_eq_some_iff.1 hr
  change stringBufferPop (runOps a mem ops h s).2 (runOps a mem ops h s).1 = _ at hr
  have hpop : (runOps a mem ops h s).1.val = .exception →
      stringBufferPop (runOps a mem ops h s).2 (runOps a mem ops h s).1 = none := by
    intro hex
    simp [stringBufferPop, hex]
  rcases runOps_spec ops hh (.refl h) (stringBufferPush_holds hh hs) hops with hex | hop
  · rw [hpop hex] at hr
    cases hr
  rcases hop.appended with hex | ⟨es, hes, hu⟩
  · rw [hpop hex] at hr
    cases hr
  have hb := (stringBufferPop_gives hop.heapOk hes hr).built
  rw [hu] at hb
  exact ⟨hb.heapOk, hop.extends'.trans hb.extends', hb.wellFormed, hb.noPair, hb.units_eq⟩

theorem jsConcatString_eq_buildString (v1 v2 : StrVal) :
    jsConcatString a mem h v1 v2 = buildString a mem h 0 [.concatStr v1, .concatStr v2] := rfl

/-- Every string value built from well-formed ones is well formed, and its units are the units of
the pieces or the slice asked for. -/
theorem strings_refine_units (a : Arch) (mem : ℕ → Bool) (h : StrHeap) (hh : HeapOk h) :
    (∀ v1 v2 v' h', WellFormed h v1 → WellFormed h v2 →
      jsConcatString a mem h v1 v2 = some (v', h') → Built h v' h' (unitsOf h v1 ++ unitsOf h v2))
    ∧ (∀ v i j v' h', WellFormed h v → i ≤ j → j ≤ (unitsOf h v).length →
      jsSubString a mem h v i j = some (v', h') →
      Built h v' h' (((unitsOf h v).drop i).take (j - i)))
    ∧ (∀ n ops v' h', (∀ op ∈ ops, op.WellFormed h) → buildString a mem h n ops = some (v', h') →
      Built h v' h' (ops.flatMap (BufOp.units h)))
    ∧ ∀ arr len isAscii, len ≤ arr.length → Valid (arr.take len) →
      (isAscii = true → ∀ b ∈ arr.take len, b < 0x80) →
      Built h (jsByteArrayToString h arr len isAscii).1 (jsByteArrayToString h arr len isAscii).2
        (unitsAll (decode (arr.take len))) := by
  refine ⟨?_, ?_, ?_, ?_⟩
  · intro v1 v2 v' h' hv1 hv2 hr
    rw [jsConcatString_eq_buildString] at hr
    have hb := buildString_built hh (by simp [BufOp.WellFormed, hv1, hv2]) hr
    simpa [BufOp.units] using hb
  · intro v i j v' h' hv hij hj hr
    obtain ⟨rs, hg, hu⟩ := jsSubString_gives hh hv.holds hij hj hr
    rw [unitsOf, ← hu]
    exact hg.built
  · intro n ops v' h' hops hr
    exact buildString_built hh hops hr
  · intro arr len isAscii hlen hvalid hasc
    obtain ⟨hcs, he⟩ := valid_iff.1 hvalid
    refine (jsByteArrayToString_gives hh hcs he.symm hlen ?_).built
    intro ha c hc
    rw [decode_ascii (hasc ha)] at hc
    exact hasc ha c hc

/-- The heap of a new context, as far as strings go. -/
def StrHeap.init : StrHeap :=
  ⟨fun id => if id = 0 then some emptyString else none, 1, fun _ => ⟨none, 0, 0⟩, 0⟩

theorem StrHeap.heapOk_init : HeapOk .init := by
  refine ⟨⟨emptyString, rfl, .nil, rfl, by simp⟩, ?_, ?_⟩
  · intro id hid
    exact if_neg (by change 1 ≤ id at hid; omega)
  · intro k v hk
    cases hk

/-- The halves of U+1F600 put together. -/
theorem strings_refine_units_pair :
    Built .init (.char 0x1f600) .init [0xd83d, 0xde00] := by
  have hl : unitsOf .init (.char 0xd83d) = [0xd83d] := by decide +kernel
  have ht : unitsOf .init (.char 0xde00) = [0xde00] := by decide +kernel
  have hb : stringBufferConcatStr .jsw8 (fun _ => true) .init ⟨.str (.char 0xd83d), 0, true⟩
      (.char 0xde00) = ⟨.bytes [0xf0, 0x9f, 0x98, 0x80, 0, 0, 0], 4, false⟩ := by decide +kernel
  have hr : jsConcatString .jsw8 (fun _ => true) .init (.char 0xd83d) (.char 0xde00)
      = some (.char 0x1f600, .init) := by
    change stringBufferPop .init (stringBufferConcatStr .jsw8 (fun _ => true) .init
      ⟨.str (.char 0xd83d), 0, true⟩ (.char 0xde00)) = _
    rw [hb]
    rfl
  have := (strings_refine_units .jsw8 (fun _ => true) .init StrHeap.heapOk_init).1 (.char 0xd83d)
    (.char 0xde00) (.char 0x1f600) .init (by norm_num [WellFormed]) (by norm_num [WellFormed]) hr
  rwa [hl, ht] at this

end Qjs
