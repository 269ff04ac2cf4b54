import Qjs.PosCache
import Qjs.Proofs.StrBuffer

/-!
# The position cache is transparent

A position names one unit and a unit has one position (`PosOk.unique`, `PosOk.unit_unique`), so
two scans that both end at the right place agree, wherever they start. Conversions, new strings
and collections keep the heap well formed, its cache included, so every conversion of every run
answers as a scan from the start of the string does (`convertPos_transparent`).
-/

namespace Qjs

open Wtf8

variable {a : Arch} {mem : ℕ → Bool} {h h' : StrHeap} {v : StrVal} {cs : List ℕ}

theorem PosOk.unit_unique {i j p : ℕ} (hcs : CodePoints cs) (hi : PosOk cs i p)
    (hj : PosOk cs j p) : i = j := by
  rcases Nat.lt_trichotomy i j with hij | hij | hij
  · exact absurd (hi.lt hcs hj hij) (lt_irrefl p)
  · exact hij
  · exact absurd (hj.lt hcs hi hij) (lt_irrefl p)

/-! ### Scans for a byte -/

/-- A forward scan for a boundary ahead of it stops there. -/
theorem posForward_reaches {limit : ℕ} : ∀ (mid : List ℕ) (fuel : ℕ) (pre post : List ℕ),
    (∀ c ∈ mid, c < 0x110000) → (unitsAll (pre ++ mid)).length < limit →
    (encodeAll mid).length ≤ fuel →
    posForward (encodeAll (pre ++ mid ++ post)) limit (encodeAll (pre ++ mid)).length fuel
      (encodeAll pre).length (unitsAll pre).length
      = ((encodeAll (pre ++ mid)).length, (unitsAll (pre ++ mid)).length, 0)
  | [], fuel, pre, post, _, _, _ => by
    rw [List.append_nil]
    rcases fuel with _ | fuel
    · rfl
    · rw [posForward, if_neg (lt_irrefl _)]
  | c :: mid, fuel, pre, post, hmid, hl, hf => by
    have hc := hmid c List.mem_cons_self
    have hc1 := (encode_length c).1
    have hE : (encodeAll (pre ++ [c])).length = (encodeAll pre).length + (encode c).length := by
      simp
    have hU : (unitsAll (pre ++ [c])).length = (unitsAll pre).length + (units c).length := by simp
    have hsplit : pre ++ c :: mid = pre ++ [c] ++ mid := by simp
    obtain ⟨hclen, hpair⟩ := scan_at hc pre (mid ++ post)
    rw [encodeAll_cons, List.length_append] at hf
    rcases fuel with _ | fuel
    · omega
    have ih := @posForward_reaches limit mid fuel (pre ++ [c]) post
      (fun d hd => hmid d (List.mem_cons_of_mem c hd))
    rw [← hsplit, hE, hU] at ih
    have hlt : (encodeAll pre).length < (encodeAll (pre ++ c :: mid)).length := by
      simp only [encodeAll_append, encodeAll_cons, List.length_append]
      omega
    have hlu : (unitsAll pre).length + (units c).length < limit := by
      rw [← hU]
      rw [hsplit, unitsAll_append, List.length_append] at hl
      omega
    rw [List.append_assoc, List.cons_append] at ih ⊢
    simp only [posForward, if_pos hlt, hclen, hpair]
    rw [if_neg (by omega)]
    split_ifs with h4 hj
    · rw [units_length_pair h4] at hlu
      omega
    · rw [units_length_pair h4] at ih
      exact ih hl (by omega)
    · rw [units_length_single (not_le.1 h4)] at ih
      exact ih hl (by omega)

/-- A backward scan for a boundary behind it stops there. -/
theorem posBackward_reaches {limit : ℕ} (pre : List ℕ) (mid : List ℕ) : ∀ (fuel : ℕ)
    (post : List ℕ), (∀ c ∈ mid, c < 0x110000) → (unitsAll (pre ++ mid)).length < limit →
    (encodeAll mid).length ≤ fuel →
    posBackward (encodeAll (pre ++ mid ++ post)) limit (encodeAll pre).length fuel
      (encodeAll (pre ++ mid)).length (unitsAll (pre ++ mid)).length
      = ((encodeAll pre).length, (unitsAll pre).length, 0) := by
  induction mid using List.reverseRecOn with
  | nil =>
    intro fuel post _ _ _
    rw [List.append_nil]
    rcases fuel with _ | fuel
    · rfl
    · rw [posBackward, if_neg (lt_irrefl _)]
  | append_singleton mid c ih =>
    intro fuel post hmid hl hf
    have hc := hmid c (by simp)
    have hc1 := (encode_length c).1
    have hE : (encodeAll (pre ++ (mid ++ [c]))).length
        = (encodeAll (pre ++ mid)).length + (encode c).length := by
      simp [Nat.add_assoc]
    have hU : (unitsAll (pre ++ (mid ++ [c]))).length
        = (unitsAll (pre ++ mid)).length + (units c).length := by
      simp [Nat.add_assoc]
    rw [encodeAll_append, encodeAll_singleton, List.length_append] at hf
    rcases fuel with _ | fuel
    · omega
    obtain ⟨-, hpair⟩ := scan_at hc (pre ++ mid) post
    have hstart := charStart_encode hc (pre ++ mid) post ((encode c).length - 1) (by omega)
    have ih := ih fuel (c :: post) (fun d hd => hmid d (by simp [hd])) (by omega) (by omega)
    have hsplit : pre ++ (mid ++ [c]) ++ post = pre ++ mid ++ c :: post := by simp
    have hlt : (encodeAll pre).length < (encodeAll (pre ++ mid)).length + (encode c).length := by
      rw [encodeAll_append, List.length_append]
      omega
    have hlu : (unitsAll (pre ++ mid)).length + (units c).length < limit := by
      rw [← hU]
      exact hl
    rw [hsplit, hE, hU]
    simp only [posBackward, if_pos hlt]
    rw [Nat.add_sub_assoc hc1, hstart, Nat.add_sub_cancel_left]
    simp only [hpair]
    split_ifs with h4 hj hj hj
    · rw [units_length_pair h4] at hj hlu
      omega
    · rw [units_length_pair h4] at hj hlu
      omega
    · rw [units_length_pair h4, Nat.add_sub_cancel]
      exact ih
    · rw [units_length_single (not_le.1 h4)] at hj hlu
      omega
    · rw [units_length_single (not_le.1 h4), Nat.add_sub_cancel]
      exact ih

/-- The scan for a boundary, from any boundary, finds the units before it. -/
theorem posScan_utf8_boundary {i j pos u : ℕ} (hcs : ∀ c ∈ cs, c < 0x110000)
    (hmax : (unitsAll cs).length < int32Max) (hb : Boundary cs i j) (hp : Boundary cs pos u) :
    posScan (encodeAll cs) .utf8 pos i j = (pos, u, 0) := by
  obtain ⟨pre₁, post₁, rfl, rfl, rfl⟩ := hb
  obtain ⟨pre₂, post₂, he, rfl, rfl⟩ := hp
  simp only [posScan]
  rcases List.append_eq_append_iff.1 he with ⟨mid, rfl, rfl⟩ | ⟨mid, rfl, rfl⟩
  · have hle : (encodeAll pre₁).length ≤ (encodeAll (pre₁ ++ mid)).length := by simp
    rw [if_pos hle, ← List.append_assoc]
    refine posForward_reaches mid _ pre₁ post₂ (fun c hc => hcs c (by simp [hc])) ?_ (by simp)
    rw [← List.append_assoc, unitsAll_append, List.length_append] at hmax
    omega
  · have hlim : (unitsAll (pre₂ ++ mid)).length < int32Max := by
      rw [unitsAll_append, List.length_append] at hmax
      omega
    split_ifs with hle
    · -- no code point between the two boundaries
      obtain rfl : mid = [] := eq_nil_of_encodeAll (by
        rw [encodeAll_append, List.length_append] at hle
        omega)
      have := @posForward_reaches int32Max [] (encodeAll pre₂).length pre₂ post₁ (by simp) hlim
        (by simp)
      simpa using this
    · exact posBackward_reaches pre₂ mid _ post₁ (fun c hc => hcs c (by simp [hc])) hlim (by simp)

/-! ### Conversions -/

/-- A position lies in the code point that starts at its byte. -/
theorem PosOk.boundary {i p : ℕ} (hp : PosOk cs i p) :
    ∃ u, Boundary cs (p / 2) u ∧ i = u + p % 2 := by
  obtain ⟨pre, post, hsplit, hp⟩ := hp
  refine ⟨(unitsAll pre).length, ⟨pre, post, hsplit, ?_, rfl⟩, ?_⟩
  all_goals rcases hp with ⟨rfl, hu⟩ | ⟨rfl, hu, -⟩ <;> omega

/-- In ASCII the byte is the unit. -/
theorem PosOk.ascii {i p : ℕ} (hasc : ∀ c ∈ cs, c < 0x80) (hp : PosOk cs i p) :
    i = p / 2 ∧ i ≤ (encodeAll cs).length := by
  obtain ⟨pre, post, rfl, hp⟩ := hp
  obtain ⟨h1, h2⟩ := encodeAll_ascii fun c hc => hasc c (List.mem_append_left post hc)
  rw [h1, h2] at hp
  rw [encodeAll_append, List.length_append, h1]
  rcases hp with ⟨rfl, hu⟩ | ⟨-, -, c, rest, rfl, hc⟩
  · omega
  · have := hasc c (by simp)
    omega

/-- From a unit to its position. -/
theorem convertPos_utf16 (hh : HeapOk h) (hv : Holds h v cs) (pos : ℕ) :
    SameStrings h (jsStringConvertPos h v pos .utf16).2
      ∧ (jsStringConvertPos h v pos .utf16).1 = convertPosUncached (getStringPtr h v) pos .utf16
      ∧ PosOk cs (min pos (unitsAll cs).length) (jsStringConvertPos h v pos .utf16).1 := by
  have hr := hv.rep
  obtain ⟨hs, hpos⟩ := jsStringUtf16ToUtf8Pos_spec hh hv pos
  refine ⟨hs, hpos.unique ?_, hpos⟩
  simp only [convertPosUncached, hr.buf_eq]
  split_ifs with ha
  · exact posOk_ascii (hr.ascii ha) pos
  · exact (posScan_utf16 pos hr.codePoints.lt (.zero cs)).2

/-- From a position back to its unit. -/
theorem convertPos_utf8 (hh : HeapOk h) (hv : Holds h v cs) {i pos : ℕ}
    (hl : (encodeAll cs).length < int32Max) (hp : PosOk cs i pos) :
    SameStrings h (jsStringConvertPos h v pos .utf8).2
      ∧ (jsStringConvertPos h v pos .utf8).1 = convertPosUncached (getStringPtr h v) pos .utf8
      ∧ (jsStringConvertPos h v pos .utf8).1 = i := by
  have hr := hv.rep
  have hmax := (unitsAll_length_le cs).trans_lt hl
  simp only [jsStringConvertPos, convertPosUncached, hr.buf_eq]
  split_ifs with ha
  · obtain ⟨hi, hle⟩ := hp.ascii (hr.ascii ha)
    exact ⟨⟨hh, rfl⟩, rfl, by omega⟩
  · obtain ⟨u, hb, rfl⟩ := hp.boundary
    obtain ⟨i₀, j₀, hb₀, he, hs⟩ := posScanCached_spec hh hv .utf8 (pos / 2)
    have hscan := @posScan_utf8_boundary cs
    rw [hscan hr.codePoints.lt hmax hb₀ hb] at he hs
    rw [hscan hr.codePoints.lt hmax (.zero cs) hb]
    exact ⟨hs hb, by simp only [he], by simp only [he]⟩

/-! ### Collections -/

theorem jsGc2_strings {g : Collection} {id : ℕ} (hid : id ∈ g.kept) :
    (jsGc2 g h).strings (g.move id) = h.strings id := by
  have hsome : (g.kept.find? (g.move · = g.move id)).isSome := by
    rw [List.find?_isSome]
    exact ⟨id, hid, by simp⟩
  obtain ⟨id', hfind⟩ := Option.isSome_iff_exists.1 hsome
  have hmove : g.move id' = g.move id := by simpa using List.find?_some hfind
  obtain rfl := g.move_injOn id' (List.mem_of_find?_eq_some hfind) id hid hmove
  simp [jsGc2, gcCompactHeap, clearPosCache, hfind]

/-- Every string after a collection was there before it. -/
theorem strings_of_jsGc2 {g : Collection} {r : ℕ} {p : JSString}
    (hp : (jsGc2 g h).strings r = some p) :
    ∃ id ∈ g.kept, g.move id = r ∧ h.strings id = some p := by
  obtain ⟨id, hfind, hid⟩ := Option.bind_eq_some_iff.1 hp
  exact ⟨id, List.mem_of_find?_eq_some hfind, by simpa using List.find?_some hfind, hid⟩

theorem Holds.moved {g : Collection} {id : ℕ} (hid : id ∈ g.kept) (hv : Holds h (.ref id) cs) :
    Holds (jsGc2 g h) (.ref (g.move id)) cs := by
  obtain ⟨p, hp, hr⟩ := hv
  exact ⟨p, (jsGc2_strings hid).trans hp, hr⟩

/-- An entry that survives is the entry of a marked string, which has moved. -/
theorem jsGc2_cache {g : Collection} {k : ℕ} {v : StrVal}
    (hk : ((jsGc2 g h).cache k).str = some v) :
    ∃ id ∈ g.kept, v = .ref (g.move id) ∧ (h.cache k).str = some (.ref id)
      ∧ ((jsGc2 g h).cache k).posUtf8 = (h.cache k).posUtf8
      ∧ ((jsGc2 g h).cache k).posUtf16 = (h.cache k).posUtf16 := by
  obtain ⟨w, hw, rfl⟩ := Option.map_eq_some_iff.1 hk
  simp only [clearPosCache] at hw
  split_ifs at hw with hmark
  rw [hw] at hmark
  rcases w with c | id
  · cases hmark
  · refine ⟨id, g.kept_of_mark id hmark, rfl, hw, ?_, ?_⟩
    all_goals
      simp only [jsGc2, gcCompactHeap, clearPosCache, hw]
      rw [if_pos hmark]

theorem le_foldr_max {l : List ℕ} {x : ℕ} (hx : x ∈ l) : x ≤ l.foldr max 0 := by
  induction l with
  | nil => cases hx
  | cons y l ih =>
    rw [List.foldr_cons]
    rcases List.mem_cons.1 hx with rfl | hx
    · exact le_max_left _ _
    · exact (ih hx).trans (le_max_right _ _)

theorem HeapOk.gc (hh : HeapOk h) (g : Collection) : HeapOk (jsGc2 g h) := by
  refine ⟨?_, ?_, ?_⟩
  · have := hh.empty.moved g.empty_kept
    rwa [g.move_empty] at this
  · intro r hr
    rcases hstr : (jsGc2 g h).strings r with _ | p
    · rfl
    obtain ⟨id, hid, rfl, -⟩ := strings_of_jsGc2 hstr
    have : g.move id + 1 ≤ (jsGc2 g h).next := le_foldr_max (List.mem_map.2 ⟨id, hid, rfl⟩)
    omega
  · intro k v hk
    obtain ⟨id, hid, rfl, hstr, h8, h16⟩ := jsGc2_cache hk
    obtain ⟨cs, hcs, hb⟩ := hh.cache k _ hstr
    rw [h8, h16]
    exact ⟨cs, hcs.moved hid, hb⟩

/-! ### Runs -/

/-- What can happen to strings and to the cache: a conversion of an index or of a position, a new
string, a collection. -/
inductive PosStep (a : Arch) : StrHeap → StrHeap → Prop
  | convertIndex {h : StrHeap} {v : StrVal} (pos : ℕ) : WellFormed h v →
    PosStep a h (jsStringConvertPos h v pos .utf16).2
  | convertPos {h : StrHeap} {v : StrVal} {i pos : ℕ} : WellFormed h v → IsPos h v i pos →
    PosStep a h (jsStringConvertPos h v pos .utf8).2
  | newString {h : StrHeap} {p : JSString} : Valid p.buf →
    (p.isAscii = true → ∀ b ∈ p.buf, b < 0x80) → p.buf.length ≤ jsStringLenMax a →
    PosStep a h (h.add p)
  | gc {h : StrHeap} (g : Collection) : PosStep a h (jsGc2 g h)

inductive PosReached (a : Arch) : StrHeap → Prop
  | init : PosReached a .init
  | step {h h' : StrHeap} : PosReached a h → PosStep a h h' → PosReached a h'

/-- The invariant of a run. -/
structure PosInv (a : Arch) (h : StrHeap) : Prop where
  heapOk : HeapOk h
  length : ∀ id p, h.strings id = some p → p.buf.length ≤ jsStringLenMax a

theorem PosInv.same (hi : PosInv a h) (hs : SameStrings h h') : PosInv a h' := by
  refine ⟨hs.heapOk, ?_⟩
  rw [hs.strings]
  exact hi.length

theorem jsStringLenMax_lt (a : Arch) : jsStringLenMax a < int32Max := by cases a <;> decide

/-- No string is too long for the unit counter. -/
theorem PosInv.length_lt (hi : PosInv a h) (hv : Holds h v cs) :
    (encodeAll cs).length < int32Max := by
  rcases v with c | id
  · obtain ⟨-, rfl⟩ := hv
    have := (encode_length c).2
    rw [encodeAll_singleton, int32Max]
    omega
  · obtain ⟨p, hp, hr⟩ := hv
    rw [← hr.buf_eq]
    exact (hi.length id p hp).trans_lt (jsStringLenMax_lt a)

theorem Rep.of_valid {p : JSString} (hvalid : Valid p.buf)
    (hasc : p.isAscii = true → ∀ b ∈ p.buf, b < 0x80) : Rep p (decode p.buf) := by
  obtain ⟨hcs, he⟩ := valid_iff.1 hvalid
  refine ⟨hcs, he.symm, ?_⟩
  intro ha c hc
  rw [decode_ascii (hasc ha)] at hc
  exact hasc ha c hc

theorem PosInv.step (hi : PosInv a h) (hs : PosStep a h h') : PosInv a h' := by
  cases hs with
  | convertIndex pos hv => exact hi.same (convertPos_utf16 hi.heapOk hv.holds pos).1
  | convertPos hv hp =>
    exact hi.same (convertPos_utf8 hi.heapOk hv.holds (hi.length_lt hv.holds) hp).1
  | @newString p hvalid hasc hlen =>
    refine ⟨(hi.heapOk.add (Rep.of_valid hvalid hasc)).1, ?_⟩
    intro id q hq
    simp only [StrHeap.add] at hq
    by_cases hid : id = h.next
    · rw [hid, Function.update_self] at hq
      obtain rfl := Option.some.inj hq
      exact hlen
    · rw [Function.update_of_ne hid] at hq
      exact hi.length id q hq
  | gc g =>
    refine ⟨hi.heapOk.gc g, ?_⟩
    intro r p hp
    obtain ⟨id, -, -, hid⟩ := strings_of_jsGc2 hp
    exact hi.length id p hid

theorem PosReached.inv (hr : PosReached a h) : PosInv a h := by
  induction hr with
  | init =>
    refine ⟨StrHeap.heapOk_init, ?_⟩
    intro id p hp
    simp only [StrHeap.init] at hp
    split_ifs at hp
    obtain rfl := Option.some.inj hp
    exact Nat.zero_le _
  | step _ hs ih => exact ih.step hs

/-- Every cache entry denotes a boundary between characters of its string and the units before it,
and no conversion depends on the cache: a unit gets its position, clamped to the length, and a
position gives back its unit. -/
theorem convertPos_transparent (a : Arch) (h : StrHeap) (hr : PosReached a h) :
    (∀ k v, (h.cache k).str = some v → WellFormed h v
      ∧ Boundary (decode (getStringPtr h v).buf) (h.cache k).posUtf8 (h.cache k).posUtf16)
    ∧ ∀ v, WellFormed h v →
      (∀ pos,
        (jsStringConvertPos h v pos .utf16).1 = convertPosUncached (getStringPtr h v) pos .utf16
        ∧ IsPos h v (min pos (unitsOf h v).length) (jsStringConvertPos h v pos .utf16).1)
      ∧ ∀ i pos, IsPos h v i pos →
        (jsStringConvertPos h v pos .utf8).1 = convertPosUncached (getStringPtr h v) pos .utf8
        ∧ (jsStringConvertPos h v pos .utf8).1 = i := by
  have hi := hr.inv
  refine ⟨?_, ?_⟩
  · intro k v hk
    obtain ⟨cs, hcs, hb⟩ := hi.heapOk.cache k v hk
    obtain rfl := hcs.wellFormed.holds.unique hcs
    exact ⟨hcs.wellFormed, hb⟩
  · intro v hv
    refine ⟨?_, ?_⟩
    · intro pos
      exact (convertPos_utf16 hi.heapOk hv.holds pos).2
    · intro i pos hp
      exact (convertPos_utf8 hi.heapOk hv.holds (hi.length_lt hv.holds) hp).2

/-- U+1F600 and fourteen letters. -/
def smileString : JSString :=
  ⟨false, false, false, [0xf0, 0x9f, 0x98, 0x80] ++ List.replicate 14 97⟩

/-- A collection that moves the string after the empty one. -/
def smileMove : Collection where
  kept := [0, 1]
  gcMark := (· = 1)
  move := (5 * ·)
  kept_of_mark := by simp
  move_injOn := by simp
  empty_kept := by simp
  move_empty := rfl

def smileHeap : StrHeap :=
  jsGc2 smileMove (jsStringConvertPos (StrHeap.init.add smileString) (.ref 1) 10 .utf16).2

/-- The entry made for index 10 has moved with the string and is used backward for index 1. -/
theorem convertPos_transparent_smile :
    (jsStringConvertPos smileHeap (.ref 5) 1 .utf16).1
      = convertPosUncached (getStringPtr smileHeap (.ref 5)) 1 .utf16 := by
  have hvalid : Valid smileString.buf := by
    refine ⟨0x1f600 :: List.replicate 14 97, ⟨?_, ?_⟩, rfl⟩
    · simp
    · simp [IsLead, List.isChain_cons, List.replicate]
  have hadd : PosReached .jsw8 (StrHeap.init.add smileString) :=
    PosReached.init.step (.newString hvalid (by simp [smileString])
      (by simp [smileString, jsStringLenMax]))
  have hwf : WellFormed (StrHeap.init.add smileString) (.ref 1) :=
    ⟨smileString, rfl, hvalid, by simp [smileString]⟩
  have hconv := hadd.step (.convertIndex 10 hwf)
  have hgc : PosReached .jsw8 smileHeap := hconv.step (.gc smileMove)
  refine (((convertPos_transparent .jsw8 smileHeap hgc).2 (.ref 5) ?_).1 1).1
  exact ⟨smileString, rfl, hvalid, by simp [smileString]⟩

end Qjs
