import Qjs.AetherText

namespace Qjs

namespace Aether

namespace Strings

open Separated

/-! ### The two kinds of text -/

theorem length_leBytes (n value : ℕ) : (leBytes n value).length = n := by
  induction n generalizing value with
  | zero => rfl
  | succ n ih => rw [leBytes, List.length_cons, ih]

theorem leAt_leBytes (byteAt : ℕ → UInt8) (i n value : ℕ)
    (h : ∀ j < n, byteAt (i + j) = (leBytes n value).getD j 0) :
    leAt byteAt i n = value % 256 ^ n := by
  induction n generalizing i value with
  | zero => rw [leAt, Nat.pow_zero, Nat.mod_one]
  | succ n ih =>
    have hfirst : byteAt i = UInt8.ofNat value := h 0 (Nat.succ_pos n)
    have hrest : leAt byteAt (i + 1) n = value / 256 % 256 ^ n := by
      refine ih (i + 1) _ fun j hj => ?_
      rw [Nat.add_right_comm, Nat.add_assoc]
      exact h (j + 1) (Nat.succ_lt_succ hj)
    rw [leAt, hfirst, hrest, Nat.pow_succ', Nat.mod_mul, UInt8.toNat_ofNat']

theorem getD_append_part (front part back : List UInt8) {j : ℕ} (hj : j < part.length) :
    (front ++ part ++ back).getD (front.length + j) 0 = part.getD j 0 := by
  simp only [List.getD_eq_getElem?_getD]
  rw [List.append_assoc, List.getElem?_append_right (Nat.le_add_right _ _),
    Nat.add_sub_cancel_left, List.getElem?_append_left hj]

theorem leAt_header (a : AetherString) :
    leAt (Text.wrapped a).byteAt 4 4 = a.refCount ∧
      leAt (Text.wrapped a).byteAt 8 8 = a.data.length ∧
      leAt (Text.wrapped a).byteAt 16 8 = a.capacity ∧
      leAt (Text.wrapped a).byteAt 24 8 = a.address := by
  have hcount := a.refCount_lt
  have hlen := a.length_le
  have hcap := a.capacity_lt
  have haddr := a.address_lt
  have hpart (front back : List UInt8) (n value : ℕ) (hv : value < 256 ^ n)
      (hheader : a.header = front ++ leBytes n value ++ back) :
      leAt (Text.wrapped a).byteAt front.length n = value := by
    rw [← Nat.mod_eq_of_lt hv]
    refine leAt_leBytes _ _ _ _ fun j hj => ?_
    rw [Text.byteAt, hheader]
    exact getD_append_part _ _ _ (by rwa [length_leBytes])
  have hlenAt := hpart (aetherStringMagic ++ leBytes 4 a.refCount)
    (leBytes 8 a.capacity ++ leBytes 8 a.address) 8 a.data.length (by omega)
    (by rw [AetherString.header]; simp only [List.append_assoc])
  have hcapAt := hpart (aetherStringMagic ++ leBytes 4 a.refCount ++ leBytes 8 a.data.length)
    (leBytes 8 a.address) 8 a.capacity (by omega) rfl
  have haddrAt := hpart
    (aetherStringMagic ++ leBytes 4 a.refCount ++ leBytes 8 a.data.length ++ leBytes 8 a.capacity)
    [] 8 a.address (by omega) (by rw [List.append_nil, AetherString.header])
  simp only [List.length_append, length_leBytes] at hlenAt hcapAt haddrAt
  refine ⟨?_, hlenAt, hcapAt, haddrAt⟩
  exact hpart aetherStringMagic
    (leBytes 8 a.data.length ++ leBytes 8 a.capacity ++ leBytes 8 a.address) 4 a.refCount (by omega)
    (by rw [AetherString.header]; simp only [List.append_assoc])

theorem isAetherString_wrapped (a : AetherString) :
    isAetherString (Text.wrapped a).byteAt = true := by
  obtain ⟨hcount, hlen, hcap, haddr⟩ := leAt_header a
  have hmagic : (Text.wrapped a).byteAt 0 = 0xde ∧ (Text.wrapped a).byteAt 1 = 0xc0 ∧
      (Text.wrapped a).byteAt 2 = 0x57 ∧ (Text.wrapped a).byteAt 3 = 0xae := ⟨rfl, rfl, rfl, rfl⟩
  obtain ⟨h0, h1, h2, h3⟩ := hmagic
  have h4 := a.refCount_lt
  have h5 := a.length_le
  have h6 := a.address_pos
  rw [isAetherString, hcount, hlen, hcap, haddr, h0, h1, h2, h3]
  simp only [beq_self_eq_true, Bool.true_and, Bool.and_eq_true, decide_eq_true_eq, bne_iff_ne]
  exact ⟨⟨h4, h5⟩, by omega⟩

theorem strLen_wrapped (a : AetherString) : strLen (.wrapped a) = a.data.length := by
  rw [strLen, if_pos (isAetherString_wrapped a), (leAt_header a).2.1]

/-- A text that is not mistaken is read as its contents. -/
theorem read_of_not_mistaken {t : Text} (h : ¬ t.Mistaken) :
    strLen t = t.contents.length ∧ strData t = some t.contents := by
  cases t with
  | wrapped a => exact ⟨strLen_wrapped a, rfl⟩
  | plain c =>
    rw [Text.Mistaken, strData] at h
    rw [strLen, strData]
    split_ifs at h ⊢ with hlooks
    · exact absurd rfl h
    · exact ⟨rfl, rfl⟩

theorem copyFrom_of_not_mistaken {t : Text} (h : ¬ t.Mistaken) :
    copyFrom (strData t) (strLen t) = .ok t.contents := by
  obtain ⟨hlen, hdata⟩ := read_of_not_mistaken h
  rw [hlen, hdata, copyFrom, List.take_length]

/-- A mistaken text has the four bytes of the mark at least. -/
theorem length_of_mistaken {t : Text} (h : t.Mistaken) : 4 ≤ t.contents.length := by
  cases t with
  | wrapped a => cases h
  | plain c =>
    rw [Text.Mistaken, strData] at h
    split_ifs at h with hlooks
    by_contra hshort
    rw [Text.contents, not_le] at hshort
    have hend : (Text.plain c).byteAt c.bytes.length = 0 := by
      simp [Text.byteAt]
    rw [isAetherString] at hlooks
    simp only [Bool.and_eq_true, beq_iff_eq] at hlooks
    obtain ⟨⟨⟨⟨⟨⟨h0, h1⟩, h2⟩, h3⟩, -⟩, -⟩, -⟩ := hlooks
    have hcases : c.bytes.length = 0 ∨ c.bytes.length = 1 ∨ c.bytes.length = 2 ∨
        c.bytes.length = 3 := by omega
    rcases hcases with hlen | hlen | hlen | hlen <;> rw [hlen] at hend
    · exact absurd (h0.symm.trans hend) (by decide)
    · exact absurd (h1.symm.trans hend) (by decide)
    · exact absurd (h2.symm.trans hend) (by decide)
    · exact absurd (h3.symm.trans hend) (by decide)

/-- A mistaken text is read as empty, or the read goes astray. -/
theorem copyFrom_of_mistaken {t : Text} (h : t.Mistaken) :
    copyFrom (strData t) (strLen t) = if strLen t = 0 then .ok [] else .error .wildPointer := by
  rw [Text.Mistaken] at h
  rw [h]
  cases strLen t with
  | zero => rfl
  | succ n => rfl

theorem copyFrom_eq_contents {t : Text} :
    copyFrom (strData t) (strLen t) = .ok t.contents ↔ ¬ t.Mistaken := by
  refine ⟨fun hread h => ?_, copyFrom_of_not_mistaken⟩
  have hlen := length_of_mistaken h
  rw [copyFrom_of_mistaken h] at hread
  split_ifs at hread
  rw [← Except.ok.inj hread] at hlen
  exact absurd hlen (by decide)

/-- The header is a text of four bytes at least. -/
theorem length_asCString_wrapped (a : AetherString) : 4 ≤ (asCString (.wrapped a)).length := by
  rw [asCString, AetherString.header, aetherStringMagic]
  simp only [List.cons_append, List.takeWhile_cons]
  simp

/-! ### The pieces -/

theorem countLoop_ge (sdata delimiter : List UInt8) (upper i count : ℕ) :
    count ≤ countLoop sdata delimiter upper i count := by
  fun_induction countLoop sdata delimiter upper i count with
  | case1 i count hle hocc ih => omega
  | case2 i count hle hocc ih => exact ih
  | case3 i count hle => exact le_rfl

/-- The pieces before `start`, and the search that has reached `i`. -/
structure Cutting (sdata delimiter : List UInt8) (i start : ℕ) (pieces : List (List UInt8)) :
    Prop where
  start_le : start ≤ i
  skipped : ∀ j, start ≤ j → j < i → ¬ OccursAt delimiter sdata j
  joined : pieces.flatMap (· ++ delimiter) ++ sdata.drop start = sdata
  bare : ∀ piece ∈ pieces, ¬ delimiter <:+: piece

variable {sdata delimiter : List UInt8} {i start : ℕ} {pieces : List (List UInt8)}

theorem Cutting.bare_part (h : Cutting sdata delimiter i start pieces) (hd : delimiter ≠ [])
    (n : ℕ) (hn : ∀ j, start ≤ j → j + delimiter.length ≤ start + n →
      OccursAt delimiter sdata j → j < i) : ¬ delimiter <:+: (sdata.drop start).take n := by
  intro hinfix
  obtain ⟨j, hocc⟩ := infix_iff.1 hinfix
  obtain ⟨hat, hle⟩ := hocc.of_part hd
  have hstart : start ≤ start + j := Nat.le_add_right _ _
  exact h.skipped _ hstart (hn _ hstart (by omega) hat) hat

theorem Cutting.skip (h : Cutting sdata delimiter i start pieces)
    (hocc : ¬ OccursAt delimiter sdata i) : Cutting sdata delimiter (i + 1) start pieces where
  start_le := Nat.le_succ_of_le h.start_le
  skipped j hstart hj := by
    rcases Nat.lt_succ_iff_lt_or_eq.1 hj with hlt | rfl
    · exact h.skipped j hstart hlt
    · exact hocc
  joined := h.joined
  bare := h.bare

theorem Cutting.cut (h : Cutting sdata delimiter i start pieces) (hd : delimiter ≠ [])
    (hocc : OccursAt delimiter sdata i) :
    Cutting sdata delimiter (i + delimiter.length) (i + delimiter.length)
      (pieces ++ [(sdata.drop start).take (i - start)]) where
  start_le := le_rfl
  skipped j hstart hj := absurd hj (not_lt.2 hstart)
  joined := by
    have hrest : sdata.drop start = (sdata.drop start).take (i - start) ++
        (delimiter ++ sdata.drop (i + delimiter.length)) := by
      rw [← drop_of_occursAt hocc]
      nth_rw 1 [← List.take_append_drop (i - start) (sdata.drop start)]
      rw [List.drop_drop, Nat.add_sub_cancel' h.start_le]
    nth_rw 3 [← h.joined]
    rw [List.flatMap_append, List.flatMap_singleton, List.append_assoc, List.append_assoc, ← hrest]
  bare piece hpiece := by
    rcases List.mem_append.1 hpiece with hold | hnew
    · exact h.bare piece hold
    · rw [List.mem_singleton.1 hnew]
      have hpos := List.length_pos_iff.2 hd
      have hstart := h.start_le
      exact h.bare_part hd _ fun j hj hle _ => by omega

/-- With as many slots as are counted from `i` on, the second scan fills all but the last. -/
theorem fillLoop_ok (hd : delimiter ≠ []) {upper : ℕ}
    (h : Cutting sdata delimiter i start pieces) (k : ℕ)
    (hcount : countLoop sdata delimiter upper i (pieces.length + 1) = pieces.length + k) :
    ∃ start' pieces', fillLoop sdata delimiter upper i start pieces.length
        (pieces.map some ++ List.replicate k none) =
          .ok (start', pieces'.length, pieces'.map some ++ [none]) ∧
      ∃ i', upper < i' ∧ Cutting sdata delimiter i' start' pieces' := by
  have hpos := List.length_pos_iff.2 hd
  induction hturns : upper + 1 - i using Nat.strong_induction_on generalizing i start pieces k with
  | h turns ih =>
    rw [countLoop] at hcount
    rw [fillLoop]
    by_cases hle : i ≤ upper
    · rw [if_pos hle] at hcount ⊢
      by_cases hocc : OccursAt delimiter sdata i
      · rw [if_pos hocc] at hcount ⊢
        have hge := countLoop_ge sdata delimiter upper (i + (delimiter.length - 1) + 1)
          (pieces.length + 1 + 1)
        obtain ⟨k, rfl⟩ : ∃ n, k = n + 1 := ⟨k - 1, by omega⟩
        have hnext : i + (delimiter.length - 1) + 1 = i + delimiter.length := by omega
        have hslot : (pieces.map some ++ List.replicate (k + 1) none).set pieces.length
            (some ((sdata.drop start).take (i - start))) =
            (pieces ++ [(sdata.drop start).take (i - start)]).map some ++
              List.replicate k none := by
          rw [List.set_append_right _ _ (by rw [List.length_map]), List.length_map, Nat.sub_self,
            List.replicate_succ, List.set_cons_zero, List.map_append, List.append_assoc]
          rfl
        have hlen : (pieces ++ [(sdata.drop start).take (i - start)]).length =
            pieces.length + 1 := by
          rw [List.length_append, List.length_singleton]
        rw [if_pos (by rw [List.length_append, List.length_map, List.length_replicate]; omega),
          hslot, hnext, ← hlen]
        rw [hnext, ← hlen] at hcount
        exact ih _ (by omega) (h.cut hd hocc) k (by rw [hcount, hlen]; omega) rfl
      · rw [if_neg hocc] at hcount ⊢
        exact ih _ (by omega) (h.skip hocc) k hcount rfl
    · rw [if_neg hle] at hcount ⊢
      obtain rfl : k = 1 := by omega
      exact ⟨start, pieces, rfl, i, by omega, h⟩

/-- A split at a delimiter that is not empty fills the slots with the pieces of the text. -/
theorem splitPieces_ok (sdata : List UInt8) (hd : delimiter ≠ []) :
    ∃ pieces, pieces ≠ [] ∧ splitPieces sdata delimiter = .ok (pieces.map some) ∧
      Splits sdata delimiter pieces := by
  have hpos := List.length_pos_iff.2 hd
  rw [splitPieces, if_neg (by omega)]
  by_cases hshort : sdata.length < delimiter.length
  · refine ⟨[sdata], List.cons_ne_nil _ _, if_pos hshort, List.intercalate_singleton, ?_⟩
    intro piece hpiece hinfix
    rw [List.mem_singleton.1 hpiece] at hinfix
    exact absurd hinfix.length_le (by omega)
  · rw [if_neg hshort]
    have hstart : Cutting sdata delimiter 0 0 [] := ⟨le_rfl, by omega, rfl, by simp⟩
    have hge := countLoop_ge sdata delimiter (sdata.length - delimiter.length) 0 1
    obtain ⟨start, pieces, hfill, i, hi, hcut⟩ :=
      fillLoop_ok hd hstart _ (Nat.zero_add _).symm
    have hlast : (pieces.map some ++ [none]).set pieces.length
        (some ((sdata.drop start).take (sdata.length - start))) =
        (pieces ++ [(sdata.drop start).take (sdata.length - start)]).map some := by
      rw [List.set_append_right _ _ (by rw [List.length_map]), List.length_map, Nat.sub_self,
        List.map_append]
      rfl
    refine ⟨pieces ++ [(sdata.drop start).take (sdata.length - start)], by simp, ?_, ?_, ?_⟩
    · rw [← hlast]
      dsimp only
      rw [List.length_nil, List.map_nil, List.nil_append] at hfill
      rw [hfill]
      exact if_pos (by simp)
    · rw [intercalate_concat, List.take_of_length_le (by rw [List.length_drop])]
      exact hcut.joined
    · intro piece hpiece
      rcases List.mem_append.1 hpiece with hold | hnew
      · exact hcut.bare piece hold
      · rw [List.mem_singleton.1 hnew]
        refine hcut.bare_part hd _ fun j _ hle _ => ?_
        omega

theorem Splits.of_not_infix (h : Splits sdata delimiter pieces) (hne : pieces ≠ [])
    (hnot : ¬ delimiter <:+: sdata) : pieces = [sdata] := by
  obtain ⟨hjoin, -⟩ := h
  rcases pieces with _ | ⟨first, _ | ⟨second, pieces⟩⟩
  · exact absurd rfl hne
  · rw [List.intercalate_singleton] at hjoin
    rw [hjoin]
  · rw [List.intercalate_cons_cons, List.append_assoc] at hjoin
    exact absurd ⟨first, _, by rw [List.append_assoc]; exact hjoin⟩ hnot

theorem splits_self (hnot : ¬ delimiter <:+: sdata) : Splits sdata delimiter [sdata] :=
  ⟨List.intercalate_singleton, fun _ hpiece => List.mem_singleton.1 hpiece ▸ hnot⟩

/-- Pieces at one delimiter are pieces at another one only if neither occurs. -/
theorem splits_other (h : Splits sdata delimiter pieces) (hne : pieces ≠ []) (other : List UInt8) :
    Splits sdata other pieces ↔
      delimiter = other ∨ ¬ delimiter <:+: sdata ∧ ¬ other <:+: sdata := by
  constructor
  · intro h'
    rcases pieces with _ | ⟨first, _ | ⟨second, pieces⟩⟩
    · exact absurd rfl hne
    · have hjoin : first = sdata := List.intercalate_singleton.symm.trans h.1
      subst hjoin
      exact .inr ⟨h.2 _ (List.mem_singleton_self _), h'.2 _ (List.mem_singleton_self _)⟩
    · exact .inl (sep_unique (h.1.trans h'.1.symm))
  · rintro (rfl | ⟨hnot, hother⟩)
    · exact h
    · rw [h.of_not_infix hne hnot]
      exact splits_self hother

theorem seqLoop_ok (pieces head : List (List UInt8)) (n : ℕ) (hn : n ≤ pieces.length) :
    seqLoop (pieces.map some) n head = .ok (pieces.take n ++ head) := by
  induction n generalizing head with
  | zero => rfl
  | succ n ih =>
    have hlt : n < pieces.length := hn
    rw [seqLoop, List.getElem?_map, List.getElem?_eq_getElem hlt]
    dsimp only [Option.map_some]
    rw [ih _ (Nat.le_of_lt hlt), List.take_succ_eq_append_getElem hlt, List.append_assoc]
    rfl

theorem toSeq_of_split {str delimiter : Text}
    (h : stringSplit str delimiter = .ok (pieces.map some)) :
    stringSplitToSeq str delimiter = .ok pieces := by
  rw [stringSplitToSeq, h]
  dsimp only [Bind.bind, Except.bind]
  rw [List.length_map, seqLoop_ok _ _ _ le_rfl, List.take_length, List.append_nil]

theorem stringSplit_eq {str : Text} (h : ¬ str.Mistaken) (delimiter : Text) :
    stringSplit str delimiter = splitPieces str.contents (asCString delimiter) := by
  rw [stringSplit, copyFrom_of_not_mistaken h]
  rfl

/-- The split of a mistaken text is that of no bytes, if it has a result. -/
theorem split_of_mistaken {str delimiter : Text} (h : str.Mistaken) {strings : Slots}
    (hok : stringSplit str delimiter = .ok strings) :
    splitPieces [] (asCString delimiter) = .ok strings := by
  rw [stringSplit, copyFrom_of_mistaken h] at hok
  split_ifs at hok
  · exact hok
  · cases hok

theorem some_map_inj {pieces' : List (List UInt8)}
    (h : (Except.ok (pieces.map some) : Except Fault Slots) = .ok (pieces'.map some)) :
    pieces = pieces' :=
  List.map_injective_iff.2 (fun _ _ => Option.some.inj) (Except.ok.inj h)

theorem asCString_ne_nil {delimiter : Text} (h : delimiter.contents ≠ []) :
    asCString delimiter ≠ [] := by
  cases delimiter with
  | wrapped a =>
    have hlen := length_asCString_wrapped a
    intro hnil
    rw [hnil] at hlen
    exact absurd hlen (by decide)
  | plain c => exact h

theorem splitsRight_iff {str delimiter : Text} (hd : delimiter.contents ≠ []) :
    SplitsRight str delimiter ↔ ¬ str.Mistaken ∧
      (asCString delimiter = delimiter.contents ∨
        ¬ asCString delimiter <:+: str.contents ∧ ¬ delimiter.contents <:+: str.contents) := by
  constructor
  · rintro ⟨pieces, hsplit, -, hright, -⟩
    have hstr : ¬ str.Mistaken := fun h => by
      obtain ⟨pieces', hne, hnone, hempty⟩ := splitPieces_ok [] (asCString_ne_nil hd)
      have hnot : ¬ asCString delimiter <:+: [] :=
        fun hinfix => asCString_ne_nil hd (List.infix_nil.1 hinfix)
      have hpieces := some_map_inj ((split_of_mistaken h hsplit).symm.trans hnone)
      have hlen := length_of_mistaken h
      rw [← hright.1, hpieces, hempty.of_not_infix hne hnot, List.intercalate_singleton] at hlen
      exact absurd hlen (by decide)
    obtain ⟨pieces', hne, hpieces, hsplits⟩ := splitPieces_ok str.contents (asCString_ne_nil hd)
    rw [stringSplit_eq hstr, hpieces] at hsplit
    obtain rfl := some_map_inj hsplit
    exact ⟨hstr, (splits_other hsplits hne _).1 hright⟩
  · rintro ⟨hstr, hcond⟩
    obtain ⟨pieces, hne, hpieces, hsplits⟩ := splitPieces_ok str.contents (asCString_ne_nil hd)
    have hsplit := (stringSplit_eq hstr delimiter).trans hpieces
    refine ⟨pieces, hsplit, toSeq_of_split hsplit, (splits_other hsplits hne _).2 hcond, ?_⟩
    intro str' delimiter' hcontents hstr' hdelimiter hasC
    rw [stringSplit_eq hstr', hcontents, hasC, hdelimiter]
    rcases hcond with heq | ⟨hnot, hnot'⟩
    · rw [← heq, hpieces]
    · obtain ⟨pieces', hne', hpieces', hsplits'⟩ := splitPieces_ok str.contents hd
      rw [hpieces', hsplits'.of_not_infix hne' hnot', hsplits.of_not_infix hne hnot]

theorem map_singleton (s : List UInt8) :
    s.map (fun b => some [b]) = (s.map fun b => [b]).map some := by
  rw [List.map_map]
  rfl

theorem sum_length_singletons (s : List UInt8) :
    ((s.map fun b => [b]).map List.length).sum = s.length := by
  induction s with
  | nil => rfl
  | cons b s ih =>
    rw [List.map_cons, List.map_cons, List.sum_cons, ih, List.length_cons]
    exact Nat.add_comm _ _

/-- Two bytes or more cannot be the pieces at a delimiter that is not empty. -/
theorem not_splits_bytes (hne : delimiter ≠ []) (htwo : 2 ≤ sdata.length) :
    ¬ Splits sdata delimiter (sdata.map fun b => [b]) := by
  rintro ⟨hjoin, -⟩
  have hpos := List.length_pos_iff.2 hne
  rcases sdata with _ | ⟨first, _ | ⟨second, rest⟩⟩
  · exact absurd htwo (by decide)
  · exact absurd htwo (by simp)
  · have hlen := congrArg List.length hjoin
    have hprod : 0 < (rest.length + 1) * delimiter.length := Nat.mul_pos (Nat.succ_pos _) hpos
    have hsum := sum_length_singletons (first :: second :: rest)
    rw [List.map_cons] at hlen hsum
    rw [length_intercalate, hsum, List.length_map] at hlen
    simp only [List.length_cons] at hlen
    omega

theorem bytesRight_iff {str delimiter : Text} (hd : delimiter.contents = []) :
    BytesRight str delimiter ↔
      ¬ str.Mistaken ∧ (asCString delimiter = [] ∨ str.contents.length = 1) := by
  constructor
  · rintro ⟨hsplit, -⟩
    rw [map_singleton] at hsplit
    have hstr : ¬ str.Mistaken := fun h => by
      have hnone := split_of_mistaken h hsplit
      have hlen := length_of_mistaken h
      by_cases hnil : asCString delimiter = []
      · rw [hnil] at hnone
        have hcount := congrArg List.length (Except.ok.inj hnone)
        rw [List.length_map, List.length_map, List.length_map] at hcount
        rw [← hcount] at hlen
        exact absurd hlen (by decide)
      · obtain ⟨pieces, hne, hpieces, hsplits⟩ := splitPieces_ok [] hnil
        have hcount := congrArg List.length (some_map_inj (hnone.symm.trans hpieces))
        rw [hsplits.of_not_infix hne fun hinfix => hnil (List.infix_nil.1 hinfix),
          List.length_map, List.length_singleton] at hcount
        omega
    refine ⟨hstr, or_iff_not_imp_left.2 fun hne => ?_⟩
    obtain ⟨pieces, hpieces_ne, hpieces, hsplits⟩ := splitPieces_ok str.contents hne
    rw [stringSplit_eq hstr, hpieces] at hsplit
    obtain rfl := some_map_inj hsplit
    by_contra hone
    rcases Nat.lt_or_ge str.contents.length 2 with hlt | htwo
    · have hnil : str.contents = [] := List.length_eq_zero_iff.1 (by omega)
      rw [hnil] at hpieces_ne
      exact hpieces_ne rfl
    · exact not_splits_bytes hne htwo hsplits
  · rintro ⟨hstr, hcond⟩
    have hsplit : stringSplit str delimiter = .ok ((str.contents.map fun b => [b]).map some) := by
      rw [stringSplit_eq hstr]
      by_cases hnil : asCString delimiter = []
      · rw [hnil, ← map_singleton]
        rfl
      · have hlen := hcond.resolve_left hnil
        cases delimiter with
        | wrapped a =>
          have hlong := length_asCString_wrapped a
          rw [splitPieces, if_neg (by omega), if_pos (by omega)]
          obtain ⟨b, hb⟩ := List.length_eq_one_iff.1 hlen
          rw [hb]
          rfl
        | plain c => exact absurd hd hnil
    exact ⟨by rw [hsplit, map_singleton], toSeq_of_split hsplit⟩

/-! ### Formats -/

theorem drop_of_some {args : List (Option Text)} {k : ℕ} {a : Option Text} (h : args[k]? = some a) :
    args.drop k = a :: args.drop (k + 1) := by
  obtain ⟨hlt, rfl⟩ := List.getElem?_eq_some_iff.1 h
  exact List.drop_eq_getElem_cons hlt

theorem drop_of_none {args : List (Option Text)} {k : ℕ} (h : args[k]? = none) :
    args.drop k = [] :=
  List.drop_eq_nil_iff.2 (List.getElem?_eq_none_iff.1 h)

theorem read_arg {a : Option Text} (h : ¬ ArgMistaken a) :
    argLen a = (argText a).length ∧ argData a = .ok (argText a) := by
  cases a with
  | none => exact ⟨rfl, rfl⟩
  | some t =>
    have ht : ¬ t.Mistaken := fun hm => h ⟨t, rfl, hm⟩
    exact ⟨(read_of_not_mistaken ht).1, copyFrom_of_not_mistaken ht⟩

theorem put_ok {total : ℕ} {out bytes : List UInt8} (h : out.length + bytes.length ≤ total + 1) :
    put total out bytes = .ok (out ++ bytes) := if_pos h

theorem firstPass_eq (args : List (Option Text)) (fmt : List UInt8) (k total : ℕ)
    (hargs : ∀ a ∈ (args.drop k).take (placeholders (tokens fmt)), ¬ ArgMistaken a) :
    firstPass args fmt k total =
      total + (expand (tokens fmt) ((args.drop k).map argText)).length := by
  fun_induction tokens fmt generalizing k total with
  | case1 => rfl
  | case2 c => rfl
  | case3 c n rest hopen ih =>
    rw [firstPass, if_pos hopen, ih _ _ hargs, expand, List.length_cons]
    omega
  | case4 c n rest hne hclose ih =>
    rw [firstPass, if_neg hne, if_pos hclose, ih _ _ hargs, expand, List.length_cons]
    omega
  | case5 c n rest hne hne' hhole ih =>
    rw [firstPass, if_neg hne, if_neg hne', if_pos hhole]
    rw [placeholders, List.count_cons_self] at hargs
    rcases harg : args[k]? with _ | a
    · dsimp only
      rw [ih k total (by rw [drop_of_none harg]; simp), drop_of_none harg]
      rfl
    · dsimp only
      rw [drop_of_some harg, List.take_succ_cons] at hargs
      rw [ih _ _ fun a' ha' => hargs a' (List.mem_cons_of_mem _ ha'), drop_of_some harg,
        List.map_cons, expand, List.length_append, (read_arg (hargs a List.mem_cons_self)).1]
      omega
  | case6 c n rest hne hne' hne'' ih =>
    rw [firstPass, if_neg hne, if_neg hne', if_neg hne'', ih _ _ hargs, expand, List.length_cons]
    omega

theorem secondPass_eq (args : List (Option Text)) (total : ℕ) (fmt : List UInt8) (k : ℕ)
    (out : List UInt8)
    (hargs : ∀ a ∈ (args.drop k).take (placeholders (tokens fmt)), ¬ ArgMistaken a)
    (hroom : out.length + (expand (tokens fmt) ((args.drop k).map argText)).length ≤ total + 1) :
    secondPass args total fmt k out =
      .ok (out ++ expand (tokens fmt) ((args.drop k).map argText)) := by
  fun_induction tokens fmt generalizing k out with
  | case1 => simp [secondPass, expand]
  | case2 c => exact put_ok hroom
  | case3 c n rest hopen ih =>
    rw [expand, List.length_cons] at hroom
    rw [secondPass, if_pos hopen, put_ok (by rw [List.length_singleton]; omega)]
    dsimp only [Bind.bind, Except.bind]
    rw [ih _ _ hargs (by rw [List.length_append, List.length_singleton]; omega), expand,
      List.append_assoc]
    rfl
  | case4 c n rest hne hclose ih =>
    rw [expand, List.length_cons] at hroom
    rw [secondPass, if_neg hne, if_pos hclose, put_ok (by rw [List.length_singleton]; omega)]
    dsimp only [Bind.bind, Except.bind]
    rw [ih _ _ hargs (by rw [List.length_append, List.length_singleton]; omega), expand,
      List.append_assoc]
    rfl
  | case5 c n rest hne hne' hhole ih =>
    rw [secondPass, if_neg hne, if_neg hne', if_pos hhole]
    rw [placeholders, List.count_cons_self] at hargs
    rcases harg : args[k]? with _ | a
    · rw [drop_of_none harg] at hroom
      dsimp only
      rw [ih k out (by rw [drop_of_none harg]; simp) (by rw [drop_of_none harg]; exact hroom),
        drop_of_none harg]
      rfl
    · rw [drop_of_some harg, List.take_succ_cons] at hargs
      rw [drop_of_some harg, List.map_cons, expand, List.length_append] at hroom
      dsimp only
      rw [(read_arg (hargs a List.mem_cons_self)).2]
      dsimp only [Bind.bind, Except.bind]
      rw [put_ok (by omega)]
      dsimp only
      rw [ih _ _ (fun a' ha' => hargs a' (List.mem_cons_of_mem _ ha'))
        (by rw [List.length_append]; omega), drop_of_some harg, List.map_cons, expand,
        List.append_assoc]
  | case6 c n rest hne hne' hne'' ih =>
    rw [expand, List.length_cons] at hroom
    rw [secondPass, if_neg hne, if_neg hne', if_neg hne'',
      put_ok (by rw [List.length_singleton]; omega)]
    dsimp only [Bind.bind, Except.bind]
    rw [ih _ _ hargs (by rw [List.length_append, List.length_singleton]; omega), expand,
      List.append_assoc]
    rfl

/-- What is read of an entry, if anything is. -/
def argRead (a : Option Text) : List UInt8 :=
  match argData a with
  | .ok bytes => bytes
  | .error _ => []

theorem argRead_of_not_mistaken {a : Option Text} (h : ¬ ArgMistaken a) :
    argRead a = argText a := by
  rw [argRead, (read_arg h).2]

theorem length_argRead (a : Option Text) :
    (argRead a).length ≤ (argText a).length ∧
      (ArgMistaken a → (argRead a).length < (argText a).length) := by
  by_cases h : ArgMistaken a
  · obtain ⟨t, rfl, ht⟩ := h
    have hlen := length_of_mistaken ht
    have hnil : argRead (some t) = [] := by
      rw [argRead, argData, copyFrom_of_mistaken ht]
      split_ifs <;> rfl
    rw [hnil, argText, Option.map_some, Option.getD_some, List.length_nil]
    exact ⟨Nat.zero_le _, fun _ => by omega⟩
  · rw [argRead_of_not_mistaken h]
    exact ⟨le_rfl, fun hm => absurd hm h⟩

theorem eq_of_put {total : ℕ} {out bytes out' : List UInt8} (h : put total out bytes = .ok out') :
    out' = out ++ bytes := by
  rw [put] at h
  split_ifs at h
  exact (Except.ok.inj h).symm

/-- A second pass that ends has written the format with what it read of the entries. -/
theorem secondPass_reads {args : List (Option Text)} {total : ℕ} {fmt : List UInt8} {k : ℕ}
    {out out' : List UInt8} (h : secondPass args total fmt k out = .ok out') :
    out' = out ++ expand (tokens fmt) ((args.drop k).map argRead) := by
  fun_induction tokens fmt generalizing k out with
  | case1 =>
    rw [secondPass] at h
    rw [expand, List.append_nil, Except.ok.inj h]
  | case2 c => exact eq_of_put h
  | case3 c n rest hopen ih =>
    rw [secondPass, if_pos hopen] at h
    rcases hput : put total out [openBrace] with _ | out₁ <;> rw [hput] at h
    · cases h
    · rw [ih h, eq_of_put hput, expand, List.append_assoc]
      rfl
  | case4 c n rest hne hclose ih =>
    rw [secondPass, if_neg hne, if_pos hclose] at h
    rcases hput : put total out [closeBrace] with _ | out₁ <;> rw [hput] at h
    · cases h
    · rw [ih h, eq_of_put hput, expand, List.append_assoc]
      rfl
  | case5 c n rest hne hne' hhole ih =>
    rw [secondPass, if_neg hne, if_neg hne', if_pos hhole] at h
    rcases harg : args[k]? with _ | a <;> rw [harg] at h
    · rw [ih h, drop_of_none harg]
      rfl
    · dsimp only at h
      rcases hdata : argData a with _ | adata <;> rw [hdata] at h
      · cases h
      · rcases hput : put total out adata with _ | out₁
        · simp only [Bind.bind, Except.bind, hput] at h
          cases h
        · simp only [Bind.bind, Except.bind, hput] at h
          have hread : argRead a = adata := by
            rw [argRead, hdata]
          rw [ih h, eq_of_put hput, drop_of_some harg, List.map_cons, expand, hread,
            List.append_assoc]
  | case6 c n rest hne hne' hne'' ih =>
    rw [secondPass, if_neg hne, if_neg hne', if_neg hne''] at h
    rcases hput : put total out [c] with _ | out₁ <;> rw [hput] at h
    · cases h
    · rw [ih h, eq_of_put hput, expand, List.append_assoc]
      rfl

theorem length_expand_le (ts : List Token) (args : List (Option Text)) :
    (expand ts (args.map argRead)).length ≤ (expand ts (args.map argText)).length := by
  induction ts generalizing args with
  | nil => exact le_rfl
  | cons t ts ih =>
    rcases t with b | _
    · exact Nat.succ_le_succ (ih args)
    · rcases args with _ | ⟨a, args⟩
      · exact ih []
      · simp only [List.map_cons, expand, List.length_append]
        exact Nat.add_le_add (length_argRead a).1 (ih args)

/-- With a mistaken entry in use the expansion falls short. -/
theorem not_mistaken_of_expand (ts : List Token) (args : List (Option Text))
    (h : expand ts (args.map argRead) = expand ts (args.map argText)) :
    ∀ a ∈ args.take (placeholders ts), ¬ ArgMistaken a := by
  have hlen := congrArg List.length h
  clear h
  induction ts generalizing args with
  | nil => simp [placeholders]
  | cons t ts ih =>
    rcases t with b | _
    · rw [placeholders, List.count_cons_of_ne (by simp)]
      exact ih args (Nat.succ.inj hlen)
    · rcases args with _ | ⟨a, args⟩
      · simp
      · have hle := length_expand_le ts args
        obtain ⟨hread, hshort⟩ := length_argRead a
        simp only [List.map_cons, expand, List.length_append] at hlen
        rw [placeholders, List.count_cons_self, List.take_succ_cons]
        intro a' ha'
        rcases List.mem_cons.1 ha' with rfl | hmem
        · intro hm
          have := hshort hm
          omega
        · exact ih args (by omega) a' hmem

theorem formatPasses_ok {fmt : List UInt8} {args : List (Option Text)}
    (hargs : ∀ a ∈ args.take (placeholders (tokens fmt)), ¬ ArgMistaken a) :
    formatPasses fmt args = .ok ((expand (tokens fmt) (args.map argText)).length,
      expand (tokens fmt) (args.map argText)) := by
  have htotal := firstPass_eq args fmt 0 0 hargs
  rw [Nat.zero_add, List.drop_zero] at htotal
  have hout := secondPass_eq args (firstPass args fmt 0 0) fmt 0 [] hargs
    (by rw [htotal, List.drop_zero, List.length_nil]; omega)
  rw [List.nil_append, List.drop_zero] at hout
  rw [formatPasses, hout]
  dsimp only [Bind.bind, Except.bind]
  rw [htotal, if_pos (Nat.lt_succ_self _)]

theorem formatsRight_iff {fmt : Text} (args : List (Option Text))
    (htokens : tokens (asCString fmt) = tokens fmt.contents) :
    FormatsRight fmt args ↔
      ∀ a ∈ args.take (placeholders (tokens fmt.contents)), ¬ ArgMistaken a := by
  rw [← htokens]
  constructor
  · rintro ⟨out, hpasses, -, hout⟩
    rw [formatPasses] at hpasses
    rcases hsecond : secondPass args (firstPass args (asCString fmt) 0 0) (asCString fmt) 0 []
      with _ | out' <;> rw [hsecond] at hpasses
    · cases hpasses
    · dsimp only [Bind.bind, Except.bind] at hpasses
      split_ifs at hpasses
      obtain ⟨-, rfl⟩ := Prod.mk.inj (Except.ok.inj hpasses)
      have hreads := secondPass_reads hsecond
      rw [List.nil_append, List.drop_zero, hout, ← htokens] at hreads
      exact not_mistaken_of_expand _ _ hreads.symm
  · intro hargs
    have hpasses := formatPasses_ok hargs
    refine ⟨_, hpasses, ?_, by rw [htokens]⟩
    rw [stringFormatList, hpasses]
    rfl

/-- Arguments of no byte and of one byte tell two formats apart. -/
theorem tokens_of_expand (ts ts' : List Token)
    (h : ∀ args : List (List UInt8), (∀ arg ∈ args, arg.length ≤ 1) →
      expand ts args = expand ts' args) : ts = ts' := by
  have hcons (arg : List UInt8) (harg : arg.length ≤ 1) (args : List (List UInt8))
      (hargs : ∀ a ∈ args, a.length ≤ 1) : ∀ a ∈ arg :: args, a.length ≤ 1 := by
    intro a ha
    rcases List.mem_cons.1 ha with rfl | hmem
    · exact harg
    · exact hargs a hmem
  have hnil : ∀ a ∈ ([] : List (List UInt8)), a.length ≤ 1 := by simp
  induction ts generalizing ts' with
  | nil =>
    rcases ts' with _ | ⟨b | _, ts'⟩
    · rfl
    · cases h [] hnil
    · cases h [[0]] (hcons [0] le_rfl [] hnil)
  | cons t ts ih =>
    rcases t with b | _ <;> rcases ts' with _ | ⟨b' | _, ts'⟩
    · cases h [] hnil
    · have hhead := (List.cons.inj (h [] hnil)).1
      rw [hhead, ih ts' fun args hargs => (List.cons.inj (h args hargs)).2]
    · have hhead := (List.cons.inj (h [[b + 1]] (hcons _ le_rfl [] hnil))).1
      exact absurd hhead (by simp)
    · cases h [[0]] (hcons [0] le_rfl [] hnil)
    · have hhead := (List.cons.inj (h [[b' + 1]] (hcons _ le_rfl [] hnil))).1
      exact absurd hhead.symm (by simp)
    · rw [ih ts' fun args hargs => h ([] :: args) (hcons [] (Nat.zero_le _) args hargs)]

theorem exists_arg (arg : List UInt8) (harg : arg.length ≤ 1) :
    ∃ a : Option Text, ¬ ArgMistaken a ∧ argText a = arg := by
  refine ⟨some (.wrapped ⟨1, 2, 1, arg, by decide, by omega, by decide, by decide, by decide⟩), ?_,
    rfl⟩
  rintro ⟨t, ht, hm⟩
  cases ht
  cases hm

theorem exists_args (args : List (List UInt8)) (hargs : ∀ arg ∈ args, arg.length ≤ 1) :
    ∃ as : List (Option Text), (∀ a ∈ as, ¬ ArgMistaken a) ∧ as.map argText = args := by
  induction args with
  | nil => exact ⟨[], by simp, rfl⟩
  | cons arg args ih =>
    obtain ⟨as, has, hmap⟩ := ih fun a ha => hargs a (List.mem_cons_of_mem _ ha)
    obtain ⟨a, ha, htext⟩ := exists_arg arg (hargs arg List.mem_cons_self)
    refine ⟨a :: as, fun a' ha' => ?_, by rw [List.map_cons, htext, hmap]⟩
    rcases List.mem_cons.1 ha' with rfl | hmem
    · exact ha
    · exact has a' hmem

theorem format_iff_tokens (fmt : Text) :
    (∀ args, (∀ a ∈ args, ¬ ArgMistaken a) → FormatsRight fmt args) ↔
      tokens (asCString fmt) = tokens fmt.contents := by
  constructor
  · intro h
    refine tokens_of_expand _ _ fun args hargs => ?_
    obtain ⟨as, has, rfl⟩ := exists_args args hargs
    obtain ⟨out, hpasses, -, hout⟩ := h as has
    rw [formatPasses_ok fun a ha => has a (List.mem_of_mem_take ha)] at hpasses
    rw [← hout]
    exact (Prod.mk.inj (Except.ok.inj hpasses)).2
  · exact fun htokens args hargs =>
      (formatsRight_iff args htokens).2 fun a ha => hargs a (List.mem_of_mem_take ha)

/-- A split gives the pieces of the text, however the texts are passed, if and only if the text is
not mistaken and the delimiter is read as its contents, or neither its contents nor what is read of
it occurs. A format gives its expansion for all arguments if and only if what is read of it has the
same bytes and placeholders. -/
theorem split_and_format (str delimiter fmt : Text) (args : List (Option Text)) :
    (delimiter.contents ≠ [] → (SplitsRight str delimiter ↔ ¬ str.Mistaken ∧
      (asCString delimiter = delimiter.contents ∨
        ¬ asCString delimiter <:+: str.contents ∧ ¬ delimiter.contents <:+: str.contents))) ∧
    (delimiter.contents = [] → (BytesRight str delimiter ↔
      ¬ str.Mistaken ∧ (asCString delimiter = [] ∨ str.contents.length = 1))) ∧
    ((∀ args, (∀ a ∈ args, ¬ ArgMistaken a) → FormatsRight fmt args) ↔
      tokens (asCString fmt) = tokens fmt.contents) ∧
    (tokens (asCString fmt) = tokens fmt.contents → (FormatsRight fmt args ↔
      ∀ a ∈ args.take (placeholders (tokens fmt.contents)), ¬ ArgMistaken a)) :=
  ⟨splitsRight_iff, bytesRight_iff, format_iff_tokens fmt, formatsRight_iff args⟩

theorem split_and_format_plain :
    SplitsRight (.plain ⟨[97, 49, 98], fun _ => 0, by simp⟩)
      (.plain ⟨[49], fun _ => 0, by simp⟩) :=
  ((split_and_format _ _ (.plain ⟨[], fun _ => 0, by simp⟩) []).1 (by simp [Text.contents])).2
    ⟨fun h => absurd (length_of_mistaken h) (by decide), .inl rfl⟩

/-- The digit that a wrapped delimiter holds occurs in the text and does not split it. -/
theorem wrapped_delimiter :
    ¬ SplitsRight (.plain ⟨[97, 49, 98], fun _ => 0, by simp⟩)
      (.wrapped ⟨1, 2, 4096, [49], by decide, by decide, by decide, by decide, by decide⟩) := by
  rw [splitsRight_iff (by simp [Text.contents])]
  rintro ⟨-, heq | ⟨-, hnot⟩⟩
  · exact absurd heq (by decide)
  · exact hnot ⟨[97], [98], rfl⟩

end Strings

end Aether

end Qjs
