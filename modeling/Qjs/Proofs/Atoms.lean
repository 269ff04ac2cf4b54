import Qjs.Proofs.Compare
import Qjs.Proofs.StrBuffer

/-!
# The table of unique strings

`AtomInv` is what the table keeps: its strings are marked unique, strictly increasing, and every
unique string that no ROM table answers for is among them. A collection keeps it as long as no
string outside the heap is in the table; an insertion keeps it as long as the index found before
the allocations is still the right one. `atomTable_of_coveredRun` is the result for runs.
-/

namespace Qjs

open Wtf8

/-! ### The invariant -/

def entry (id : ℕ) : Option StrVal := some (.ref id)

/-- The place of a string in the order. -/
def atomKey (h : StrHeap) (id : ℕ) : List ℕ := bytesKey (stringBytes h (.ref id))

structure AtomInv (c : AtomCtx) (tbl : List ℕ) : Prop where
  valid : ∀ id p, c.heap.strings id = some p → Valid p.buf
  fresh : ∀ id, c.heap.next ≤ id → c.heap.strings id = none ∧ c.rom id = false
  romTables : ∀ arr, some arr ∈ c.romAtomTables → ∀ v ∈ arr,
    ∃ id, v = .ref id ∧ c.rom id = true ∧ ∃ p, c.heap.strings id = some p
  arr_eq : ∃ k, c.arr = tbl.map entry ++ List.replicate k none
  len_eq : c.uniqueStringsLen = tbl.length
  entries : ∀ id ∈ tbl, ∃ p, c.heap.strings id = some p ∧ p.isUnique = true
  sorted : (tbl.map (atomKey c.heap)).Pairwise (· < ·)
  complete : ∀ id p, c.heap.strings id = some p → p.isUnique = true →
    findRomAtom c.heap p.buf c.romAtomTables = none → id ∈ tbl

/-- What no step changes: the ROM, and the bytes of the strings that are still there. -/
structure Keeps (c c' : AtomCtx) : Prop where
  rom : c'.rom = c.rom
  tables : c'.romAtomTables = c.romAtomTables
  next_le : c.heap.next ≤ c'.heap.next
  strings : ∀ id p', c'.heap.strings id = some p' → id < c.heap.next →
    ∃ p, c.heap.strings id = some p ∧ p'.buf = p.buf ∧ (p.isUnique = true → p'.isUnique = true)

variable {c c' : AtomCtx} {tbl : List ℕ} {v : StrVal}

theorem Keeps.refl (c : AtomCtx) : Keeps c c :=
  ⟨rfl, rfl, le_rfl, fun _ p hp _ => ⟨p, hp, rfl, id⟩⟩

theorem Keeps.trans {c'' : AtomCtx} (h1 : Keeps c c') (h2 : Keeps c' c'') : Keeps c c'' := by
  refine ⟨h2.rom.trans h1.rom, h2.tables.trans h1.tables, h1.next_le.trans h2.next_le, ?_⟩
  intro id p'' hp'' hid
  obtain ⟨p', hp', hb', hu'⟩ := h2.strings id p'' hp'' (hid.trans_le h1.next_le)
  obtain ⟨p, hp, hb, hu⟩ := h1.strings id p' hp' hid
  exact ⟨p, hp, hb'.trans hb, fun h => hu' (hu h)⟩

theorem stringBytes_ref {h : StrHeap} {id : ℕ} {p : JSString} (hp : h.strings id = some p) :
    stringBytes h (.ref id) = p.buf := by
  simp [stringBytes, getStringPtr, hp]

theorem AtomInv.lt_next (hi : AtomInv c tbl) {id : ℕ} {p : JSString}
    (hp : c.heap.strings id = some p) : id < c.heap.next := by
  by_contra hge
  rw [(hi.fresh id (not_lt.1 hge)).1] at hp
  cases hp

/-! ### Searches -/

theorem findAtom_congr {h h' : StrHeap} {arr : List (Option StrVal)} {len : ℕ} (buf : List ℕ)
    (hb : ∀ m < len, stringBytes h (((arr[m]?).getD none).getD jsAtomEmpty)
      = stringBytes h' (((arr[m]?).getD none).getD jsAtomEmpty)) :
    findAtom h arr len buf = findAtom h' arr len buf := by
  apply Search.bsearch_congr
  intro m hm
  rw [hb m hm]

/-- The ROM tables answer the same as long as the bytes of their strings are the same. -/
theorem findRomAtom_congr {h h' : StrHeap} (buf : List ℕ) : ∀ tables : List (Option (List StrVal)),
    (∀ arr, some arr ∈ tables → ∀ v ∈ arr, stringBytes h v = stringBytes h' v) →
    findRomAtom h buf tables = findRomAtom h' buf tables
  | [], _ => rfl
  | none :: tables, hb => by
    rw [findRomAtom, findRomAtom]
    exact findRomAtom_congr buf tables fun arr ha => hb arr (List.mem_cons_of_mem _ ha)
  | some arr :: tables, hb => by
    have hf : findAtom h (arr.map some) arr.length buf = findAtom h' (arr.map some) arr.length buf := by
      apply findAtom_congr
      intro m hm
      rw [List.getElem?_map, List.getElem?_eq_getElem hm]
      exact hb arr List.mem_cons_self _ (List.getElem_mem hm)
    rw [findRomAtom, findRomAtom, hf,
      findRomAtom_congr buf tables fun arr ha => hb arr (List.mem_cons_of_mem _ ha)]

theorem Keeps.findRomAtom_eq (hk : Keeps c c') (hi : AtomInv c tbl)
    (hrom : ∀ id p, c.rom id = true → c.heap.strings id = some p →
      ∃ p', c'.heap.strings id = some p') (buf : List ℕ) :
    findRomAtom c'.heap buf c'.romAtomTables = findRomAtom c.heap buf c.romAtomTables := by
  rw [hk.tables]
  apply findRomAtom_congr
  intro arr ha v hv
  obtain ⟨id, rfl, hr, p, hp⟩ := hi.romTables arr ha v hv
  obtain ⟨p', hp'⟩ := hrom id p hr hp
  obtain ⟨q, hq, hb, -⟩ := hk.strings id p' hp' (hi.lt_next hp)
  rw [stringBytes_ref hp', stringBytes_ref hq, hb]

/-- Where `find_atom` finds a string in the table, or where it belongs. -/
theorem AtomInv.findAtom_spec (hi : AtomInv c tbl) {buf : List ℕ} (hbuf : Valid buf) :
    (∃ m id, findAtom c.heap c.arr c.uniqueStringsLen buf = (m, true) ∧ c.arr[m]? = some (entry id)
        ∧ id ∈ tbl ∧ stringBytes c.heap (.ref id) = buf)
      ∨ ∃ i, findAtom c.heap c.arr c.uniqueStringsLen buf = (i, false) ∧ i ≤ tbl.length
        ∧ (∀ id ∈ tbl.take i, atomKey c.heap id < bytesKey buf)
        ∧ ∀ id ∈ tbl.drop i, bytesKey buf < atomKey c.heap id := by
  obtain ⟨k, harr⟩ := hi.arr_eq
  have hget : ∀ (m : ℕ) (hm : m < tbl.length), c.arr[m]? = some (entry tbl[m]) := by
    intro m hm
    rw [harr, List.getElem?_append_left (by simpa using hm), List.getElem?_map,
      List.getElem?_eq_getElem hm]
    rfl
  have hvalid : ∀ (m : ℕ) (hm : m < tbl.length), Valid (stringBytes c.heap (.ref tbl[m])) := by
    intro m hm
    obtain ⟨p, hp, -⟩ := hi.entries _ (List.getElem_mem hm)
    rw [stringBytes_ref hp]
    exact hi.valid _ p hp
  have hcmp : ∀ (m : ℕ) (hm : m < tbl.length),
      jsStringCompare buf (stringBytes c.heap (((c.arr[m]?).getD none).getD jsAtomEmpty))
        = keyCmp (bytesKey buf) (atomKey c.heap tbl[m]) := by
    intro m hm
    rw [hget m hm]
    exact jsStringCompare_eq_keyCmp hbuf (hvalid m hm)
  have hsorted : ∀ (i j : ℕ) (hj : j < tbl.length) (hij : i < j),
      atomKey c.heap (tbl[i]) < atomKey c.heap tbl[j] := by
    intro i j hj hij
    have := List.pairwise_iff_getElem.1 hi.sorted i j (by simpa using hij.trans hj) (by simpa using hj) hij
    simpa using this
  have hasc : Search.Ascending (fun m => jsStringCompare buf
      (stringBytes c.heap (((c.arr[m]?).getD none).getD jsAtomEmpty))) tbl.length := by
    intro i j hij hj hne
    simp only at hne ⊢
    rw [hcmp i (hij.trans hj), keyCmp_eq_gt]
    rw [hcmp j hj, Ne, keyCmp_eq_lt, not_lt] at hne
    exact (hsorted i j hj hij).trans_le hne
  have hans := Search.bsearch_spec hasc
  rw [hi.len_eq]
  generalize hr : findAtom c.heap c.arr tbl.length buf = r
  rw [findAtom] at hr
  rw [hr] at hans
  obtain ⟨m, found⟩ := r
  rcases hans with ⟨rfl, hm, heq⟩ | ⟨rfl, hm, hlo, hhi⟩
  · simp only at hm heq
    rw [hcmp m hm, keyCmp_eq_eq] at heq
    exact .inl ⟨m, tbl[m], rfl, hget m hm, List.getElem_mem hm,
      bytesKey_injective (hvalid m hm) hbuf heq.symm⟩
  · simp only at hm hlo hhi
    refine .inr ⟨m, rfl, hm, ?_, ?_⟩
    · intro id hid
      obtain ⟨j, hj, rfl⟩ := List.mem_iff_getElem.1 hid
      rw [List.length_take] at hj
      have := hlo j (by omega)
      rw [hcmp j (by omega), keyCmp_eq_gt] at this
      rwa [List.getElem_take]
    · intro id hid
      obtain ⟨j, hj, rfl⟩ := List.mem_iff_getElem.1 hid
      rw [List.length_drop] at hj
      have := hhi (m + j) (by omega) (by omega)
      rw [hcmp (m + j) (by omega), keyCmp_eq_lt] at this
      rwa [List.getElem_drop]

/-! ### Collections -/

/-- No string outside the heap is in the table. -/
def NoRomEntry (c : AtomCtx) : Prop := ∀ id, entry id ∈ c.arr → c.rom id = false

theorem AtomInv.mem_arr (hi : AtomInv c tbl) {id : ℕ} : entry id ∈ c.arr ↔ id ∈ tbl := by
  obtain ⟨k, harr⟩ := hi.arr_eq
  rw [harr]
  simp [entry]

theorem jsGc_arr (c : AtomCtx) (reach : ℕ → Bool) (pins : List StrVal) :
    (jsGc c reach pins).arr = c.arr.filter (gcMbIsMarked (gcMarked c reach pins)) := by
  cases hu : c.uniqueStrings with
  | none => simp [AtomCtx.arr, jsGc, hu]
  | some arr =>
    by_cases hne : arr.filter (gcMbIsMarked (gcMarked c reach pins)) = []
    · simp [AtomCtx.arr, jsGc, hu, hne]
    · simp [AtomCtx.arr, jsGc, hu, hne]

theorem jsGc_strings {reach : ℕ → Bool} {pins : List StrVal} {id : ℕ} {p : JSString} :
    (jsGc c reach pins).heap.strings id = some p
      ↔ c.heap.strings id = some p ∧ (c.rom id = true ∨ gcMarked c reach pins id = true) := by
  simp only [jsGc]
  split_ifs with h
  · rw [Bool.or_eq_true] at h
    simp [h]
  · rw [Bool.or_eq_true] at h
    simp [h]

theorem jsGc_keeps (c : AtomCtx) (reach : ℕ → Bool) (pins : List StrVal) :
    Keeps c (jsGc c reach pins) := by
  refine ⟨rfl, rfl, le_rfl, ?_⟩
  intro id p hp _
  exact ⟨p, (jsGc_strings.1 hp).1, rfl, fun h => h⟩

theorem filter_entries (marked : ℕ → Bool) (tbl : List ℕ) (k : ℕ) :
    (tbl.map entry ++ List.replicate k none).filter (gcMbIsMarked marked)
      = (tbl.filter marked).map entry := by
  rw [List.filter_append, List.filter_map]
  have h1 : (List.replicate k (none : Option StrVal)).filter (gcMbIsMarked marked) = [] := by
    simp [gcMbIsMarked]
  have h2 : gcMbIsMarked marked ∘ entry = marked := rfl
  rw [h1, h2, List.append_nil]

theorem AtomInv.jsGc (hi : AtomInv c tbl) (hn : NoRomEntry c) (reach : ℕ → Bool)
    (pins : List StrVal) :
    AtomInv (Qjs.jsGc c reach pins) (tbl.filter (gcMarked c reach pins)) := by
  have hk := jsGc_keeps c reach pins
  obtain ⟨k, harr⟩ := hi.arr_eq
  have harr' : (Qjs.jsGc c reach pins).arr = (tbl.filter (gcMarked c reach pins)).map entry := by
    rw [jsGc_arr, harr, filter_entries]
  have hstr : ∀ id p, gcMarked c reach pins id = true → c.heap.strings id = some p →
      (Qjs.jsGc c reach pins).heap.strings id = some p := fun id p hm hp => jsGc_strings.2 ⟨hp, .inr hm⟩
  have hfind := hk.findRomAtom_eq hi fun id p hr hp => ⟨p, jsGc_strings.2 ⟨hp, .inl hr⟩⟩
  refine ⟨?_, ?_, ?_, ⟨0, by simpa using harr'⟩, ?_, ?_, ?_, ?_⟩
  · intro id p hp
    exact hi.valid id p (jsGc_strings.1 hp).1
  · intro id hid
    obtain ⟨h1, h2⟩ := hi.fresh id hid
    exact ⟨by simp [Qjs.jsGc, h1], h2⟩
  · intro arr ha v hv
    obtain ⟨id, hv', hr, p, hp⟩ := hi.romTables arr ha v hv
    exact ⟨id, hv', hr, p, jsGc_strings.2 ⟨hp, .inl hr⟩⟩
  · cases hu : c.uniqueStrings with
    | none =>
      have hnil : tbl = [] := by
        rw [AtomCtx.arr, hu, Option.getD_none] at harr
        simpa using (List.append_eq_nil_iff.1 harr.symm).1
      simp [Qjs.jsGc, hu, hi.len_eq, hnil]
    | some arr =>
      have hlen : (Qjs.jsGc c reach pins).uniqueStringsLen
          = (c.arr.filter (gcMbIsMarked (gcMarked c reach pins))).length := by
        simp [Qjs.jsGc, hu]
      rw [hlen, ← jsGc_arr, harr', List.length_map]
  · intro id hid
    obtain ⟨hid, hm⟩ := List.mem_filter.1 hid
    obtain ⟨p, hp, hu⟩ := hi.entries id hid
    exact ⟨p, hstr id p hm hp, hu⟩
  · have hkeys : (tbl.filter (gcMarked c reach pins)).map (atomKey (Qjs.jsGc c reach pins).heap)
        = (tbl.filter (gcMarked c reach pins)).map (atomKey c.heap) := by
      apply List.map_congr_left
      intro id hid
      obtain ⟨hid, hm⟩ := List.mem_filter.1 hid
      obtain ⟨p, hp, -⟩ := hi.entries id hid
      rw [atomKey, atomKey, stringBytes_ref hp, stringBytes_ref (hstr id p hm hp)]
    rw [hkeys]
    exact hi.sorted.sublist (List.filter_sublist.map _)
  · intro id p hp hu hf
    obtain ⟨hp', hm⟩ := jsGc_strings.1 hp
    rw [hfind] at hf
    have hid := hi.complete id p hp' hu hf
    rcases hm with hr | hm
    · rw [hn id (hi.mem_arr.2 hid)] at hr
      cases hr
    · exact List.mem_filter.2 ⟨hid, hm⟩

theorem NoRomEntry.jsGc (hn : NoRomEntry c) (reach : ℕ → Bool) (pins : List StrVal) :
    NoRomEntry (Qjs.jsGc c reach pins) := by
  intro id hid
  rw [jsGc_arr] at hid
  exact hn id (List.mem_filter.1 hid).1

/-- Collections while only `pins` are roots that are known. -/
theorem runGcs_spec (pins : List StrVal) : ∀ (gcs : List (ℕ → Bool)) {c : AtomCtx} {tbl : List ℕ},
    AtomInv c tbl → (gcs ≠ [] → NoRomEntry c) →
    AtomInv (runGcs (fun _ => pins) gcs c)
        (tbl.filter fun id => gcs.all fun reach => gcMarked c reach pins id)
      ∧ Keeps c (runGcs (fun _ => pins) gcs c)
      ∧ (gcs ≠ [] → NoRomEntry (runGcs (fun _ => pins) gcs c))
      ∧ ∀ id p, (c.rom id = true ∨ StrVal.ref id ∈ pins) → c.heap.strings id = some p →
        (runGcs (fun _ => pins) gcs c).heap.strings id = some p
  | [], c, tbl, hi, _ => by
    refine ⟨?_, .refl c, by simp, fun _ _ _ hp => hp⟩
    simpa [runGcs] using hi
  | reach :: gcs, c, tbl, hi, hn' => by
    have hn := hn' (by simp)
    obtain ⟨h1, h2, h3, h4⟩ := runGcs_spec pins gcs (hi.jsGc hn reach pins) fun _ => hn.jsGc reach pins
    have hm : gcMarked (Qjs.jsGc c reach pins) = fun reach pins => gcMarked c reach pins := rfl
    have hfilter : (tbl.filter (gcMarked c reach pins)).filter
        (fun id => gcs.all fun reach => gcMarked c reach pins id)
        = tbl.filter fun id => (reach :: gcs).all fun reach => gcMarked c reach pins id := by
      rw [List.filter_filter]
      apply List.filter_congr
      intro id _
      rw [List.all_cons, Bool.and_comm]
    rw [hm, hfilter] at h1
    refine ⟨h1, (jsGc_keeps c reach pins).trans h2, ?_, ?_⟩
    · intro _
      rcases gcs with _ | ⟨r, gcs⟩
      · exact hn.jsGc reach pins
      · exact h3 (by simp)
    · intro id p hid hp
      refine h4 id p hid (jsGc_strings.2 ⟨hp, ?_⟩)
      rcases hid with hr | hmem
      · exact .inl hr
      · by_cases hr : c.rom id = true
        · exact .inl hr
        · right
          simp only [gcMarked, Bool.not_eq_true] at hr ⊢
          simp [hr, hmem]

/-- Collections while the table itself is a root. -/
theorem runGcs_pinned (v : StrVal) : ∀ (gcs : List (ℕ → Bool)) {c : AtomCtx} {tbl : List ℕ},
    AtomInv c tbl → (gcs ≠ [] → NoRomEntry c) →
    AtomInv (runGcs (fun c => v :: c.arr.filterMap id) gcs c) tbl
      ∧ Keeps c (runGcs (fun c => v :: c.arr.filterMap id) gcs c)
      ∧ (∀ i p, v = .ref i → c.heap.strings i = some p →
        (runGcs (fun c => v :: c.arr.filterMap id) gcs c).heap.strings i = some p)
      ∧ (gcs ≠ [] → (runGcs (fun c => v :: c.arr.filterMap id) gcs c).arr = tbl.map entry)
  | [], c, tbl, hi, _ => ⟨hi, .refl c, fun _ _ _ hp => hp, by simp⟩
  | reach :: gcs, c, tbl, hi, hn' => by
    have hn := hn' (by simp)
    have hpin : ∀ i, StrVal.ref i ∈ v :: c.arr.filterMap id → c.rom i = false →
        gcMarked c reach (v :: c.arr.filterMap id) i = true := by
      intro i hid hr
      simp only [gcMarked, hr, Bool.not_false, Bool.true_and, Bool.or_eq_true]
      exact .inr (List.contains_iff_mem.2 hid)
    have hmark : tbl.filter (gcMarked c reach (v :: c.arr.filterMap id)) = tbl := by
      apply List.filter_eq_self.2
      intro i hid
      have harr := hi.mem_arr.2 hid
      refine hpin i (List.mem_cons_of_mem v ?_) (hn i harr)
      exact List.mem_filterMap.2 ⟨entry i, harr, rfl⟩
    have hi' := hi.jsGc hn reach (v :: c.arr.filterMap id)
    rw [hmark] at hi'
    obtain ⟨h1, h2, h3, h4⟩ := runGcs_pinned v gcs hi' fun _ => hn.jsGc reach _
    refine ⟨h1, (jsGc_keeps c reach _).trans h2, ?_, ?_⟩
    · rintro i p rfl hp
      refine h3 i p rfl (jsGc_strings.2 ⟨hp, ?_⟩)
      cases hr : c.rom i with
      | true => exact .inl rfl
      | false => exact .inr (hpin i List.mem_cons_self hr)
    · intro _
      rcases gcs with _ | ⟨r, gcs⟩
      · obtain ⟨k, harr⟩ := hi.arr_eq
        have := jsGc_arr c reach (v :: c.arr.filterMap id)
        rw [harr, filter_entries, ← harr, hmark] at this
        exact this
      · exact h4 (by simp)

/-! ### Insertion -/

theorem AtomInv.set_arr (hi : AtomInv c tbl) (k : ℕ) :
    AtomInv { c with uniqueStrings := some (tbl.map entry ++ List.replicate k none) } tbl :=
  ⟨hi.valid, hi.fresh, hi.romTables, ⟨k, rfl⟩, hi.len_eq, hi.entries, hi.sorted, hi.complete⟩

theorem le_resizedSize (oldSize newSize propBase : ℕ) :
    newSize ≤ resizedSize oldSize newSize propBase := by
  simp only [resizedSize]
  split_ifs <;> omega

/-- The table is the same after `js_resize_value_array`, with room for one more string. -/
theorem resizeUniqueStrings_spec {i : ℕ} {p : JSString} {e : AllocEvent} (hi : AtomInv c tbl)
    (hn : e.gcs ≠ [] → NoRomEntry c) (hp : c.heap.strings i = some p) :
    (∃ c', resizeUniqueStrings c (.ref i) e = .exception c' ∧ AtomInv c' tbl ∧ Keeps c c')
      ∨ ∃ c' k, resizeUniqueStrings c (.ref i) e = .ok () c' ∧ AtomInv c' tbl ∧ Keeps c c'
        ∧ c'.heap.strings i = some p ∧ c'.arr = tbl.map entry ++ List.replicate (k + 1) none := by
  obtain ⟨k, harr⟩ := hi.arr_eq
  have hold : c.arr.length = tbl.length + k := by simp [harr]
  simp only [resizeUniqueStrings, hi.len_eq]
  split_ifs with hgrow hok hshort
  · exfalso
    obtain ⟨h1, -, -, -⟩ := runGcs_pinned (.ref i) e.gcs hi hn
    obtain ⟨k', harr'⟩ := h1.arr_eq
    rw [harr'] at hshort
    simp only [List.length_append, List.length_map, List.length_replicate] at hshort
    omega
  · obtain ⟨h1, h2, h3, h4⟩ := runGcs_pinned (.ref i) e.gcs hi hn
    have hk : k = 0 := by omega
    have harr' : (runGcs (fun c => StrVal.ref i :: c.arr.filterMap id) e.gcs c).arr = tbl.map entry := by
      rcases hg : e.gcs with _ | ⟨r, gcs⟩
      · simp [runGcs, harr, hk]
      · rw [← hg]
        exact h4 (by simp [hg])
    have hsize := le_resizedSize c.arr.length (tbl.length + 1) 0
    obtain ⟨n, hsize⟩ : ∃ n, resizedSize c.arr.length (tbl.length + 1) 0 - c.arr.length = n + 1 :=
      ⟨resizedSize c.arr.length (tbl.length + 1) 0 - c.arr.length - 1, by omega⟩
    rw [harr', hsize]
    refine .inr ⟨_, n, rfl, h1.set_arr (n + 1), ⟨h2.rom, h2.tables, h2.next_le, h2.strings⟩,
      h3 i p rfl hp, rfl⟩
  · obtain ⟨h1, h2, -, -⟩ := runGcs_pinned (.ref i) e.gcs hi hn
    exact .inl ⟨_, rfl, h1, h2⟩
  · obtain ⟨n, rfl⟩ : ∃ n, k = n + 1 := ⟨k - 1, by omega⟩
    exact .inr ⟨c, n, rfl, hi, .refl c, hp, harr⟩

theorem insertValue_entries {l r : List ℕ} (k id : ℕ) :
    insertValue ((l ++ r).map entry ++ List.replicate (k + 1) none) (l ++ r).length l.length (.ref id)
      = (l ++ id :: r).map entry ++ List.replicate k none := by
  have h1 : ((l ++ r).map entry ++ List.replicate (k + 1) none).take l.length = l.map entry := by
    rw [List.map_append, List.append_assoc]
    exact List.take_left' (by simp)
  have h2 : (((l ++ r).map entry ++ List.replicate (k + 1) none).drop l.length).take
      ((l ++ r).length - l.length) = r.map entry := by
    rw [List.map_append, List.append_assoc, List.drop_left' (by simp)]
    exact List.take_left' (by simp)
  have h3 : ((l ++ r).map entry ++ List.replicate (k + 1) none).drop ((l ++ r).length + 1)
      = List.replicate k none := by
    rw [← List.drop_drop, List.drop_left' (by simp)]
    simp
  rw [insertValue, h1, h2, h3]
  simp [entry]

/-- What `JS_MakeUniqueString` does at its end. -/
def AtomCtx.inserted (c : AtomCtx) (id : ℕ) (p : JSString) (arr : List (Option StrVal)) : AtomCtx :=
  { c with
    heap := { c.heap with strings := Function.update c.heap.strings id (some p) }
    uniqueStrings := some arr
    uniqueStringsLen := c.uniqueStringsLen + 1 }

theorem inserted_keeps {id : ℕ} {p p' : JSString} {arr : List (Option StrVal)}
    (hp : c.heap.strings id = some p) (hb : p'.buf = p.buf) (hu : p'.isUnique = true) :
    Keeps c (c.inserted id p' arr) := by
  refine ⟨rfl, rfl, le_rfl, ?_⟩
  intro id' q hq _
  simp only [AtomCtx.inserted] at hq
  by_cases hid : id' = id
  · subst hid
    rw [Function.update_self] at hq
    obtain rfl := Option.some.inj hq
    exact ⟨p, hp, hb, fun _ => hu⟩
  · rw [Function.update_of_ne hid] at hq
    exact ⟨q, hq, rfl, fun h => h⟩

theorem AtomInv.inserted {l r : List ℕ} {id k : ℕ} {p p' : JSString} (hi : AtomInv c (l ++ r))
    (hp : c.heap.strings id = some p) (hb : p'.buf = p.buf) (hu : p'.isUnique = true)
    (hlo : ∀ i ∈ l, atomKey c.heap i < bytesKey p.buf)
    (hhi : ∀ i ∈ r, bytesKey p.buf < atomKey c.heap i) :
    AtomInv (c.inserted id p' ((l ++ id :: r).map entry ++ List.replicate k none)) (l ++ id :: r) := by
  have hk : Keeps c (c.inserted id p' ((l ++ id :: r).map entry ++ List.replicate k none)) :=
    inserted_keeps hp hb hu
  have hself : (c.inserted id p' ((l ++ id :: r).map entry ++ List.replicate k none)).heap.strings id
      = some p' := Function.update_self ..
  have hother : ∀ i, i ≠ id →
      (c.inserted id p' ((l ++ id :: r).map entry ++ List.replicate k none)).heap.strings i
        = c.heap.strings i := fun i h => Function.update_of_ne h ..
  generalize hc : c.inserted id p' ((l ++ id :: r).map entry ++ List.replicate k none) = c' at *
  have hpresent : ∀ i q, c.heap.strings i = some q → ∃ q', c'.heap.strings i = some q' := by
    intro i q hq
    by_cases h : i = id
    · exact ⟨p', h ▸ hself⟩
    · exact ⟨q, (hother i h).trans hq⟩
  have hkey : ∀ i q, c.heap.strings i = some q → atomKey c'.heap i = atomKey c.heap i := by
    intro i q hq
    obtain ⟨q', hq'⟩ := hpresent i q hq
    obtain ⟨q₁, h1, h2, -⟩ := hk.strings i q' hq' (hi.lt_next hq)
    rw [atomKey, atomKey, stringBytes_ref hq', stringBytes_ref h1, h2]
  have hkeyId : atomKey c'.heap id = bytesKey p.buf := by
    rw [hkey id p hp, atomKey, stringBytes_ref hp]
  have hmem : ∀ i ∈ l ++ r, atomKey c'.heap i = atomKey c.heap i := by
    intro i him
    obtain ⟨q, hq, -⟩ := hi.entries i him
    exact hkey i q hq
  refine ⟨?_, ?_, ?_, ⟨k, by rw [← hc]; rfl⟩, ?_, ?_, ?_, ?_⟩
  · intro i q hq
    by_cases h : i = id
    · rw [h, hself] at hq
      obtain rfl := Option.some.inj hq
      rw [hb]
      exact hi.valid id p hp
    · rw [hother i h] at hq
      exact hi.valid i q hq
  · intro i hle
    rw [← hc] at hle
    obtain ⟨h1, h2⟩ := hi.fresh i hle
    have hne : i ≠ id := by
      rintro rfl
      rw [h1] at hp
      cases hp
    rw [hother i hne, hk.rom]
    exact ⟨h1, h2⟩
  · intro arr ha v hv
    rw [hk.tables] at ha
    obtain ⟨i, hv', hr, q, hq⟩ := hi.romTables arr ha v hv
    rw [hk.rom]
    exact ⟨i, hv', hr, hpresent i q hq⟩
  · rw [← hc]
    simp [AtomCtx.inserted, hi.len_eq]
    omega
  · intro i him
    by_cases h : i = id
    · exact ⟨p', h ▸ hself, hu⟩
    · have him' : i ∈ l ++ r := by simpa [h] using him
      rw [hother i h]
      exact hi.entries i him'
  · have hs := hi.sorted
    rw [List.map_append, List.pairwise_append] at hs
    obtain ⟨hl, hr, hlr⟩ := hs
    rw [List.map_append, List.map_cons, hkeyId,
      List.map_congr_left fun i him => hmem i (List.mem_append_left r him),
      List.map_congr_left fun i him => hmem i (List.mem_append_right l him),
      List.pairwise_append, List.pairwise_cons]
    simp only [List.mem_map, List.mem_cons, forall_exists_index, and_imp,
      forall_apply_eq_imp_iff₂] at hlr ⊢
    refine ⟨hl, ⟨hhi, hr⟩, ?_⟩
    intro i him x hx
    rcases hx with rfl | ⟨j, hj, rfl⟩
    · exact hlo i him
    · exact hlr i him j hj
  · intro i q hq hqu hf
    by_cases h : i = id
    · simp [h]
    · rw [hk.findRomAtom_eq hi fun j s _ hs => hpresent j s hs] at hf
      rw [hother i h] at hq
      have := hi.complete i q hq hqu hf
      simp only [List.mem_append, List.mem_cons] at this ⊢
      exact this.imp_right .inr

/-! ### Interning -/

/-- The value is a string that can be used. -/
def Live (c : AtomCtx) : StrVal → Prop
  | .char d => d < 0x110000
  | .ref id => ∃ p, c.heap.strings id = some p

/-- No unique string with these contents is known yet. -/
def IsNew (c : AtomCtx) (v : StrVal) : Prop :=
  (getStringPtr c.heap v).isUnique = false
    ∧ findRomAtom c.heap (stringBytes c.heap v) c.romAtomTables = none
    ∧ (findAtom c.heap c.arr c.uniqueStringsLen (stringBytes c.heap v)).2 = false

/-- The collections reach every string of the table that compares below `v`. -/
def BelowKept (c : AtomCtx) (v : StrVal) (gcs : List (ℕ → Bool)) : Prop :=
  ∀ id, entry id ∈ c.arr →
    jsStringCompare (stringBytes c.heap (.ref id)) (stringBytes c.heap v) = .lt →
    ∀ reach ∈ gcs, reach id = true

/-- The events that do not meet the defects of the code: a collection drops a string outside the
heap from the table, and the one `js_is_numeric_string` may start makes the insertion index wrong
if it drops a string below it. -/
def CoveredAtom (c : AtomCtx) : AtomEvent → Prop
  | .newString _ buf => Valid buf
  | .gc _ => NoRomEntry c
  | .makeUnique v e1 e2 => Live c v ∧ (IsNew c v →
    (e1.gcs ≠ [] ∨ e2.gcs ≠ [] → NoRomEntry c)
    ∧ (startsAsNumber (getStringPtr c.heap v) = true → BelowKept c v e1.gcs))

theorem getStringPtr_ref {h : StrHeap} {id : ℕ} {p : JSString} (hp : h.strings id = some p) :
    getStringPtr h (.ref id) = p := by
  simp [getStringPtr, hp]

/-- The collections keep the part of the table below the string. -/
theorem filter_below {l r : List ℕ} {id : ℕ} {p : JSString} {gcs : List (ℕ → Bool)}
    (hi : AtomInv c (l ++ r)) (hp : c.heap.strings id = some p) (hn : gcs ≠ [] → NoRomEntry c)
    (hlo : ∀ i ∈ l, atomKey c.heap i < bytesKey p.buf) (hbelow : BelowKept c (.ref id) gcs) :
    l.filter (fun i => gcs.all fun reach => gcMarked c reach [.ref id] i) = l := by
  apply List.filter_eq_self.2
  intro i him
  rw [List.all_eq_true]
  intro reach hreach
  have harr := hi.mem_arr.2 (List.mem_append_left r him)
  have hr := hn (List.ne_nil_of_mem hreach) i harr
  obtain ⟨q, hq, -⟩ := hi.entries i (List.mem_append_left r him)
  have hcmp : jsStringCompare (stringBytes c.heap (.ref i)) (stringBytes c.heap (.ref id)) = .lt := by
    rw [stringBytes_ref hp, stringBytes_ref hq,
      jsStringCompare_eq_keyCmp (hi.valid i q hq) (hi.valid id p hp), keyCmp_eq_lt,
      ← stringBytes_ref hq]
    exact hlo i him
  simp [gcMarked, hr, hbelow i harr hcmp reach hreach]

/-- After `js_is_numeric_string` the part of the table below the string is as it was. -/
theorem jsIsNumericString_spec (numeric : List ℕ → Bool) {l r : List ℕ} {id : ℕ} {p : JSString} {e : AllocEvent}
    (hi : AtomInv c (l ++ r)) (hp : c.heap.strings id = some p) (hn : e.gcs ≠ [] → NoRomEntry c)
    (hlo : ∀ i ∈ l, atomKey c.heap i < bytesKey p.buf)
    (hbelow : startsAsNumber p = true → BelowKept c (.ref id) e.gcs) :
    ∃ c' r', AtomInv c' (l ++ r') ∧ r'.Sublist r ∧ Keeps c c' ∧ c'.heap.strings id = some p
      ∧ (NoRomEntry c → NoRomEntry c')
      ∧ (jsIsNumericString numeric c (.ref id) e = .exception c'
        ∨ ∃ b, jsIsNumericString numeric c (.ref id) e = .ok b c') := by
  simp only [jsIsNumericString, getStringPtr_ref hp]
  by_cases hs : startsAsNumber p = true
  · obtain ⟨h1, h2, h3, h4⟩ := runGcs_spec [StrVal.ref id] e.gcs hi hn
    rw [List.filter_append, filter_below hi hp hn hlo (hbelow hs)] at h1
    refine ⟨_, _, h1, List.filter_sublist, h2, h4 id p (.inr (by simp)) hp, ?_, ?_⟩
    · intro hc
      rcases hg : e.gcs with _ | ⟨g, gcs⟩
      · exact hc
      · rw [← hg]
        exact h3 (by simp [hg])
    · rw [if_pos hs]
      cases e.ok with
      | true => exact .inr ⟨_, rfl⟩
      | false => exact .inl rfl
  · rw [if_neg hs]
    exact ⟨c, r, hi, List.Sublist.refl r, .refl c, hp, fun h => h, .inr ⟨_, rfl⟩⟩

/-- What interning `v` promises of its answer `r`. -/
structure Interns (c : AtomCtx) (v r : StrVal) (c' : AtomCtx) : Prop where
  inv : ∃ tbl', AtomInv c' tbl'
  keeps : Keeps c c'
  unique : ∀ id, v = .ref id → findRomAtom c.heap (stringBytes c.heap v) c.romAtomTables = none →
    ∃ i p, r = .ref i ∧ c'.heap.strings i = some p ∧ p.isUnique = true
      ∧ p.buf = stringBytes c.heap v
  same : ¬IsNew c v → c' = c

/-- A new string goes to its place in the table. -/
theorem insert_spec (numeric : List ℕ → Bool) {id a : ℕ} {p : JSString} {e1 e2 : AllocEvent} (hi : AtomInv c tbl)
    (hp : c.heap.strings id = some p) (hu : p.isUnique = false)
    (hrom : findRomAtom c.heap p.buf c.romAtomTables = none)
    (hfind : findAtom c.heap c.arr c.uniqueStringsLen p.buf = (a, false)) (ha : a ≤ tbl.length)
    (hlo : ∀ i ∈ tbl.take a, atomKey c.heap i < bytesKey p.buf)
    (hhi : ∀ i ∈ tbl.drop a, bytesKey p.buf < atomKey c.heap i)
    (hn : e1.gcs ≠ [] ∨ e2.gcs ≠ [] → NoRomEntry c)
    (hbelow : startsAsNumber p = true → BelowKept c (.ref id) e1.gcs) :
    (∃ c', jsMakeUniqueString numeric c (.ref id) e1 e2 = .exception c' ∧ (∃ tbl', AtomInv c' tbl')
        ∧ Keeps c c')
      ∨ ∃ r c', jsMakeUniqueString numeric c (.ref id) e1 e2 = .ok r c'
        ∧ Interns c (.ref id) r c' := by
  have hlen : (tbl.take a).length = a := by simp [ha]
  rw [← List.take_append_drop a tbl] at hi
  obtain ⟨c₁, r, hi₁, hr, hk₁, hp₁, hn₁, hnum⟩ :=
    jsIsNumericString_spec numeric hi hp (fun h => hn (.inl h)) hlo hbelow
  simp only [jsMakeUniqueString, getStringPtr_ref hp, hu, hrom, hfind]
  rcases hnum with hnum | ⟨b, hnum⟩
  · rw [hnum]
    exact .inl ⟨c₁, rfl, ⟨_, hi₁⟩, hk₁⟩
  rw [hnum]
  simp only
  obtain ⟨c₂, h2, hi₂, hk₂⟩ | ⟨c₂, k, h2, hi₂, hk₂, hp₂, harr⟩ :=
    resizeUniqueStrings_spec (e := e2) hi₁ (fun h => hn₁ (hn (.inr h))) hp₁
  · rw [h2]
    exact .inl ⟨c₂, rfl, ⟨_, hi₂⟩, hk₁.trans hk₂⟩
  rw [h2]
  have hk := hk₁.trans hk₂
  have hkey : ∀ i ∈ tbl.take a ++ r, atomKey c₂.heap i = atomKey c.heap i := by
    intro i him
    obtain ⟨q, hq, -⟩ := hi₂.entries i him
    have hlt : i < c.heap.next := by
      obtain ⟨q', hq', -⟩ := hi.entries i (List.Sublist.mem him (hr.append_left _))
      exact hi.lt_next hq'
    obtain ⟨q', hq', hb, -⟩ := hk.strings i q hq hlt
    rw [atomKey, atomKey, stringBytes_ref hq, stringBytes_ref hq', hb]
  have hge : ¬c₂.uniqueStringsLen < a := by
    rw [hi₂.len_eq, List.length_append, hlen]
    omega
  have hins : insertValue c₂.arr c₂.uniqueStringsLen a (.ref id)
      = (tbl.take a ++ id :: r).map entry ++ List.replicate k none := by
    have := insertValue_entries (l := tbl.take a) (r := r) k id
    rwa [hlen, ← harr, ← hi₂.len_eq] at this
  have hi₃ : AtomInv (c₂.inserted id { p with isUnique := true, isNumeric := b }
      ((tbl.take a ++ id :: r).map entry ++ List.replicate k none)) (tbl.take a ++ id :: r) := by
    refine hi₂.inserted hp₂ rfl rfl ?_ ?_
    · intro i him
      rw [hkey i (List.mem_append_left r him)]
      exact hlo i him
    · intro i him
      rw [hkey i (List.mem_append_right _ him)]
      exact hhi i (hr.mem him)
  simp only [hge, if_false, getStringPtr_ref hp₂, Bool.false_eq_true, hins]
  refine .inr ⟨_, _, rfl, ⟨⟨_, hi₃⟩, ?_, ?_, ?_⟩⟩
  · exact hk.trans (inserted_keeps hp₂ rfl rfl)
  · intro id' hid' _
    obtain rfl := StrVal.ref.inj hid'
    exact ⟨id, _, rfl, Function.update_self .., rfl, (stringBytes_ref hp).symm⟩
  · intro hnew
    rw [← stringBytes_ref hp] at hrom hfind
    exact absurd ⟨by rw [getStringPtr_ref hp, hu], hrom, by rw [hfind]⟩ hnew

/-- `JS_MakeUniqueString` keeps the table and answers with a unique string of the same contents. -/
theorem jsMakeUniqueString_spec (numeric : List ℕ → Bool) {e1 e2 : AllocEvent} (hi : AtomInv c tbl)
    (hcov : CoveredAtom c (.makeUnique v e1 e2)) :
    (∃ c', jsMakeUniqueString numeric c v e1 e2 = .exception c' ∧ (∃ tbl', AtomInv c' tbl')
        ∧ Keeps c c')
      ∨ ∃ r c', jsMakeUniqueString numeric c v e1 e2 = .ok r c' ∧ Interns c v r c' := by
  obtain ⟨hlive, hnew⟩ := hcov
  cases v with
  | char d => exact .inr ⟨.char d, c, rfl, ⟨tbl, hi⟩, .refl c, by simp, fun _ => rfl⟩
  | ref id =>
    obtain ⟨p, hp⟩ := hlive
    have hbytes := stringBytes_ref hp
    cases hu : p.isUnique with
    | true =>
      refine .inr ⟨.ref id, c, by simp [jsMakeUniqueString, getStringPtr_ref hp, hu], ⟨tbl, hi⟩,
        .refl c, ?_, fun _ => rfl⟩
      intro i hid _
      exact ⟨id, p, rfl, hp, hu, hbytes.symm⟩
    | false =>
      cases hrom : findRomAtom c.heap p.buf c.romAtomTables with
      | some v1 =>
        refine .inr ⟨v1, c, by simp [jsMakeUniqueString, getStringPtr_ref hp, hu, hrom], ⟨tbl, hi⟩,
          .refl c, ?_, fun _ => rfl⟩
        intro i _ hnone
        rw [hbytes, hrom] at hnone
        cases hnone
      | none =>
        obtain ⟨m, i, hf, hget, him, hb⟩ | ⟨a, hf, ha, hlo, hhi⟩ := hi.findAtom_spec (hi.valid id p hp)
        · refine .inr ⟨.ref i, c, ?_, ⟨tbl, hi⟩, .refl c, ?_, fun _ => rfl⟩
          · simp [jsMakeUniqueString, getStringPtr_ref hp, hu, hrom, hf, hget, entry]
          · intro _ _ _
            obtain ⟨q, hq, hqu⟩ := hi.entries i him
            exact ⟨i, q, rfl, hq, hqu, by rw [hbytes, ← hb, stringBytes_ref hq]⟩
        · obtain ⟨hn, hbelow⟩ := hnew ⟨by rw [getStringPtr_ref hp, hu], by rw [hbytes, hrom],
            by rw [hbytes, hf]⟩
          rw [getStringPtr_ref hp] at hbelow
          exact insert_spec numeric hi hp hu hrom hf ha hlo hhi hn hbelow

/-! ### Runs -/

theorem AtomInv.newString (numeric : List ℕ → Bool) (hi : AtomInv c tbl) (asc : Bool) {buf : List ℕ} (hb : Valid buf) :
    ∃ c', atomStep numeric c (.newString asc buf) = some c' ∧ AtomInv c' tbl ∧ Keeps c c' := by
  refine ⟨_, rfl, ?_⟩
  have hother : ∀ i p, c.heap.strings i = some p →
      Function.update c.heap.strings c.heap.next (some ⟨false, asc, false, buf⟩) i = some p := by
    intro i p hp
    rw [Function.update_of_ne (hi.lt_next hp).ne, hp]
  have hback : ∀ i p, Function.update c.heap.strings c.heap.next (some ⟨false, asc, false, buf⟩) i
      = some p → (i = c.heap.next ∧ p = ⟨false, asc, false, buf⟩) ∨ c.heap.strings i = some p := by
    intro i p hp
    by_cases h : i = c.heap.next
    · rw [h, Function.update_self] at hp
      exact .inl ⟨h, (Option.some.inj hp).symm⟩
    · rw [Function.update_of_ne h] at hp
      exact .inr hp
  have hk : Keeps c { c with
      heap :=
        { c.heap with
          strings := Function.update c.heap.strings c.heap.next (some ⟨false, asc, false, buf⟩)
          next := c.heap.next + 1 } } := by
    refine ⟨rfl, rfl, Nat.le_succ _, ?_⟩
    intro i p hp hlt
    rcases hback i p hp with ⟨h, -⟩ | hp
    · exact absurd h hlt.ne
    · exact ⟨p, hp, rfl, fun h => h⟩
  have hfind := hk.findRomAtom_eq hi fun i p _ hp => ⟨p, hother i p hp⟩
  refine ⟨⟨?_, ?_, ?_, hi.arr_eq, hi.len_eq, ?_, ?_, ?_⟩, hk⟩
  · intro i p hp
    rcases hback i p hp with ⟨-, rfl⟩ | hp
    · exact hb
    · exact hi.valid i p hp
  · intro i hle
    simp only at hle ⊢
    rw [Function.update_of_ne (by omega)]
    exact hi.fresh i (by omega)
  · intro arr ha v hv
    obtain ⟨i, hv', hr, p, hp⟩ := hi.romTables arr ha v hv
    exact ⟨i, hv', hr, p, hother i p hp⟩
  · intro i him
    obtain ⟨p, hp, hu⟩ := hi.entries i him
    exact ⟨p, hother i p hp, hu⟩
  · have hs := hi.sorted
    rw [List.map_congr_left (g := atomKey c.heap)]
    · exact hs
    · intro i him
      obtain ⟨p, hp, -⟩ := hi.entries i him
      rw [atomKey, atomKey, stringBytes_ref hp, stringBytes_ref (hother i p hp)]
  · intro i p hp hu hf
    rw [hfind] at hf
    rcases hback i p hp with ⟨-, rfl⟩ | hp
    · cases hu
    · exact hi.complete i p hp hu hf

/-- One event keeps the invariant and stays inside the arrays. -/
theorem atomStep_spec (numeric : List ℕ → Bool) {e : AtomEvent} (hi : AtomInv c tbl) (hcov : CoveredAtom c e) :
    ∃ c' tbl', atomStep numeric c e = some c' ∧ AtomInv c' tbl' ∧ Keeps c c' := by
  cases e with
  | newString asc buf =>
    obtain ⟨c', h1, h2, h3⟩ := hi.newString numeric asc hcov
    exact ⟨c', tbl, h1, h2, h3⟩
  | gc reach => exact ⟨_, _, rfl, hi.jsGc hcov reach [], jsGc_keeps c reach []⟩
  | makeUnique v e1 e2 =>
    simp only [atomStep]
    obtain ⟨c', h1, ⟨tbl', h2⟩, h3⟩ | ⟨r, c', h1, hint⟩ :=
      jsMakeUniqueString_spec numeric hi hcov
    · rw [h1]
      exact ⟨c', tbl', rfl, h2, h3⟩
    · rw [h1]
      obtain ⟨tbl', h2⟩ := hint.inv
      exact ⟨c', tbl', rfl, h2, hint.keeps⟩

/-- Every event of the run is covered in the state it happens in. -/
def CoveredAtomRun (numeric : List ℕ → Bool) (c : AtomCtx) : List AtomEvent → Prop
  | [] => True
  | e :: es => CoveredAtom c e ∧ ∀ c', atomStep numeric c e = some c' → CoveredAtomRun numeric c' es

theorem atomRun_spec (numeric : List ℕ → Bool) : ∀ (es : List AtomEvent) {c : AtomCtx} {tbl : List ℕ}, AtomInv c tbl →
    CoveredAtomRun numeric c es →
    ∃ c' tbl', atomRun numeric c es = some c' ∧ AtomInv c' tbl' ∧ Keeps c c'
  | [], c, tbl, hi, _ => ⟨c, tbl, rfl, hi, .refl c⟩
  | e :: es, c, tbl, hi, hcov => by
    obtain ⟨c₁, tbl₁, h1, hi₁, hk₁⟩ := atomStep_spec numeric hi hcov.1
    obtain ⟨c₂, tbl₂, h2, hi₂, hk₂⟩ := atomRun_spec numeric es hi₁ (hcov.2 c₁ h1)
    exact ⟨c₂, tbl₂, by rw [atomRun, h1]; exact h2, hi₂, hk₁.trans hk₂⟩

/-- The table is strictly increasing and made of unique strings. -/
structure TableOk (c : AtomCtx) : Prop where
  len_le : c.uniqueStringsLen ≤ c.arr.length
  unique : ∀ e ∈ c.arr.take c.uniqueStringsLen,
    ∃ id p, e = some (.ref id) ∧ c.heap.strings id = some p ∧ p.isUnique = true
  increasing : (c.arr.take c.uniqueStringsLen).Pairwise fun e f =>
    ∃ v w, e = some v ∧ f = some w
      ∧ jsStringCompare (stringBytes c.heap v) (stringBytes c.heap w) = .lt

theorem AtomInv.tableOk (hi : AtomInv c tbl) : TableOk c := by
  obtain ⟨k, harr⟩ := hi.arr_eq
  have htake : c.arr.take c.uniqueStringsLen = tbl.map entry := by
    rw [hi.len_eq, harr]
    exact List.take_left' (by simp)
  refine ⟨?_, ?_, ?_⟩
  · rw [hi.len_eq, harr]
    simp
  · intro e he
    rw [htake] at he
    obtain ⟨id, hid, rfl⟩ := List.mem_map.1 he
    obtain ⟨p, hp, hu⟩ := hi.entries id hid
    exact ⟨id, p, rfl, hp, hu⟩
  · rw [htake, List.pairwise_map]
    have hs := List.pairwise_map.1 hi.sorted
    refine hs.imp_of_mem ?_
    intro i j him hjm hlt
    obtain ⟨p, hp, -⟩ := hi.entries i him
    obtain ⟨q, hq, -⟩ := hi.entries j hjm
    refine ⟨_, _, rfl, rfl, ?_⟩
    rw [atomKey, atomKey, stringBytes_ref hp, stringBytes_ref hq] at hlt
    rw [stringBytes_ref hp, stringBytes_ref hq,
      jsStringCompare_eq_keyCmp (hi.valid i p hp) (hi.valid j q hq), keyCmp_eq_lt]
    exact hlt

/-- Unique strings with the same contents are one. -/
theorem AtomInv.eq_of_unique (hi : AtomInv c tbl) {i j : ℕ} {p q : JSString}
    (hp : c.heap.strings i = some p) (hq : c.heap.strings j = some q) (hpu : p.isUnique = true)
    (hqu : q.isUnique = true) (hb : p.buf = q.buf)
    (hrom : findRomAtom c.heap p.buf c.romAtomTables = none) : i = j := by
  have hi' := hi.complete i p hp hpu hrom
  have hj' := hi.complete j q hq hqu (hb ▸ hrom)
  have hkey : atomKey c.heap i = atomKey c.heap j := by
    rw [atomKey, atomKey, stringBytes_ref hp, stringBytes_ref hq, hb]
  have hnodup : (tbl.map (atomKey c.heap)).Nodup := hi.sorted.imp fun h => h.ne
  exact List.inj_on_of_nodup_map hnodup hi' hj' hkey

/-- A string with the contents of a string of the table is found there. -/
theorem AtomInv.not_isNew (hi : AtomInv c tbl) {i j : ℕ} {p q : JSString} (him : i ∈ tbl)
    (hp : c.heap.strings i = some p) (hq : c.heap.strings j = some q) (hb : q.buf = p.buf) :
    ¬IsNew c (.ref j) := by
  rintro ⟨-, -, hf⟩
  have hkey : atomKey c.heap i = bytesKey q.buf := by rw [atomKey, stringBytes_ref hp, hb]
  rw [stringBytes_ref hq] at hf
  obtain ⟨m, id, hf', -⟩ | ⟨a, hf', -, hlo, hhi⟩ := hi.findAtom_spec (hi.valid j q hq)
  · rw [hf'] at hf
    cases hf
  · rw [← List.take_append_drop a tbl] at him
    rcases List.mem_append.1 him with h | h
    · exact (hkey ▸ hlo i h).false
    · exact (hkey ▸ hhi i h).false

/-- Both are immediate, or both are blocks. -/
def SameForm : StrVal → StrVal → Prop
  | .char _, .char _ => True
  | .ref _, .ref _ => True
  | _, _ => False

/-- The second of two strings with the same contents is interned to what the first was, as long as
that is live. -/
theorem interned_eq_of_keeps {numeric : List ℕ → Bool} {c₁ c₂ c₃ : AtomCtx} {tbl₂ : List ℕ}
    {e1 e2 e1' e2' : AllocEvent} {v w r r' : StrVal} (hi : AtomInv c tbl)
    (hcov : CoveredAtom c (.makeUnique v e1 e2))
    (hrom : findRomAtom c.heap (stringBytes c.heap v) c.romAtomTables = none)
    (hv : jsMakeUniqueString numeric c v e1 e2 = .ok r c₁) (hk₂ : Keeps c₁ c₂)
    (hi₂ : AtomInv c₂ tbl₂) (hlive : Live c₂ r) (hcov' : CoveredAtom c₂ (.makeUnique w e1' e2'))
    (hrom' : findRomAtom c₂.heap (stringBytes c₂.heap w) c₂.romAtomTables = none)
    (hw : jsMakeUniqueString numeric c₂ w e1' e2' = .ok r' c₃)
    (hb : stringBytes c₂.heap w = stringBytes c.heap v) (hform : SameForm v w) : r' = r := by
  obtain ⟨_, h, -⟩ | ⟨_, _, h, hint⟩ := jsMakeUniqueString_spec numeric hi hcov
  · rw [hv] at h
    cases h
  rw [hv] at h
  cases h
  obtain ⟨tbl₁, hi₁⟩ := hint.inv
  obtain ⟨_, h, -⟩ | ⟨_, _, h, hint'⟩ := jsMakeUniqueString_spec numeric hi₂ hcov'
  · rw [hw] at h
    cases h
  rw [hw] at h
  cases h
  cases v with
  | char d =>
    cases w with
    | ref j => exact hform.elim
    | char d' =>
      have hd : d < 0x110000 := hcov.1
      have hd' : d' < 0x110000 := hcov'.1
      have h1 : r = .char d := by injection hv with h1; exact h1.symm
      have h2 : r' = .char d' := by injection hw with h2; exact h2.symm
      simp only [stringBytes, getStringPtr, unicodeToUtf8_eq hd, unicodeToUtf8_eq hd'] at hb
      rw [h1, h2, encode_prefixFree hd' hd (hb ▸ List.prefix_rfl)]
  | ref id =>
    cases w with
    | char d => exact hform.elim
    | ref j =>
      obtain ⟨i, p₁, rfl, hp₁, hu₁, hb₁⟩ := hint.unique id rfl hrom
      obtain ⟨p₂, hp₂⟩ := hlive
      obtain ⟨q, hq, hb₂, hu₂⟩ := hk₂.strings i p₂ hp₂ (hi₁.lt_next hp₁)
      obtain rfl := Option.some.inj (hp₁.symm.trans hq)
      have hcontents : stringBytes c₂.heap (.ref j) = p₂.buf := by rw [hb, ← hb₁, hb₂]
      have him : i ∈ tbl₂ := hi₂.complete i p₂ hp₂ (hu₂ hu₁) (hcontents ▸ hrom')
      obtain ⟨pw, hpw⟩ := hcov'.1
      have hnew := hi₂.not_isNew him hp₂ hpw (by rw [← stringBytes_ref hpw, hcontents])
      obtain ⟨i', p', rfl, hp', hu', hb'⟩ := hint'.unique j rfl hrom'
      rw [hint'.same hnew] at hp'
      rw [hi₂.eq_of_unique hp' hp₂ hu' (hu₂ hu₁) (hb'.trans hcontents) (hb' ▸ hrom')]

theorem interned_eq {numeric : List ℕ → Bool} {c₁ c₂ c₃ : AtomCtx} {e1 e2 e1' e2' : AllocEvent}
    {v w r r' : StrVal} {es : List AtomEvent} (hi : AtomInv c tbl)
    (hcov : CoveredAtom c (.makeUnique v e1 e2))
    (hrom : findRomAtom c.heap (stringBytes c.heap v) c.romAtomTables = none)
    (hv : jsMakeUniqueString numeric c v e1 e2 = .ok r c₁) (hrun : CoveredAtomRun numeric c₁ es)
    (hc₂ : atomRun numeric c₁ es = some c₂) (hlive : Live c₂ r)
    (hcov' : CoveredAtom c₂ (.makeUnique w e1' e2'))
    (hrom' : findRomAtom c₂.heap (stringBytes c₂.heap w) c₂.romAtomTables = none)
    (hw : jsMakeUniqueString numeric c₂ w e1' e2' = .ok r' c₃)
    (hb : stringBytes c₂.heap w = stringBytes c.heap v) (hform : SameForm v w) : r' = r := by
  obtain ⟨_, h, -⟩ | ⟨_, _, h, hint⟩ := jsMakeUniqueString_spec numeric hi hcov
  · rw [hv] at h
    cases h
  rw [hv] at h
  cases h
  obtain ⟨tbl₁, hi₁⟩ := hint.inv
  obtain ⟨_, tbl₂, h, hi₂, hk₂⟩ := atomRun_spec numeric es hi₁ hrun
  rw [hc₂] at h
  cases h
  exact interned_eq_of_keeps hi hcov hrom hv hk₂ hi₂ hlive hcov' hrom' hw hb hform

/-- In every covered run from a well-formed context the code stays inside its arrays, the table is
strictly increasing and unique, and strings with the same contents that no ROM table answers for
are interned to one value. -/
theorem atomTable_of_coveredRun (numeric : List ℕ → Bool) (c₀ : AtomCtx)
    (hwf : ∃ tbl, AtomInv c₀ tbl) (es : List AtomEvent) (hcov : CoveredAtomRun numeric c₀ es) :
    ∃ c, atomRun numeric c₀ es = some c ∧ TableOk c
      ∧ ∀ v e1 e2 r c₁ es' c₂ w e1' e2' r' c₃, CoveredAtom c (.makeUnique v e1 e2) →
        findRomAtom c.heap (stringBytes c.heap v) c.romAtomTables = none →
        jsMakeUniqueString numeric c v e1 e2 = .ok r c₁ → CoveredAtomRun numeric c₁ es' →
        atomRun numeric c₁ es' = some c₂ → Live c₂ r → CoveredAtom c₂ (.makeUnique w e1' e2') →
        findRomAtom c₂.heap (stringBytes c₂.heap w) c₂.romAtomTables = none →
        jsMakeUniqueString numeric c₂ w e1' e2' = .ok r' c₃ →
        stringBytes c₂.heap w = stringBytes c.heap v → SameForm v w → r' = r := by
  obtain ⟨tbl₀, hi₀⟩ := hwf
  obtain ⟨c, tbl, hc, hi, -⟩ := atomRun_spec numeric es hi₀ hcov
  refine ⟨c, hc, hi.tableOk, ?_⟩
  intro v e1 e2 r c₁ es' c₂ w e1' e2' r' c₃ h1 h2 h3 h4 h5 h6 h7 h8 h9 h10 h11
  exact interned_eq hi h1 h2 h3 h4 h5 h6 h7 h8 h9 h10 h11

/-! ### A new context -/

/-- A context whose ROM has the empty string only. -/
def AtomCtx.new : AtomCtx :=
  ⟨.init, fun id => id = 0, [some [.ref 0]], none, 0⟩

/-- Memory without a collection. -/
def AllocEvent.quiet : AllocEvent := ⟨[], true⟩

theorem AtomCtx.new_inv : AtomInv .new [] := by
  have hone : ∀ id p, AtomCtx.new.heap.strings id = some p → id = 0 ∧ p = emptyString := by
    intro id p hp
    simp only [AtomCtx.new, StrHeap.init] at hp
    split_ifs at hp with h
    exact ⟨h, (Option.some.inj hp).symm⟩
  refine ⟨?_, ?_, ?_, ⟨0, rfl⟩, rfl, by simp, by simp, ?_⟩
  · intro id p hp
    rw [(hone id p hp).2]
    exact ⟨[], .nil, rfl⟩
  · intro id hid
    have hne : id ≠ 0 := by
      change 1 ≤ id at hid
      omega
    exact ⟨if_neg hne, by simp [AtomCtx.new, hne]⟩
  · intro arr ha v hv
    simp only [AtomCtx.new, List.mem_singleton, Option.some.injEq] at ha
    subst ha
    exact ⟨0, List.mem_singleton.1 hv, rfl, emptyString, rfl⟩
  · intro id p hp _ hf
    have hfound : findRomAtom AtomCtx.new.heap [] AtomCtx.new.romAtomTables = some (.ref 0) := by
      decide
    rw [(hone id p hp).2] at hf
    cases hfound.symm.trans hf

/-- `"1a"` and `"za"` are interned, then `"1a"` is dropped while `"2b"` is tested for a number. -/
def staleIndexRun : List AtomEvent :=
  [.newString true [0x31, 0x61], .makeUnique (.ref 1) .quiet .quiet,
    .newString true [0x7a, 0x61], .makeUnique (.ref 2) .quiet .quiet,
    .newString true [0x32, 0x62], .makeUnique (.ref 3) ⟨[fun id => id == 2], true⟩ .quiet]

theorem staleIndexRun_unsorted :
    ∃ c, atomRun (fun _ => false) .new staleIndexRun = some c
      ∧ c.arr.take c.uniqueStringsLen = [some (.ref 2), some (.ref 3)]
      ∧ jsStringCompare (stringBytes c.heap (.ref 2)) (stringBytes c.heap (.ref 3)) = .gt
      ∧ ¬TableOk c := by
  obtain ⟨c, hc⟩ : ∃ c, atomRun (fun _ => false) .new staleIndexRun = some c :=
    Option.isSome_iff_exists.1 (by decide +kernel)
  have harr : (atomRun (fun _ => false) .new staleIndexRun).map (fun c => c.arr.take c.uniqueStringsLen)
      = some [some (.ref 2), some (.ref 3)] := by decide +kernel
  have hcmp : (atomRun (fun _ => false) .new staleIndexRun).map
      (fun c => jsStringCompare (stringBytes c.heap (.ref 2)) (stringBytes c.heap (.ref 3)))
      = some .gt := by decide +kernel
  rw [hc, Option.map_some, Option.some.injEq] at harr hcmp
  refine ⟨c, hc, harr, hcmp, ?_⟩
  intro hok
  have hinc := hok.increasing
  rw [harr] at hinc
  obtain ⟨v, w, hv, hw, hlt⟩ := (List.pairwise_cons.1 hinc).1 _ List.mem_cons_self
  rw [← Option.some.inj hv, ← Option.some.inj hw, hcmp] at hlt
  cases hlt

/-- `"1a"` alone is interned. -/
def oneStringRun : List AtomEvent :=
  [.newString true [0x31, 0x61], .makeUnique (.ref 1) .quiet .quiet]

theorem oneStringRun_covered : CoveredAtomRun (fun _ => false) .new oneStringRun := by
  refine ⟨⟨[0x31, 0x61], ⟨by simp, by simp [IsLead]⟩, rfl⟩, ?_⟩
  intro c' hc'
  obtain rfl := Option.some.inj hc'
  refine ⟨⟨⟨⟨false, true, false, [0x31, 0x61]⟩, rfl⟩, ?_⟩, fun _ _ => trivial⟩
  intro _
  exact ⟨by simp [AllocEvent.quiet], fun _ id _ _ reach hr => by cases hr⟩

theorem atomTable_of_coveredRun_one :
    ∃ c, atomRun (fun _ => false) .new oneStringRun = some c ∧ TableOk c ∧ c.uniqueStringsLen = 1 := by
  obtain ⟨c, hc, hok, -⟩ := atomTable_of_coveredRun (fun _ => false) .new ⟨[], AtomCtx.new_inv⟩
    oneStringRun oneStringRun_covered
  have hlen : (atomRun (fun _ => false) .new oneStringRun).map (·.uniqueStringsLen) = some 1 := by
    decide +kernel
  rw [hc, Option.map_some, Option.some.injEq] at hlen
  exact ⟨c, hc, hok, hlen⟩

end Qjs
