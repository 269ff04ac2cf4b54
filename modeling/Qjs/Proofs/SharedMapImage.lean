import Qjs.Proofs.SharedMap

/-!
# The image of a shared map

What `aether_shared_map_to_shm` writes is read back as it was just when no key is empty, no value is
NULL, the entries fit the buffer and the header does not look negative (`image_iff`). The writer
stops at the first entry behind 65000 bytes (`shmEntries_some`); the reader stops at the first empty
key (`outputs_flat`).
-/

namespace Qjs

namespace SharedMap

/-- The bytes of an entry, with a zero behind the key and the value. -/
def entryBytes (e : MapEntry) : Str := e.key ++ [0] ++ (e.value.getD [] ++ [0])

def flat (es : List MapEntry) : Str := es.flatMap entryBytes

def header (n : ℕ) : Str := (List.range 4).map fun i => UInt8.ofNat (n >>> (8 * i))

def pair (e : MapEntry) : Str × Str := (e.key, e.value.getD [])

/-- All pairs of an object of shared memory: with a header of 0 each is an output. -/
def imagePairs (data : Str) : Option (List (Str × Str)) :=
  outputs 0 data.length data.length 0 4 ((mapped data).drop 4)

/-- The image is in the buffer, the header and the entries are read back as they were, and so are
the outputs, into any map. -/
def ReadsBack (signed : Bool) (map : Map) : Prop :=
  ∃ bytes, toShm map = some bytes ∧ frozenHeader signed bytes = map.frozenCount
    ∧ (∃ ps, imagePairs bytes = some ps
      ∧ map.entries = ps.map fun p => ⟨p.1, some p.2⟩)
    ∧ ∀ m : Map, readOutputsFromShm signed m bytes
      = some ((map.entries.drop map.frozenCount).foldl (fun m e => put m e.key e.value) m)

/-- No key is empty and no value is NULL; all entries but the last end before 65000 bytes, and the
last one leaves room for the zero at the end; with signed characters, the lowest byte of the count
is below 128. -/
structure ImageFits (signed : Bool) (map : Map) : Prop where
  key : ∀ e ∈ map.entries, e.key ≠ []
  value : ∀ e ∈ map.entries, e.value ≠ none
  check : 4 + (flat map.entries.dropLast).length < 65000
  room : 4 + (flat map.entries).length < 65536
  count : signed = true → map.frozenCount < 128 ∨ map.frozenCount = 256

/-- Keys and values are C strings. -/
def NoNul (es : List MapEntry) : Prop := ∀ e ∈ es, 0 ∉ e.key ∧ 0 ∉ e.value.getD []

@[simp] theorem flat_cons (e : MapEntry) (es : List MapEntry) :
    flat (e :: es) = entryBytes e ++ flat es := rfl

theorem length_entryBytes (e : MapEntry) :
    (entryBytes e).length = e.key.length + 1 + ((e.value.getD []).length + 1) := by
  simp only [entryBytes, List.length_append, List.length_singleton]

/-! ### What is written -/

/-- The entries are written up to one that starts behind 65000 bytes. -/
theorem shmEntries_some : ∀ {es : List MapEntry} {buf buf' : Str}, shmEntries es buf = some buf' →
    ∃ n, buf' = buf ++ flat (es.take n)
  | [], buf, buf', h => by
    cases h
    exact ⟨0, (List.append_nil _).symm⟩
  | e :: es, buf, buf', h => by
    rw [shmEntries] at h
    by_cases hroom : buf.length < 65000
    · rw [if_pos hroom] at h
      dsimp only at h
      split_ifs at h
      obtain ⟨n, hn⟩ := shmEntries_some h
      refine ⟨n + 1, ?_⟩
      rw [hn, List.take_succ_cons, flat_cons, entryBytes]
      simp only [List.append_assoc]
    · rw [if_neg hroom] at h
      cases h
      exact ⟨0, (List.append_nil _).symm⟩

/-- All entries are written just when every one but the last ends before 65000 bytes and the last
one ends in the buffer. -/
theorem shmEntries_all : ∀ {es : List MapEntry} {buf : Str}, es ≠ [] →
    (shmEntries es buf = some (buf ++ flat es)
      ↔ buf.length + (flat es.dropLast).length < 65000 ∧ buf.length + (flat es).length ≤ 65536)
  | [], _, h => absurd rfl h
  | e :: es, buf, _ => by
    have hlen := length_entryBytes e
    have happend : buf ++ e.key ++ [0] ++ (e.value.getD [] ++ [0]) = buf ++ entryBytes e := by
      simp only [entryBytes, List.append_assoc]
    rw [shmEntries, happend, flat_cons, ← List.append_assoc]
    dsimp only
    by_cases hroom : buf.length < 65000
    · rw [if_pos hroom]
      rcases es with _ | ⟨f, es⟩
      · simp only [shmEntries, List.length_append, flat, List.flatMap_nil, List.append_nil,
          List.dropLast_singleton, List.length_nil]
        split_ifs with hfit
        · exact iff_of_true rfl ⟨by omega, hfit⟩
        · exact iff_of_false (by simp) fun h => hfit h.2
      · have ih := @shmEntries_all (f :: es) (buf ++ entryBytes e) (by simp)
        rw [List.length_append] at ih ⊢
        have hlast : flat (e :: f :: es).dropLast = entryBytes e ++ flat (f :: es).dropLast := rfl
        rw [hlast, List.length_append, List.length_append]
        split_ifs with hfit
        · rw [ih]
          omega
        · refine iff_of_false (by simp) ?_
          omega
    · rw [if_neg hroom]
      refine iff_of_false ?_ ?_
      · intro h
        have hbuf := congrArg List.length (Option.some.inj h)
        simp only [List.length_append] at hbuf
        omega
      · omega

/-! ### What is read -/

theorem cString_append {s t : Str} (h : 0 ∉ s) : cString (s ++ 0 :: t) = some s := by
  rw [cString, if_pos (by simp)]
  congr 1
  rw [List.takeWhile_append_of_pos]
  · simp
  · intro c hc
    simpa using fun h0 : c = 0 => h (h0 ▸ hc)

theorem drop_length_succ (s : Str) (c : UInt8) (t : Str) :
    (s ++ c :: t).drop (s.length + 1) = t := by
  rw [List.drop_append]
  simp

/-- The pairs up to the first empty key, without those that the header takes for inputs. -/
theorem outputs_flat {frozen : ℤ} {size : ℕ} {tail : Str} : ∀ {es : List MapEntry} {fuel i pos : ℕ},
    NoNul es → es.length < fuel → pos + (flat es).length + 1 = size →
    outputs frozen size fuel i pos (flat es ++ 0 :: tail)
      = some (((es.takeWhile (·.key ≠ [])).map pair).drop (frozen - i).toNat)
  | [], fuel + 1, i, pos, _, _, _ => by
    rw [outputs, if_neg (by simp [flat])]
    simp
  | e :: es, fuel + 1, i, pos, hnul, hfuel, hsize => by
    obtain ⟨hkey, hval⟩ := hnul e List.mem_cons_self
    have hnul' : NoNul es := fun f hf => hnul f (List.mem_cons_of_mem e hf)
    have hbytes : flat (e :: es) ++ 0 :: tail
        = e.key ++ 0 :: (e.value.getD [] ++ 0 :: (flat es ++ 0 :: tail)) := by
      simp [entryBytes]
    have hlen := length_entryBytes e
    rw [flat_cons, List.length_append] at hsize
    rw [hbytes, outputs]
    by_cases hempty : e.key = []
    · rw [if_neg (by simp [hempty])]
      simp [hempty]
    · have hhead :
          (e.key ++ 0 :: (e.value.getD [] ++ 0 :: (flat es ++ 0 :: tail))).headD 0 ≠ 0 := by
        obtain ⟨c, k, hck⟩ := List.exists_cons_of_ne_nil hempty
        rw [hck, List.cons_append, List.headD_cons]
        exact fun h0 => hkey (by rw [hck, h0]; exact List.mem_cons_self)
      rw [if_pos ⟨by omega, hhead⟩, cString_append hkey]
      simp only [Option.bind_eq_bind, Option.bind_some, drop_length_succ]
      rw [cString_append hval]
      simp only [Option.bind_some, drop_length_succ]
      rw [@outputs_flat _ _ _ es fuel (i + 1) _ hnul' (by simpa using hfuel) (by omega)]
      simp only [Option.bind_some, Option.some.injEq]
      rw [List.takeWhile_cons_of_pos (by simpa using hempty), List.map_cons]
      split_ifs with hf
      · rw [show (frozen - (i : ℤ)).toNat = 0 by omega,
          show (frozen - ((i + 1 : ℕ) : ℤ)).toNat = 0 by omega]
        rfl
      · rw [show (frozen - (i : ℤ)).toNat = (frozen - ((i + 1 : ℕ) : ℤ)).toNat + 1 by omega]
        rfl

theorem length_header (n : ℕ) : (header n).length = 4 := rfl

theorem frozenHeader_append (signed : Bool) (n : ℕ) (s : Str) :
    frozenHeader signed (header n ++ s) = frozenHeader signed (header n) := rfl

/-- A count whose lowest byte is 128 or more is read as a negative number. -/
theorem frozenHeader_iff : ∀ (signed : Bool) (n : Fin 257),
    frozenHeader signed (header n) = (n : ℕ) ↔
      (signed = true → (n : ℕ) < 128 ∨ (n : ℕ) = 256) := by
  decide +kernel

theorem length_le_flat : ∀ es : List MapEntry, es.length ≤ (flat es).length
  | [] => le_rfl
  | e :: es => by
    have ih := length_le_flat es
    have hlen := length_entryBytes e
    rw [flat_cons, List.length_append, List.length_cons]
    omega

theorem outputs_image {frozen : ℤ} {n : ℕ} {es : List MapEntry} (h : NoNul es) :
    outputs frozen (header n ++ flat es ++ [0]).length (header n ++ flat es ++ [0]).length 0 4
        ((mapped (header n ++ flat es ++ [0])).drop 4)
      = some (((es.takeWhile (·.key ≠ [])).map pair).drop frozen.toNat) := by
  have hdrop : ∀ t : Str, (header n ++ flat es ++ [0] ++ t).drop 4 = flat es ++ 0 :: t := by
    intro t
    rw [List.append_assoc, List.append_assoc, List.drop_left' (length_header n)]
    simp
  have hes := length_le_flat es
  rw [mapped, hdrop, outputs_flat h]
  · simp
  · simp only [List.length_append, length_header, List.length_singleton]
    omega
  · simp only [List.length_append, length_header, List.length_singleton]

theorem putAll_pairs (m : Map) : ∀ {es : List MapEntry}, (∀ e ∈ es, e.value ≠ none) →
    putAll m (es.map pair) = es.foldl (fun m e => put m e.key e.value) m := by
  intro es
  induction es generalizing m with
  | nil => exact fun _ => rfl
  | cons e es ih =>
    intro h
    obtain ⟨v, hv⟩ := Option.ne_none_iff_exists'.1 (h e List.mem_cons_self)
    have htail := ih (put m e.key e.value) fun f hf => h f (List.mem_cons_of_mem e hf)
    rw [List.foldl_cons, ← htail]
    simp only [putAll, List.map_cons, List.foldl_cons, pair, hv, Option.getD_some]

theorem toShm_eq (map : Map) :
    toShm map = (shmEntries map.entries (header map.frozenCount)).bind fun buf =>
      if buf.length < 65536 then some (buf ++ [0]) else none := rfl

/-- What comes back of an image: the pairs of the entries that were written, up to the first empty
key. -/
theorem imagePairs_some {map : Map} {bytes : Str} (hnul : NoNul map.entries)
    (h : toShm map = some bytes) :
    ∃ n, bytes = header map.frozenCount ++ flat (map.entries.take n) ++ [0]
      ∧ imagePairs bytes = some (((map.entries.take n).takeWhile (·.key ≠ [])).map pair) := by
  rw [toShm_eq, Option.bind_eq_some_iff] at h
  obtain ⟨buf, hbuf, h⟩ := h
  split_ifs at h
  obtain ⟨n, rfl⟩ := shmEntries_some hbuf
  cases h
  refine ⟨n, rfl, ?_⟩
  rw [imagePairs, outputs_image fun e he => hnul e (List.mem_of_mem_take he)]
  rfl

theorem toShm_all {map : Map} (hcheck : 4 + (flat map.entries.dropLast).length < 65000)
    (hroom : 4 + (flat map.entries).length < 65536) :
    toShm map = some (header map.frozenCount ++ flat map.entries ++ [0]) := by
  have hbuf : shmEntries map.entries (header map.frozenCount)
      = some (header map.frozenCount ++ flat map.entries) := by
    by_cases hnil : map.entries = []
    · rw [hnil]
      rfl
    · exact (shmEntries_all hnil).2 ⟨hcheck, hroom.le⟩
  rw [toShm_eq, hbuf, Option.bind_some, List.length_append, length_header, if_pos hroom]

theorem readsBack_of_fits {signed : Bool} {map : Map} (hnul : NoNul map.entries)
    (h : ImageFits signed map) : ReadsBack signed map := by
  have hall : map.entries.takeWhile (·.key ≠ []) = map.entries :=
    List.takeWhile_eq_self_iff.2 fun e he => by simpa using h.key e he
  have hcount := map.frozenCount_le.trans map.length_le
  have hheader : frozenHeader signed (header map.frozenCount) = map.frozenCount :=
    (frozenHeader_iff signed ⟨map.frozenCount, by rw [maxEntries] at hcount; omega⟩).2 h.count
  refine ⟨_, toShm_all h.check h.room, ?_, ⟨map.entries.map pair, ?_, ?_⟩, ?_⟩
  · rw [List.append_assoc, frozenHeader_append, hheader]
  · rw [imagePairs, outputs_image hnul, hall]
    rfl
  · rw [List.map_map]
    refine (List.map_id _).symm.trans (List.map_congr_left fun e he => ?_)
    obtain ⟨v, hv⟩ := Option.ne_none_iff_exists'.1 (h.value e he)
    obtain ⟨k, _⟩ := e
    cases hv
    rfl
  · intro m
    rw [readOutputs_eq, imageOutputs, if_neg, outputs_image hnul, hall, List.append_assoc,
      frozenHeader_append, hheader, Int.toNat_natCast, Option.map_some, ← List.map_drop,
      putAll_pairs m fun e he => h.value e (List.mem_of_mem_drop he)]
    simp only [List.length_append, length_header, List.length_singleton]
    omega

theorem fits_of_readsBack {signed : Bool} {map : Map} (hnul : NoNul map.entries)
    (h : ReadsBack signed map) : ImageFits signed map := by
  obtain ⟨bytes, hshm, hheader, ⟨ps, hps, hentries⟩, -⟩ := h
  obtain ⟨n, hbytes, hps'⟩ := imagePairs_some hnul hshm
  obtain rfl := Option.some.inj (hps.symm.trans hps')
  -- nothing is lost, so all was written and no key is empty
  have hwhile := (List.takeWhile_prefix (fun e : MapEntry => decide (e.key ≠ []))
    (l := map.entries.take n)).length_le
  have hlen := congrArg List.length hentries
  simp only [List.length_map] at hlen
  have htake : map.entries.take n = map.entries := by
    rw [List.take_of_length_le]
    have := List.length_take_le n map.entries
    omega
  rw [htake] at hbytes hentries hwhile hlen
  have hall : map.entries.takeWhile (·.key ≠ []) = map.entries :=
    (List.takeWhile_prefix _).eq_of_length hlen.symm
  have hkey := List.takeWhile_eq_self_iff.1 hall
  rw [toShm_eq, Option.bind_eq_some_iff] at hshm
  obtain ⟨buf, hbuf, hshm⟩ := hshm
  split_ifs at hshm with hroom
  rw [hbytes, Option.some.injEq, List.append_left_inj] at hshm
  subst hshm
  rw [List.length_append, length_header] at hroom
  have hcount := map.frozenCount_le.trans map.length_le
  refine ⟨fun e he => by simpa using hkey e he, ?_, ?_, hroom, ?_⟩
  · intro e he
    rw [hentries] at he
    obtain ⟨p, -, rfl⟩ := List.mem_map.1 he
    exact Option.some_ne_none _
  · by_cases hnil : map.entries = []
    · rw [hnil]
      decide
    · exact ((shmEntries_all hnil).1 hbuf).1
  · rw [hbytes, List.append_assoc, frozenHeader_append] at hheader
    exact (frozenHeader_iff signed ⟨map.frozenCount, by rw [maxEntries] at hcount; omega⟩).1 hheader

/-- The entries and the count are read back as they were just when no key is empty, no value is
NULL, the entries fit and the count has its sign bits clear. -/
theorem image_iff (signed : Bool) (map : Map) (hnul : NoNul map.entries) :
    ReadsBack signed map ↔ ImageFits signed map :=
  ⟨fits_of_readsBack hnul, readsBack_of_fits hnul⟩

/-- A map with one entry, which is an input. -/
def oneEntry (key value : Str) : Map where
  entries := [⟨key, some value⟩]
  frozenCount := 1
  token := 1
  tokenValid := true
  nodup := List.nodup_singleton _
  frozenCount_le := le_rfl
  length_le := by
    rw [List.length_singleton, maxEntries]
    omega

theorem image_iff_oneEntry : ReadsBack true (oneEntry [0x6b] [0x31])
    ↔ ImageFits true (oneEntry [0x6b] [0x31]) :=
  image_iff true (oneEntry [0x6b] [0x31]) (by unfold NoNul oneEntry; decide)

/-- An entry with an empty key is not read back. -/
theorem emptyKey_lost :
    NoNul (oneEntry [] [0x31]).entries ∧ ¬ ReadsBack true (oneEntry [] [0x31]) := by
  have hnul : NoNul (oneEntry [] [0x31]).entries := by unfold NoNul oneEntry; decide
  exact ⟨hnul, fun h => (fits_of_readsBack hnul h).key _ List.mem_cons_self rfl⟩

end SharedMap

end Qjs
