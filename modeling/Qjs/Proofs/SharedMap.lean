import Qjs.SharedMap

/-!
# Inputs of a shared map

A put by token leaves the inputs as they are, but the outputs that are read back from shared memory are
put without that check: an input keeps its value just when the last output with its key has that value
(`put_outputs`). Along a run this is the whole condition (`inputs_kept_iff`). A revoked token opens
nothing any more, unless another map has the same one (`revoked_iff`).
-/

namespace Qjs

namespace SharedMap

/-! ### Puts -/

/-- An entry with this key gets the value. -/
def update (key : Str) (value : Option Str) (e : MapEntry) : MapEntry :=
  if e.key = key then ⟨e.key, value⟩ else e

theorem map_update_of_notMem {key : Str} (value : Option Str) {es : List MapEntry}
    (h : key ∉ es.map MapEntry.key) : es.map (update key value) = es := by
  refine (List.map_congr_left fun e he => ?_).trans (List.map_id es)
  rw [update, if_neg]
  · rfl
  · rintro rfl
    exact h (List.mem_map_of_mem he)

theorem setFirst_eq_map {key : Str} {value : Option Str} : ∀ {es es' : List MapEntry},
    (es.map MapEntry.key).Nodup → setFirst key value es = some es' → es' = es.map (update key value)
  | [], _, _, h => by cases h
  | e :: es, es', hnd, h => by
    rw [List.map_cons, List.nodup_cons] at hnd
    rw [setFirst] at h
    rw [List.map_cons, update]
    split_ifs at h with hk
    · cases h
      rw [if_pos hk, map_update_of_notMem]
      rw [← hk]
      exact hnd.1
    · obtain ⟨fs, hfs, rfl⟩ := Option.map_eq_some_iff.1 h
      rw [if_neg hk, setFirst_eq_map hnd.2 hfs]

/-- What a put does to the entries that are there. -/
theorem put_take (map : Map) (key : Str) (value : Option Str) {n : ℕ}
    (hn : n ≤ map.entries.length) :
    (put map key value).entries.take n = (map.entries.take n).map (update key value) := by
  unfold put
  split
  · rename_i entries h
    dsimp only
    rw [setFirst_eq_map map.nodup h, List.map_take]
  · rename_i h
    have hkey : key ∉ (map.entries.take n).map MapEntry.key := by
      rw [List.map_take]
      exact fun hmem => setFirst_none h (List.mem_of_mem_take hmem)
    rw [map_update_of_notMem value hkey]
    split_ifs
    · rfl
    · dsimp only
      rw [List.take_append_of_le_length hn]

theorem put_length_le (map : Map) (key : Str) (value : Option Str) :
    map.entries.length ≤ (put map key value).entries.length := by
  unfold put
  split
  · rename_i entries h
    dsimp only
    rw [setFirst_length h]
  · split_ifs
    · exact le_rfl
    · simp

@[simp] theorem put_frozenCount (map : Map) (key : Str) (value : Option Str) :
    (put map key value).frozenCount = map.frozenCount := by
  unfold put
  split
  · rfl
  · split_ifs <;> rfl

@[simp] theorem put_token (map : Map) (key : Str) (value : Option Str) :
    (put map key value).token = map.token ∧ (put map key value).tokenValid = map.tokenValid := by
  unfold put
  split
  · exact ⟨rfl, rfl⟩
  · split_ifs <;> exact ⟨rfl, rfl⟩

/-! ### Outputs -/

/-- The outputs that the loop puts. -/
def outputs (frozen : ℤ) (size : ℕ) : ℕ → ℕ → ℕ → Str → Option (List (Str × Str))
  | 0, _, _, _ => none
  | fuel + 1, entryIdx, pos, data =>
    if pos < size - 1 ∧ data.headD 0 ≠ 0 then do
      let k ← cString data
      let data := data.drop (k.length + 1)
      let v ← cString data
      let rest ← outputs frozen size fuel (entryIdx + 1) (pos + (k.length + 1) + (v.length + 1))
        (data.drop (v.length + 1))
      some (if frozen ≤ entryIdx then (k, v) :: rest else rest)
    else some []

/-- The outputs of an object of shared memory: the pairs from the one that its header names on. -/
def imageOutputs (signed : Bool) (data : Str) : Option (List (Str × Str)) :=
  if data.length ≤ 4 then some []
  else outputs (frozenHeader signed data) data.length data.length 0 4 ((mapped data).drop 4)

def putAll (map : Map) (outs : List (Str × Str)) : Map :=
  outs.foldl (fun map p => put map p.1 (some p.2)) map

theorem readLoop_eq (frozen : ℤ) (size : ℕ) : ∀ (fuel : ℕ) (map : Map) (entryIdx pos : ℕ)
    (data : Str), readLoop frozen size fuel map entryIdx pos data
      = (outputs frozen size fuel entryIdx pos data).map (putAll map)
  | 0, _, _, _, _ => rfl
  | fuel + 1, map, entryIdx, pos, data => by
    rw [readLoop, outputs]
    by_cases h : pos < size - 1 ∧ data.headD 0 ≠ 0
    · rw [if_pos h, if_pos h]
      cases hk : cString data with
      | none => rfl
      | some k =>
        simp only [Option.bind_eq_bind, Option.bind_some]
        cases hv : cString (data.drop (k.length + 1)) with
        | none => rfl
        | some v =>
          simp only [Option.bind_some]
          rw [readLoop_eq frozen size fuel]
          generalize outputs frozen size fuel (entryIdx + 1)
            (pos + (k.length + 1) + (v.length + 1))
            ((data.drop (k.length + 1)).drop (v.length + 1)) = o
          cases o with
          | none => rfl
          | some rest =>
            by_cases hf : frozen ≤ entryIdx
            · simp [hf, putAll]
            · simp [hf]
    · rw [if_neg h, if_neg h]
      rfl

theorem readOutputs_eq (signed : Bool) (map : Map) (data : Str) :
    readOutputsFromShm signed map data = (imageOutputs signed data).map (putAll map) := by
  unfold readOutputsFromShm imageOutputs
  split_ifs
  · rfl
  · exact readLoop_eq _ _ _ _ _ _ _

/-- The value of the last output with this key. -/
def lastOutput (key : Str) (outs : List (Str × Str)) : Option Str :=
  ((outs.filter (·.1 = key)).getLast?).map Prod.snd

theorem lastOutput_concat (key : Str) (outs : List (Str × Str)) (p : Str × Str) :
    lastOutput key (outs ++ [p]) = if p.1 = key then some p.2 else lastOutput key outs := by
  unfold lastOutput
  rw [List.filter_append, List.filter_singleton]
  by_cases h : p.1 = key <;> simp [h]

/-- An input after the outputs have been put. -/
def overwritten (outs : List (Str × Str)) (e : MapEntry) : MapEntry :=
  match lastOutput e.key outs with
  | some v => ⟨e.key, some v⟩
  | none => e

theorem putAll_concat (map : Map) (outs : List (Str × Str)) (p : Str × Str) :
    putAll map (outs ++ [p]) = put (putAll map outs) p.1 (some p.2) := by
  simp [putAll, List.foldl_append]

theorem putAll_length_le (map : Map) (outs : List (Str × Str)) :
    map.entries.length ≤ (putAll map outs).entries.length := by
  induction outs using List.reverseRecOn with
  | nil => exact le_rfl
  | append_singleton outs p ih =>
    rw [putAll_concat]
    exact ih.trans (put_length_le _ _ _)

theorem putAll_fields (map : Map) (outs : List (Str × Str)) :
    (putAll map outs).frozenCount = map.frozenCount ∧ (putAll map outs).token = map.token
      ∧ (putAll map outs).tokenValid = map.tokenValid := by
  induction outs using List.reverseRecOn with
  | nil => exact ⟨rfl, rfl, rfl⟩
  | append_singleton outs p ih =>
    obtain ⟨h1, h2⟩ := put_token (putAll map outs) p.1 (some p.2)
    rw [putAll_concat, put_frozenCount, h1, h2]
    exact ih

theorem update_overwritten (outs : List (Str × Str)) (p : Str × Str) (e : MapEntry) :
    update p.1 (some p.2) (overwritten outs e) = overwritten (outs ++ [p]) e := by
  have hkey : (overwritten outs e).key = e.key := by
    unfold overwritten
    split <;> rfl
  unfold update
  rw [hkey]
  unfold overwritten
  rw [lastOutput_concat]
  by_cases h : e.key = p.1
  · rw [if_pos h, if_pos h.symm]
  · rw [if_neg h, if_neg (Ne.symm h)]

/-- The outputs overwrite the entries that have their keys. -/
theorem put_outputs (map : Map) (outs : List (Str × Str)) {n : ℕ} (hn : n ≤ map.entries.length) :
    (putAll map outs).entries.take n = (map.entries.take n).map (overwritten outs) := by
  induction outs using List.reverseRecOn with
  | nil => exact (List.map_id' _).symm
  | append_singleton outs p ih =>
    rw [putAll_concat, put_take _ _ _ (hn.trans (putAll_length_le map outs)), ih, List.map_map]
    exact List.map_congr_left fun e _ => update_overwritten outs p e

/-! ### Inputs along a run -/

/-- The last output of the image with an input's key, if there is one, has the input's value. -/
def ImageKeeps (signed : Bool) (inputs : List MapEntry) (data : Str) : Prop :=
  ∀ outs, imageOutputs signed data = some outs →
    ∀ e ∈ inputs, ∀ v, lastOutput e.key outs = some v → e.value = some v

/-- The operation does not put outputs into the map that overwrite inputs. -/
def Harmless (signed : Bool) (inputs : List MapEntry) (a : ℕ) (s : State) : Op → Prop
  | .readOutputs b data => b = a → ImageKeeps signed inputs data
  | .readOutputsByToken token data => findByToken s token = some a → ImageKeeps signed inputs data
  | _ => True

theorem map_overwritten_iff {inputs : List MapEntry} {outs : List (Str × Str)} :
    inputs.map (overwritten outs) = inputs
      ↔ ∀ e ∈ inputs, ∀ v, lastOutput e.key outs = some v → e.value = some v := by
  have hone : ∀ e : MapEntry, overwritten outs e = e
      ↔ ∀ v, lastOutput e.key outs = some v → e.value = some v := by
    rintro ⟨key, value⟩
    unfold overwritten
    dsimp only
    cases lastOutput key outs with
    | none => simp
    | some v =>
      simp only [MapEntry.mk.injEq, true_and, Option.some.injEq, forall_eq']
      exact eq_comm
  nth_rewrite 2 [← List.map_id inputs]
  rw [List.map_inj_left]
  exact forall₂_congr fun e _ => hone e

/-- The entries of the freeze are in place, and are inputs. -/
structure Kept (inputs : List MapEntry) (map : Map) : Prop where
  take : map.entries.take inputs.length = inputs
  le : inputs.length ≤ map.frozenCount

section Run

variable {signed : Bool} {inputs : List MapEntry} {a : ℕ}

@[simp] theorem setMap_maps (s : State) (b : ℕ) (map : Map) (a : ℕ) :
    (s.setMap b map).maps a = if a = b then map else s.maps a := by
  simp [State.setMap, Function.update_apply]

@[simp] theorem setMap_active (s : State) (b : ℕ) (map : Map) :
    (s.setMap b map).active = s.active := rfl

/-- The outputs of an image keep the inputs just when the image does. -/
theorem kept_readOutputs {map map' : Map} {data : Str} (h : Kept inputs map)
    (hr : readOutputsFromShm signed map data = some map') :
    map'.entries.take inputs.length = inputs ↔ ImageKeeps signed inputs data := by
  rw [readOutputs_eq, Option.map_eq_some_iff] at hr
  obtain ⟨outs, houts, rfl⟩ := hr
  rw [put_outputs _ _ (h.le.trans map.frozenCount_le), h.take, map_overwritten_iff, ImageKeeps, houts]
  simp

theorem readOutputs_frozenCount {map map' : Map} {data : Str}
    (hr : readOutputsFromShm signed map data = some map') : map'.frozenCount = map.frozenCount := by
  rw [readOutputs_eq, Option.map_eq_some_iff] at hr
  obtain ⟨outs, -, rfl⟩ := hr
  exact (putAll_fields map outs).1

/-- A put by token misses the inputs. -/
theorem kept_put {map : Map} (h : Kept inputs map) {key : Str} {value : Option Str}
    (hk : ¬ map.inputs.any (·.key = key) = true) : Kept inputs (put map key value) := by
  refine ⟨?_, by rw [put_frozenCount]; exact h.le⟩
  rw [put_take _ _ _ (h.le.trans map.frozenCount_le), h.take]
  refine map_update_of_notMem value fun hmem => hk ?_
  obtain ⟨e, he, hkey⟩ := List.mem_map.1 hmem
  have hin : e ∈ map.inputs := by
    rw [← h.take] at he
    exact List.mem_of_mem_take (i := inputs.length)
      (by rwa [Map.inputs, List.take_take, Nat.min_eq_left h.le])
  exact List.any_eq_true.2 ⟨e, hin, by simpa using hkey⟩

/-- What an operation does to the map when it has this map as its target. -/
theorem guarded_kept {s t : State} {op : Op} {out : Out} (h : Kept inputs (s.maps a))
    (ht : target s op = some a) (hs : guarded signed s a op = some (t, out)) :
    ((t.maps a).entries.take inputs.length = inputs ↔ Harmless signed inputs a s op)
      ∧ inputs.length ≤ (t.maps a).frozenCount := by
  cases op with
  | putByToken token key value =>
    simp only [guarded] at hs
    split_ifs at hs with hk
    · cases hs
      exact ⟨iff_of_true h.take trivial, h.le⟩
    · cases hs
      have hp := @kept_put _ _ h _ value hk
      rw [setMap_maps, if_pos rfl]
      exact ⟨iff_of_true hp.take trivial, hp.le⟩
  | getByToken | countByToken | keyAtByToken | valueAtByToken =>
    cases hs
    exact ⟨iff_of_true h.take trivial, h.le⟩
  | freezeInputsByToken =>
    cases hs
    rw [setMap_maps, if_pos rfl]
    exact ⟨iff_of_true h.take trivial, h.le.trans (s.maps a).frozenCount_le⟩
  | revokeToken =>
    cases hs
    rw [setMap_maps, if_pos rfl]
    exact ⟨iff_of_true h.take trivial, h.le⟩
  | toShmByToken =>
    obtain ⟨_, -, hs⟩ := Option.map_eq_some_iff.1 hs
    cases hs
    exact ⟨iff_of_true h.take trivial, h.le⟩
  | readOutputsByToken token data =>
    obtain ⟨map, hr, hs⟩ := Option.map_eq_some_iff.1 hs
    cases hs
    have hfind : findByToken s token = some a := ht
    rw [setMap_maps, if_pos rfl, kept_readOutputs h hr, readOutputs_frozenCount hr, Harmless]
    exact ⟨⟨fun hi _ => hi, fun hi => hi hfind⟩, h.le⟩
  | readOutputs b data =>
    obtain ⟨map, hr, hs⟩ := Option.map_eq_some_iff.1 hs
    cases hs
    have hb : b = a := Option.some.inj ht
    rw [setMap_maps, if_pos rfl, kept_readOutputs h hr, readOutputs_frozenCount hr, Harmless]
    exact ⟨⟨fun hi _ => hi, fun hi => hi hb⟩, h.le⟩

theorem guarded_other {s t : State} {op : Op} {out : Out} {b : ℕ} (hb : b ≠ a)
    (hs : guarded signed s b op = some (t, out)) : t.maps a = s.maps a := by
  cases op with
  | putByToken token key value =>
    simp only [guarded] at hs
    split_ifs at hs <;> cases hs
    · rfl
    · rw [setMap_maps, if_neg (Ne.symm hb)]
  | getByToken | countByToken | keyAtByToken | valueAtByToken =>
    cases hs
    rfl
  | freezeInputsByToken | revokeToken =>
    cases hs
    rw [setMap_maps, if_neg (Ne.symm hb)]
  | toShmByToken | readOutputsByToken | readOutputs =>
    obtain ⟨_, -, hs⟩ := Option.map_eq_some_iff.1 hs
    cases hs
    first | rfl | rw [setMap_maps, if_neg (Ne.symm hb)]

/-- One operation keeps the inputs just when it is harmless. -/
theorem step_kept {s t : State} {op : Op} {out : Out} (h : Kept inputs (s.maps a))
    (hs : step signed s op = some (t, out)) :
    ((t.maps a).entries.take inputs.length = inputs ↔ Harmless signed inputs a s op)
      ∧ inputs.length ≤ (t.maps a).frozenCount := by
  unfold step at hs
  have hother : target s op ≠ some a → Harmless signed inputs a s op := by
    intro ht
    cases op with
    | readOutputs b data => exact fun hb => absurd (congrArg some hb) ht
    | readOutputsByToken token data => exact fun hf => absurd hf ht
    | _ => exact trivial
  cases ht : target s op with
  | none =>
    rw [ht] at hs
    cases hs
    exact ⟨iff_of_true h.take (hother (by simp [ht])), h.le⟩
  | some b =>
    rw [ht] at hs
    by_cases hb : b = a
    · subst hb
      exact guarded_kept h ht hs
    · rw [guarded_other hb hs]
      exact ⟨iff_of_true h.take (hother (by rw [ht]; simpa using hb)), h.le⟩

/-- An operation that faults puts no outputs. -/
theorem harmless_of_none {s : State} {op : Op} (hs : step signed s op = none) :
    Harmless signed inputs a s op := by
  have himage : ∀ {map : Map} {data : Str}, readOutputsFromShm signed map data = none →
      ImageKeeps signed inputs data := by
    intro map data hr outs houts
    rw [readOutputs_eq, houts] at hr
    cases hr
  cases op with
  | readOutputs b data =>
    intro _
    exact himage (Option.map_eq_none_iff.1 hs)
  | readOutputsByToken token data =>
    intro hf
    have ht : target s (.readOutputsByToken token data) = some a := hf
    rw [step, ht] at hs
    exact himage (Option.map_eq_none_iff.1 hs)
  | _ => exact trivial

theorem run_concat (s : State) (ops : List Op) (op : Op) :
    run signed s (ops ++ [op])
      = (run signed s ops).bind fun t => (step signed t op).map Prod.fst := by
  induction ops generalizing s with
  | nil =>
    simp only [List.nil_append, run, Option.bind_eq_bind, Option.bind_some]
    cases step signed s op <;> rfl
  | cons o ops ih =>
    simp only [List.cons_append, run, Option.bind_eq_bind]
    cases step signed s o with
    | none => rfl
    | some r => exact ih r.1

theorem run_kept {s t : State} : ∀ {ops : List Op}, Kept inputs (s.maps a) →
    (∀ pre op post u, ops = pre ++ op :: post → run signed s pre = some u →
      Harmless signed inputs a u op) → run signed s ops = some t → Kept inputs (t.maps a) := by
  intro ops h0
  induction ops using List.reverseRecOn generalizing t with
  | nil =>
    intro _ ht
    cases ht
    exact h0
  | append_singleton ops op ih =>
    intro hall ht
    rw [run_concat, Option.bind_eq_some_iff] at ht
    obtain ⟨u, hu, hstep⟩ := ht
    obtain ⟨⟨t', out⟩, hs, rfl⟩ := Option.map_eq_some_iff.1 hstep
    have hkept := ih (fun pre op' post v hops hv =>
      hall pre op' (post ++ [op]) v (by rw [hops]; simp) hv) hu
    obtain ⟨hiff, hle⟩ := step_kept hkept hs
    exact ⟨hiff.2 (hall ops op [] u rfl hu), hle⟩

end Run

/-- The inputs of a freeze are as they were in every state that is reached just when every image that is
read into the map keeps them. -/
theorem inputs_kept_iff (signed : Bool) (s : State) (a : ℕ) (ops : List Op) :
    (∀ pre post t, ops = pre ++ post →
        run signed (s.setMap a (freezeInputs (s.maps a))) pre = some t →
        (t.maps a).entries.take (s.maps a).entries.length = (s.maps a).entries)
      ↔ ∀ pre op post t, ops = pre ++ op :: post →
        run signed (s.setMap a (freezeInputs (s.maps a))) pre = some t →
        Harmless signed (s.maps a).entries a t op := by
  have h0 : Kept (s.maps a).entries ((s.setMap a (freezeInputs (s.maps a))).maps a) := by
    rw [setMap_maps, if_pos rfl]
    exact ⟨List.take_length, le_rfl⟩
  constructor
  · intro h pre op post t hops ht
    -- the states up to here keep the inputs, by the induction over the prefix
    have hpre : ∀ pre' : List Op, pre' <+: pre → ∀ u,
        run signed (s.setMap a (freezeInputs (s.maps a))) pre' = some u →
        Kept (s.maps a).entries (u.maps a) := by
      intro pre'
      induction pre' using List.reverseRecOn with
      | nil =>
        intro _ u hu
        cases hu
        exact h0
      | append_singleton pre' op' ih =>
        intro hp u hu
        have hfull := hu
        rw [run_concat, Option.bind_eq_some_iff] at hu
        obtain ⟨w, hw, hstep⟩ := hu
        obtain ⟨⟨u', out⟩, hs, rfl⟩ := Option.map_eq_some_iff.1 hstep
        have hk := ih ((List.prefix_append _ _).trans hp) w hw
        obtain ⟨suf, rfl⟩ := hp
        exact ⟨h _ (suf ++ op :: post) _ (by rw [hops]; simp) hfull, (step_kept hk hs).2⟩
    have hkept := hpre pre List.prefix_rfl t ht
    cases hs : step signed t op with
    | none => exact harmless_of_none hs
    | some r =>
      obtain ⟨t', out⟩ := r
      refine (step_kept hkept hs).1.1 (h (pre ++ [op]) post t' (by rw [hops]; simp) ?_)
      rw [run_concat, ht, Option.bind_some, hs]
      rfl
  · intro h pre post t hops ht
    exact (run_kept h0 (fun pre' op post' u hp hu =>
      h pre' op (post' ++ post) u (by rw [hops, hp]; simp) hu) ht).take

/-! ### Revoked tokens -/

section Token

variable {signed : Bool} {token : UInt64}

/-- A map does not get another token, or its token back. -/
structure TokenLe (map map' : Map) : Prop where
  token : map'.token = map.token
  valid : map'.tokenValid = true → map.tokenValid = true

theorem tokenLe_rfl (map : Map) : TokenLe map map := ⟨rfl, id⟩

theorem tokenLe_readOutputs {map map' : Map} {data : Str}
    (hr : readOutputsFromShm signed map data = some map') : TokenLe map map' := by
  rw [readOutputs_eq, Option.map_eq_some_iff] at hr
  obtain ⟨outs, -, rfl⟩ := hr
  obtain ⟨-, h1, h2⟩ := putAll_fields map outs
  exact ⟨h1, fun h => by rwa [h2] at h⟩

theorem tokenLe_setMap {s : State} {b : ℕ} {map : Map} (h : TokenLe (s.maps b) map) (a : ℕ) :
    TokenLe (s.maps a) ((s.setMap b map).maps a) := by
  rw [setMap_maps]
  split_ifs with hab
  · rw [hab]
    exact h
  · exact tokenLe_rfl _

theorem step_tokenLe {s t : State} {op : Op} {out : Out} (hs : step signed s op = some (t, out)) :
    t.active = s.active ∧ ∀ a, TokenLe (s.maps a) (t.maps a) := by
  unfold step at hs
  cases ht : target s op with
  | none =>
    rw [ht] at hs
    cases hs
    exact ⟨rfl, fun a => tokenLe_rfl _⟩
  | some b =>
    rw [ht] at hs
    cases op with
    | putByToken token key value =>
      simp only [guarded] at hs
      obtain ⟨h1, h2⟩ := put_token (s.maps b) key value
      split_ifs at hs <;> cases hs
      · exact ⟨rfl, fun a => tokenLe_rfl _⟩
      · exact ⟨rfl, tokenLe_setMap ⟨h1, fun h => by rwa [h2] at h⟩⟩
    | getByToken | countByToken | keyAtByToken | valueAtByToken =>
      cases hs
      exact ⟨rfl, fun a => tokenLe_rfl _⟩
    | freezeInputsByToken =>
      cases hs
      exact ⟨rfl, tokenLe_setMap ⟨rfl, id⟩⟩
    | revokeToken =>
      cases hs
      exact ⟨rfl, tokenLe_setMap ⟨rfl, by simp⟩⟩
    | toShmByToken =>
      obtain ⟨_, -, hs⟩ := Option.map_eq_some_iff.1 hs
      cases hs
      exact ⟨rfl, fun a => tokenLe_rfl _⟩
    | readOutputsByToken | readOutputs =>
      obtain ⟨_, hr, hs⟩ := Option.map_eq_some_iff.1 hs
      cases hs
      exact ⟨rfl, tokenLe_setMap (tokenLe_readOutputs hr)⟩

theorem findByToken_eq_none {s : State} :
    findByToken s token = none ↔ ∀ a ∈ s.active, ¬ s.Opens token a := by
  rw [findByToken, List.find?_eq_none]
  simp

/-- A token that opens nothing opens nothing later. -/
theorem run_findByToken : ∀ {ops : List Op} {s t : State}, findByToken s token = none →
    run signed s ops = some t → findByToken t token = none
  | [], s, t, h, ht => by
    cases ht
    exact h
  | op :: ops, s, t, h, ht => by
    obtain ⟨⟨u, out⟩, hs, ht⟩ := Option.bind_eq_some_iff.1 ht
    refine run_findByToken ?_ ht
    obtain ⟨hactive, hle⟩ := step_tokenLe hs
    rw [findByToken_eq_none] at h ⊢
    intro a ha
    rw [hactive] at ha
    rintro ⟨h0, h1, h2⟩
    exact h a ha ⟨h0, by rw [← (hle a).token, h1], (hle a).valid h2⟩

theorem target_of_token {s : State} {op : Op} (h : op.token = some token) :
    target s op = findByToken s token := by
  cases op <;> cases h <;> rfl

theorem step_of_findByToken {s : State} {op : Op} (h : op.token = some token)
    (hf : findByToken s token = none) : step signed s op = some (s, op.refused) := by
  rw [step, target_of_token h, hf]

end Token

/-- After a token is revoked no operation with it has an effect or returns anything, just when no two
maps had this token. -/
theorem revoked_iff (signed : Bool) (s : State) (token : UInt64) :
    (∀ s' out, step signed s (.revokeToken token) = some (s', out) →
        ∀ ops t, run signed s' ops = some t → ∀ op : Op, op.token = some token →
          step signed t op = some (t, op.refused))
      ↔ ∀ a ∈ s.active, ∀ b ∈ s.active, s.Opens token a → s.Opens token b → a = b := by
  cases hf : findByToken s token with
  | none =>
    have hnone := findByToken_eq_none.1 hf
    have hs : step signed s (.revokeToken token) = some (s, .none) := step_of_findByToken rfl hf
    refine iff_of_true ?_ fun a ha b _ hoa _ => absurd hoa (hnone a ha)
    intro s' out hs' ops t ht op hop
    rw [hs] at hs'
    cases hs'
    exact step_of_findByToken hop (run_findByToken hf ht)
  | some x =>
    have hx : s.Opens token x := by simpa using List.find?_some hf
    have hmem : x ∈ s.active := List.mem_of_find?_eq_some hf
    have hs : step signed s (.revokeToken token)
        = some (s.setMap x { s.maps x with tokenValid := false }, .none) := by
      have ht : target s (.revokeToken token) = some x := hf
      rw [step, ht]
      rfl
    have hopens : ∀ a, (s.setMap x { s.maps x with tokenValid := false }).Opens token a
        ↔ a ≠ x ∧ s.Opens token a := by
      intro a
      unfold State.Opens
      rw [setMap_maps]
      by_cases ha : a = x <;> simp [ha]
    constructor
    · intro h a ha b hb hoa hob
      -- a map that the token still opens could be revoked once more
      have hlast : ∀ c ∈ s.active, s.Opens token c → c = x := by
        intro c hc hoc
        by_contra hne
        have hstep := h _ _ hs [] _ rfl (.revokeToken token) rfl
        obtain ⟨y, hy⟩ := Option.ne_none_iff_exists'.1 (fun hnone =>
          findByToken_eq_none.1 hnone c hc ((hopens c).2 ⟨hne, hoc⟩) :
          findByToken (s.setMap x { s.maps x with tokenValid := false }) token ≠ none)
        have hty : target (s.setMap x { s.maps x with tokenValid := false }) (.revokeToken token)
            = some y := hy
        have hoy : (s.setMap x { s.maps x with tokenValid := false }).Opens token y := by
          simpa using List.find?_some hy
        rw [step, hty] at hstep
        simp only [guarded, Option.some.injEq, Prod.mk.injEq] at hstep
        have hvalid := congrArg (fun u : State => (u.maps y).tokenValid) hstep.1
        simp only [setMap_maps, if_true] at hvalid
        have htrue := hoy.2.2
        rw [setMap_maps] at htrue
        rw [htrue] at hvalid
        cases hvalid
      rw [hlast a ha hoa, hlast b hb hob]
    · intro h s' out hs' ops t ht op hop
      rw [hs] at hs'
      cases hs'
      refine step_of_findByToken hop (run_findByToken (findByToken_eq_none.2 ?_) ht)
      intro a ha hoa
      obtain ⟨hne, hoa⟩ := (hopens a).1 hoa
      exact hne (h a ha x hmem hoa hx)

/-- One map, with the input `k` whose value is `1`. -/
def oneInput : State where
  maps _ :=
    { entries := [⟨[0x6b], some [0x31]⟩]
      frozenCount := 0
      token := 1
      tokenValid := true
      nodup := List.nodup_singleton _
      frozenCount_le := Nat.zero_le _
      length_le := by decide }
  active := [0]

/-- A header of 0 and the pair `k`, `2`. -/
def forged : Str := [0, 0, 0, 0, 0x6b, 0, 0x32, 0, 0]

end SharedMap

end Qjs
