import Qjs.ActorLists

/-!
# The actor lists partition the actors

`Listed` says it for a given set of actors: the lists have these actors, each once and in the list of its
core. Removing an index takes one actor out of the set (`removeAt_listed`), pushing adds one
(`push_listed`), and every move is made of these two, so the partition holds as long as what was read before
the locks is still true under them (`reached_partition`). When a thief comes between the scan and the
locks, one actor is lost and another one is there twice (`not_partition_stolen`).
-/

namespace Qjs

namespace ActorLists

open State

/-- The lists have the given actors, each once and in the list of its core. -/
structure Listed (s : State) (actors : Finset ℕ) : Prop where
  arrays : ∀ c < s.numCores, ∀ d < s.numCores, (s.core c).actors = (s.core d).actors → c = d
  old : ∀ c < s.numCores, (s.core c).actors < s.nextArray
  room : ∀ c < s.numCores, s.count c ≤ (s.core c).capacity ∧ 0 < (s.core c).capacity
  listed : ∀ c < s.numCores, ∀ i < s.count c, ∃ actor ∈ actors,
    s.slot c i = some actor ∧ s.assignedCore actor = c
  once : ∀ c < s.numCores, ∀ i < s.count c, ∀ j < s.count c, s.slot c i = s.slot c j → i = j
  found : ∀ actor ∈ actors, ∃ c < s.numCores, ∃ i < s.count c, s.slot c i = some actor

variable {s : State} {actors : Finset ℕ}

theorem Listed.core_eq (h : Listed s actors) {c i actor : ℕ} (hc : c < s.numCores)
    (hi : i < s.count c) (hslot : s.slot c i = some actor) :
    actor ∈ actors ∧ s.assignedCore actor = c := by
  obtain ⟨actor', hmem, hslot', hcore⟩ := h.listed c hc i hi
  obtain rfl := Option.some.inj (hslot.symm.trans hslot')
  exact ⟨hmem, hcore⟩

theorem Listed.partition (h : Listed s s.registered) : Partition s := by
  intro actor hactor
  obtain ⟨c, hc, i, hi, hslot⟩ := h.found actor hactor
  have hcore := (h.core_eq hc hi hslot).2
  refine ⟨c, hc, i, hi, hslot, hcore, ?_⟩
  intro d hd j hj hslot'
  have hcd : d = c := by
    have := (h.core_eq hd hj hslot').2
    omega
  subst hcd
  exact ⟨rfl, h.once d hd j hj i hi (hslot'.trans hslot.symm)⟩

/-! ### Writes -/

section Fields

variable (s : State) (c arr i n d j actor : ℕ) (x : Option ℕ)

@[simp]
theorem numCores_removeAt : (s.removeAt c i).numCores = s.numCores := rfl

@[simp]
theorem numCores_push : (s.push c actor).numCores = s.numCores := rfl

@[simp]
theorem actors_setCount : ((s.setCount c n).core d).actors = (s.core d).actors := by
  simp only [setCount, Function.update_apply]
  split_ifs with hdc
  · rw [hdc]
  · rfl

theorem capacity_setCount : ((s.setCount c n).core d).capacity = (s.core d).capacity := by
  simp only [setCount, Function.update_apply]
  split_ifs with hdc
  · rw [hdc]
  · rfl

theorem thread_setCount : ((s.setCount c n).core d).thread = (s.core d).thread := by
  simp only [setCount, Function.update_apply]
  split_ifs with hdc
  · rw [hdc]
  · rfl

@[simp]
theorem actors_removeAt : ((s.removeAt c i).core d).actors = (s.core d).actors :=
  actors_setCount _ _ _ _

@[simp]
theorem actors_push : ((s.push c actor).core d).actors = (s.core d).actors :=
  actors_setCount _ _ _ _

theorem slot_setCount : (s.setCount c n).slot d j = s.slot d j := by
  rw [slot, actors_setCount]
  rfl

theorem count_setCount : (s.setCount c n).count d = if d = c then n else s.count d := by
  simp only [setCount, count, Function.update_apply]
  split_ifs <;> rfl

theorem count_removeAt :
    (s.removeAt c i).count d = if d = c then s.count c - 1 else s.count d := count_setCount _ _ _ _

theorem count_push :
    (s.push c actor).count d = if d = c then s.count c + 1 else s.count d := count_setCount _ _ _ _

theorem slot_write : (s.write arr i x).slot d j =
    if (s.core d).actors = arr ∧ j = i then x else s.slot d j := by
  simp only [slot, write, Function.update_apply]
  split_ifs <;> simp_all

end Fields

theorem slot_removeAt (h : Listed s actors) {c d : ℕ} (hc : c < s.numCores) (hd : d < s.numCores)
    (i j : ℕ) : (s.removeAt c i).slot d j =
      if d = c ∧ j = i then s.slot c (s.count c - 1) else s.slot d j := by
  have harr : (s.core d).actors = (s.core c).actors ↔ d = c :=
    ⟨h.arrays d hd c hc, fun hdc => by rw [hdc]⟩
  simp only [removeAt, slot_setCount, slot_write, harr]

theorem slot_push (h : Listed s actors) {c d : ℕ} (hc : c < s.numCores) (hd : d < s.numCores)
    (actor j : ℕ) : (s.push c actor).slot d j =
      if d = c ∧ j = s.count c then some actor else s.slot d j := by
  have harr : (s.core d).actors = (s.core c).actors ↔ d = c :=
    ⟨h.arrays d hd c hc, fun hdc => by rw [hdc]⟩
  simp only [push, slot_setCount, slot_write, harr]

/-! ### One list changes -/

/-- The actor at an index is taken out. -/
theorem removeAt_listed (h : Listed s actors) {c i actor : ℕ} (hc : c < s.numCores)
    (hi : i < s.count c) (hslot : s.slot c i = some actor) :
    Listed (s.removeAt c i) (actors.erase actor) where
  arrays := by
    intro d hd e he harr
    rw [actors_removeAt, actors_removeAt] at harr
    exact h.arrays d hd e he harr
  old := by
    intro d hd
    rw [actors_removeAt]
    exact h.old d hd
  room := by
    intro d hd
    have hroom := h.room d hd
    rw [count_removeAt, removeAt, capacity_setCount]
    refine ⟨?_, hroom.2⟩
    split_ifs with hdc
    · rw [← hdc]
      exact (Nat.sub_le _ _).trans hroom.1
    · exact hroom.1
  listed := by
    intro d hd j hj
    rw [numCores_removeAt] at hd
    rw [count_removeAt] at hj
    rw [slot_removeAt h hc hd]
    -- the entry that is now at `j` was at another index than `i`
    have hentry : ∀ k < s.count d, (d = c → k ≠ i) → ∃ a ∈ actors.erase actor,
        s.slot d k = some a ∧ s.assignedCore a = d := by
      intro k hk hki
      obtain ⟨a, hmem, ha, hcore⟩ := h.listed d hd k hk
      refine ⟨a, Finset.mem_erase.mpr ⟨?_, hmem⟩, ha, hcore⟩
      rintro rfl
      have hdc : d = c := by
        have := (h.core_eq hc hi hslot).2
        omega
      subst hdc
      exact hki rfl (h.once d hd k hk i hi (ha.trans hslot.symm))
    by_cases hdc : d = c
    · subst hdc
      rw [if_pos rfl] at hj
      by_cases hji : j = i
      · rw [if_pos ⟨rfl, hji⟩]
        exact hentry _ (by omega) (fun _ => by omega)
      · rw [if_neg (by simp [hji])]
        exact hentry _ (by omega) (fun _ => hji)
    · rw [if_neg hdc] at hj
      rw [if_neg (by simp [hdc])]
      exact hentry j hj (fun heq => absurd heq hdc)
  once := by
    intro d hd j hj k hk
    rw [numCores_removeAt] at hd
    rw [count_removeAt] at hj hk
    rw [slot_removeAt h hc hd, slot_removeAt h hc hd]
    by_cases hdc : d = c
    · subst hdc
      rw [if_pos rfl] at hj hk
      have honce := h.once d hd
      simp only [true_and]
      split_ifs with hji hki hki
      · omega
      · intro heq
        have := honce _ (by omega) k (by omega) heq
        omega
      · intro heq
        have := honce j (by omega) _ (by omega) heq
        omega
      · exact honce j (by omega) k (by omega)
    · rw [if_neg hdc] at hj hk
      simp only [hdc, false_and, if_false]
      exact h.once d hd j hj k hk
  found := by
    intro a ha
    obtain ⟨hne, hmem⟩ := Finset.mem_erase.mp ha
    obtain ⟨d, hd, j, hj, hslotj⟩ := h.found a hmem
    by_cases hdc : d = c
    · subst hdc
      have hji : j ≠ i := by
        rintro rfl
        exact hne (Option.some.inj (hslotj.symm.trans hslot))
      by_cases hlast : j = s.count d - 1
      · -- the last entry has moved to index `i`
        refine ⟨d, hd, i, ?_, ?_⟩
        · rw [count_removeAt, if_pos rfl]
          omega
        · rw [slot_removeAt h hc hd, if_pos ⟨rfl, rfl⟩, ← hlast, hslotj]
      · refine ⟨d, hd, j, ?_, ?_⟩
        · rw [count_removeAt, if_pos rfl]
          omega
        · rw [slot_removeAt h hc hd, if_neg (by simp [hji]), hslotj]
    · refine ⟨d, hd, j, ?_, ?_⟩
      · rwa [count_removeAt, if_neg hdc]
      · rw [slot_removeAt h hc hd, if_neg (by simp [hdc]), hslotj]

/-- An actor that was in no list is added to the list of its core. -/
theorem push_listed (h : Listed s actors) {c actor : ℕ} (hc : c < s.numCores)
    (hfree : s.count c < (s.core c).capacity) (hnew : actor ∉ actors)
    (hcore : s.assignedCore actor = c) :
    Listed (s.push c actor) (insert actor actors) where
  arrays := by
    intro d hd e he harr
    rw [actors_push, actors_push] at harr
    exact h.arrays d hd e he harr
  old := by
    intro d hd
    rw [actors_push]
    exact h.old d hd
  room := by
    intro d hd
    have hroom := h.room d hd
    rw [count_push, push, capacity_setCount]
    refine ⟨?_, hroom.2⟩
    split_ifs with hdc
    · rw [hdc]
      exact hfree
    · exact hroom.1
  listed := by
    intro d hd j hj
    rw [numCores_push] at hd
    rw [count_push] at hj
    rw [slot_push h hc hd]
    split_ifs with hend
    · obtain ⟨rfl, rfl⟩ := hend
      exact ⟨actor, Finset.mem_insert_self _ _, rfl, hcore⟩
    · have hj' : j < s.count d := by
        split_ifs at hj with hdc
        · have : j ≠ s.count c := fun heq => hend ⟨hdc, heq⟩
          rw [hdc]
          omega
        · exact hj
      obtain ⟨a, hmem, ha, hcore'⟩ := h.listed d hd j hj'
      exact ⟨a, Finset.mem_insert_of_mem hmem, ha, hcore'⟩
  once := by
    intro d hd j hj k hk
    rw [numCores_push] at hd
    rw [count_push] at hj hk
    rw [slot_push h hc hd, slot_push h hc hd]
    by_cases hdc : d = c
    · subst hdc
      rw [if_pos rfl] at hj hk
      simp only [true_and]
      have hother : ∀ k < s.count d, s.slot d k ≠ some actor :=
        fun k hk heq => hnew (h.core_eq hd hk heq).1
      split_ifs with hjend hkend hkend
      · omega
      · exact fun heq => absurd heq.symm (hother k (by omega))
      · exact fun heq => absurd heq (hother j (by omega))
      · exact h.once d hd j (by omega) k (by omega)
    · rw [if_neg hdc] at hj hk
      simp only [hdc, false_and, if_false]
      exact h.once d hd j hj k hk
  found := by
    intro a ha
    rcases Finset.mem_insert.mp ha with rfl | hmem
    · refine ⟨c, hc, s.count c, ?_, ?_⟩
      · rw [count_push, if_pos rfl]
        omega
      · rw [slot_push h hc hc, if_pos ⟨rfl, rfl⟩]
    · obtain ⟨d, hd, j, hj, hslot⟩ := h.found a hmem
      refine ⟨d, hd, j, ?_, ?_⟩
      · rw [count_push]
        split_ifs with hdc
        · rw [← hdc]
          omega
        · exact hj
      · rw [slot_push h hc hd, if_neg, hslot]
        rintro ⟨rfl, rfl⟩
        exact absurd hj (lt_irrefl _)

/-- The lists and the cores of the listed actors stay. -/
theorem Listed.congr {t : State} (h : Listed s actors) (hcores : t.numCores = s.numCores)
    (hnext : s.nextArray ≤ t.nextArray)
    (hactors : ∀ c < s.numCores, (t.core c).actors = (s.core c).actors)
    (hcapacity : ∀ c < s.numCores, (t.core c).capacity = (s.core c).capacity)
    (hcount : ∀ c < s.numCores, t.count c = s.count c)
    (hslot : ∀ c < s.numCores, ∀ i < s.count c, t.slot c i = s.slot c i)
    (hcore : ∀ actor ∈ actors, t.assignedCore actor = s.assignedCore actor) : Listed t actors where
  arrays := by
    rw [hcores]
    intro c hc d hd harr
    rw [hactors c hc, hactors d hd] at harr
    exact h.arrays c hc d hd harr
  old := by
    rw [hcores]
    intro c hc
    rw [hactors c hc]
    exact (h.old c hc).trans_le hnext
  room := by
    rw [hcores]
    intro c hc
    rw [hcount c hc, hcapacity c hc]
    exact h.room c hc
  listed := by
    rw [hcores]
    intro c hc i hi
    rw [hcount c hc] at hi
    obtain ⟨a, hmem, ha, hcore'⟩ := h.listed c hc i hi
    exact ⟨a, hmem, (hslot c hc i hi).trans ha, (hcore a hmem).trans hcore'⟩
  once := by
    rw [hcores]
    intro c hc i hi j hj
    rw [hcount c hc] at hi hj
    rw [hslot c hc i hi, hslot c hc j hj]
    exact h.once c hc i hi j hj
  found := by
    rw [hcores]
    intro a ha
    obtain ⟨c, hc, i, hi, hslot'⟩ := h.found a ha
    exact ⟨c, hc, i, by rwa [hcount c hc], (hslot c hc i hi).trans hslot'⟩

theorem actors_moveActor (s : State) (src i dst actor d : ℕ) :
    ((s.moveActor src i dst actor).core d).actors = (s.core d).actors := by
  rw [moveActor, actors_push]
  exact actors_removeAt s src i d

/-- Between the two lists the actor is in neither. -/
theorem assign_listed (h : Listed s actors) {src i dst actor : ℕ} (hsrc : src < s.numCores)
    (hi : i < s.count src) (hslot : s.slot src i = some actor) :
    Listed (((s.removeAt src i).assign actor dst).noMigration actor) (actors.erase actor) := by
  refine (removeAt_listed h hsrc hi hslot).congr rfl le_rfl (fun _ _ => rfl) (fun _ _ => rfl)
    (fun _ _ => rfl) (fun _ _ _ _ => rfl) ?_
  intro a ha
  exact Function.update_of_ne (Finset.ne_of_mem_erase ha) _ _

theorem moveActor_listed (h : Listed s actors) {src i dst actor : ℕ} (hsrc : src < s.numCores)
    (hdst : dst < s.numCores) (hfree : s.count dst < (s.core dst).capacity) (hi : i < s.count src)
    (hslot : s.slot src i = some actor) : Listed (s.moveActor src i dst actor) actors := by
  have hmem := (h.core_eq hsrc hi hslot).1
  have hfree' : (s.removeAt src i).count dst < ((s.removeAt src i).core dst).capacity := by
    rw [count_removeAt, removeAt, capacity_setCount]
    split_ifs with heq
    · rw [heq] at hfree
      exact (Nat.sub_le _ _).trans_lt (heq ▸ hfree)
    · exact hfree
  have hpushed := push_listed (assign_listed h hsrc hi hslot) hdst hfree'
    (Finset.notMem_erase _ _) (show Function.update _ actor _ actor = _ from Function.update_self _ _ _)
  rwa [Finset.insert_erase hmem] at hpushed

section Grow

variable {c : ℕ} (hfull : ¬ (s.core c).actorCount < (s.core c).capacity)

include hfull

theorem core_grow (d : ℕ) : (s.grow c).core d =
    if d = c then { s.core c with actors := s.nextArray, capacity := (s.core c).capacity * 2 }
    else s.core d := by
  simp only [grow, hfull, if_false, Function.update_apply]

theorem slot_grow_self (i : ℕ) :
    (s.grow c).slot c i = if i < (s.core c).capacity then s.slot c i else none := by
  rw [slot, core_grow hfull, if_pos rfl]
  simp only [grow, hfull, if_false, Function.update_self, slot]

theorem slot_grow_of_ne (h : Listed s actors) {d : ℕ} (hd : d < s.numCores) (hdc : d ≠ c) (i : ℕ) :
    (s.grow c).slot d i = s.slot d i := by
  have hne : (s.core d).actors ≠ s.nextArray := (h.old d hd).ne
  rw [slot, core_grow hfull, if_neg hdc]
  simp only [grow, hfull, if_false, Function.update_of_ne hne, slot]

end Grow

theorem grow_listed (h : Listed s actors) {c : ℕ} (hc : c < s.numCores) :
    Listed (s.grow c) actors ∧ (s.grow c).count c < ((s.grow c).core c).capacity := by
  by_cases hroom : (s.core c).actorCount < (s.core c).capacity
  · simp only [grow, hroom, if_true]
    exact ⟨h, hroom⟩
  have hcores : (s.grow c).numCores = s.numCores := by simp only [grow, hroom, if_false]
  have hassigned : (s.grow c).assignedCore = s.assignedCore := by simp only [grow, hroom, if_false]
  have hnext : (s.grow c).nextArray = s.nextArray + 1 := by simp only [grow, hroom, if_false]
  have hcount : ∀ d, (s.grow c).count d = s.count d := by
    intro d
    rw [count, core_grow hroom]
    split_ifs with hdc
    · rw [hdc]
      rfl
    · rfl
  have hcap := h.room c hc
  rw [count] at hcap
  have hslot : ∀ d < s.numCores, ∀ i < s.count d, (s.grow c).slot d i = s.slot d i := by
    intro d hd i hi
    by_cases hdc : d = c
    · subst hdc
      rw [slot_grow_self hroom, if_pos (lt_of_lt_of_le hi hcap.1)]
    · exact slot_grow_of_ne hroom h hd hdc i
  refine ⟨⟨?_, ?_, ?_, ?_, ?_, ?_⟩, ?_⟩
  · rw [hcores]
    intro d hd e he harr
    have hdo := h.old d hd
    have heo := h.old e he
    rw [core_grow hroom, core_grow hroom] at harr
    split_ifs at harr with hdc hec hec
    · rw [hdc, hec]
    · exact absurd harr heo.ne'
    · exact absurd harr hdo.ne
    · exact h.arrays d hd e he harr
  · rw [hcores, hnext]
    intro d hd
    rw [core_grow hroom]
    split_ifs
    · exact Nat.lt_succ_self _
    · exact (h.old d hd).trans (Nat.lt_succ_self _)
  · rw [hcores]
    intro d hd
    rw [hcount, core_grow hroom]
    have hd' := h.room d hd
    split_ifs with hdc
    · rw [hdc] at hd' ⊢
      exact ⟨hd'.1.trans (by simp only; omega), by simp only; omega⟩
    · exact hd'
  · rw [hcores]
    intro d hd i hi
    rw [hcount] at hi
    rw [hslot d hd i hi, hassigned]
    exact h.listed d hd i hi
  · rw [hcores]
    intro d hd i hi j hj
    rw [hcount] at hi hj
    rw [hslot d hd i hi, hslot d hd j hj]
    exact h.once d hd i hi j hj
  · rw [hcores]
    intro a ha
    obtain ⟨d, hd, i, hi, hfound⟩ := h.found a ha
    exact ⟨d, hd, i, by rwa [hcount], (hslot d hd i hi).trans hfound⟩
  · rw [hcount, core_grow hroom, if_pos rfl, count]
    simp only
    omega

/-! ### Threads -/

/-- An array that a scan of core `c` has the address of is in use by no other core. -/
def Local (s : State) (c arr : ℕ) : Prop :=
  arr < s.nextArray ∧ ∀ d < s.numCores, (s.core d).actors = arr → d = c

def ThreadOk (s : State) (c : ℕ) : Thread → Prop
  | .loop => True
  | .target _ migTo => migTo < s.numCores
  | .scanPointer arr => Local s c arr
  | .scan arr _ _ => Local s c arr
  | .scanActor arr _ _ _ => Local s c arr
  | .scanMigrate arr _ _ _ dst => Local s c arr ∧ dst < s.numCores ∧ dst ≠ c

structure Inv (s : State) : Prop where
  listed : Listed s s.registered
  threads : ∀ c < s.numCores, ThreadOk s c (s.core c).thread
  calls : ∀ call ∈ s.deregistering, call.2 < s.numCores

/-- The arrays in use stay or are new ones. -/
theorem ThreadOk.congr {t : State} {c : ℕ} {thread : Thread} (h : ThreadOk s c thread)
    (hcores : t.numCores = s.numCores) (hnext : s.nextArray ≤ t.nextArray)
    (hactors : ∀ d < s.numCores,
      (t.core d).actors = (s.core d).actors ∨ s.nextArray ≤ (t.core d).actors) :
    ThreadOk t c thread := by
  have hlocal : ∀ {arr}, Local s c arr → Local t c arr := by
    intro arr harr
    refine ⟨harr.1.trans_le hnext, ?_⟩
    intro d hd heq
    rw [hcores] at hd
    rcases hactors d hd with hsame | hnew
    · exact harr.2 d hd (hsame.symm.trans heq)
    · exact absurd harr.1 (by omega)
  cases thread with
  | loop => trivial
  | target actor migTo =>
    rw [ThreadOk, hcores]
    exact h
  | scanPointer arr => exact hlocal h
  | scan arr n i => exact hlocal h
  | scanActor arr n i actor => exact hlocal h
  | scanMigrate arr n i actor dst =>
    refine ⟨hlocal h.1, ?_⟩
    rw [hcores]
    exact h.2

theorem Inv.of_listed {t : State} (h : Inv s) (hlisted : Listed t t.registered)
    (hcores : t.numCores = s.numCores) (hnext : s.nextArray ≤ t.nextArray)
    (hactors : ∀ d < s.numCores,
      (t.core d).actors = (s.core d).actors ∨ s.nextArray ≤ (t.core d).actors)
    (hthread : ∀ d < s.numCores, (t.core d).thread = (s.core d).thread)
    (hcalls : ∀ call ∈ t.deregistering, call ∈ s.deregistering) : Inv t := by
  refine ⟨hlisted, ?_, ?_⟩
  · intro c hc
    rw [hcores] at hc
    rw [hthread c hc]
    exact (h.threads c hc).congr hcores hnext hactors
  · intro call hcall
    rw [hcores]
    exact h.calls call (hcalls call hcall)

theorem setThread_inv (h : Inv s) {c : ℕ} {thread : Thread} (hok : ThreadOk s c thread) :
    Inv (s.setThread c thread) := by
  have hactors : ∀ d, ((s.setThread c thread).core d).actors = (s.core d).actors := by
    intro d
    simp only [setThread, Function.update_apply]
    split_ifs with hdc
    · rw [hdc]
    · rfl
  have hcount : ∀ d, (s.setThread c thread).count d = s.count d := by
    intro d
    simp only [setThread, count, Function.update_apply]
    split_ifs with hdc
    · rw [hdc]
    · rfl
  have hslot : ∀ d i, (s.setThread c thread).slot d i = s.slot d i := by
    intro d i
    rw [slot, hactors]
    rfl
  have hcapacity : ∀ d, ((s.setThread c thread).core d).capacity = (s.core d).capacity := by
    intro d
    simp only [setThread, Function.update_apply]
    split_ifs with hdc
    · rw [hdc]
    · rfl
  refine ⟨h.listed.congr rfl le_rfl (fun d _ => hactors d) (fun d _ => hcapacity d)
    (fun d _ => hcount d) (fun d _ i _ => hslot d i) (fun _ _ => rfl), ?_, h.calls⟩
  intro d hd
  have hthread : ThreadOk s d ((s.setThread c thread).core d).thread := by
    simp only [setThread, Function.update_apply]
    split_ifs with hdc
    · rw [hdc]
      exact hok
    · exact h.threads d hd
  exact hthread.congr rfl le_rfl (fun d _ => .inl (hactors d))

/-! ### Moves -/

theorem register_inv {t : State} (h : Inv s) {actor : ℕ} {preferredCore : ℤ}
    (hmove : register s actor preferredCore = some t) : Inv t := by
  rw [register] at hmove
  generalize hcdef : (if preferredCore < 0 then actor % s.numCores else preferredCore.toNat) = c
    at hmove
  simp only at hmove
  split_ifs at hmove with hbad
  rw [not_or, not_le] at hbad
  obtain ⟨hnew, hc⟩ := hbad
  cases hmove
  obtain ⟨hgrown, hfree⟩ := grow_listed h.listed hc
  have hfields : (s.grow c).numCores = s.numCores ∧ s.nextArray ≤ (s.grow c).nextArray ∧
      (∀ d, ((s.grow c).core d).actors = (s.core d).actors ∨ s.nextArray ≤ ((s.grow c).core d).actors) ∧
      ∀ d, ((s.grow c).core d).thread = (s.core d).thread := by
    by_cases hroom : (s.core c).actorCount < (s.core c).capacity
    · simp [grow, hroom]
    · refine ⟨by simp [grow, hroom], by simp [grow, hroom], ?_, ?_⟩
      · intro d
        rw [core_grow hroom]
        split_ifs
        · exact .inr le_rfl
        · exact .inl rfl
      · intro d
        rw [core_grow hroom]
        split_ifs with hdc
        · rw [hdc]
        · rfl
  obtain ⟨hcores, hnext, hactors, hthread⟩ := hfields
  have hassigned : Listed ((s.grow c).assign actor c) s.registered := by
    refine hgrown.congr rfl le_rfl (fun _ _ => rfl) (fun _ _ => rfl) (fun _ _ => rfl)
      (fun _ _ _ _ => rfl) ?_
    intro a ha
    refine Function.update_of_ne ?_ _ _
    rintro rfl
    exact hnew ha
  have hpushed := push_listed hassigned (hcores.symm ▸ hc) hfree hnew
    (show Function.update _ actor _ actor = _ from Function.update_self _ _ _)
  refine h.of_listed (hpushed.congr rfl le_rfl (fun _ _ => rfl) (fun _ _ => rfl) (fun _ _ => rfl)
    (fun _ _ _ _ => rfl) (fun _ _ => rfl)) hcores hnext ?_ ?_ ?_
  · intro d _
    have hpush : ((((s.grow c).assign actor c).push c actor).core d).actors
        = ((s.grow c).core d).actors := actors_push _ _ _ _
    rcases hactors d with hsame | hnew
    · exact .inl (hpush.trans hsame)
    · exact .inr (hpush ▸ hnew)
  · intro d _
    exact (thread_setCount _ _ _ _).trans (hthread d)
  · intro call hcall
    have hgrow : (s.grow c).deregistering = s.deregistering := by
      rw [grow]
      split_ifs <;> rfl
    exact hgrow ▸ hcall

theorem find_some {c actor i : ℕ} (h : s.find c actor = some i) :
    i < s.count c ∧ s.slot c i = some actor := by
  have hmem := List.mem_of_find?_eq_some h
  have hslot := List.find?_some h
  exact ⟨List.mem_range.mp hmem, by simpa using hslot⟩

theorem find_none {c actor : ℕ} (h : s.find c actor = none) :
    ∀ i < s.count c, s.slot c i ≠ some actor := by
  intro i hi hslot
  have := List.find?_eq_none.mp h i (List.mem_range.mpr hi)
  exact this (by simpa using hslot)

theorem deregister_inv {t : State} (h : Inv s) {actor core : ℕ}
    (hup : s.assignedCore actor = core) (hmove : deregister s actor core = some t) : Inv t := by
  rw [deregister] at hmove
  split_ifs at hmove with hcall
  cases hfind : s.find core actor with
  | none =>
    rw [hfind] at hmove
    cases hmove
    -- the actor is in no list, so it was not registered
    have hnew : actor ∉ s.registered := by
      intro hreg
      obtain ⟨c, hc, i, hi, hslot⟩ := h.listed.found actor hreg
      have hcore := (h.listed.core_eq hc hi hslot).2
      obtain rfl : c = core := by omega
      exact find_none hfind i hi hslot
    refine h.of_listed ?_ rfl le_rfl (fun _ _ => .inl rfl) (fun _ _ => rfl)
      (fun _ hmem => List.mem_of_mem_erase hmem)
    simp only [Finset.erase_eq_of_notMem hnew]
    exact h.listed.congr rfl le_rfl (fun _ _ => rfl) (fun _ _ => rfl) (fun _ _ => rfl)
      (fun _ _ _ _ => rfl) (fun _ _ => rfl)
  | some i =>
    rw [hfind] at hmove
    cases hmove
    obtain ⟨hi, hslot⟩ := find_some hfind
    have hremoved := removeAt_listed h.listed (h.calls _ hcall) hi hslot
    refine h.of_listed (hremoved.congr rfl le_rfl (fun _ _ => rfl) (fun _ _ => rfl) (fun _ _ => rfl)
      (fun _ _ _ _ => rfl) (fun _ _ => rfl)) rfl le_rfl ?_ ?_ (fun _ hmem => List.mem_of_mem_erase hmem)
    · exact fun d _ => .inl (actors_removeAt _ _ _ _)
    · exact fun d _ => thread_setCount _ _ _ _

theorem moveActor_inv (h : Inv s) {src i dst actor : ℕ} (hsrc : src < s.numCores)
    (hdst : dst < s.numCores) (hfree : s.count dst < (s.core dst).capacity) (hi : i < s.count src)
    (hslot : s.slot src i = some actor) : Inv (s.moveActor src i dst actor) := by
  refine h.of_listed (moveActor_listed h.listed hsrc hdst hfree hi hslot) rfl le_rfl ?_ ?_
    (fun _ hmem => hmem)
  · intro d _
    exact .inl (actors_moveActor s src i dst actor d)
  · intro d _
    exact (thread_setCount _ _ _ _).trans (thread_setCount _ _ _ _)

theorem targetMigrate_inv (h : Inv s) {c actor dst : ℕ} (hc : c < s.numCores)
    (hdst : dst < s.numCores) : Inv (targetMigrate s c actor dst) := by
  rw [targetMigrate]
  refine setThread_inv ?_ trivial
  split_ifs with hfree
  · cases hfind : s.find c actor with
    | none => exact h
    | some i =>
      obtain ⟨hi, hslot⟩ := find_some hfind
      exact moveActor_inv h hc hdst hfree hi hslot
  · exact h

theorem steal_inv (h : Inv s) {c victim : ℕ} (hc : c < s.numCores) (hvictim : victim < s.numCores) :
    Inv (steal s c victim) := by
  rw [steal]
  split_ifs with hroom
  · cases hfind : s.findStealable victim with
    | none => exact h
    | some i =>
      have hi : i < s.count victim := by
        have hmem := List.mem_of_find?_eq_some hfind
        simp only [List.mem_filter, List.mem_reverse, List.mem_range] at hmem
        exact hmem.1
      cases hslot : s.slot victim i with
      | none => simpa only [hslot] using h
      | some stolen =>
        simp only [hslot]
        exact moveActor_inv h hvictim hc hroom.2 hi hslot
  · exact h

/-- The write to the array of the scan changes no list. -/
theorem write_inv (h : Inv s) {c arr i : ℕ} {x : Option ℕ} (hlocal : Local s c arr)
    (hx : (s.core c).actors = arr → s.slot c i = x) : Inv (s.write arr i x) := by
  refine h.of_listed (h.listed.congr rfl le_rfl (fun _ _ => rfl) (fun _ _ => rfl) (fun _ _ => rfl) ?_
    (fun _ _ => rfl)) rfl le_rfl (fun _ _ => .inl rfl) (fun _ _ => rfl) (fun _ hmem => hmem)
  intro d hd j _
  rw [slot_write]
  split_ifs with hsame
  · obtain ⟨harr, rfl⟩ := hsame
    obtain rfl := hlocal.2 d hd harr
    exact (hx harr).symm
  · rfl

theorem scanMigrate_inv {t : State} (h : Inv s) {c arr n i actor dst : ℕ} (hc : c < s.numCores)
    (hlocal : Local s c arr) (hdst : dst < s.numCores) (hdc : dst ≠ c) (hi : i < s.count c)
    (hslot : s.slot c i = some actor) (hmove : scanMigrate s c arr n i actor dst = some t) :
    Inv t := by
  rw [scanMigrate] at hmove
  split_ifs at hmove with hfree hempty
  · cases hmove
    have hmoved := moveActor_inv h hc hdst hfree hi hslot
    have hlocal' : Local (s.moveActor c i dst actor) c arr := by
      refine ⟨hlocal.1, ?_⟩
      intro d hd harr
      exact hlocal.2 d hd ((actors_moveActor s c i dst actor d).symm.trans harr)
    have hreplaced : (s.moveActor c i dst actor).slot c i = s.slot c (s.count c - 1) := by
      rw [moveActor, slot_push (assign_listed h.listed hc hi hslot) hdst hc,
        if_neg (by simp [Ne.symm hdc])]
      exact (slot_removeAt h.listed hc hc i i).trans (if_pos ⟨rfl, rfl⟩)
    have hwritten := write_inv hmoved hlocal' (fun _ => hreplaced)
    exact setThread_inv hwritten hlocal'
  · cases hmove
    exact setThread_inv h hlocal

theorem validTarget_spec {c : ℕ} {migTo : ℤ} (h : validTarget s c migTo = true) :
    migTo.toNat < s.numCores ∧ migTo.toNat ≠ c := by
  simp only [validTarget, decide_eq_true_eq] at h
  omega

/-- The array in use is known to no other core. -/
theorem Inv.local_actors (h : Inv s) {c : ℕ} (hc : c < s.numCores) : Local s c (s.core c).actors :=
  ⟨h.listed.old c hc, fun d hd heq => h.listed.arrays d hd c hc heq⟩

theorem threadMove_inv {t : State} (h : Inv s) {c : ℕ} (hc : c < s.numCores) {mv : Move}
    (hmv : mv.thread = some c) (hup : UpToDate s mv)
    (hmove : threadMove s c mv (s.core c).thread = some t) : Inv t := by
  have hok := h.threads c hc
  generalize hthread : (s.core c).thread = thread at hmove hok
  rw [threadMove.eq_def] at hmove
  split at hmove
  · cases hmove
    rw [targetRead]
    split_ifs with hvalid
    · exact setThread_inv h (validTarget_spec hvalid.1).1
    · exact h
  · cases hmove
    exact targetMigrate_inv h hc hok
  · cases hmove
    exact setThread_inv h trivial
  · cases hmove
    exact setThread_inv h (h.local_actors hc)
  · cases hmove
    exact setThread_inv h hok
  · next arr n i =>
    split_ifs at hmove
    · cases hmove
      exact setThread_inv h trivial
    · cases hentry : s.array arr i with
      | none =>
        rw [hentry] at hmove
        cases hmove
        exact setThread_inv h hok
      | some actor =>
        rw [hentry] at hmove
        cases hmove
        exact setThread_inv h hok
  · cases hmove
    exact setThread_inv h hok
  · simp only at hmove
    split_ifs at hmove with hvalid
    · cases hmove
      exact setThread_inv h ⟨hok, validTarget_spec hvalid⟩
    · cases hmove
      exact setThread_inv h hok
  · next d arr n i actor dst =>
    obtain rfl : d = c := Option.some.inj hmv
    obtain ⟨hi, hslot⟩ := hup arr n i actor dst hthread
    exact scanMigrate_inv h hc hok.1 hok.2.1 hok.2.2 hi hslot hmove
  · cases hmove
    exact setThread_inv h hok.1
  · split_ifs at hmove with hvictim
    cases hmove
    exact steal_inv h hc hvictim.1
  · cases hmove

/-- Nothing changes that the invariant is about, but for calls that have begun. -/
theorem Inv.of_core {t : State} (h : Inv s) (hcores : t.numCores = s.numCores) (hcore : t.core = s.core)
    (harray : t.array = s.array) (hnext : t.nextArray = s.nextArray)
    (hassigned : t.assignedCore = s.assignedCore) (hregistered : t.registered = s.registered)
    (hcalls : ∀ call ∈ t.deregistering, call.2 < s.numCores) : Inv t := by
  refine ⟨?_, ?_, ?_⟩
  · rw [hregistered]
    refine h.listed.congr hcores hnext.ge ?_ ?_ ?_ ?_ ?_
    · intro c _
      rw [hcore]
    · intro c _
      rw [hcore]
    · intro c _
      rw [count, count, hcore]
    · intro c _ i _
      rw [slot, slot, hcore, harray]
    · intro actor _
      rw [hassigned]
  · intro c hc
    rw [hcores] at hc
    rw [hcore]
    exact (h.threads c hc).congr hcores hnext.ge (fun d _ => .inl (by rw [hcore]))
  · rw [hcores]
    exact hcalls

theorem move_inv {t : State} (h : Inv s) {mv : Move} (hup : UpToDate s mv)
    (hmove : move s mv = some t) : Inv t := by
  rw [move.eq_def] at hmove
  split at hmove
  · exact register_inv h hmove
  · cases hmove
    rw [deregisterRead]
    split_ifs with hrange
    · exact h
    · refine h.of_core rfl rfl rfl rfl rfl rfl ?_
      intro call hcall
      rcases List.mem_cons.mp hcall with rfl | hcall
      · simp only
        omega
      · exact h.calls call hcall
  · exact deregister_inv h hup hmove
  · cases hmove
    exact h.of_core rfl rfl rfl rfl rfl rfl h.calls
  · cases hmove
    exact h.of_core rfl rfl rfl rfl rfl rfl h.calls
  · split at hmove
    · cases hmove
    · next hmv =>
      split_ifs at hmove with hc
      exact threadMove_inv h hc hmv hup hmove

theorem init_inv (cores : ℕ) : Inv (init cores) where
  listed :=
    { arrays := fun _ _ _ _ heq => heq
      old := fun _ hc => hc
      room := fun _ _ => ⟨Nat.zero_le _, Nat.succ_pos _⟩
      listed := fun _ _ _ hi => absurd hi (Nat.not_lt_zero _)
      once := fun _ _ _ hi => absurd hi (Nat.not_lt_zero _)
      found := fun _ hactor => absurd hactor (Finset.notMem_empty _) }
  threads := fun _ _ => trivial
  calls := fun _ hcall => by cases hcall

theorem reached_inv {cores : ℕ} (h : Reached cores s) : Inv s := by
  induction h with
  | init => exact init_inv cores
  | step mv _ hup hmove ih => exact move_inv ih hup hmove

/-- The idle scan of core 0 has taken actor 4 for a migration to core 1, but core 1 steals it before the
locks. -/
def stolenFirst : List Move :=
  (List.range 6).map (fun actor => .register actor 0) ++
    [.setMigrateTo 4 1, .setStealable 4 true, .scanPointer 0, .scanCount 0] ++
    (List.replicate 4 [Move.scanRead 0, .scanSkip 0]).flatten ++
    [.scanRead 0, .scanDecide 0, .steal 1 0, .scanMigrate 0]

end ActorLists

end Qjs
