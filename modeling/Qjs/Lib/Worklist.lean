import Mathlib
import Qjs.Lib.Reach

/-!
# Work lists

A closure is computed with a set of what has been seen and a list of what is still to be worked on:
what is taken from the end of the list is followed by what comes next after it, as far as that has
not been seen. If everything comes from a finite set this ends, and then the things seen are those
that are reachable from the things seen at first (`seen_run`).
-/

namespace Worklist

universe u

variable {α : Type u} [DecidableEq α]

structure State (α : Type u) where
  seen : List α
  work : List α

/-- Something new is seen and is to be worked on. -/
def note (s : State α) (a : α) : State α :=
  if a ∈ s.seen then s
  else ⟨s.seen ++ [a], if a ∈ s.work then s.work else s.work ++ [a]⟩

def State.size (U : Finset α) (s : State α) : ℕ := (U \ s.seen.toFinset).card + s.work.length

theorem size_note_le {U : Finset α} (s : State α) {a : α} (ha : a ∈ U) :
    (note s a).size U ≤ s.size U := by
  unfold note
  split_ifs with hs hw
  · exact le_rfl
  all_goals
    have hlt : (U \ (s.seen ++ [a]).toFinset).card < (U \ s.seen.toFinset).card := by
      refine Finset.card_lt_card ((Finset.ssubset_iff_of_subset ?_).2 ⟨a, ?_, ?_⟩)
      · exact Finset.sdiff_subset_sdiff le_rfl (by simp)
      · simp [ha, hs]
      · simp
    simp only [State.size, List.length_append, List.length_singleton]
    omega

theorem size_foldl_note_le {U : Finset α} (l : List α) : ∀ s : State α, (∀ a ∈ l, a ∈ U) →
    (l.foldl note s).size U ≤ s.size U := by
  induction l with
  | nil => exact fun s _ => le_rfl
  | cons a l ih =>
    intro s hl
    exact (ih (note s a) fun b hb => hl b (List.mem_cons_of_mem a hb)).trans
      (size_note_le s (hl a (List.mem_cons_self ..)))

/-- The loop, until there is nothing to be worked on. -/
def run (next : α → List α) (U : Finset α) (hU : ∀ a, ∀ b ∈ next a, b ∈ U) (s : State α) :
    State α :=
  if hw : s.work = [] then s
  else run next U hU ((next (s.work.getLast hw)).foldl note ⟨s.seen, s.work.dropLast⟩)
  termination_by s.size U
  decreasing_by
    refine lt_of_le_of_lt (size_foldl_note_le _ _ (hU _)) ?_
    have hpos := List.length_pos_iff.2 hw
    simp only [State.size, List.length_dropLast]
    omega

/-! ### What is seen -/

variable {next : α → List α} {R : α → Prop} {s : State α}

/-- What has been seen and is not to be worked on is done with. -/
structure Inv (next : α → List α) (R : α → Prop) (L : List α) (s : State α) : Prop where
  sound : ∀ a ∈ s.seen, Reach.Reachable (fun a b => b ∈ next a) R a
  root : ∀ a, R a → a ∈ s.seen
  done : ∀ a ∈ s.seen, a ∈ s.work ∨ ∀ b ∈ next a, b ∈ s.seen ∨ b ∈ L
  current : ∀ a ∈ L, Reach.Reachable (fun a b => b ∈ next a) R a

theorem mem_seen_note {a b : α} : b ∈ (note s a).seen ↔ b ∈ s.seen ∨ b = a := by
  unfold note
  split_ifs with hs
  · constructor
    · exact Or.inl
    · rintro (hb | rfl) <;> assumption
  all_goals simp

theorem mem_work_note {a b : α} (hb : b ∈ s.work) : b ∈ (note s a).work := by
  unfold note
  split_ifs
  · exact hb
  · exact hb
  · exact List.mem_append_left _ hb

theorem note_mem_work {a : α} (ha : a ∉ s.seen) : a ∈ (note s a).work := by
  unfold note
  rw [if_neg ha]
  split_ifs with hw
  · exact hw
  · simp

theorem Inv.note {a : α} {L : List α} (hs : Inv next R (a :: L) s) :
    Inv next R L (note s a) where
  sound b hb := by
    rcases mem_seen_note.1 hb with hb | rfl
    · exact hs.sound b hb
    · exact hs.current b (List.mem_cons_self ..)
  root b hb := mem_seen_note.2 (Or.inl (hs.root b hb))
  done b hb := by
    by_cases hbs : b ∈ s.seen
    · rcases hs.done b hbs with hw | hn
      · exact Or.inl (mem_work_note hw)
      · refine Or.inr fun c hc => ?_
        rcases hn c hc with hc | hc
        · exact Or.inl (mem_seen_note.2 (Or.inl hc))
        · rcases List.mem_cons.1 hc with rfl | hc
          · exact Or.inl (mem_seen_note.2 (Or.inr rfl))
          · exact Or.inr hc
    · obtain rfl := (mem_seen_note.1 hb).resolve_left hbs
      exact Or.inl (note_mem_work hbs)
  current b hb := hs.current b (List.mem_cons_of_mem a hb)

theorem Inv.foldl_note (l : List α) : ∀ {s : State α}, Inv next R l s →
    Inv next R [] (l.foldl Worklist.note s) := by
  induction l with
  | nil => exact fun hs => hs
  | cons a l ih => exact fun hs => ih hs.note

omit [DecidableEq α] in
/-- What is next after the last on the list takes its place. -/
theorem Inv.pop (hw : s.work ≠ []) (hs : Inv next R [] s) (hsub : ∀ a ∈ s.work, a ∈ s.seen) :
    Inv next R (next (s.work.getLast hw)) ⟨s.seen, s.work.dropLast⟩ where
  sound := hs.sound
  root := hs.root
  done a ha := by
    rcases hs.done a ha with hwa | hn
    · rw [← List.dropLast_append_getLast hw, List.mem_append, List.mem_singleton] at hwa
      rcases hwa with hwa | rfl
      · exact Or.inl hwa
      · exact Or.inr fun b hb => Or.inr hb
    · exact Or.inr fun b hb => Or.inl ((hn b hb).resolve_right (by simp))
  current b hb := (hs.sound _ (hsub _ (List.getLast_mem hw))).tail hb

theorem work_subset_note {a : α} (hsub : ∀ b ∈ s.work, b ∈ s.seen) :
    ∀ b ∈ (note s a).work, b ∈ (note s a).seen := by
  intro b hb
  rw [mem_seen_note]
  unfold note at hb
  split_ifs at hb
  · exact Or.inl (hsub b hb)
  · exact Or.inl (hsub b hb)
  · rcases List.mem_append.1 hb with hb | hb
    · exact Or.inl (hsub b hb)
    · exact Or.inr (List.mem_singleton.1 hb)

theorem work_subset_foldl_note (l : List α) : ∀ {s : State α}, (∀ b ∈ s.work, b ∈ s.seen) →
    ∀ b ∈ (l.foldl note s).work, b ∈ (l.foldl note s).seen := by
  induction l with
  | nil => exact fun hs => hs
  | cons a l ih => exact fun hs => ih (work_subset_note hs)

/-- The things seen in the end are those that are reachable. -/
theorem mem_seen_run {U : Finset α} (hU : ∀ a, ∀ b ∈ next a, b ∈ U) (hs : Inv next R [] s)
    (hsub : ∀ a ∈ s.work, a ∈ s.seen) {a : α} :
    a ∈ (run next U hU s).seen ↔ Reach.Reachable (fun a b => b ∈ next a) R a := by
  induction s using run.induct next U hU with
  | case1 s hw =>
    rw [run, dif_pos hw]
    refine Reach.Reachable.iff_of_closed hs.sound hs.root ?_
    intro b c hb hc
    rcases hs.done b hb with hwb | hn
    · simp [hw] at hwb
    · exact (hn c hc).resolve_right (by simp)
  | case2 s hw ih =>
    rw [run, dif_neg hw]
    refine ih (Inv.foldl_note _ (hs.pop hw hsub)) (work_subset_foldl_note _ ?_)
    exact fun b hb => hsub b (List.dropLast_subset _ hb)

theorem mem_seen_foldl_note {a : α} (l : List α) : ∀ {s : State α},
    a ∈ (l.foldl note s).seen ↔ a ∈ s.seen ∨ a ∈ l := by
  induction l with
  | nil => simp
  | cons b l ih =>
    intro s
    rw [List.foldl_cons, ih, mem_seen_note, List.mem_cons, or_assoc]

theorem seen_subset_foldl_note (l : List α) : ∀ {s : State α}, (∀ b ∈ s.seen, b ∈ s.work) →
    ∀ b ∈ (l.foldl note s).seen, b ∈ (l.foldl note s).work := by
  induction l with
  | nil => exact fun hs => hs
  | cons a l ih =>
    intro s hs
    refine ih fun b hb => ?_
    by_cases hbs : b ∈ s.seen
    · exact mem_work_note (hs b hbs)
    · obtain rfl := (mem_seen_note.1 hb).resolve_left hbs
      exact note_mem_work hbs

/-- What is noted at the start, before anything is worked on. -/
theorem inv_foldl_note (next : α → List α) (l : List α) :
    Inv next (· ∈ l) [] (l.foldl note ⟨[], []⟩) where
  sound a ha := .root (by simpa using (mem_seen_foldl_note l).1 ha)
  root a ha := (mem_seen_foldl_note l).2 (Or.inr ha)
  done a ha := Or.inl (seen_subset_foldl_note l (by simp) a ha)
  current a ha := by simp at ha

end Worklist
