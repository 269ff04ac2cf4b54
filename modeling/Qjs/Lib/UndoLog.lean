import Mathlib.Data.List.Forall2
import Mathlib.Data.List.GetD

/-!
# Undo logs

A store is a list of values. Before a slot is overwritten its value goes to a log, with the index of
the slot; playing the log back, newest entry first, restores what the store was when the log was
empty, however often a slot was written. A slot that is in the log already need not be logged
again (`undoAll_set_of_mem`). The store may come back up to a relation between values, for logs
that keep a value in fewer bits.
-/

namespace UndoLog

variable {α : Type*} {R : α → α → Prop} {log log' : List (ℕ × α)} {m m' : List α} {i : ℕ} {v : α}

/-- The store after the log has been played back; the newest entry comes first. -/
def undoAll : List (ℕ × α) → List α → List α
  | [], m => m
  | (i, v) :: log, m => undoAll log (m.set i v)

@[simp] theorem undoAll_nil (m : List α) : undoAll [] m = m := rfl

@[simp] theorem undoAll_cons (i : ℕ) (v : α) (log : List (ℕ × α)) (m : List α) :
    undoAll ((i, v) :: log) m = undoAll log (m.set i v) := rfl

theorem undoAll_append : ∀ (log log' : List (ℕ × α)) (m : List α),
    undoAll (log ++ log') m = undoAll log' (undoAll log m)
  | [], _, _ => rfl
  | (i, v) :: log, log', m => by
    rw [List.cons_append, undoAll_cons, undoAll_cons, undoAll_append log log']

@[simp] theorem length_undoAll : ∀ (log : List (ℕ × α)) (m : List α),
    (undoAll log m).length = m.length
  | [], _ => rfl
  | (i, v) :: log, m => by
    rw [undoAll_cons, length_undoAll log, List.length_set]

/-- What a slot of the log holds makes no difference. -/
theorem undoAll_set_of_mem : ∀ {log : List (ℕ × α)} (m : List α) (v : α),
    i ∈ log.map Prod.fst → undoAll log (m.set i v) = undoAll log m
  | [], _, _, h => by cases h
  | (j, w) :: log, m, v, h => by
    rw [undoAll_cons, undoAll_cons]
    by_cases hij : i = j
    · rw [hij, List.set_set]
    · rw [List.set_comm _ _ hij]
      refine undoAll_set_of_mem _ _ ?_
      rw [List.map_cons, List.mem_cons] at h
      exact h.resolve_left hij

/-! ### Stores that agree slot by slot -/

theorem forall₂_set {l l' : List α} {a b : α} (h : List.Forall₂ R l l') (hab : R a b) (i : ℕ) :
    List.Forall₂ R (l.set i a) (l'.set i b) := by
  induction h generalizing i with
  | nil => exact .nil
  | cons hx _ ih =>
    cases i with
    | zero => exact .cons hab ‹_›
    | succ i => exact .cons hx (ih i)

theorem forall₂_trans (htrans : ∀ a b c, R a b → R b c → R a c) {l l' l'' : List α}
    (h : List.Forall₂ R l l') (h' : List.Forall₂ R l' l'') : List.Forall₂ R l l'' := by
  induction h generalizing l'' with
  | nil => exact h'
  | cons hx _ ih =>
    cases h' with
    | cons hy h' => exact .cons (htrans _ _ _ hx hy) (ih h')

theorem forall₂_undoAll (hrefl : ∀ a, R a a) : ∀ (log : List (ℕ × α)) {m m' : List α},
    List.Forall₂ R m m' → List.Forall₂ R (undoAll log m) (undoAll log m')
  | [], _, _, h => h
  | (i, v) :: log, _, _, h => forall₂_undoAll hrefl log (forall₂_set h (hrefl v) i)

/-- Writing a slot back as it is in the store, up to the relation. -/
theorem forall₂_set_getD (hrefl : ∀ a, R a a) {d a : α} (h : R a (m.getD i d)) :
    List.Forall₂ R (m.set i a) m := by
  have hself : m.set i (m.getD i d) = m := by
    by_cases hi : i < m.length
    · rw [List.getD_eq_getElem _ _ hi, List.set_getElem_self]
    · exact List.set_eq_of_length_le (by omega)
  conv_rhs => rw [← hself]
  exact forall₂_set (List.forall₂_same.2 fun a _ => hrefl a) h i

/-- The log takes one store back to the other. -/
def Restores (R : α → α → Prop) (log : List (ℕ × α)) (m m' : List α) : Prop :=
  List.Forall₂ R (undoAll log m) m'

theorem Restores.refl (hrefl : ∀ a, R a a) (m : List α) : Restores R [] m m :=
  List.forall₂_same.2 fun a _ => hrefl a

/-- Of two stores that agree. -/
theorem Restores.congr (hrefl : ∀ a, R a a) (htrans : ∀ a b c, R a b → R b c → R a c)
    {m₁ : List α} (h : Restores R log m m') (h₁ : List.Forall₂ R m₁ m) :
    Restores R log m₁ m' :=
  forall₂_trans htrans (forall₂_undoAll hrefl log h₁) h

/-- One log after the other. -/
theorem Restores.append (hrefl : ∀ a, R a a) (htrans : ∀ a b c, R a b → R b c → R a c)
    {m'' : List α} (h : Restores R log m m') (h' : Restores R log' m' m'') :
    Restores R (log ++ log') m m'' := by
  rw [Restores, undoAll_append]
  exact h'.congr hrefl htrans h

/-- A slot is logged, then written. -/
theorem Restores.save (hrefl : ∀ a, R a a) (htrans : ∀ a b c, R a b → R b c → R a c)
    (h : Restores R log m m') {d a : α} (ha : R a (m.getD i d)) (v : α) :
    Restores R ((i, a) :: log) (m.set i v) m' := by
  rw [Restores, undoAll_cons, List.set_set]
  exact h.congr hrefl htrans (forall₂_set_getD hrefl ha)

/-- A slot in the log is written. -/
theorem Restores.write (h : Restores R log m m') (hi : i ∈ log.map Prod.fst) (v : α) :
    Restores R log (m.set i v) m' := by
  rwa [Restores, undoAll_set_of_mem m v hi]

end UndoLog
