import Mathlib

/-!
# Linked chains

`Linked next o l` says that following `next` from `o` visits the nodes of `l` in order and then
ends. Chains are changed at the front and by taking a node out; what lies on other nodes does not
count.
-/

namespace Qjs

namespace Linked

variable {α : Type*}

def IsLinked (next : α → Option α) : Option α → List α → Prop
  | none, [] => True
  | some x, y :: l => x = y ∧ IsLinked next (next x) l
  | _, _ => False

variable {next next' : α → Option α} {o : Option α} {l l₁ l₂ : List α} {x y : α}

theorem isLinked_cons : IsLinked next o (y :: l) ↔ o = some y ∧ IsLinked next (next y) l := by
  cases o with
  | none => simp [IsLinked]
  | some x =>
    simp only [IsLinked, Option.some.injEq]
    constructor
    · rintro ⟨rfl, h⟩
      exact ⟨rfl, h⟩
    · rintro ⟨rfl, h⟩
      exact ⟨rfl, h⟩

theorem isLinked_nil : IsLinked next o [] ↔ o = none := by
  cases o <;> simp [IsLinked]

/-- Only the nodes of the chain count. -/
theorem IsLinked.congr (hn : ∀ x ∈ l, next' x = next x) (h : IsLinked next o l) :
    IsLinked next' o l := by
  induction l generalizing o with
  | nil => exact isLinked_nil.2 (isLinked_nil.1 h)
  | cons y l ih =>
    obtain ⟨ho, hl⟩ := isLinked_cons.1 h
    refine isLinked_cons.2 ⟨ho, ?_⟩
    rw [hn y List.mem_cons_self]
    exact ih (fun x hx => hn x (List.mem_cons_of_mem y hx)) hl

/-- Taking out the node after `l₁`: what came before it now goes on with what came after. -/
theorem IsLinked.unlink [DecidableEq α] (h : IsLinked next o (l₁ ++ y :: l₂)) (hd : (l₁ ++ y :: l₂).Nodup)
    (hn : ∀ x ∈ l₁ ++ l₂, next' x = if some x = l₁.getLast? then next y else next x) :
    IsLinked next' (if l₁ = [] then next y else o) (l₁ ++ l₂) := by
  induction l₁ generalizing o with
  | nil =>
    simp only [List.nil_append, if_true] at *
    refine (isLinked_cons.1 h).2.congr ?_
    intro x hx
    rw [hn x hx]
    simp
  | cons z l₁ ih =>
    obtain ⟨rfl, hl⟩ := isLinked_cons.1 h
    rw [List.cons_append, List.nodup_cons] at hd
    rw [if_neg (by simp), List.cons_append, isLinked_cons]
    refine ⟨rfl, ?_⟩
    have hz := hn z (by simp)
    have hrest : ∀ x ∈ l₁ ++ l₂, next' x = if some x = l₁.getLast? then next y else next x := by
      intro x hx
      rw [hn x (List.mem_cons_of_mem z hx)]
      cases l₁ with
      | nil =>
        have hxz : x ≠ z := by
          rintro rfl
          exact hd.1 (by simp at hx ⊢; exact .inr hx)
        simp [hxz]
      | cons w l₁ => simp [List.getLast?_cons_cons]
    have key := ih hl hd.2 hrest
    cases l₁ with
    | nil =>
      simp only [List.getLast?_singleton, if_true] at hz
      rw [hz]
      simpa using key
    | cons w l₁ =>
      have hne : some z ≠ (z :: w :: l₁).getLast? := by
        rw [List.getLast?_cons_cons]
        intro he
        have := List.mem_of_getLast? he.symm
        exact hd.1 (List.mem_append_left _ this)
      rw [if_neg hne] at hz
      rw [hz]
      simpa using key

/-- The first node from `o` on that passes the test, with the node before it. -/
def search (next : α → Option α) (p : α → Bool) : ℕ → Option α → Option α → Option (Option α × α)
  | 0, _, _ => none
  | _ + 1, _, none => none
  | fuel + 1, last, some x => if p x then some (last, x) else search next p fuel (some x) (next x)

/-- With enough steps a search finds the node that passes, if there is one. -/
theorem search_linked {p : α → Bool} : ∀ (fuel : ℕ) (last : Option α) {o : Option α} {l : List α},
    IsLinked next o l → l.length < fuel →
    (search next p fuel last o = none ∧ ∀ x ∈ l, p x = false)
      ∨ ∃ l₁ y l₂, l = l₁ ++ y :: l₂ ∧ p y = true ∧ (∀ x ∈ l₁, p x = false)
        ∧ search next p fuel last o = some (if l₁ = [] then last else l₁.getLast?, y)
  | 0, _, _, _, _, hf => by simp at hf
  | fuel + 1, last, o, [], h, _ => by
    rw [isLinked_nil.1 h]
    exact .inl ⟨rfl, by simp⟩
  | fuel + 1, last, o, y :: l, h, hf => by
    obtain ⟨rfl, hl⟩ := isLinked_cons.1 h
    rw [search]
    cases hp : p y with
    | true => exact .inr ⟨[], y, l, rfl, hp, by simp, by simp⟩
    | false =>
      rw [if_neg (by simp)]
      rcases search_linked fuel (some y) hl (Nat.lt_of_succ_lt_succ hf) with
        ⟨h1, h2⟩ | ⟨l₁, z, l₂, rfl, hz, hl₁, hs⟩
      · refine .inl ⟨h1, ?_⟩
        intro x hx
        rcases List.mem_cons.1 hx with rfl | hx
        · exact hp
        · exact h2 x hx
      · refine .inr ⟨y :: l₁, z, l₂, rfl, hz, ?_, ?_⟩
        · intro x hx
          rcases List.mem_cons.1 hx with rfl | hx
          · exact hp
          · exact hl₁ x hx
        · rw [hs]
          cases l₁ with
          | nil => rfl
          | cons w l₁ => simp [List.getLast?_cons_cons]

end Linked

end Qjs
