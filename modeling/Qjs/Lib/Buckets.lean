import Mathlib.Data.List.GetD
import Mathlib.Data.List.Perm.Basic
import Mathlib.Tactic.Common

/-!
# Chains in buckets

Elements in lists, each in the list that its number selects.
-/

namespace Qjs

namespace Buckets

variable {α : Type*} (home : α → ℕ)

/-- Each element is in its bucket. -/
def Placed (bs : List (List α)) : Prop :=
  ∀ (i : ℕ) (chain : List α), bs[i]? = some chain → ∀ e ∈ chain, home e % bs.length = i

/-- An element at the front of its chain. -/
def link (bs : List (List α)) (e : α) : List (List α) :=
  bs.modify (home e % bs.length) (e :: ·)

variable {home} {bs : List (List α)}

theorem length_link (e : α) : (link home bs e).length = bs.length := List.length_modify ..

theorem getElem?_modify_eq {f : List α → List α} {i : ℕ} {chain : List α}
    (h : bs[i]? = some chain) :
    (bs.modify i f)[i]? = some (f chain) := by
  rw [List.getElem?_modify_eq, h]
  rfl

/-- A change of one chain, in the list of all elements. -/
theorem flatten_modify {f : List α → List α} {i : ℕ} {chain : List α} (h : bs[i]? = some chain) :
    ∃ before after, bs.flatten = before ++ chain ++ after ∧
      (bs.modify i f).flatten = before ++ f chain ++ after := by
  obtain ⟨hi, rfl⟩ := List.getElem?_eq_some_iff.1 h
  refine ⟨(bs.take i).flatten, (bs.drop (i + 1)).flatten, ?_, ?_⟩
  · have hsplit : bs = bs.take i ++ bs[i] :: bs.drop (i + 1) := by
      rw [← List.drop_eq_getElem_cons hi, List.take_append_drop]
    have hflat := congrArg List.flatten hsplit
    rwa [List.flatten_append, List.flatten_cons, ← List.append_assoc] at hflat
  · rw [List.modify_eq_take_cons_drop hi]
    simp

theorem exists_chain (hne : bs ≠ []) (n : ℕ) : ∃ chain, bs[n % bs.length]? = some chain :=
  ⟨_, List.getElem?_eq_getElem (Nat.mod_lt _ (List.length_pos_iff.2 hne))⟩

theorem flatten_link (hne : bs ≠ []) (e : α) : (link home bs e).flatten.Perm (e :: bs.flatten) := by
  obtain ⟨chain, hchain⟩ := exists_chain hne (home e)
  obtain ⟨before, after, hold, hnew⟩ := flatten_modify (f := (e :: ·)) hchain
  rw [link, hnew, hold, List.append_assoc, List.append_assoc, List.cons_append]
  exact List.perm_middle

/-- A chain may be changed to one whose elements belong to its bucket. -/
theorem Placed.modify (h : Placed home bs) {f : List α → List α} {i : ℕ} {chain : List α}
    (hchain : bs[i]? = some chain) (hf : ∀ e ∈ f chain, home e % bs.length = i) :
    Placed home (bs.modify i f) := by
  intro j chain' hj e he
  rw [List.length_modify]
  by_cases hij : i = j
  · subst hij
    rw [getElem?_modify_eq hchain] at hj
    obtain rfl := Option.some.inj hj
    exact hf e he
  · rw [List.getElem?_modify_ne f bs hij] at hj
    exact h j chain' hj e he

theorem Placed.link (h : Placed home bs) (hne : bs ≠ []) (e : α) :
    Placed home (link home bs e) := by
  obtain ⟨chain, hchain⟩ := exists_chain hne (home e)
  refine h.modify hchain fun e' he' => ?_
  obtain rfl | he' := List.mem_cons.1 he'
  · rfl
  · exact h _ _ hchain e' he'

theorem placed_replicate (n : ℕ) : Placed home (List.replicate n ([] : List α)) := by
  intro i chain hchain e he
  obtain rfl := List.eq_of_mem_replicate (List.mem_of_getElem? hchain)
  cases he

theorem mem_flatten_of_getElem? {i : ℕ} {chain : List α} (h : bs[i]? = some chain) {e : α}
    (he : e ∈ chain) : e ∈ bs.flatten :=
  List.mem_flatten.2 ⟨chain, List.mem_of_getElem? h, he⟩

/-- An element is found in the chain that its number selects. -/
theorem Placed.mem_chain (h : Placed home bs) {e : α} (he : e ∈ bs.flatten) :
    ∃ chain, bs[home e % bs.length]? = some chain ∧ e ∈ chain := by
  obtain ⟨chain, hchain, he⟩ := List.mem_flatten.1 he
  obtain ⟨i, hi⟩ := List.mem_iff_getElem?.1 hchain
  exact ⟨chain, by rw [h i chain hi e he, hi], he⟩

end Buckets

end Qjs
