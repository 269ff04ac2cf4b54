import Qjs.Proofs.PropsOps

/-!
# Property tables: deletion

The slot is taken off its chain, becomes a hole, and the holes before the first free slot are given
back. What is left are the other properties, in their order (`removeProperty_ok`).
-/

namespace Qjs

open Linked

variable {a : Arch} {t t' : ValueArray} {hm n m i k : ℕ} {chain : ℕ → List ℕ}

/-! ### The search -/

theorem indexOf_eq_linkOf {w : ℕ} (h : w % 2 = 0) : indexOf (w / 2) = linkOf w := by
  unfold indexOf linkOf
  by_cases hw : w = 0
  · simp [hw]
  · rw [if_neg (by omega), if_neg hw]

/-- Both ways to read the links see the same chains. -/
theorem ChainsOk.linked_index (hc : ChainsOk a t hm m chain) {h : ℕ} (hh : h ≤ hm) :
    IsLinked (nextIndex t) (indexOf (wordGetInt (t.arr (2 + h)))) (chain h) := by
  obtain ⟨h1, h2⟩ := hc.head h hh
  have hhead : indexOf (wordGetInt (t.arr (2 + h))) = linkOf (t.arr (2 + h)) := by
    rw [wordGetInt, Nat.mod_eq_of_lt (by omega), indexOf_eq_linkOf h1]
  rw [hhead]
  refine (hc.linked h hh).congr ?_
  intro p hp
  obtain ⟨i, hi, hu, rfl, -⟩ := (hc.mem h hh p).1 hp
  exact indexOf_eq_linkOf (hc.even i hi hu)

/-! ### Trimming -/

theorem trimFirstFree_ok (b : ℕ) : ∀ (fuel m : ℕ), m ≤ fuel →
    ∃ m' ≤ m, trimFirstFree t b fuel (b + 3 * m) = b + 3 * m' ∧ (∀ i, m' = i + 1 → Used t b i)
      ∧ ∀ j, m' ≤ j → j < m → ¬Used t b j
  | 0, m, hm => by
    obtain rfl : m = 0 := by omega
    exact ⟨0, le_rfl, rfl, by simp, fun j h1 h2 => by omega⟩
  | fuel + 1, 0, _ => by
    refine ⟨0, le_rfl, ?_, by simp, fun j h1 h2 => by omega⟩
    rw [trimFirstFree, if_neg (by omega)]
  | fuel + 1, m + 1, hm => by
    rw [trimFirstFree, if_pos (by omega), show b + 3 * (m + 1) - 3 = b + 3 * m by omega]
    by_cases hu : t.arr (b + 3 * m) ≠ uninitializedWord
    · rw [if_pos hu]
      refine ⟨m + 1, le_rfl, rfl, ?_, fun j h1 h2 => by omega⟩
      intro i hi
      obtain rfl : m = i := Nat.succ.inj hi
      exact hu
    · rw [if_neg hu]
      obtain ⟨m', hle, h1, h2, h3⟩ := trimFirstFree_ok b fuel m (by omega)
      refine ⟨m', by omega, h1, h2, ?_⟩
      intro j hj1 hj2
      rcases Nat.lt_succ_iff_lt_or_eq.1 hj2 with hj | rfl
      · exact h3 j hj1 hj
      · exact hu

/-- Holes at the end are on no chain. -/
theorem ChainsOk.shrink {m' : ℕ} (hc : ChainsOk a t hm m chain) (hle : m' ≤ m)
    (hu : ∀ j, m' ≤ j → j < m → ¬Used t (2 + (hm + 1)) j) : ChainsOk a t hm m' chain := by
  refine ⟨hc.linked, hc.head, fun j hj => hc.even j (hj.trans_le hle), ?_, hc.nodup⟩
  intro h hh p
  rw [hc.mem h hh p]
  constructor
  · rintro ⟨j, hj, h1, h2⟩
    refine ⟨j, ?_, h1, h2⟩
    by_contra hge
    exact hu j (not_lt.1 hge) hj h1
  · rintro ⟨j, hj, h1⟩
    exact ⟨j, hj.trans_le hle, h1⟩

theorem entriesOf_shrink {b m' : ℕ} (hle : m' ≤ m) (hu : ∀ j, m' ≤ j → j < m → ¬Used t b j) :
    entriesOf t b m = entriesOf t b m' := by
  induction m, hle using Nat.le_induction with
  | base => rfl
  | succ m hle ih =>
    rw [entriesOf_succ, if_neg (hu m hle (Nat.lt_succ_self m)), List.append_nil]
    exact ih fun j h1 h2 => hu j h1 (Nat.lt_succ_of_lt h2)

/-! ### Unlinking -/

/-- Only the link to the slot at `pos` changes: the one before it on the chain, or the head. -/
structure Unlinked (t t' : ValueArray) (hm h₀ i₀ : ℕ) (l₁ : List ℕ) : Prop where
  size_eq : t'.size = t.size
  count_eq : t'.arr 0 = t.arr 0
  mask_eq : t'.arr 1 = t.arr 1
  entry : ∀ i, entryAt t' (2 + (hm + 1)) i = entryAt t (2 + (hm + 1)) i
  link : ∀ i, some (2 + (hm + 1) + 3 * i) ≠ l₁.getLast? →
    linkAt t' (2 + (hm + 1)) i = linkAt t (2 + (hm + 1)) i
  next : ∀ i, some (2 + (hm + 1) + 3 * i) = l₁.getLast? →
    hashNext (linkAt t' (2 + (hm + 1)) i) = hashNext (linkAt t (2 + (hm + 1)) i₀)
  heads : ∀ h ≤ hm, t'.arr (2 + h)
    = if h = h₀ ∧ l₁ = [] then hashNext (linkAt t (2 + (hm + 1)) i₀) else t.arr (2 + h)

theorem hashNext_mod (w : ℕ) : hashNext w % 2 ^ 30 = hashNext w := by
  unfold hashNext
  omega

theorem unlinkProperty_unlinked {h₀ i₀ : ℕ} {l₁ l₂ : List ℕ} (hc : ChainsOk a t hm m chain)
    (hh₀ : h₀ ≤ hm) (hl : chain h₀ = l₁ ++ (2 + (hm + 1) + 3 * i₀) :: l₂) :
    Unlinked t (unlinkProperty t (2 + h₀) (2 + (hm + 1) + 3 * i₀)
      (if l₁ = [] then none else l₁.getLast?)) hm h₀ i₀ l₁ := by
  by_cases hnil : l₁ = []
  · -- the head of the chain
    subst hnil
    rw [if_pos rfl]
    have harr : ∀ j, (unlinkProperty t (2 + h₀) (2 + (hm + 1) + 3 * i₀) none).arr j
        = if j = 2 + h₀ then hashNext (t.arr (2 + (hm + 1) + 3 * i₀ + 2)) else t.arr j :=
      t.arr_set _ _
    refine ⟨rfl, ?_, ?_, ?_, ?_, ?_, ?_⟩
    · rw [harr, if_neg (by omega)]
    · rw [harr, if_neg (by omega)]
    · intro i
      unfold entryAt keyAt valueAt linkAt
      rw [harr, if_neg (by omega), harr, if_neg (by omega), harr, if_neg (by omega)]
    · intro i _
      unfold linkAt
      rw [harr, if_neg (by omega)]
    · intro i hi
      simp at hi
    · intro h hh
      rw [harr]
      by_cases he : h = h₀
      · rw [if_pos (by omega), if_pos ⟨he, rfl⟩]
        rfl
      · rw [if_neg (by omega), if_neg (fun hc => he hc.1)]
  · -- a slot of the chain comes before
    rw [if_neg hnil]
    obtain ⟨init, last, rfl⟩ := List.eq_nil_or_concat l₁ |>.resolve_left hnil
    rw [List.concat_eq_append] at *
    obtain ⟨il, hil, hul, rfl, -⟩ := (hc.mem h₀ hh₀ last).1 (by simp [hl])
    have hlast : (init ++ [2 + (hm + 1) + 3 * il]).getLast? = some (2 + (hm + 1) + 3 * il) := by simp
    rw [hlast]
    have harr : ∀ j, (unlinkProperty t (2 + h₀) (2 + (hm + 1) + 3 * i₀)
        (some (2 + (hm + 1) + 3 * il))).arr j
        = if j = 2 + (hm + 1) + 3 * il + 2 then setHashNext (t.arr (2 + (hm + 1) + 3 * il + 2))
            (hashNext (t.arr (2 + (hm + 1) + 3 * i₀ + 2))) else t.arr j := t.arr_set _ _
    refine ⟨rfl, ?_, ?_, ?_, ?_, ?_, ?_⟩
    · rw [harr, if_neg (by omega)]
    · rw [harr, if_neg (by omega)]
    · intro i
      unfold entryAt keyAt valueAt linkAt
      rw [harr, if_neg (by omega), harr, if_neg (by omega), harr]
      by_cases hi : i = il
      · rw [if_pos (by omega), propType_setHashNext, hi]
      · rw [if_neg (by omega)]
    · intro i hi
      rw [hlast, Ne, Option.some.injEq] at hi
      unfold linkAt
      rw [harr, if_neg (by omega)]
    · intro i hi
      rw [hlast, Option.some.injEq] at hi
      unfold linkAt
      rw [harr, if_pos (by omega), hashNext_setHashNext, hashNext_mod]
    · intro h hh
      rw [harr, if_neg (by omega), if_neg (by simp)]

theorem Unlinked.getFirstFree_eq {h₀ i₀ : ℕ} {l₁ l₂ : List ℕ} (hp : PropsOk a t hm n m chain)
    (hh₀ : h₀ ≤ hm) (hl : chain h₀ = l₁ ++ (2 + (hm + 1) + 3 * i₀) :: l₂)
    (hu : Unlinked t t' hm h₀ i₀ l₁) : getFirstFree t' = 2 + (hm + 1) + 3 * m := by
  obtain ⟨j, hj, -⟩ := (hp.chains.mem h₀ hh₀ (2 + (hm + 1) + 3 * i₀)).1 (by simp [hl])
  have hsize := hp.slots.size_eq
  have hle := hp.slots.m_le
  have e1 : t.size - 3 = 2 + (hm + 1) + 3 * (n - 1) := by omega
  have e2 : t.size - 1 = 2 + (hm + 1) + 3 * (n - 1) + 2 := by omega
  have hkey : t'.arr (t'.size - 3) = t.arr (t.size - 3) := by
    rw [hu.size_eq, e1]
    exact congrArg Entry.key (hu.entry (n - 1))
  rw [← hp.getFirstFree_eq]
  unfold getFirstFree
  rw [hkey]
  by_cases hlast : t.arr (t.size - 3) = uninitializedWord
  · rw [if_pos hlast, if_pos hlast, hu.size_eq, e2]
    have hlink : linkAt t' (2 + (hm + 1)) (n - 1) = linkAt t (2 + (hm + 1)) (n - 1) := by
      apply hu.link
      intro he
      have hmem := List.mem_of_getLast? he.symm
      obtain ⟨i, -, hui, hpos, -⟩ := (hp.chains.mem h₀ hh₀ (2 + (hm + 1) + 3 * (n - 1))).1
        (by rw [hl]; exact List.mem_append_left _ hmem)
      obtain rfl : n - 1 = i := by omega
      rw [e1] at hlast
      exact hui hlast
    unfold linkAt at hlink
    rw [hlink]
  · rw [if_neg hlast, if_neg hlast, hu.size_eq]

/-- The chains without the slot `i₀`. -/
theorem Unlinked.chains {h₀ i₀ : ℕ} {l₁ l₂ : List ℕ} {u : ValueArray}
    (hc : ChainsOk a t hm m chain) (hh₀ : h₀ ≤ hm)
    (hl : chain h₀ = l₁ ++ (2 + (hm + 1) + 3 * i₀) :: l₂) (hu : Unlinked t t' hm h₀ i₀ l₁)
    (hhash : hashProp a (keyAt t (2 + (hm + 1)) i₀) &&& hm = h₀)
    (hhole : ¬Used u (2 + (hm + 1)) i₀)
    (hkey : ∀ i < m, i ≠ i₀ → keyAt u (2 + (hm + 1)) i = keyAt t' (2 + (hm + 1)) i)
    (hlink : ∀ i < m, Used u (2 + (hm + 1)) i →
      hashNext (linkAt u (2 + (hm + 1)) i) = hashNext (linkAt t' (2 + (hm + 1)) i))
    (hhead : ∀ h ≤ hm, u.arr (2 + h) = t'.arr (2 + h)) (hi₀ : i₀ < m)
    (hui₀ : Used t (2 + (hm + 1)) i₀) :
    ChainsOk a u hm m (Function.update chain h₀ (l₁ ++ l₂)) := by
  have hkey' : ∀ i < m, i ≠ i₀ → keyAt u (2 + (hm + 1)) i = keyAt t (2 + (hm + 1)) i :=
    fun i hi hne => (hkey i hi hne).trans (congrArg Entry.key (hu.entry i))
  have hused : ∀ i < m, Used u (2 + (hm + 1)) i ↔ Used t (2 + (hm + 1)) i ∧ i ≠ i₀ := by
    intro i hi
    by_cases he : i = i₀
    · subst he
      simp [hhole]
    · unfold Used
      rw [hkey' i hi he]
      simp [he]
  have hnodup := hc.nodup h₀ hh₀
  rw [hl] at hnodup
  have hne : ∀ x ∈ l₁ ++ l₂, x ≠ 2 + (hm + 1) + 3 * i₀ := by
    rintro x hx rfl
    rw [List.nodup_middle, List.nodup_cons] at hnodup
    exact hnodup.1 hx
  -- what a slot that stays is linked to
  have hnext : ∀ i < m, Used u (2 + (hm + 1)) i → nextSlot u (2 + (hm + 1) + 3 * i)
      = if some (2 + (hm + 1) + 3 * i) = l₁.getLast? then nextSlot t (2 + (hm + 1) + 3 * i₀)
        else nextSlot t (2 + (hm + 1) + 3 * i) := by
    intro i hi hui
    have h1 : nextSlot u (2 + (hm + 1) + 3 * i) = linkOf (hashNext (linkAt t' (2 + (hm + 1)) i)) :=
      congrArg linkOf (hlink i hi hui)
    rw [h1]
    split_ifs with he
    · rw [hu.next i he]
      rfl
    · rw [hu.link i he]
      rfl
  have hmem : ∀ h ≤ hm, ∀ p, p ∈ Function.update chain h₀ (l₁ ++ l₂) h
      ↔ p ∈ chain h ∧ p ≠ 2 + (hm + 1) + 3 * i₀ := by
    intro h hh p
    by_cases he : h = h₀
    · subst he
      rw [Function.update_self, hl]
      simp only [List.mem_append, List.mem_cons]
      constructor
      · intro hp
        have := hne p (List.mem_append.2 hp)
        exact ⟨hp.imp_right .inr, this⟩
      · rintro ⟨h1 | rfl | h1, h2⟩
        · exact .inl h1
        · exact absurd rfl h2
        · exact .inr h1
    · rw [Function.update_of_ne he]
      refine ⟨fun hp => ⟨hp, ?_⟩, fun hp => hp.1⟩
      rintro rfl
      obtain ⟨i, hi, -, hpos, hh'⟩ := (hc.mem h hh _).1 hp
      obtain rfl : i₀ = i := by omega
      exact he (hh'.symm.trans hhash)
  refine ⟨?_, ?_, ?_, ?_, ?_⟩
  · intro h hh
    by_cases he : h = h₀
    · subst he
      have hlinked := hc.linked h hh
      rw [hl] at hlinked
      rw [Function.update_self, hhead h hh, hu.heads h hh]
      have hunlinked : IsLinked (nextSlot u)
          (if l₁ = [] then nextSlot t (2 + (hm + 1) + 3 * i₀) else linkOf (t.arr (2 + h))) (l₁ ++ l₂) := by
        refine hlinked.unlink hnodup ?_
        intro x hx
        have hxc : x ∈ chain h := by
          rw [hl]
          simp only [List.mem_append, List.mem_cons] at hx ⊢
          exact hx.imp_right .inr
        obtain ⟨i, hi, hui, rfl, -⟩ := (hc.mem h hh x).1 hxc
        refine hnext i hi ((hused i hi).2 ⟨hui, ?_⟩)
        rintro rfl
        exact hne _ hx rfl
      by_cases hnil : l₁ = []
      · rw [if_pos ⟨rfl, hnil⟩]
        rwa [if_pos hnil] at hunlinked
      · rw [if_neg (fun hc => hnil hc.2)]
        rwa [if_neg hnil] at hunlinked
    · rw [Function.update_of_ne he, hhead h hh, hu.heads h hh, if_neg (fun hc => he hc.1)]
      refine (hc.linked h hh).congr ?_
      intro x hx
      obtain ⟨i, hi, hui, rfl, hih⟩ := (hc.mem h hh x).1 hx
      have hine : i ≠ i₀ := by
        rintro rfl
        exact he (hih.symm.trans hhash)
      rw [hnext i hi ((hused i hi).2 ⟨hui, hine⟩), if_neg]
      intro hlast
      -- a slot is on one chain only
      have hx' : 2 + (hm + 1) + 3 * i ∈ chain h₀ := by
        rw [hl]
        exact List.mem_append_left _ (List.mem_of_getLast? hlast.symm)
      obtain ⟨j, -, -, hpos, hjh⟩ := (hc.mem h₀ hh₀ _).1 hx'
      obtain rfl : i = j := by omega
      exact he (hih.symm.trans hjh)
  · intro h hh
    rw [hhead h hh, hu.heads h hh]
    split_ifs
    · refine ⟨hc.even i₀ hi₀ hui₀, ?_⟩
      unfold hashNext
      omega
    · exact hc.head h hh
  · intro i hi hui
    rw [hlink i hi hui]
    by_cases he : some (2 + (hm + 1) + 3 * i) = l₁.getLast?
    · rw [hu.next i he]
      exact hc.even i₀ hi₀ hui₀
    · rw [hu.link i he]
      exact hc.even i hi ((hused i hi).1 hui).1
  · intro h hh p
    rw [hmem h hh p, hc.mem h hh p]
    constructor
    · rintro ⟨⟨i, hi, h1, rfl, h3⟩, h4⟩
      have hine : i ≠ i₀ := by
        rintro rfl
        exact h4 rfl
      exact ⟨i, hi, (hused i hi).2 ⟨h1, hine⟩, rfl, by rw [hkey' i hi hine, h3]⟩
    · rintro ⟨i, hi, h1, rfl, h3⟩
      obtain ⟨h1, hine⟩ := (hused i hi).1 h1
      exact ⟨⟨i, hi, h1, rfl, by rw [← hkey' i hi hine, h3]⟩, by omega⟩
  · intro h hh
    by_cases he : h = h₀
    · subst he
      rw [Function.update_self]
      rw [List.nodup_middle, List.nodup_cons] at hnodup
      exact hnodup.2
    · rw [Function.update_of_ne he]
      exact hc.nodup h hh

/-! ### Making a hole -/

/-- What `clearProperty` writes: slot `i₀` becomes a hole, and the last slot may be told where the
first free one is. -/
structure Cleared (t u : ValueArray) (hm n i₀ count : ℕ) (last : Option ℕ) : Prop where
  size_eq : u.size = t.size
  count_eq : u.arr 0 = shortIntWord (count - 1)
  mask_eq : u.arr 1 = t.arr 1
  heads : ∀ h ≤ hm, u.arr (2 + h) = t.arr (2 + h)
  hole : ¬Used u (2 + (hm + 1)) i₀
  entry : ∀ i, i ≠ i₀ → entryAt u (2 + (hm + 1)) i = entryAt t (2 + (hm + 1)) i
  link : ∀ i, i ≠ i₀ → i ≠ n - 1 ∨ last = none →
    hashNext (linkAt u (2 + (hm + 1)) i) = hashNext (linkAt t (2 + (hm + 1)) i)
  free : ∀ p, last = some p → hashNext (linkAt u (2 + (hm + 1)) (n - 1)) = 2 * p % 2 ^ 30

theorem clearProperty_cleared {i₀ count : ℕ} (hmask : t.hashMask = hm) (hcount : t.propCount = count)
    (hsize : t.size = 2 + (hm + 1) + 3 * n) (hi₀ : i₀ < n) (hm_le : m ≤ n)
    (hfree : getFirstFree t = 2 + (hm + 1) + 3 * m) :
    ∃ m' ≤ m, (∀ i, m' = i + 1 → Used (clearProperty t (2 + (hm + 1) + 3 * i₀)) (2 + (hm + 1)) i)
      ∧ (∀ j, m' ≤ j → j < m → ¬Used (clearProperty t (2 + (hm + 1) + 3 * i₀)) (2 + (hm + 1)) j)
      ∧ Cleared t (clearProperty t (2 + (hm + 1) + 3 * i₀)) hm n i₀ count
        (if m' < n then some (2 + (hm + 1) + 3 * m') else none) := by
  generalize ht₁ : (((t.set 0 (shortIntWord (t.propCount - 1))).set (2 + (hm + 1) + 3 * i₀ + 2)
    (setPropType ((t.set 0 (shortIntWord (t.propCount - 1))).arr (2 + (hm + 1) + 3 * i₀ + 2))
      .normal)).set (2 + (hm + 1) + 3 * i₀) uninitializedWord).set (2 + (hm + 1) + 3 * i₀ + 1)
        undefinedWord = t₁
  have harr : ∀ j, t₁.arr j = if j = 2 + (hm + 1) + 3 * i₀ + 1 then undefinedWord
      else if j = 2 + (hm + 1) + 3 * i₀ then uninitializedWord
      else if j = 2 + (hm + 1) + 3 * i₀ + 2 then
        setPropType (t.arr (2 + (hm + 1) + 3 * i₀ + 2)) .normal
      else if j = 0 then shortIntWord (count - 1) else t.arr j := by
    intro j
    rw [← ht₁]
    simp only [ValueArray.arr_set, hcount]
    rw [if_neg (show ¬2 + (hm + 1) + 3 * i₀ + 2 = 0 by omega)]
  have hsize₁ : t₁.size = t.size := by rw [← ht₁]; rfl
  have hmask₁ : t₁.hashMask = hm := by
    rw [← hmask]
    unfold ValueArray.hashMask
    rw [harr, if_neg (by omega), if_neg (by omega), if_neg (by omega), if_neg (by omega)]
  have hbase : 2 + hm + 1 = 2 + (hm + 1) := by omega
  obtain ⟨m', hle, htrim, hlast, hholes⟩ :=
    trimFirstFree_ok (t := t₁) (2 + (hm + 1)) t₁.size m (by omega)
  generalize hu : clearProperty t (2 + (hm + 1) + 3 * i₀) = u
  have hclear : u = if 2 + (hm + 1) + 3 * m' < t₁.size then
      t₁.set (t₁.size - 1) (setHashNext (t₁.arr (t₁.size - 1)) (2 * (2 + (hm + 1) + 3 * m')))
      else t₁ := by
    rw [← hu]
    simp only [clearProperty, hfree, ht₁, hmask₁, hbase, htrim]
  have e1 : t₁.size - 1 = 2 + (hm + 1) + 3 * (n - 1) + 2 := by omega
  rw [e1] at hclear
  have huarr : ∀ j, j ≠ 2 + (hm + 1) + 3 * (n - 1) + 2 ∨ ¬m' < n → u.arr j = t₁.arr j := by
    intro j hj
    rw [hclear]
    split_ifs with hlt
    · rw [ValueArray.arr_set, if_neg]
      rcases hj with hj | hj
      · exact hj
      · omega
    · rfl
  have hulink : m' < n → u.arr (2 + (hm + 1) + 3 * (n - 1) + 2) = setHashNext
      (t₁.arr (2 + (hm + 1) + 3 * (n - 1) + 2)) (2 * (2 + (hm + 1) + 3 * m')) := by
    intro hlt
    rw [hclear, if_pos (by omega), ValueArray.arr_set, if_pos rfl]
  have hukey : ∀ j, keyAt u (2 + (hm + 1)) j = keyAt t₁ (2 + (hm + 1)) j :=
    fun j => huarr _ (.inl (by omega))
  have hused : ∀ j, Used u (2 + (hm + 1)) j ↔ Used t₁ (2 + (hm + 1)) j := by
    intro j
    unfold Used
    rw [hukey]
  refine ⟨m', hle, fun i hi => (hused i).2 (hlast i hi), fun j h1 h2 h3 => hholes j h1 h2 ((hused j).1 h3),
    ?_, ?_, ?_, ?_, ?_, ?_, ?_, ?_⟩
  · rw [hclear, ← hsize₁]
    split_ifs <;> rfl
  · rw [huarr _ (.inl (by omega)), harr, if_neg (by omega), if_neg (by omega), if_neg (by omega),
      if_pos rfl]
  · rw [huarr _ (.inl (by omega)), harr, if_neg (by omega), if_neg (by omega), if_neg (by omega),
      if_neg (by omega)]
  · intro h hh
    rw [huarr _ (.inl (by omega)), harr, if_neg (by omega), if_neg (by omega), if_neg (by omega),
      if_neg (by omega)]
  · rw [hused]
    unfold Used keyAt
    rw [harr, if_neg (by omega), if_pos rfl]
    simp
  · intro i hi
    have htype : propType (linkAt u (2 + (hm + 1)) i) = propType (t₁.arr (2 + (hm + 1) + 3 * i + 2)) := by
      unfold linkAt
      by_cases hc : i = n - 1 ∧ m' < n
      · rw [hc.1, hulink hc.2, propType_setHashNext]
      · rw [huarr _ (by omega)]
    unfold entryAt keyAt valueAt
    rw [htype, huarr _ (.inl (by omega)), huarr _ (.inl (by omega)), harr, if_neg (by omega),
      if_neg (by omega), if_neg (by omega), if_neg (by omega), harr, if_neg (by omega),
      if_neg (by omega), if_neg (by omega), if_neg (by omega), harr, if_neg (by omega),
      if_neg (by omega), if_neg (by omega), if_neg (by omega)]
    rfl
  · intro i hi hnot
    have hm'n : i ≠ n - 1 ∨ ¬m' < n := by
      refine hnot.imp_right ?_
      intro hnone hlt
      rw [if_pos hlt] at hnone
      cases hnone
    unfold linkAt
    rw [huarr _ (by omega), harr, if_neg (by omega), if_neg (by omega), if_neg (by omega),
      if_neg (by omega)]
  · intro p hp
    split_ifs at hp with hlt
    cases hp
    unfold linkAt
    rw [hulink hlt, hashNext_setHashNext]

/-- The list of properties without one key. -/
theorem entriesOf_erase {u : ValueArray} {b i₀ : ℕ} (hhole : ¬Used u b i₀)
    (he : ∀ i, i ≠ i₀ → entryAt u b i = entryAt t b i) : ∀ {m : ℕ},
    (∀ i < m, Used t b i → keyAt t b i = keyAt t b i₀ → i = i₀) →
    entriesOf u b m = (entriesOf t b m).filter fun e => e.key ≠ keyAt t b i₀
  | 0, _ => rfl
  | m + 1, hkeys => by
    rw [entriesOf_succ, entriesOf_succ, List.filter_append,
      entriesOf_erase hhole he fun i hi => hkeys i (Nat.lt_succ_of_lt hi)]
    congr 1
    by_cases hi : m = i₀
    · subst hi
      rw [if_neg hhole]
      split_ifs
      · simp [entryAt]
      · rfl
    · have hkey : keyAt u b m = keyAt t b m := congrArg Entry.key (he m hi)
      have hused : Used u b m ↔ Used t b m := by
        unfold Used
        rw [hkey]
      rw [he m hi]
      simp only [hused]
      split_ifs with hu
      · have hne : keyAt t b m ≠ keyAt t b i₀ := fun h => hi (hkeys m (Nat.lt_succ_self m) hu h)
        simp [entryAt, hne]
      · rfl

theorem length_filter_key {l : List Entry} {e : Entry} (hnodup : (l.map Entry.key).Nodup) (he : e ∈ l) :
    (l.filter fun x => x.key ≠ e.key).length = l.length - 1 := by
  have h1 := l.length_eq_countP_add_countP (fun x => x.key == e.key)
  have h2 : l.countP (fun x => x.key == e.key) = 1 := by
    rw [← List.count_eq_one_of_mem hnodup (List.mem_map_of_mem he), List.count, List.countP_map]
    rfl
  rw [← List.countP_eq_length_filter, h1, h2, Nat.add_sub_cancel_left]
  refine List.countP_congr ?_
  intro x _
  simp

/-- The table without one of its properties. -/
theorem removeProperty_ok {h₀ i₀ : ℕ} {l₁ l₂ : List ℕ} (hp : PropsOk a t hm n m chain)
    (hl : chain h₀ = l₁ ++ (2 + (hm + 1) + 3 * i₀) :: l₂)
    (hhash : hashProp a (keyAt t (2 + (hm + 1)) i₀) &&& hm = h₀) (hi₀ : i₀ < m)
    (hui₀ : Used t (2 + (hm + 1)) i₀) {u : ValueArray}
    (hu : u = clearProperty (unlinkProperty t (2 + h₀) (2 + (hm + 1) + 3 * i₀)
      (if l₁ = [] then none else l₁.getLast?)) (2 + (hm + 1) + 3 * i₀)) :
    ∃ m' chain', PropsOk a u hm n m' chain'
      ∧ entriesOf u (2 + (hm + 1)) m' = (entriesOf t (2 + (hm + 1)) m).filter
        fun e => e.key ≠ keyAt t (2 + (hm + 1)) i₀ := by
  have hh₀ : h₀ ≤ hm := hhash ▸ and_mask_le _ hm
  have hs := hp.slots
  have hsize := hs.size_eq
  have hmax := hs.size_le
  have hle := hs.m_le
  unfold jsValueArraySizeMax at hmax
  have hun := unlinkProperty_unlinked hp.chains hh₀ hl
  have hff := hun.getFirstFree_eq hp hh₀ hl
  generalize unlinkProperty t _ _ _ = t' at *
  have hmask' : t'.hashMask = hm := by
    rw [← hs.hashMask_eq, ValueArray.hashMask, hun.mask_eq]
    rfl
  have hcount' : t'.propCount = (entriesOf t (2 + (hm + 1)) m).length := by
    rw [← hs.propCount_eq, ValueArray.propCount, hun.count_eq]
    rfl
  obtain ⟨m', hm', hlast, hholes, hcl⟩ := clearProperty_cleared hmask' hcount'
    (hun.size_eq.trans hsize) (hi₀.trans_le hle) hle hff
  rw [← hu] at hlast hholes hcl
  have hentry : ∀ i, i ≠ i₀ → entryAt u (2 + (hm + 1)) i = entryAt t (2 + (hm + 1)) i :=
    fun i hi => (hcl.entry i hi).trans (hun.entry i)
  have hkey : ∀ i, i ≠ i₀ → keyAt u (2 + (hm + 1)) i = keyAt t (2 + (hm + 1)) i :=
    fun i hi => congrArg Entry.key (hentry i hi)
  have hused : ∀ i, Used u (2 + (hm + 1)) i → i ≠ i₀ ∧ Used t (2 + (hm + 1)) i := by
    intro i hi
    have hne : i ≠ i₀ := by
      rintro rfl
      exact hcl.hole hi
    unfold Used at hi ⊢
    rw [← hkey i hne]
    exact ⟨hne, hi⟩
  -- the last slot is free if any is
  have hfree : m' < n → ¬Used u (2 + (hm + 1)) (n - 1) := by
    intro hlt
    rcases hle.lt_or_eq with hmn | rfl
    · exact fun h => (hp.free hmn).1 (hused _ h).2
    · exact hholes _ (by omega) (by omega)
  have hentries : entriesOf u (2 + (hm + 1)) m' = (entriesOf t (2 + (hm + 1)) m).filter
      fun e => e.key ≠ keyAt t (2 + (hm + 1)) i₀ := by
    rw [← entriesOf_shrink hm' hholes]
    refine entriesOf_erase hcl.hole hentry ?_
    intro i hi hu he
    exact hs.keys i i₀ hi hi₀ hu he
  have hchains : ChainsOk a u hm m (Function.update chain h₀ (l₁ ++ l₂)) := by
    refine hun.chains hp.chains hh₀ hl hhash hcl.hole ?_ ?_ hcl.heads hi₀ hui₀
    · intro i _ hne
      exact congrArg Entry.key (hcl.entry i hne)
    · intro i hi hu
      refine hcl.link i (hused i hu).1 ?_
      by_cases hlt : m' < n
      · left
        rintro rfl
        exact hfree hlt hu
      · right
        rw [if_neg hlt]
  refine ⟨m', _, ⟨⟨?_, ?_, ?_, hm'.trans hle, ?_, hlast, ?_⟩, hchains.shrink hm' hholes, ?_⟩, hentries⟩
  · rw [hcl.mask_eq, hun.mask_eq, hs.mask]
  · rw [hcl.size_eq, hun.size_eq, hsize]
  · rw [hcl.size_eq, hun.size_eq]
    exact hs.size_le
  · have hmem : entryAt t (2 + (hm + 1)) i₀ ∈ entriesOf t (2 + (hm + 1)) m :=
      mem_entriesOf.2 ⟨i₀, hi₀, hui₀, rfl⟩
    rw [hcl.count_eq, hentries]
    exact congrArg shortIntWord (length_filter_key hs.keys_nodup hmem).symm
  · intro i j hi hj hui he
    obtain ⟨hne, hut⟩ := hused i hui
    have huj : Used u (2 + (hm + 1)) j := by
      unfold Used
      rw [← he]
      exact hui
    rw [hkey i hne, hkey j (hused j huj).1] at he
    exact hs.keys i j (hi.trans_le hm') (hj.trans_le hm') hut he
  · intro hlt
    refine ⟨hfree hlt, ?_⟩
    rw [hcl.free _ (if_pos hlt), Nat.mod_eq_of_lt (by omega)]

end Qjs
