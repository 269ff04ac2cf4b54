import Mathlib.Logic.Relation

/-!
# What is reachable from a set of roots

A set that holds the roots, is closed along the edges and holds nothing else than what a path leads
to is the set of all that is reachable (`Reachable.iff_of_closed`). Algorithms that mark as they go
keep the second half from the start and reach the first when nothing is left to scan.
-/

namespace Reach

universe u

variable {V : Type u} {E : V → V → Prop} {R : V → Prop} {v w : V}

/-- There is a path to `v` from a root. -/
def Reachable (E : V → V → Prop) (R : V → Prop) (v : V) : Prop :=
  ∃ r, R r ∧ Relation.ReflTransGen E r v

theorem Reachable.root (hv : R v) : Reachable E R v := ⟨v, hv, .refl⟩

theorem Reachable.tail (hv : Reachable E R v) (hw : E v w) : Reachable E R w := by
  obtain ⟨r, hr, hp⟩ := hv
  exact ⟨r, hr, hp.tail hw⟩

/-- A closed set that holds the roots holds what is reachable. -/
theorem Reachable.mem_of_closed {M : V → Prop} (hroot : ∀ r, R r → M r)
    (hclosed : ∀ v w, M v → E v w → M w) (hv : Reachable E R v) : M v := by
  obtain ⟨r, hr, hp⟩ := hv
  induction hp with
  | refl => exact hroot r hr
  | tail _ hw ih => exact hclosed _ _ ih hw

theorem Reachable.iff_of_closed {M : V → Prop} (hsound : ∀ v, M v → Reachable E R v)
    (hroot : ∀ r, R r → M r) (hclosed : ∀ v w, M v → E v w → M w) :
    M v ↔ Reachable E R v :=
  ⟨hsound v, fun hv => hv.mem_of_closed hroot hclosed⟩

/-- More roots reach more. -/
theorem Reachable.mono {R' : V → Prop} (hR : ∀ r, R r → R' r) (hv : Reachable E R v) :
    Reachable E R' v := by
  obtain ⟨r, hr, hp⟩ := hv
  exact ⟨r, hR r hr, hp⟩

end Reach
