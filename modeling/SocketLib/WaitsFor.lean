import Mathlib.Order.WellFounded
import Mathlib.Data.Set.Basic
import Mathlib.Tactic

/-!
# Deadlocked sets of a waits-for relation

`blocks u t` says that `t` cannot go on while `u` stays as it is. A set is deadlocked when each of
its members is blocked by a member, so that none of them can be the first to go on.
-/

namespace WaitsFor

variable {T : Type*}

def Deadlocked (blocks : T → T → Prop) (D : Set T) : Prop :=
  D.Nonempty ∧ ∀ t ∈ D, ∃ u ∈ D, blocks u t

/-- There is no deadlock when each blocked blocker ranks below what it blocks. -/
theorem not_deadlocked_of_rank {blocks : T → T → Prop} (rank : T → ℕ)
    (h : ∀ u t v, blocks u t → blocks v u → rank u < rank t) (D : Set T) :
    ¬ Deadlocked blocks D := by
  rintro ⟨hne, hD⟩
  obtain ⟨t, ht, hmin⟩ := (measure rank).wf.has_min D hne
  obtain ⟨u, hu, hut⟩ := hD t ht
  obtain ⟨v, -, hvu⟩ := hD u hu
  exact hmin u hu (h u t v hut hvu)

/-- A deadlocked set stays one as long as its members keep blocking each other. -/
theorem Deadlocked.mono {blocks blocks' : T → T → Prop} {D : Set T} (h : Deadlocked blocks D)
    (hkeep : ∀ t ∈ D, ∀ u ∈ D, blocks u t → blocks' u t) : Deadlocked blocks' D := by
  refine ⟨h.1, fun t ht => ?_⟩
  obtain ⟨u, hu, hut⟩ := h.2 t ht
  exact ⟨u, hu, hkeep t ht u hu hut⟩

end WaitsFor
