import Mathlib.Algebra.BigOperators.Group.Finset.Basic
import Mathlib.Algebra.Order.BigOperators.Group.Finset
import Mathlib.Data.Fintype.Basic
import Mathlib.Tactic

/-!
# Weights summed over a family of threads

A shared counter that threads raise and lower equals, at every moment, the sum of what each thread
has contributed to it. `total w f` is that sum for the local states `f` and the contribution `w` of
a local state; the lemmas say how it moves when one thread changes its local state.
-/

namespace ThreadFamily

variable {T α : Type*} [Fintype T]

def total (w : α → ℕ) (f : T → α) : ℕ := ∑ t, w (f t)

theorem total_update [DecidableEq T] (w : α → ℕ) (f : T → α) (t : T) (x : α) :
    total w (Function.update f t x) + w (f t) = total w f + w x := by
  unfold total
  rw [← Finset.add_sum_erase _ _ (Finset.mem_univ t),
    ← Finset.add_sum_erase (a := t) Finset.univ (fun u => w (f u)) (Finset.mem_univ t)]
  have hrest : ∑ u ∈ Finset.univ.erase t, w (Function.update f t x u) =
      ∑ u ∈ Finset.univ.erase t, w (f u) := by
    apply Finset.sum_congr rfl
    intro u hu
    rw [Function.update_of_ne (Finset.ne_of_mem_erase hu)]
  rw [hrest, Function.update_self]
  omega

theorem total_update_eq [DecidableEq T] {w : α → ℕ} {f : T → α} {t : T} {x : α}
    (h : w x = w (f t)) : total w (Function.update f t x) = total w f := by
  have hsum := total_update w f t x
  omega

theorem le_total (w : α → ℕ) (f : T → α) (t : T) : w (f t) ≤ total w f :=
  Finset.single_le_sum (f := fun u => w (f u)) (fun _ _ => Nat.zero_le _) (Finset.mem_univ t)

theorem add_le_total [DecidableEq T] (w : α → ℕ) (f : T → α) {t u : T} (h : t ≠ u) :
    w (f t) + w (f u) ≤ total w f := by
  unfold total
  rw [← Finset.add_sum_erase _ _ (Finset.mem_univ t)]
  have hu : u ∈ Finset.univ.erase t := Finset.mem_erase.mpr ⟨h.symm, Finset.mem_univ u⟩
  have := Finset.single_le_sum (f := fun v => w (f v)) (fun _ _ => Nat.zero_le _) hu
  omega

/-- A total beyond one thread's contribution has another contributor. -/
theorem exists_ne_pos_of_lt_total [DecidableEq T] (w : α → ℕ) (f : T → α) {t : T}
    (h : w (f t) < total w f) : ∃ u, u ≠ t ∧ 0 < w (f u) := by
  by_contra! hz
  have hrest : ∑ u ∈ Finset.univ.erase t, w (f u) = 0 :=
    Finset.sum_eq_zero (fun u hu => Nat.le_zero.mp (hz u (Finset.ne_of_mem_erase hu)))
  unfold total at h
  rw [← Finset.add_sum_erase _ _ (Finset.mem_univ t), hrest] at h
  omega

/-- A positive total has a contributor. -/
theorem exists_pos_of_total_pos (w : α → ℕ) (f : T → α) (h : 0 < total w f) :
    ∃ t, 0 < w (f t) := by
  by_contra! hz
  have hzero : total w f = 0 := Finset.sum_eq_zero (fun t _ => Nat.le_zero.mp (hz t))
  omega

end ThreadFamily
