import Mathlib.Logic.Function.Basic
import Mathlib.Tactic

/-!
# What the holder of a lock has in hand

A lock names the thread that is between its two program points, if any. What such a thread has in
hand at a point is a function of the point that is constant outside the lock; `inHand` reads it off
the holder. A step of one thread either moves on what that thread has in hand, or it is a step
outside the lock and what is in hand stays (`inHand_update`).
-/

namespace LockHolder

variable {T P α : Type*}

/-- Exactly the holder of the lock is inside. -/
def Held (inside : P → Bool) (lock : Option T) (points : T → P) : Prop :=
  ∀ t, inside (points t) ↔ lock = some t

def inHand (hand : P → α) (free : α) (lock : Option T) (points : T → P) : α :=
  lock.elim free (fun t => hand (points t))

variable {inside : P → Bool} {hand : P → α} {free : α} {lock lock' : Option T} {points : T → P}
  {t u : T}

theorem Held.unique (h : Held inside lock points) (ht : inside (points t))
    (hu : inside (points u)) : t = u :=
  Option.some.inj (((h t).mp ht).symm.trans ((h u).mp hu))

theorem Held.inHand_of_inside (h : Held inside lock points) (ht : inside (points t)) :
    inHand hand free lock points = hand (points t) := by
  rw [inHand, (h t).mp ht, Option.elim_some]

theorem Held.free_of_outside (h : Held inside lock points) (hout : ∀ t, inside (points t) = false) :
    lock = none := by
  cases lock with
  | none => rfl
  | some t =>
      have hin := (h t).mpr rfl
      rw [hout t] at hin
      cases hin

theorem Held.inHand_of_outside (h : Held inside lock points)
    (hout : ∀ t, inside (points t) = false) :
    inHand hand free lock points = free := by
  rw [h.free_of_outside hout, inHand, Option.elim_none]

/-- When nobody else is inside, what is in hand is what this thread has in hand. -/
theorem Held.inHand_eq (h : Held inside lock points) (hfree : ∀ p, inside p = false → hand p = free)
    (halone : ∀ u ≠ t, inside (points u) = false) :
    inHand hand free lock points = hand (points t) := by
  by_cases ht : inside (points t)
  · exact h.inHand_of_inside ht
  · rw [hfree _ (Bool.eq_false_iff.mpr ht)]
    apply h.inHand_of_outside
    intro u
    by_cases hu : u = t
    · subst u
      exact Bool.eq_false_iff.mpr ht
    · exact halone u hu

variable [DecidableEq T] {p' : P}

theorem Held.update (h : Held inside lock points) (hself : inside p' ↔ lock' = some t)
    (hother : ∀ u ≠ t, lock' = some u ↔ lock = some u) :
    Held inside lock' (Function.update points t p') := by
  intro u
  by_cases hu : u = t
  · subst u
    rwa [Function.update_self]
  · rw [Function.update_of_ne hu, hother u hu]
    exact h u

/-- A step moves on what its own thread has in hand, or it leaves alone what is in hand. -/
theorem Held.inHand_update (h : Held inside lock points)
    (h' : Held inside lock' (Function.update points t p'))
    (hfree : ∀ p, inside p = false → hand p = free) :
    inHand hand free lock points = hand (points t) ∧
        inHand hand free lock' (Function.update points t p') = hand p' ∨
      inside (points t) = false ∧ inside p' = false ∧
        inHand hand free lock' (Function.update points t p') = inHand hand free lock points := by
  by_cases hothers : ∃ u ≠ t, inside (points u)
  · obtain ⟨u, hu, hin⟩ := hothers
    have hin' : inside (Function.update points t p' u) := by rwa [Function.update_of_ne hu]
    right
    refine ⟨Bool.eq_false_iff.mpr (fun ht => hu (h.unique hin ht)), ?_, ?_⟩
    · exact Bool.eq_false_iff.mpr (fun ht =>
        hu (h'.unique hin' (by rwa [Function.update_self])))
    · rw [h'.inHand_of_inside hin', h.inHand_of_inside hin, Function.update_of_ne hu]
  · push Not at hothers
    left
    constructor
    · exact h.inHand_eq hfree (fun u hu => Bool.eq_false_iff.mpr (hothers u hu))
    · rw [h'.inHand_eq (t := t) hfree, Function.update_self]
      intro u hu
      rw [Function.update_of_ne hu]
      exact Bool.eq_false_iff.mpr (hothers u hu)

end LockHolder
