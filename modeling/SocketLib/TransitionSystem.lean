import Mathlib.Logic.Relation
import Mathlib.Tactic

/-!
# Labelled transition systems with guarded runs

A system is a start state and a partial transition function; every choice a scheduler, a kernel or
a caller makes is part of the label. `ReachedBy guard` collects the states of the runs whose every
step meets `guard` in the state the step is taken from, so that a condition on the steps of a run
and the absence of such a condition (`Reachable`) are served by one induction.

`execWhile` runs a list of labels and is computable. It connects a run given as data with the
inductive predicate, in both directions.
-/

structure TransitionSystem (σ ℓ : Type*) where
  start : σ
  next : σ → ℓ → Option σ

namespace TransitionSystem

variable {σ ℓ : Type*} (S : TransitionSystem σ ℓ)

/-- The states reached by runs whose every step meets the guard. -/
inductive ReachedBy (guard : σ → ℓ → Prop) : σ → Prop
  | start : ReachedBy guard S.start
  | step {s s' : σ} {a : ℓ} :
      ReachedBy guard s → guard s a → S.next s a = some s' → ReachedBy guard s'

/-- The states reached by any run. -/
abbrev Reachable (s : σ) : Prop := S.ReachedBy (fun _ _ => True) s

/-- Some sequence of steps that meet the guard leads from the first state to the second. -/
def LeadsBy (guard : σ → ℓ → Prop) : σ → σ → Prop :=
  Relation.ReflTransGen (fun s s' => ∃ a, guard s a ∧ S.next s a = some s')

abbrev LeadsTo : σ → σ → Prop := S.LeadsBy (fun _ _ => True)

variable {S} {guard guard' : σ → ℓ → Prop} {s s' : σ}

theorem ReachedBy.mono (h : S.ReachedBy guard s) (hg : ∀ s a, guard s a → guard' s a) :
    S.ReachedBy guard' s := by
  induction h with
  | start => exact .start
  | step _ ha hs ih => exact .step ih (hg _ _ ha) hs

/-- What is already known of the states of such runs may be used to weaken the guard. -/
theorem ReachedBy.imp (h : S.ReachedBy guard s)
    (hg : ∀ s a, S.ReachedBy guard s → guard s a → guard' s a) : S.ReachedBy guard' s := by
  induction h with
  | start => exact .start
  | step hr ha hs ih => exact .step ih (hg _ _ hr ha) hs

theorem ReachedBy.reachable (h : S.ReachedBy guard s) : S.Reachable s :=
  h.mono (fun _ _ _ => trivial)

theorem LeadsBy.single {a : ℓ} (hg : guard s a) (hs : S.next s a = some s') :
    S.LeadsBy guard s s' :=
  Relation.ReflTransGen.single ⟨a, hg, hs⟩

theorem LeadsBy.mono (h : S.LeadsBy guard s s') (hg : ∀ s a, guard s a → guard' s a) :
    S.LeadsBy guard' s s' := by
  induction h with
  | refl => exact Relation.ReflTransGen.refl
  | tail _ ha ih =>
      obtain ⟨a, ha, hs⟩ := ha
      exact ih.tail ⟨a, hg _ _ ha, hs⟩

theorem ReachedBy.leadsBy (h : S.ReachedBy guard s) (hs : S.LeadsBy guard s s') :
    S.ReachedBy guard s' := by
  induction hs with
  | refl => exact h
  | tail _ ha ih =>
      obtain ⟨a, hg, ha⟩ := ha
      exact ih.step hg ha

/-- The invariant rule. What is already known of the states of such runs may be used in the step. -/
theorem ReachedBy.invariant {I : σ → Prop} (h0 : I S.start)
    (hstep : ∀ s a s', S.ReachedBy guard s → I s → guard s a → S.next s a = some s' → I s')
    (h : S.ReachedBy guard s) : I s := by
  induction h with
  | start => exact h0
  | step hr ha hs ih => exact hstep _ _ _ hr ih ha hs

/-- A predicate that every guarded step keeps, from the states such runs reach, holds for ever. -/
theorem LeadsBy.preserves {I : σ → Prop} (h : S.LeadsBy guard s s') (hr : S.ReachedBy guard s)
    (hI : I s)
    (hstep : ∀ s a s', S.ReachedBy guard s → I s → guard s a → S.next s a = some s' → I s') :
    I s' := by
  have hboth : S.ReachedBy guard s' ∧ I s' := by
    induction h with
    | refl => exact ⟨hr, hI⟩
    | tail _ ha ih =>
        obtain ⟨a, hg, ha⟩ := ha
        exact ⟨ih.1.step hg ha, hstep _ _ _ ih.1 ih.2 hg ha⟩
  exact hboth.2

/-- The same from any reachable state, whatever guard its own run has met. -/
theorem LeadsBy.keeps {I : σ → Prop} (h : S.LeadsBy guard s s') (hr : S.Reachable s) (hI : I s)
    (hstep : ∀ s a s', S.Reachable s → I s → guard s a → S.next s a = some s' → I s') :
    S.Reachable s' ∧ I s' := by
  induction h with
  | refl => exact ⟨hr, hI⟩
  | tail _ ha ih =>
      obtain ⟨a, hg, ha⟩ := ha
      exact ⟨ih.1.step trivial ha, hstep _ _ _ ih.1 ih.2 hg ha⟩

/-- A sequence of steps that meet the guard, with what is observed of their labels in order. -/
inductive LeadsShowing {β : Type*} (S : TransitionSystem σ ℓ) (guard : σ → ℓ → Prop)
    (observe : ℓ → Option β) (s : σ) : List β → σ → Prop
  | refl : LeadsShowing S guard observe s [] s
  | tail {bs : List β} {s' s'' : σ} {a : ℓ} :
      LeadsShowing S guard observe s bs s' → guard s' a → S.next s' a = some s'' →
        LeadsShowing S guard observe s (bs ++ (observe a).toList) s''

section Showing

variable {β : Type*} {observe : ℓ → Option β} {bs bs' : List β} {s'' : σ}

theorem LeadsShowing.single {a : ℓ} (hg : guard s a) (hs : S.next s a = some s') :
    S.LeadsShowing guard observe s (observe a).toList s' := .tail .refl hg hs

theorem LeadsShowing.trans (h : S.LeadsShowing guard observe s bs s')
    (h' : S.LeadsShowing guard observe s' bs' s'') :
    S.LeadsShowing guard observe s (bs ++ bs') s'' := by
  induction h' with
  | refl => rwa [List.append_nil]
  | tail _ hg hs ih =>
      rw [← List.append_assoc]
      exact ih.tail hg hs

theorem LeadsShowing.leadsBy (h : S.LeadsShowing guard observe s bs s') :
    S.LeadsBy guard s s' := by
  induction h with
  | refl => exact Relation.ReflTransGen.refl
  | tail _ hg hs ih => exact ih.tail ⟨_, hg, hs⟩

end Showing

section Refinement

variable {σ' ℓ' : Type*} {S' : TransitionSystem σ' ℓ'} {f : σ → σ'}

/-- A map that sends every step to a step or to no change sends runs to runs. -/
theorem LeadsTo.map (h : S.LeadsTo s s')
    (hstep : ∀ s a s', S.next s a = some s' → f s' = f s ∨ ∃ b, S'.next (f s) b = some (f s')) :
    S'.LeadsTo (f s) (f s') := by
  induction h with
  | refl => exact Relation.ReflTransGen.refl
  | tail _ ha ih =>
      obtain ⟨a, -, ha⟩ := ha
      rcases hstep _ a _ ha with heq | ⟨b, hb⟩
      · rwa [heq]
      · exact ih.tail ⟨b, trivial, hb⟩

theorem ReachedBy.map {guard' : σ' → ℓ' → Prop} (h : S.ReachedBy guard s)
    (h0 : f S.start = S'.start)
    (hstep : ∀ s a s', S.ReachedBy guard s → guard s a → S.next s a = some s' →
      f s' = f s ∨ ∃ b, guard' (f s) b ∧ S'.next (f s) b = some (f s')) :
    S'.ReachedBy guard' (f s) := by
  induction h with
  | start =>
      rw [h0]
      exact .start
  | step hr hg ha ih =>
      rcases hstep _ _ _ hr hg ha with heq | ⟨b, hg', hb⟩
      · rwa [heq]
      · exact ih.step hg' hb

theorem Reachable.map (h : S.Reachable s) (h0 : f S.start = S'.start)
    (hstep : ∀ s a s', S.next s a = some s' → f s' = f s ∨ ∃ b, S'.next (f s) b = some (f s')) :
    S'.Reachable (f s) := by
  refine ReachedBy.map h h0 (fun s a s' _ _ ha => ?_)
  rcases hstep s a s' ha with heq | ⟨b, hb⟩
  · exact Or.inl heq
  · exact Or.inr ⟨b, trivial, hb⟩

end Refinement

/-- Every step of the run with these labels meets the predicate in the state it is taken from. -/
def Along (S : TransitionSystem σ ℓ) (P : σ → ℓ → Prop) (s : σ) : List ℓ → Prop
  | [] => True
  | a :: as => P s a ∧ ∀ s', S.next s a = some s' → Along S P s' as

theorem along_true (s : σ) (as : List ℓ) : S.Along (fun _ _ => True) s as := by
  induction as generalizing s with
  | nil => exact trivial
  | cons a as ih => exact ⟨trivial, fun s' _ => ih s'⟩

/-- Predicates that agree on the steps from reachable states agree along runs. -/
theorem along_congr {P Q : σ → ℓ → Prop} (h : ∀ s a, S.Reachable s → (P s a ↔ Q s a))
    (hr : S.Reachable s) (as : List ℓ) : S.Along P s as ↔ S.Along Q s as := by
  induction as generalizing s with
  | nil => exact Iff.rfl
  | cons a as ih =>
      apply and_congr (h s a hr)
      constructor
      · intro hP s' hs
        exact (ih (hr.step trivial hs)).mp (hP s' hs)
      · intro hQ s' hs
        exact (ih (hr.step trivial hs)).mpr (hQ s' hs)

/-- The predicate holds in every state of the run with these labels, the first one included. -/
def Throughout (S : TransitionSystem σ ℓ) (I : σ → Prop) (s : σ) : List ℓ → Prop
  | [] => I s
  | a :: as => I s ∧ ∀ s', S.next s a = some s' → Throughout S I s' as

theorem Throughout.first {I : σ → Prop} {as : List ℓ} (h : S.Throughout I s as) : I s := by
  cases as with
  | nil => exact h
  | cons a as => exact h.1

theorem Throughout.mono {I J : σ → Prop} {as : List ℓ} (h : S.Throughout I s as)
    (hIJ : ∀ s, I s → J s) : S.Throughout J s as := by
  induction as generalizing s with
  | nil => exact hIJ s h
  | cons a as ih => exact ⟨hIJ s h.1, fun s' hs => ih (h.2 s' hs)⟩

/-- What the steps of a run keep holds throughout it. -/
theorem Along.throughout {I : σ → Prop} {P : σ → ℓ → Prop} {as : List ℓ} (h : S.Along P s as)
    (hstep : ∀ s a s', I s → P s a → S.next s a = some s' → I s') (hs : I s) :
    S.Throughout I s as := by
  induction as generalizing s with
  | nil => exact hs
  | cons a as ih => exact ⟨hs, fun s' hs' => ih (h.2 s' hs') (hstep s a s' hs h.1 hs')⟩

/-- A rule that the steps of a run keep to, with what they keep, may be weakened. -/
theorem Along.imp {I : σ → Prop} {P Q : σ → ℓ → Prop} {as : List ℓ} (h : S.Along P s as)
    (hstep : ∀ s a s', I s → P s a → S.next s a = some s' → I s')
    (hQ : ∀ s a, I s → P s a → Q s a) (hs : I s) : S.Along Q s as := by
  induction as generalizing s with
  | nil => exact trivial
  | cons a as ih =>
      exact ⟨hQ s a hs h.1, fun s' hs' => ih (h.2 s' hs') (hstep s a s' hs h.1 hs')⟩

/-- When a condition on a step says exactly that the predicate is kept, in the presence of what is
kept anyway, it holds of every step of a run just when the predicate holds in every state. -/
theorem throughout_iff_along_of_keeps {I J : σ → Prop} {P : σ → ℓ → Prop}
    (hJ : ∀ s a s', J s → S.next s a = some s' → J s')
    (h : ∀ s a, J s → I s → (P s a ↔ ∀ s', S.next s a = some s' → I s')) (hJs : J s) (hs : I s)
    (as : List ℓ) : S.Throughout I s as ↔ S.Along P s as := by
  induction as generalizing s with
  | nil => exact iff_of_true hs trivial
  | cons a as ih =>
      constructor
      · intro hall
        refine ⟨(h s a hJs hs).mpr (fun s' hs' => (hall.2 s' hs').first), fun s' hs' => ?_⟩
        exact (ih (hJ s a s' hJs hs') (hall.2 s' hs').first).mp (hall.2 s' hs')
      · intro hall
        refine ⟨hs, fun s' hs' => ?_⟩
        exact (ih (hJ s a s' hJs hs') ((h s a hJs hs).mp hall.1 s' hs')).mpr (hall.2 s' hs')

theorem throughout_iff_along {I : σ → Prop} {P : σ → ℓ → Prop}
    (h : ∀ s a, I s → (P s a ↔ ∀ s', S.next s a = some s' → I s')) (hs : I s) (as : List ℓ) :
    S.Throughout I s as ↔ S.Along P s as :=
  throughout_iff_along_of_keeps (J := fun _ => True) (fun _ _ _ _ _ => trivial)
    (fun s a _ => h s a) trivial hs as

section Execution

variable (S) (guard) [∀ s a, Decidable (guard s a)]

/-- Runs the labels in order; stops without a result at a label that is not enabled or does not
meet the guard. -/
def execWhile (s : σ) : List ℓ → Option σ
  | [] => some s
  | a :: as => if guard s a then (S.next s a).bind (fun s' => execWhile s' as) else none

/-- The run of a list of labels without a guard. -/
def exec (s : σ) (as : List ℓ) : Option σ := S.execWhile (fun _ _ => True) s as

variable {S guard}

theorem execWhile_reachedBy {as : List ℓ} (hr : S.ReachedBy guard s)
    (h : S.execWhile guard s as = some s') : S.ReachedBy guard s' := by
  induction as generalizing s with
  | nil =>
      obtain rfl : s = s' := Option.some.inj h
      exact hr
  | cons a as ih =>
      rw [execWhile] at h
      split_ifs at h with hg
      obtain ⟨t, ht, hrest⟩ := Option.bind_eq_some_iff.mp h
      exact ih (hr.step hg ht) hrest

theorem execWhile_leadsBy {as : List ℓ} (h : S.execWhile guard s as = some s') :
    S.LeadsBy guard s s' := by
  induction as generalizing s with
  | nil =>
      obtain rfl : s = s' := Option.some.inj h
      exact Relation.ReflTransGen.refl
  | cons a as ih =>
      rw [execWhile] at h
      split_ifs at h with hg
      obtain ⟨t, ht, hrest⟩ := Option.bind_eq_some_iff.mp h
      exact (LeadsBy.single hg ht).trans (ih hrest)

theorem exec_cons (s : σ) (a : ℓ) (as : List ℓ) :
    S.exec s (a :: as) = (S.next s a).bind (fun s' => S.exec s' as) := by
  rw [exec, execWhile, if_pos trivial]
  rfl

theorem exec_singleton (s : σ) (a : ℓ) : S.exec s [a] = S.next s a := by
  rw [exec_cons]
  exact Option.bind_fun_some _

/-- A map that sends the steps from every state to those from its image sends runs to runs. -/
theorem exec_map {σ' : Type*} {S' : TransitionSystem σ' ℓ} {f : σ → σ'}
    (hstep : ∀ s a, S'.next (f s) a = (S.next s a).map f) (s : σ) (as : List ℓ) :
    S'.exec (f s) as = (S.exec s as).map f := by
  induction as generalizing s with
  | nil => rfl
  | cons a as ih =>
      rw [exec_cons, exec_cons, hstep, Option.bind_map, Option.map_bind]
      congr 1
      funext s'
      exact ih s'

theorem execWhile_eq_some {as : List ℓ} :
    S.execWhile guard s as = some s' ↔ S.exec s as = some s' ∧ S.Along guard s as := by
  induction as generalizing s with
  | nil => exact ⟨fun h => ⟨h, trivial⟩, fun h => h.1⟩
  | cons a as ih =>
      rw [execWhile, exec_cons, Along]
      by_cases hg : guard s a
      · rw [if_pos hg, Option.bind_eq_some_iff, Option.bind_eq_some_iff]
        simp only [ih, hg, true_and]
        constructor
        · rintro ⟨t, ht, hrest, halong⟩
          refine ⟨⟨t, ht, hrest⟩, fun u hu => ?_⟩
          obtain rfl := Option.some.inj (ht.symm.trans hu)
          exact halong
        · rintro ⟨⟨t, ht, hrest⟩, halong⟩
          exact ⟨t, ht, hrest, halong t ht⟩
      · rw [if_neg hg]
        exact ⟨fun h => (nomatch h), fun h => absurd h.2.1 hg⟩

theorem Throughout.last {I : σ → Prop} {as : List ℓ} (h : S.Throughout I s as)
    (hs : S.exec s as = some s') : I s' := by
  induction as generalizing s with
  | nil =>
      obtain rfl : s = s' := Option.some.inj hs
      exact h
  | cons a as ih =>
      rw [exec_cons] at hs
      obtain ⟨t, ht, hrest⟩ := Option.bind_eq_some_iff.mp hs
      exact ih (h.2 t ht) hrest

/-- When a predicate once lost is lost for ever, it holds at the end of a run just when none of the
steps loses it. -/
theorem last_iff_along {I : σ → Prop} {P : σ → ℓ → Prop} {as : List ℓ}
    (hstep : ∀ s a s', S.Reachable s → I s → S.next s a = some s' → (P s a ↔ I s'))
    (hback : ∀ s a s', S.Reachable s → S.next s a = some s' → I s' → I s)
    (hr : S.Reachable s) (hI : I s) (hs : S.exec s as = some s') : I s' ↔ S.Along P s as := by
  have hfirst : ∀ {as s}, S.Reachable s → S.exec s as = some s' → I s' → I s := by
    intro as
    induction as with
    | nil =>
        intro s _ hs hI'
        obtain rfl : s = s' := Option.some.inj hs
        exact hI'
    | cons a as ih =>
        intro s hr hs hI'
        rw [exec_cons] at hs
        obtain ⟨t, ht, hrest⟩ := Option.bind_eq_some_iff.mp hs
        exact hback s a t hr ht (ih (hr.step trivial ht) hrest hI')
  induction as generalizing s with
  | nil =>
      obtain rfl : s = s' := Option.some.inj hs
      exact iff_of_true hI trivial
  | cons a as ih =>
      rw [exec_cons] at hs
      obtain ⟨t, ht, hrest⟩ := Option.bind_eq_some_iff.mp hs
      have hreach : S.Reachable t := hr.step trivial ht
      constructor
      · intro hI'
        have hIt := hfirst hreach hrest hI'
        refine ⟨(hstep s a t hr hI ht).mpr hIt, fun u hu => ?_⟩
        obtain rfl := Option.some.inj (ht.symm.trans hu)
        exact (ih hreach hIt hrest).mp hI'
      · intro hall
        have hIt := (hstep s a t hr hI ht).mp hall.1
        exact (ih hreach hIt hrest).mpr (hall.2 t ht)

theorem exists_exec_of_execWhile {as : List ℓ} {p : σ → Bool}
    (h : (S.execWhile guard s as).any p = true) :
    ∃ s', S.exec s as = some s' ∧ S.Along guard s as ∧ p s' = true := by
  cases hs : S.execWhile guard s as with
  | none => simp only [hs, Option.any_none, Bool.false_eq_true] at h
  | some s' =>
      simp only [hs, Option.any_some] at h
      obtain ⟨hexec, halong⟩ := execWhile_eq_some.mp hs
      exact ⟨s', hexec, halong, h⟩

/-- A run that ends in a state with a checkable property gives a guarded run to such a state. -/
theorem exists_reachedBy_of_execWhile {as : List ℓ} {p : σ → Bool}
    (h : (S.execWhile guard S.start as).any p = true) : ∃ s, S.ReachedBy guard s ∧ p s = true := by
  cases hs : S.execWhile guard S.start as with
  | none => simp only [hs, Option.any_none, Bool.false_eq_true] at h
  | some s =>
      simp only [hs, Option.any_some] at h
      exact ⟨s, execWhile_reachedBy .start hs, h⟩

end Execution

section Measures

variable {I : σ → Prop} {μ : σ → ℕ}

/-- Where every step lowers a measure, no run is longer than the measure at its beginning. -/
theorem length_le_of_measure {as : List ℓ}
    (hstep : ∀ s a s', I s → S.next s a = some s' → I s' ∧ μ s' < μ s) (hI : I s)
    (h : S.exec s as = some s') : as.length ≤ μ s := by
  induction as generalizing s with
  | nil => exact Nat.zero_le _
  | cons a as ih =>
      rw [exec_cons] at h
      obtain ⟨t, ht, hrest⟩ := Option.bind_eq_some_iff.mp h
      obtain ⟨hIt, hlt⟩ := hstep s a t hI ht
      have hle : as.length ≤ μ t := ih hIt hrest
      rw [List.length_cons]
      omega

/-- Where from every state that is not final a run of guarded steps leads to a smaller measure, some
guarded run leads to a final state. -/
theorem exists_leadsBy_of_measure {α : Type*} [LT α] [WellFoundedLT α] {μ : σ → α}
    {guard : σ → ℓ → Prop} {final : σ → Prop}
    (hnext : ∀ s, I s → ¬ final s → ∃ s', S.LeadsBy guard s s' ∧ I s' ∧ μ s' < μ s) (hI : I s) :
    ∃ s', S.LeadsBy guard s s' ∧ I s' ∧ final s' := by
  induction hn : μ s using WellFoundedLT.induction generalizing s with
  | ind n ih =>
      subst n
      by_cases hfinal : final s
      · exact ⟨s, Relation.ReflTransGen.refl, hI, hfinal⟩
      · obtain ⟨t, hleads, hIt, hlt⟩ := hnext s hI hfinal
        obtain ⟨s', hrest, hIs', hend⟩ := ih (μ t) hlt hIt rfl
        exact ⟨s', hleads.trans hrest, hIs', hend⟩

/-- Where every step lowers a measure, and only final states have none, a run can be continued to a
final state. -/
theorem exists_exec_of_measure {final : σ → Prop}
    (hstep : ∀ s a s', I s → S.next s a = some s' → I s' ∧ μ s' < μ s)
    (hnext : ∀ s, I s → ¬ final s → ∃ a s', S.next s a = some s') (hI : I s) :
    ∃ as s', S.exec s as = some s' ∧ I s' ∧ final s' := by
  induction hn : μ s using Nat.strongRecOn generalizing s with
  | ind n ih =>
      subst n
      by_cases hfinal : final s
      · exact ⟨[], s, rfl, hI, hfinal⟩
      · obtain ⟨a, t, ht⟩ := hnext s hI hfinal
        obtain ⟨hIt, hlt⟩ := hstep s a t hI ht
        obtain ⟨as, s', hrest, hend⟩ := ih (μ t) hlt hIt rfl
        refine ⟨a :: as, s', ?_, hend⟩
        rw [exec_cons, ht]
        exact hrest

end Measures

section Counting

variable (S) (P : σ → ℓ → Bool)

/-- How many steps of the run with these labels meet the predicate in the state they are taken
from. -/
def countSteps (s : σ) : List ℓ → ℕ
  | [] => 0
  | a :: as => (P s a).toNat + (S.next s a).elim 0 (fun s' => countSteps s' as)

variable {S P} {Q : σ → ℓ → Bool} {as : List ℓ}

theorem countSteps_mono (h : ∀ s a, P s a → Q s a) (s : σ) (as : List ℓ) :
    S.countSteps P s as ≤ S.countSteps Q s as := by
  induction as generalizing s with
  | nil => exact le_rfl
  | cons a as ih =>
      have hstep : (P s a).toNat ≤ (Q s a).toNat := Bool.toNat_le_toNat (h s a)
      rw [countSteps, countSteps]
      cases S.next s a with
      | none => exact Nat.add_le_add hstep le_rfl
      | some s' => exact Nat.add_le_add hstep (ih s')

/-- Steps that each cost what they take off a budget are no more than the budget, in a run whose
steps keep to a rule. -/
theorem countSteps_le_of_along {I : ℕ → σ → Prop} {G : σ → ℓ → Prop} {n : ℕ} (hs : I n s)
    (hstep : ∀ n s a s', I n s → G s a → S.next s a = some s' →
      ∃ n', I n' s' ∧ (P s a).toNat + n' ≤ n)
    (hG : S.Along G s as) (h : S.exec s as = some s') :
    ∃ n', I n' s' ∧ S.countSteps P s as + n' ≤ n := by
  induction as generalizing s n with
  | nil =>
      obtain rfl : s = s' := Option.some.inj h
      exact ⟨n, hs, (Nat.zero_add _).le⟩
  | cons a as ih =>
      rw [exec_cons] at h
      obtain ⟨t, ht, hrest⟩ := Option.bind_eq_some_iff.mp h
      obtain ⟨k, hI, hcost⟩ := hstep n s a t hs hG.1 ht
      obtain ⟨n', hI', hcount⟩ := ih hI (hG.2 t ht) hrest
      refine ⟨n', hI', ?_⟩
      rw [countSteps, ht, Option.elim_some]
      omega

theorem countSteps_le {I : σ → Prop} {b : σ → ℕ} (hs : I s)
    (hstep : ∀ s a s', I s → S.next s a = some s' →
      I s' ∧ (P s a).toNat + b s' ≤ b s)
    (h : S.exec s as = some s') : I s' ∧ S.countSteps P s as + b s' ≤ b s := by
  have hcost : ∀ n s a s', I s ∧ b s = n → True → S.next s a = some s' →
      ∃ n', (I s' ∧ b s' = n') ∧ (P s a).toNat + n' ≤ n := by
    rintro n s a s' ⟨hI, rfl⟩ - hs'
    obtain ⟨hI', hcost⟩ := hstep s a s' hI hs'
    exact ⟨b s', ⟨hI', rfl⟩, hcost⟩
  obtain ⟨n', ⟨hI, rfl⟩, hcount⟩ :=
    countSteps_le_of_along (I := fun n s => I s ∧ b s = n) ⟨hs, rfl⟩ hcost (along_true s as) h
  exact ⟨hI, hcount⟩

/-- When a quantity goes up by one with each step of the one kind, down by one with each of the
other, and stays with all the rest, the two counts account for it. -/
theorem countSteps_balance_of_along {I : σ → Prop} {G : σ → ℓ → Prop} {w : σ → ℕ}
    (hstep : ∀ s a s', I s → G s a → S.next s a = some s' →
      I s' ∧ (P s a).toNat + w s = (Q s a).toNat + w s')
    (hI : I s) (hG : S.Along G s as) (h : S.exec s as = some s') :
    S.countSteps P s as + w s = S.countSteps Q s as + w s' := by
  induction as generalizing s with
  | nil =>
      obtain rfl : s = s' := Option.some.inj h
      rfl
  | cons a as ih =>
      rw [exec_cons] at h
      obtain ⟨t, ht, hrest⟩ := Option.bind_eq_some_iff.mp h
      obtain ⟨hIt, hone⟩ := hstep s a t hI hG.1 ht
      have hrun := ih hIt (hG.2 t ht) hrest
      rw [countSteps, countSteps, ht, Option.elim_some, Option.elim_some]
      omega

theorem countSteps_balance {I : σ → Prop} {w : σ → ℕ}
    (hstep : ∀ s a s', I s → S.next s a = some s' →
      I s' ∧ (P s a).toNat + w s = (Q s a).toNat + w s')
    (hI : I s) (h : S.exec s as = some s') :
    S.countSteps P s as + w s = S.countSteps Q s as + w s' :=
  countSteps_balance_of_along (fun s a s' hI _ => hstep s a s' hI) hI (along_true s as) h

end Counting

section Traces

variable {σ' ℓ' : Type*} {S' : TransitionSystem σ' ℓ'}

/-- What an observer is told of the run with these labels. -/
def trace (S : TransitionSystem σ ℓ) (observe : σ → ℓ → Option ℓ') (s : σ) : List ℓ → List ℓ'
  | [] => []
  | a :: as => (observe s a).toList ++ (S.next s a).elim [] (fun s' => trace S observe s' as)

variable {observe : σ → ℓ → Option ℓ'} {as : List ℓ}

theorem exec_append (s : σ) (as bs : List ℓ) :
    S.exec s (as ++ bs) = (S.exec s as).bind (fun s' => S.exec s' bs) := by
  induction as generalizing s with
  | nil => rfl
  | cons a as ih =>
      rw [List.cons_append, exec_cons, exec_cons, Option.bind_assoc]
      congr 1
      funext s'
      exact ih s'

/-- Where the other system can follow every step by what is observed of it, what is observed of a
run is one of its runs. -/
theorem exec_trace {R : σ → σ' → Prop} {G : σ → ℓ → Prop} {q : σ'}
    (hstep : ∀ s a s' q, R s q → G s a → S.next s a = some s' →
      ∃ q', S'.exec q (observe s a).toList = some q' ∧ R s' q')
    (hR : R s q) (hG : S.Along G s as) (h : S.exec s as = some s') :
    ∃ q', S'.exec q (S.trace observe s as) = some q' ∧ R s' q' := by
  induction as generalizing s q with
  | nil =>
      obtain rfl : s = s' := Option.some.inj h
      exact ⟨q, rfl, hR⟩
  | cons a as ih =>
      rw [exec_cons] at h
      obtain ⟨t, ht, hrest⟩ := Option.bind_eq_some_iff.mp h
      obtain ⟨r, hr, hRt⟩ := hstep s a t q hR hG.1 ht
      obtain ⟨q', hq', hR'⟩ := ih hRt (hG.2 t ht) hrest
      refine ⟨q', ?_, hR'⟩
      rw [trace, exec_append, hr, ht]
      exact hq'

end Traces

end TransitionSystem
