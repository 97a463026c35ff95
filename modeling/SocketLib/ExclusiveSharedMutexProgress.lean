import SocketLib.ExclusiveSharedMutexExclusion
import SocketLib.ExclusiveSharedMutexWriters

/-!
# Threads inside `ExclusivePrioritySharedMutex` go on

A thread inside one of the four operations can take its next step unless it sleeps or another thread
owns `mutex_`, and the owner can always go on (`exists_own`). A call that does not have to wait is
over after a few steps of its thread (`callRank`).

Where `lock` takes `mutex_` only while nobody has exclusive access, and then reads `sharedCount_` as
zero (`WriterFindsFree`), no writer ever waits.
-/

namespace SocketLib.ExclusivePrioritySharedMutex

open ThreadFamily

variable {T : Type*}

/-- The step is the next one of the thread. -/
def Own (t : T) : Label T → Prop
  | .run u | .notify u _ => u = t
  | _ => False

/-- A writer takes `mutex_` only while `exclusiveCount_` is zero, and then reads `sharedCount_` as
zero. -/
def WriterFindsFree (s : State T) : Label T → Prop
  | .run t =>
      ((s.threads t).pc = .lockAcquire ∨ (s.threads t).pc = .lockWoken →
        s.mem.exclusiveCount = 0) ∧
      ((s.threads t).pc = .lockLoadShared → s.mem.sharedCount = 0)
  | _ => True

instance (s : State T) (a : Label T) : Decidable (WriterFindsFree s a) :=
  match a with
  | .run t => inferInstanceAs (Decidable (((s.threads t).pc = .lockAcquire ∨
      (s.threads t).pc = .lockWoken → s.mem.exclusiveCount = 0) ∧
      ((s.threads t).pc = .lockLoadShared → s.mem.sharedCount = 0)))
  | .call _ _ | .notify _ _ | .spurious _ => isTrue trivial

/-- How many steps of its thread a call takes at most from this point, when it does not wait. -/
def Pc.callRank : Pc → ℕ
  | .lockAddRequest => 7
  | .lockAcquire => 6
  | .lockLoadShared => 5
  | .lockLoadCount => 4
  | .lockSubRequest => 3
  | .lockAddCount => 2
  | .lockRelease => 1
  | .unsharedSub | .unlockAcquire => 5
  | .unsharedAcquire | .unlockSub => 4
  | .unsharedLoadWaiting | .unlockLoadWaiting => 3
  | .unsharedNotify _ | .unlockNotify _ => 2
  | .unsharedRelease | .unlockRelease => 1
  | _ => 0

/-! ### Who can go on -/

theorem Pc.slowAsleep_of_sleeps {pc : Pc} (h : pc.sleeps) (hpc : pc ≠ .lockAsleep) :
    pc = .slowAsleep := by
  cases pc <;> first
    | rfl
    | exact absurd rfl hpc
    | exact absurd h Bool.false_ne_true

theorem Pc.awake_of_busy {pc : Pc} (h : pc.busy) : pc.sleeps = false := by
  cases pc <;> first
    | rfl
    | exact absurd h Bool.false_ne_true

/-- Where nobody owns `mutex_`, nobody is at a point that does. -/
theorem Accounted.not_owns [Fintype T] {s : State T} (h : Accounted s)
    (hmutex : s.mem.mutex = none) {t : T} {pc : Pc} (hpc : (s.threads t).pc = pc)
    (hown : pc.owns) : False := by
  subst hpc
  rw [(h.owner t).mp hown] at hmutex
  cases hmutex

/-- Where nobody has access, some thread inside the mutex is awake: whoever sleeps is to be woken by
one that is. -/
theorem Handover.exists_awake {s : State T} (h : Handover s)
    (hheld : ∀ t, (s.threads t).held = [])
    (hrest : ¬ ∀ t, s.threads t = ⟨[], .outside⟩) :
    ∃ t, (s.threads t).pc ≠ .outside ∧ (s.threads t).pc.sleeps = false := by
  obtain ⟨t, ht⟩ := not_forall.mp hrest
  have hpc : (s.threads t).pc ≠ .outside := by
    intro hpc
    apply ht
    rw [← hheld t, ← hpc]
  cases hsleeps : (s.threads t).pc.sleeps with
  | false => exact ⟨t, hpc, hsleeps⟩
  | true =>
      obtain ⟨v, hv⟩ := h.busy t (Pc.slowAsleep_of_sleeps hsleeps (h.noWriter t).2.1)
      have hbusy : (s.threads v).pc.busy := hv.resolve_left fun hne => hne (hheld v)
      refine ⟨v, ?_, Pc.awake_of_busy hbusy⟩
      intro hp
      rw [hp] at hbusy
      cases hbusy

section Enabled

theorem advance_of_owns (t : T) (m : Mem T) {th : Thread} (h : th.pc.owns)
    (hnotifies : th.pc.notifies = none) : ∃ m' th', advance t m th = some (m', th') := by
  obtain ⟨held, pc⟩ := th
  cases pc <;> first
    | exact ⟨_, _, rfl⟩
    | exact absurd h Bool.false_ne_true
    | exact absurd hnotifies (Option.some_ne_none _)

theorem advance_of_free (t : T) {m : Mem T} {th : Thread} (hmutex : m.mutex = none)
    (hpc : th.pc ≠ .outside) (hsleeps : th.pc.sleeps = false) (hnotifies : th.pc.notifies = none) :
    ∃ m' th', advance t m th = some (m', th') := by
  have hacquire : m.acquire t = some { m with mutex := some t } := by
    rw [Mem.acquire, hmutex]
    rfl
  obtain ⟨held, pc⟩ := th
  cases pc <;> first
    | exact ⟨_, _, rfl⟩
    | exact ⟨_, _, by simp only [advance, hacquire]; rfl⟩
    | exact absurd rfl hpc
    | exact absurd hsleeps.symm Bool.false_ne_true
    | exact absurd hnotifies (Option.some_ne_none _)

variable [DecidableEq T] [Fintype T] {s : State T}

theorem next_of_advance {t : T} {m' : Mem T} {th' : Thread}
    (h : advance t s.mem (s.threads t) = some (m', th')) :
    next s (.run t) = some { s.setThread t th' with mem := m' } := by
  rw [next, h]
  rfl

/-- A notify wakes a sleeper, or nobody when there is none. -/
theorem exists_notify {t : T} {cv : Access} {pc : Pc}
    (h : (s.threads t).pc.notifies = some (cv, pc)) :
    ∃ woken s', next s (.notify t woken) = some s' := by
  have hnext : ∀ woken, next s (.notify t woken) =
      (s.setThread t ((s.threads t).goto pc)).wake cv woken := by
    intro woken
    rw [next, h]
  by_cases hsleeper : ∃ u, ((s.setThread t ((s.threads t).goto pc)).threads u).pc = .asleep cv
  · obtain ⟨u, hu⟩ := hsleeper
    exact ⟨some u, _, by rw [hnext, State.wake, if_pos hu]⟩
  · have hnobody : ∀ u, ((s.setThread t ((s.threads t).goto pc)).threads u).pc ≠ .asleep cv :=
      fun u hu => hsleeper ⟨u, hu⟩
    exact ⟨none, _, by rw [hnext, State.wake, if_pos hnobody]⟩

theorem exists_own_of_owns {t : T} (h : (s.threads t).pc.owns) :
    ∃ a s', Own t a ∧ next s a = some s' := by
  cases hnotifies : (s.threads t).pc.notifies with
  | none =>
      obtain ⟨m', th', hadv⟩ := advance_of_owns t s.mem h hnotifies
      exact ⟨.run t, _, rfl, next_of_advance hadv⟩
  | some r =>
      obtain ⟨woken, s', hs⟩ := exists_notify hnotifies
      exact ⟨.notify t woken, s', rfl, hs⟩

theorem exists_own_of_free {t : T} (hmutex : s.mem.mutex = none)
    (hpc : (s.threads t).pc ≠ .outside) (hsleeps : (s.threads t).pc.sleeps = false) :
    ∃ a s', Own t a ∧ next s a = some s' := by
  cases hnotifies : (s.threads t).pc.notifies with
  | none =>
      obtain ⟨m', th', hadv⟩ := advance_of_free t hmutex hpc hsleeps hnotifies
      exact ⟨.run t, _, rfl, next_of_advance hadv⟩
  | some r =>
      obtain ⟨woken, s', hs⟩ := exists_notify hnotifies
      exact ⟨.notify t woken, s', rfl, hs⟩

/-- A thread inside an operation goes on, or the owner of `mutex_` does, which is another thread. -/
theorem exists_own (h : Accounted s) {t : T} (hpc : (s.threads t).pc ≠ .outside)
    (hsleeps : (s.threads t).pc.sleeps = false) :
    (∃ a s', Own t a ∧ next s a = some s') ∨
      ∃ u, u ≠ t ∧ s.mem.mutex = some u ∧ ∃ a s', Own u a ∧ next s a = some s' := by
  cases hmutex : s.mem.mutex with
  | none => exact Or.inl (exists_own_of_free hmutex hpc hsleeps)
  | some u =>
      have hu := exists_own_of_owns ((h.owner u).mpr hmutex)
      by_cases hut : u = t
      · exact Or.inl (hut ▸ hu)
      · exact Or.inr ⟨u, hut, rfl, hu⟩

end Enabled

/-! ### What a step does to a thread -/

/-- A call goes towards its end, unless a writer has to wait. -/
theorem advance_callRank {t : T} {m m' : Mem T} {th th' : Thread}
    (h : advance t m th = some (m', th')) (hrank : 0 < th.pc.callRank)
    (hshared : th.pc = .lockLoadShared → m.sharedCount = 0)
    (hcount : th.pc = .lockLoadCount → m.exclusiveCount = 0) :
    th'.pc.callRank < th.pc.callRank ∧ (0 < th'.pc.callRank ∨ th'.pc = .outside) := by
  obtain ⟨held, pc⟩ := th
  cases pc <;> simp only [advance] at h
  all_goals grind [Pc.callRank, Thread.goto, Thread.obtain, Mem.acquire]

/-- A writer comes to its predicate by taking `mutex_`. -/
theorem advance_foundFree {t : T} {m m' : Mem T} {th th' : Thread}
    (h : advance t m th = some (m', th'))
    (hpc : th'.pc = .lockLoadShared ∨ th'.pc = .lockLoadCount) :
    m'.exclusiveCount = m.exclusiveCount ∧ (th.pc = .lockAcquire ∨ th.pc = .lockWoken ∨
      th.pc = .lockLoadShared) := by
  obtain ⟨held, pc⟩ := th
  cases pc <;> simp only [advance] at h
  all_goals grind [Thread.goto, Thread.obtain, Mem.acquire]

section Steps

variable [DecidableEq T] [Fintype T] {s s' : State T}

/-- A thread that does not sleep moves by its own steps only. -/
theorem next_threads_ne {a : Label T} {t : T} (h : next s a = some s')
    (hcall : ∀ op, a ≠ .call t op) (hown : ¬ Own t a) (hsleeps : (s.threads t).pc.sleeps = false) :
    s'.threads t = s.threads t := by
  have hne : ∀ {cv u}, (s.threads u).pc = .asleep cv → t ≠ u := by
    rintro cv u hu rfl
    rw [hu] at hsleeps
    cases cv <;> cases hsleeps
  cases a with
  | call u op =>
      obtain ⟨th', -, rfl⟩ := Option.map_eq_some_iff.mp h
      refine setThread_ne s th' ?_
      rintro rfl
      exact hcall op rfl
  | run u =>
      obtain ⟨m', th', -, rfl⟩ := next_run h
      exact setThread_ne s th' (fun htu => hown htu.symm)
  | notify u woken =>
      obtain ⟨cv, pc, hn, hw⟩ := next_notify h
      have htu : t ≠ u := fun htu => hown htu.symm
      rcases wake_cases hw with ⟨v, -, hv, rfl⟩ | ⟨-, -, rfl⟩
      · have htv : t ≠ v := by
          rintro rfl
          rw [setThread_ne s _ htu] at hv
          exact hne hv rfl
        rw [setThread_ne _ _ htv, setThread_ne s _ htu]
      · exact setThread_ne s _ htu
  | spurious u =>
      obtain ⟨cv, hpc, rfl⟩ := next_spurious h
      exact setThread_ne s _ (hne hpc)

/-- At rest a call of `lock_shared` goes the fast path. -/
theorem fastPath_at_rest (hr : (system T).Reachable s) (hrest : ∀ u, s.threads u = ⟨[], .outside⟩)
    (t : T) :
    ∃ s₁ s₂ s₃, next s (.call t .lockShared) = some s₁ ∧ s₁.threads t = ⟨[], .fastLoadRequests⟩ ∧
      next s₁ (.run t) = some s₂ ∧ s₂.threads t = ⟨[], .fastAdd⟩ ∧
      (∀ u, u ≠ t → s₂.threads u = ⟨[], .outside⟩) ∧
      next s₂ (.run t) = some s₃ ∧ s₃.threads t = ⟨[.shared], .outside⟩ := by
  have ha := accounted_of_reachable hr
  have hrequests : s.mem.exclusiveRequests = 0 := by
    by_contra hne
    rw [ha.requests] at hne
    obtain ⟨u, hu⟩ := exists_pos_of_total_pos requestWeight s.threads (by omega)
    rw [hrest u] at hu
    exact absurd hu (lt_irrefl 0)
  have hcall : next s (.call t .lockShared) = some (s.setThread t ⟨[], .fastLoadRequests⟩) := by
    rw [next, hrest t]
    rfl
  have hload : next (s.setThread t ⟨[], .fastLoadRequests⟩) (.run t) =
      some ((s.setThread t ⟨[], .fastLoadRequests⟩).setThread t ⟨[], .fastAdd⟩) := by
    refine next_of_advance ?_
    rw [setThread_self]
    simp [advance, State.setThread, hrequests, Thread.goto]
  have hadd : next ((s.setThread t ⟨[], .fastLoadRequests⟩).setThread t ⟨[], .fastAdd⟩) (.run t) =
      some { ((s.setThread t ⟨[], .fastLoadRequests⟩).setThread t ⟨[], .fastAdd⟩).setThread t
        ⟨[.shared], .outside⟩ with
          mem := { s.mem with sharedCount := s.mem.sharedCount + 1 } } := by
    refine next_of_advance ?_
    rw [setThread_self]
    simp [advance, State.setThread, ha.shared_nonneg, Thread.obtain]
  refine ⟨_, _, _, hcall, setThread_self .., hload, setThread_self .., fun u hu => ?_, hadd,
    setThread_self ..⟩
  rw [setThread_ne _ _ hu, setThread_ne _ _ hu, hrest u]

/-! ### No writer waits -/

/-- A writer that has taken `mutex_` finds no exclusive access. -/
def FoundFree (s : State T) : Prop :=
  ∀ t, (s.threads t).pc = .lockLoadShared ∨ (s.threads t).pc = .lockLoadCount →
    s.mem.exclusiveCount = 0

theorem FoundFree.next (h : FoundFree s) (ha : Accounted s) {a : Label T}
    (hg : WriterFindsFree s a) (hs : next s a = some s') : FoundFree s' := by
  refine next_preserves (I := FoundFree) h hs ?_ ?_
  · rintro t m' th' rfl hadv u hu
    by_cases hut : u = t
    · subst u
      simp only [setThread_self] at hu
      obtain ⟨hsame, hfrom⟩ := advance_foundFree hadv hu
      rw [hsame]
      rcases hfrom with hpc | hpc | hpc
      · exact hg.1 (Or.inl hpc)
      · exact hg.1 (Or.inr hpc)
      · exact h t (Or.inl hpc)
    · simp only [setThread_ne s th' hut] at hu
      -- the other thread owns `mutex_`, so this one does not move the counter
      have hnot : (s.threads t).pc.owns = false := by
        by_contra hown
        refine hut (ha.owner_unique ?_ (by simpa using hown))
        rcases hu with hu | hu <;> simp [hu, Pc.owns]
      exact (advance_of_not_owns hadv hnot).1.trans (h u hu)
  · intro r t th' hr hq u hu
    by_cases hut : u = t
    · subst u
      rw [setThread_self] at hu
      refine hr t ?_
      cases hq with
      | call op hb =>
          obtain ⟨-, ⟨-, rfl⟩ | ⟨-, rfl⟩ | ⟨-, -, hpc⟩ | ⟨-, -, hpc⟩⟩ := begin_cases hb <;>
            simp_all [Thread.goto]
      | notify cv pc hn =>
          rcases notifies_cases hn with ⟨-, rfl⟩ | ⟨-, rfl⟩ <;> simp [Thread.goto] at hu
      | wake cv hpc => cases cv <;> simp [Thread.goto, Pc.woken] at hu
    · rw [setThread_ne r th' hut] at hu
      exact hr u hu

/-- In a run in which writers find the mutex free, none has to wait. -/
theorem reachedBy_writerPasses {G : State T → Label T → Prop}
    (h : (system T).ReachedBy (fun s a => WriterFindsFree s a ∧ G s a) s) :
    FoundFree s ∧ (system T).ReachedBy (fun s a => WriterPasses s a ∧ G s a) s := by
  refine h.invariant (I := fun s => FoundFree s ∧
    (system T).ReachedBy (fun s a => WriterPasses s a ∧ G s a) s) ⟨?_, .start⟩ ?_
  · intro t ht
    rcases ht with ht | ht <;> cases ht
  · rintro s a s' hr ⟨hfound, hpasses⟩ ⟨hg, hG⟩ hs
    refine ⟨hfound.next (accounted_of_reachable hr.reachable) hg hs,
      hpasses.step ⟨?_, hG⟩ hs⟩
    cases a with
    | run t => exact ⟨hg.2, fun hpc => hfound t (Or.inr hpc)⟩
    | _ => trivial

end Steps

end SocketLib.ExclusivePrioritySharedMutex
