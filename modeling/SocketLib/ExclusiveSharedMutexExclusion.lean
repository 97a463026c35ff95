import SocketLib.ExclusiveSharedMutexAccounting

/-!
# Readers against writers

The fast path of `lock_shared` tests `exclusiveRequests_` only. A writer withdraws its request
before `lock` returns, so a reader on the fast path can enter while a writer holds exclusive access.
What remains true, and exactly when, is stated by `FastAddClear`: no fast-path `fetch_add` runs
while a thread is in the window that opens when `lock` reads `sharedCount_` as zero and closes when
the thread calls `unlock`. Under it a thread in the window sees no reader, whatever the slow path
does.
-/

namespace SocketLib.ExclusivePrioritySharedMutex

variable {T : Type*}

/-- The thread has found `sharedCount_` zero in the predicate of `lock`, which no `exclusiveCount_`
will fail any more, and has not called `unlock` yet. -/
def InWindow (m : Mem T) (th : Thread) : Prop :=
  .exclusive ∈ th.held ∨ th.pc = .lockSubRequest ∨ th.pc = .lockAddCount ∨ th.pc = .lockRelease ∨
    (th.pc = .lockLoadCount ∧ m.exclusiveCount = 0)

instance (m : Mem T) (th : Thread) : Decidable (InWindow m th) := by
  unfold InWindow
  infer_instance

/-- The fast path of `lock_shared` increments `sharedCount_` only while no other thread is in the
window. -/
def FastAddClear (s : State T) : Label T → Prop
  | .run t => (s.threads t).pc = .fastAdd → ∀ u, u ≠ t → ¬ InWindow s.mem (s.threads u)
  | _ => True

instance [Fintype T] [DecidableEq T] (s : State T) (a : Label T) :
    Decidable (FastAddClear s a) :=
  match a with
  | .run t => inferInstanceAs (Decidable ((s.threads t).pc = .fastAdd →
      ∀ u, u ≠ t → ¬ InWindow s.mem (s.threads u)))
  | .call _ _ | .notify _ _ | .spurious _ => isTrue trivial

/-- A thread in the window sees no other thread counted in `sharedCount_`. -/
def WindowClear (s : State T) : Prop :=
  ∀ u v, u ≠ v → InWindow s.mem (s.threads u) → sharedWeight (s.threads v) = 0

/-- No thread holds shared access while another holds exclusive access. -/
def ReaderWriterExclusion (s : State T) : Prop :=
  ∀ t u, t ≠ u → .shared ∈ (s.threads t).held → .exclusive ∉ (s.threads u).held

theorem sharedWeight_pos {th : Thread} (h : .shared ∈ th.held) : 0 < sharedWeight th :=
  Nat.add_pos_left (List.count_pos_iff.mpr h) _

theorem exclusiveWeight_pos {th : Thread} (h : .exclusive ∈ th.held) : 0 < exclusiveWeight th :=
  Nat.add_pos_left (List.count_pos_iff.mpr h) _

theorem Quiet.inWindow {m : Mem T} {th th' : Thread} (h : Quiet th th') (hw : InWindow m th') :
    InWindow m th := by
  cases h with
  | call op h =>
      obtain ⟨hpc, h⟩ := begin_cases h
      grind [InWindow, Thread.goto]
  | notify cv pc h =>
      rcases notifies_cases h with ⟨hpc, rfl⟩ | ⟨hpc, rfl⟩ <;>
        simp_all [InWindow, Thread.goto]
  | wake cv h => cases cv <;> simp_all [InWindow, Thread.goto, Pc.woken, Pc.asleep]

section Steps

variable {t : T} {m m' : Mem T} {th th' : Thread}

/-- A thread comes into the window only by reading `sharedCount_` as zero. -/
theorem advance_inWindow (h : advance t m th = some (m', th')) (hw : InWindow m' th') :
    InWindow m th ∨ m.sharedCount = 0 := by
  obtain ⟨held, pc⟩ := th
  cases pc <;> simp only [advance] at h
  all_goals grind [InWindow, Thread.goto, Thread.obtain, Mem.acquire, Mem.release]

/-- The steps that make a thread a reader. -/
theorem advance_sharedWeight (h : advance t m th = some (m', th')) :
    sharedWeight th' ≤ sharedWeight th ∨ th.pc = .fastAdd ∨ th.pc = .slowAdd := by
  obtain ⟨held, pc⟩ := th
  cases pc <;> simp only [advance] at h
  all_goals grind [sharedWeight, Thread.goto, Thread.obtain, Mem.acquire, Mem.release]

end Steps

section Invariant

variable [Fintype T] {s : State T}

/-- A thread in the window owns `mutex_` or is counted in `exclusiveCount_`. -/
theorem Accounted.window_cases (h : Accounted s) {u : T} (hw : InWindow s.mem (s.threads u)) :
    (s.threads u).pc.owns ∨ 0 < s.mem.exclusiveCount := by
  rcases hw with hheld | hpc | hpc | hpc | ⟨hpc, -⟩
  · right
    have hle := h.exclusiveWeight_le u
    have hpos := exclusiveWeight_pos hheld
    omega
  all_goals
    left
    simp [hpc, Pc.owns]

theorem Accounted.slowAdd_no_window (h : Accounted s) {t : T} (ht : (s.threads t).pc = .slowAdd)
    (u : T) : ¬ InWindow s.mem (s.threads u) := by
  intro hw
  have hzero : s.mem.exclusiveCount = 0 := by
    have hf := h.point t
    rwa [ht] at hf
  rcases h.window_cases hw with howns | hpos
  · obtain rfl : t = u := h.owner_unique (by simp [ht, Pc.owns]) howns
    rcases hw with hheld | hpc | hpc | hpc | ⟨hpc, -⟩
    · have hle := h.exclusiveWeight_le t
      have hpos := exclusiveWeight_pos hheld
      omega
    all_goals simp [ht] at hpc
  · omega

/-- A step of another thread does not bring a thread into the window. -/
theorem Accounted.inWindow_other (h : Accounted s) {t u : T} {m' : Mem T} {th' : Thread}
    (hu : u ≠ t) (hadv : advance t s.mem (s.threads t) = some (m', th'))
    (hw : InWindow m' (s.threads u)) : InWindow s.mem (s.threads u) := by
  rcases hw with hheld | hpc | hpc | hpc | ⟨hpc, hzero⟩
  · exact Or.inl hheld
  · exact Or.inr (Or.inl hpc)
  · exact Or.inr (Or.inr (Or.inl hpc))
  · exact Or.inr (Or.inr (Or.inr (Or.inl hpc)))
  · -- at `lockLoadCount` the thread owns `mutex_`, so nobody else moves `exclusiveCount_`
    have hnot : (s.threads t).pc.owns = false := by
      by_contra hown
      exact hu (h.owner_unique (by simp [hpc, Pc.owns]) (by simpa using hown))
    rw [(advance_of_not_owns hadv hnot).1] at hzero
    exact Or.inr (Or.inr (Or.inr (Or.inr ⟨hpc, hzero⟩)))

end Invariant

section Transitions

variable [DecidableEq T] {s : State T}

theorem WindowClear.quiet {t : T} {th' : Thread} (h : WindowClear s)
    (hq : Quiet (s.threads t) th') : WindowClear (s.setThread t th') := by
  intro u v huv hw
  have hold : InWindow s.mem (s.threads u) := by
    by_cases hu : u = t
    · subst u
      exact hq.inWindow (by simpa using hw)
    · simpa [setThread_ne s th' hu] using hw
  have hzero := h u v huv hold
  by_cases hv : v = t
  · subst v
    rw [setThread_self, hq.weights.1]
    exact hzero
  · rwa [setThread_ne s th' hv]

variable [Fintype T]

theorem WindowClear.run_step {t : T} {m' : Mem T} {th' : Thread} (ha : Accounted s)
    (h : WindowClear s) (hg : FastAddClear s (.run t))
    (hadv : advance t s.mem (s.threads t) = some (m', th')) :
    WindowClear { s.setThread t th' with mem := m' } := by
  intro u v huv hw
  by_cases hu : u = t
  · subst u
    have hv : v ≠ t := huv.symm
    simp only [setThread_self] at hw
    simp only [setThread_ne s th' hv]
    rcases advance_inWindow hadv hw with hold | hzero
    · exact h t v huv hold
    · have hle := ha.sharedWeight_le v
      omega
  · simp only [setThread_ne s th' hu] at hw
    have hold := ha.inWindow_other hu hadv hw
    by_cases hv : v = t
    · subst v
      simp only [setThread_self]
      have hzero := h u t huv hold
      rcases advance_sharedWeight hadv with hle | hpc | hpc
      · omega
      · exact absurd hold (hg hpc u hu)
      · exact absurd hold (ha.slowAdd_no_window hpc u)
    · simpa only [setThread_ne s th' hv] using h u v huv hold

theorem windowClear_of_reachedBy (h : (system T).ReachedBy FastAddClear s) : WindowClear s := by
  refine h.invariant ?_ ?_
  · intro u v _ _
    simp [system, initial, sharedWeight]
  · intro r a r' hr hI hg hs
    refine next_preserves hI hs ?_ (fun _ _ _ hq hquiet => hq.quiet hquiet)
    rintro t m' th' rfl hadv
    exact hI.run_step (accounted_of_reachable hr.reachable) hg hadv

/-- Readers and writers exclude each other in every run whose fast-path increments are clear of the
window. -/
theorem readerWriterExclusion_of_fastAddClear (h : (system T).ReachedBy FastAddClear s) :
    ReaderWriterExclusion s := by
  intro t u htu hshared hexcl
  have hzero := windowClear_of_reachedBy h u t htu.symm (Or.inl hexcl)
  have hpos := sharedWeight_pos hshared
  omega

/-! A thread in the window goes on to return from `lock` by its own steps, so a fast-path increment
that is not clear of the window leads to a reader and a writer inside together. -/

theorem leadsTo_run {t : T} {m' : Mem T} {th' : Thread}
    (hadv : advance t s.mem (s.threads t) = some (m', th')) :
    (system T).LeadsTo s { s.setThread t th' with mem := m' } := by
  refine TransitionSystem.LeadsBy.single (a := .run t) trivial ?_
  change Option.map _ (advance t s.mem (s.threads t)) = _
  rw [hadv]
  rfl

/-- The state after a thread has run is described by that thread's new state and the old states of
the others. -/
def Returns (s : State T) (u : T) : Prop :=
  ∃ s', (system T).LeadsTo s s' ∧ .exclusive ∈ (s'.threads u).held ∧
    ∀ v, v ≠ u → s'.threads v = s.threads v

theorem returns_of_run {u : T} {m' : Mem T} {th' : Thread}
    (hadv : advance u s.mem (s.threads u) = some (m', th'))
    (h : Returns { s.setThread u th' with mem := m' } u) : Returns s u := by
  obtain ⟨s', hs', hheld, hrest⟩ := h
  refine ⟨s', (leadsTo_run hadv).trans hs', hheld, fun v hv => ?_⟩
  rw [hrest v hv]
  exact setThread_ne s th' hv

theorem returns_of_inWindow {u : T} (hw : InWindow s.mem (s.threads u)) : Returns s u := by
  have hrelease : ∀ r : State T, (r.threads u).pc = .lockRelease → Returns r u := by
    intro r hpc
    have hadv : advance u r.mem (r.threads u) =
        some (r.mem.release, (r.threads u).obtain .exclusive) := by simp only [advance, hpc]
    refine ⟨_, leadsTo_run hadv, ?_, fun v hv => setThread_ne r _ hv⟩
    simp [Thread.obtain]
  have hadd : ∀ r : State T, (r.threads u).pc = .lockAddCount → Returns r u := by
    intro r hpc
    have hadv : advance u r.mem (r.threads u) =
        some ({ r.mem with exclusiveCount := r.mem.exclusiveCount + 1 },
          (r.threads u).goto .lockRelease) := by simp only [advance, hpc]
    exact returns_of_run hadv (hrelease _ (by simp [Thread.goto]))
  have hsub : ∀ r : State T, (r.threads u).pc = .lockSubRequest → Returns r u := by
    intro r hpc
    have hadv : advance u r.mem (r.threads u) =
        some ({ r.mem with exclusiveRequests := r.mem.exclusiveRequests - 1 },
          (r.threads u).goto .lockAddCount) := by simp only [advance, hpc]
    exact returns_of_run hadv (hadd _ (by simp [Thread.goto]))
  rcases hw with hheld | hpc | hpc | hpc | ⟨hpc, hzero⟩
  · exact ⟨s, Relation.ReflTransGen.refl, hheld, fun _ _ => rfl⟩
  · exact hsub s hpc
  · exact hadd s hpc
  · exact hrelease s hpc
  · have hadv : advance u s.mem (s.threads u) =
        some (s.mem, (s.threads u).goto .lockSubRequest) := by
      simp only [advance, hpc, if_pos hzero]
    exact returns_of_run hadv (hsub _ (by simp [Thread.goto]))

/-- The condition cannot be relaxed: a fast-path increment beside a thread in the window is
followed, by that thread's own steps, by a reader and a writer inside together. -/
theorem fastAdd_in_window_breaks_exclusion {s' : State T} {t u : T} (hr : (system T).Reachable s)
    (hpc : (s.threads t).pc = .fastAdd) (hu : u ≠ t) (hw : InWindow s.mem (s.threads u))
    (hs : next s (.run t) = some s') :
    ∃ s'', (system T).LeadsTo s' s'' ∧ ¬ ReaderWriterExclusion s'' := by
  obtain ⟨m', th', hadv, rfl⟩ := next_run hs
  have hnonneg := (accounted_of_reachable hr).shared_nonneg
  simp only [advance, hpc, if_pos hnonneg, Option.some.injEq, Prod.mk.injEq] at hadv
  obtain ⟨rfl, rfl⟩ := hadv
  have hwindow : InWindow { s.mem with sharedCount := s.mem.sharedCount + 1 }
      ((s.setThread t ((s.threads t).obtain .shared)).threads u) := by
    simpa only [InWindow, setThread_ne s _ hu] using hw
  obtain ⟨s'', hlead, hheld, hrest⟩ := returns_of_inWindow
    (s := ⟨_, (s.setThread t ((s.threads t).obtain .shared)).threads⟩) hwindow
  refine ⟨s'', hlead, fun hexcl => hexcl t u hu.symm ?_ hheld⟩
  rw [hrest t hu.symm]
  simp [Thread.obtain]

end Transitions

/-! ### The condition at work -/

/-- A writer goes through `lock` while nobody else is in the mutex. -/
def lockAlone {T : Type*} (t : T) : List (Label T) :=
  .call t .lock :: List.replicate 7 (.run t)

/-- A reader takes the two steps of the fast path. -/
def fastPath {T : Type*} (t : T) : List (Label T) := [.call t .lockShared, .run t, .run t]

/-- A writer holds exclusive access when a reader arrives: no request is announced any more, and the
fast path lets the reader in. -/
theorem not_readerWriterExclusion :
    ¬ ∀ s : State (Fin 2), (system (Fin 2)).Reachable s → ReaderWriterExclusion s := by
  intro h
  have hrun : ((system (Fin 2)).exec (initial (Fin 2)) (lockAlone 0 ++ fastPath 1)).any (fun s =>
      .shared ∈ (s.threads 1).held ∧ .exclusive ∈ (s.threads 0).held) = true := by decide
  obtain ⟨s, hs, hheld⟩ := TransitionSystem.exists_reachedBy_of_execWhile hrun
  rw [decide_eq_true_eq] at hheld
  exact h s hs 1 0 (by decide) hheld.1 hheld.2

/-- Two readers come in on the fast path, one after the other, and a writer announces itself. -/
theorem readerWriterExclusion_two_readers :
    ∃ s : State (Fin 3), (system (Fin 3)).ReachedBy FastAddClear s ∧
      .shared ∈ (s.threads 0).held ∧ .shared ∈ (s.threads 1).held ∧
      (s.threads 2).pc = .lockAcquire ∧ ReaderWriterExclusion s := by
  have hrun : ((system (Fin 3)).execWhile FastAddClear (initial (Fin 3))
      (fastPath 0 ++ fastPath 1 ++ [.call 2 .lock, .run 2])).any (fun s =>
      .shared ∈ (s.threads 0).held ∧ .shared ∈ (s.threads 1).held ∧
      (s.threads 2).pc = .lockAcquire) = true := by decide
  obtain ⟨s, hs, hheld⟩ := TransitionSystem.exists_reachedBy_of_execWhile hrun
  rw [decide_eq_true_eq] at hheld
  exact ⟨s, hs, hheld.1, hheld.2.1, hheld.2.2, readerWriterExclusion_of_fastAddClear hs⟩

end SocketLib.ExclusivePrioritySharedMutex
