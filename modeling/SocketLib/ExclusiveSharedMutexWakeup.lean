import SocketLib.ExclusiveSharedMutexAccounting

/-!
# Sleepers and the notifies that wake them

`exclusiveWaiting_` is read by both unlock operations and written by none, so every `notify_one` of
the mutex goes to `sharedCv_`. A writer that has gone to sleep on `exclusiveCv_` is woken by nobody
(`asleep_writer_stays`). Sleeping readers are safe as long as no writer sleeps and no thread goes to
sleep with an access of its own: the one notify wakes one reader, whose own `unlock_shared` passes
the lock on.
-/

namespace SocketLib.ExclusivePrioritySharedMutex

open ThreadFamily

variable {T : Type*}

/-- Wakeups only by a notify. -/
def NotifiedOnly : Label T → Prop
  | .spurious _ => False
  | _ => True

/-- A writer that evaluates the wait predicate of `lock` finds the mutex free. -/
def WriterPasses (s : State T) : Label T → Prop
  | .run t =>
      ((s.threads t).pc = .lockLoadShared → s.mem.sharedCount = 0) ∧
        ((s.threads t).pc = .lockLoadCount → s.mem.exclusiveCount = 0)
  | _ => True

/-- A thread that goes to sleep in `lock_shared` holds no access itself. -/
def SleepsEmptyHanded (s : State T) : Label T → Prop
  | .run t => (s.threads t).pc = .slowWait → (s.threads t).held = []
  | _ => True

def HandsOver (s : State T) (a : Label T) : Prop :=
  NotifiedOnly a ∧ WriterPasses s a ∧ SleepsEmptyHanded s a

instance (a : Label T) : Decidable (NotifiedOnly a) :=
  match a with
  | .spurious _ => isFalse not_false
  | .call _ _ | .run _ | .notify _ _ => isTrue trivial

instance (s : State T) (a : Label T) : Decidable (WriterPasses s a) :=
  match a with
  | .run t => inferInstanceAs (Decidable (((s.threads t).pc = .lockLoadShared →
      s.mem.sharedCount = 0) ∧ ((s.threads t).pc = .lockLoadCount → s.mem.exclusiveCount = 0)))
  | .call _ _ | .notify _ _ | .spurious _ => isTrue trivial

instance (s : State T) (a : Label T) : Decidable (SleepsEmptyHanded s a) :=
  match a with
  | .run t => inferInstanceAs (Decidable ((s.threads t).pc = .slowWait → (s.threads t).held = []))
  | .call _ _ | .notify _ _ | .spurious _ => isTrue trivial

instance (s : State T) (a : Label T) : Decidable (HandsOver s a) :=
  inferInstanceAs (Decidable (NotifiedOnly a ∧ WriterPasses s a ∧ SleepsEmptyHanded s a))

def Pc.sleeps : Pc → Bool
  | .slowAsleep | .lockAsleep => true
  | _ => false

/-- Somebody sleeps, and everybody else holds nothing and is outside the four operations. -/
def LostWakeup (s : State T) : Prop :=
  (∃ t, (s.threads t).pc.sleeps) ∧
    ∀ t, (s.threads t).pc.sleeps ∨ ((s.threads t).held = [] ∧ (s.threads t).pc = .outside)

/-- The points of a thread that will still notify `sharedCv_`, or get the lock and release it. -/
def Pc.busy : Pc → Bool
  | .slowWoken | .slowLoadRequests | .slowLoadCount | .slowAdd | .slowRelease
  | .unsharedSub | .unsharedAcquire | .unsharedLoadWaiting | .unsharedNotify _
  | .lockAcquire | .lockLoadShared | .lockLoadCount | .lockSubRequest | .lockAddCount | .lockRelease
  | .unlockAcquire | .unlockSub | .unlockLoadWaiting | .unlockNotify _ => true
  | _ => false

def Busy (th : Thread) : Prop := th.held ≠ [] ∨ th.pc.busy

/-- No writer waits, sleeping readers hold nothing, and where a reader sleeps somebody is busy. -/
structure Handover (s : State T) : Prop where
  noWriter : ∀ t, (s.threads t).pc ≠ .lockWait ∧ (s.threads t).pc ≠ .lockAsleep ∧
    (s.threads t).pc ≠ .lockWoken
  emptyHanded : ∀ t, (s.threads t).pc = .slowAsleep → (s.threads t).held = []
  busy : ∀ t, (s.threads t).pc = .slowAsleep → ∃ u, Busy (s.threads u)

/-! ### The atomic steps of one thread -/

section Advance

variable {t : T} {m m' : Mem T} {th th' : Thread}

/-- A thread stops being busy only where it finds the lock taken, or where it leaves another reader
behind. -/
theorem advance_busy (h : advance t m th = some (m', th')) (hb : Busy th) :
    Busy th' ∨
      ((th.pc = .slowLoadRequests ∨ th.pc = .slowLoadCount) ∧ th.held = [] ∧
        (m.exclusiveRequests ≠ 0 ∨ m.exclusiveCount ≠ 0)) ∨
      (th.pc = .unsharedSub ∧ m.sharedCount ≠ 1 ∧ th.held = []) ∨
      (th.pc = .lockLoadShared ∧ m.sharedCount ≠ 0) ∨
      (th.pc = .lockLoadCount ∧ m.exclusiveCount ≠ 0) := by
  obtain ⟨held, pc⟩ := th
  cases pc <;> simp only [advance] at h
  all_goals grind [Busy, Pc.busy, Thread.goto, Thread.obtain, Mem.acquire, Mem.release]

theorem advance_asleep (h : advance t m th = some (m', th')) (hpc : th'.pc = .slowAsleep) :
    th.pc = .slowWait ∧ th'.held = th.held := by
  obtain ⟨held, pc⟩ := th
  cases pc <;> simp only [advance] at h
  all_goals grind [Thread.goto, Thread.obtain, Mem.acquire, Mem.release]

theorem advance_noWriter (h : advance t m th = some (m', th'))
    (hn : th.pc ≠ .lockWait ∧ th.pc ≠ .lockAsleep ∧ th.pc ≠ .lockWoken)
    (hs : th.pc = .lockLoadShared → m.sharedCount = 0)
    (hc : th.pc = .lockLoadCount → m.exclusiveCount = 0) :
    th'.pc ≠ .lockWait ∧ th'.pc ≠ .lockAsleep ∧ th'.pc ≠ .lockWoken := by
  obtain ⟨held, pc⟩ := th
  cases pc <;> simp only [advance] at h
  all_goals grind [Thread.goto, Thread.obtain, Mem.acquire, Mem.release]

end Advance

theorem busy_of_requestWeight {th : Thread} (h : 0 < requestWeight th)
    (hn : th.pc ≠ .lockWait ∧ th.pc ≠ .lockAsleep ∧ th.pc ≠ .lockWoken) : Busy th := by
  right
  obtain ⟨held, pc⟩ := th
  cases pc <;> simp_all [requestWeight, Pc.requests, Pc.busy]

theorem busy_of_exclusiveWeight {th : Thread} (h : 0 < exclusiveWeight th) : Busy th := by
  by_cases hheld : th.held = []
  · right
    simp only [exclusiveWeight, hheld, List.count_nil, Nat.zero_add] at h
    split_ifs at h with hpc
    · rcases hpc with hpc | hpc | hpc <;> simp [hpc, Pc.busy]
    · omega
  · exact Or.inl hheld

theorem busy_of_sharedWeight {th : Thread} (h : 0 < sharedWeight th) : Busy th := by
  by_cases hheld : th.held = []
  · right
    simp only [sharedWeight, hheld, List.count_nil, Nat.zero_add] at h
    split_ifs at h with hpc
    · rcases hpc with hpc | hpc <;> simp [hpc, Pc.busy]
    · omega
  · exact Or.inl hheld

/-! ### The invariant -/

section Calls

variable [DecidableEq T] {s : State T}

theorem Handover.call_step (h : Handover s) {t : T} {th' : Thread} {op : Op}
    (hb : (s.threads t).begin op = some th') : Handover (s.setThread t th') := by
  obtain ⟨hpc, hcases⟩ := begin_cases hb
  have hquiet : th'.pc ≠ .slowAsleep ∧ th'.pc ≠ .lockWait ∧ th'.pc ≠ .lockAsleep ∧
      th'.pc ≠ .lockWoken := by
    rcases hcases with ⟨-, rfl⟩ | ⟨-, rfl⟩ | ⟨-, -, hpc'⟩ | ⟨-, -, hpc'⟩ <;> simp_all [Thread.goto]
  have hbusy : Busy (s.threads t) → Busy th' := by
    rintro (hheld | hbusy)
    · rcases hcases with ⟨-, rfl⟩ | ⟨-, rfl⟩ | ⟨-, -, hpc'⟩ | ⟨-, -, hpc'⟩
      · exact Or.inl hheld
      · exact Or.inl hheld
      · exact Or.inr (by simp [hpc', Pc.busy])
      · exact Or.inr (by simp [hpc', Pc.busy])
    · simp [hpc, Pc.busy] at hbusy
  refine ⟨fun u => ?_, fun u hu => ?_, fun u hu => ?_⟩
  · by_cases hut : u = t
    · subst u
      simpa using hquiet.2
    · simpa only [setThread_ne s th' hut] using h.noWriter u
  · by_cases hut : u = t
    · subst u
      simp [hquiet.1] at hu
    · simp only [setThread_ne s th' hut] at hu ⊢
      exact h.emptyHanded u hu
  · by_cases hut : u = t
    · subst u
      simp [hquiet.1] at hu
    · simp only [setThread_ne s th' hut] at hu
      obtain ⟨v, hv⟩ := h.busy u hu
      by_cases hvt : v = t
      · subst v
        exact ⟨t, by rw [setThread_self]; exact hbusy hv⟩
      · exact ⟨v, by rwa [setThread_ne s th' hvt]⟩

/-- A reader that wakes for no reason is busy like one that is woken. -/
theorem Handover.spurious_step (h : Handover s) {t : T} {cv : Access}
    (hpc : (s.threads t).pc = .asleep cv) :
    Handover (s.setThread t ((s.threads t).goto (.woken cv))) := by
  obtain rfl : cv = .shared := by
    cases cv with
    | shared => rfl
    | exclusive => exact absurd hpc (h.noWriter t).2.1
  refine ⟨fun u => ?_, fun u hu => ?_, fun _ _ => ⟨t, ?_⟩⟩
  · refine setThread_of (P := fun th => th.pc ≠ .lockWait ∧ th.pc ≠ .lockAsleep ∧
      th.pc ≠ .lockWoken) s (fun _ => ?_) (h.noWriter u)
    simp [Thread.goto, Pc.woken]
  · by_cases hut : u = t
    · subst u
      simp [Thread.goto, Pc.woken] at hu
    · simp only [setThread_ne s _ hut] at hu ⊢
      exact h.emptyHanded u hu
  · rw [setThread_self]
    exact Or.inr (by simp [Thread.goto, Pc.woken, Pc.busy])

end Calls

section Invariant

variable [Fintype T] {s : State T}

/-- Where the wait predicate of `lock_shared` is false for a reader, some other thread is a writer
on its way. -/
theorem Handover.exists_writer (h : Handover s) (ha : Accounted s) {t : T}
    (hpc : (s.threads t).pc = .slowLoadRequests ∨ (s.threads t).pc = .slowLoadCount ∨
      (s.threads t).pc = .slowWait) (hheld : (s.threads t).held = [])
    (hne : s.mem.exclusiveRequests ≠ 0 ∨ s.mem.exclusiveCount ≠ 0) :
    ∃ u, u ≠ t ∧ Busy (s.threads u) := by
  have hreq : requestWeight (s.threads t) = 0 := by
    rcases hpc with hpc | hpc | hpc <;> simp [requestWeight, Pc.requests, hpc]
  have hexcl : exclusiveWeight (s.threads t) = 0 := by
    rcases hpc with hpc | hpc | hpc <;> simp [exclusiveWeight, hpc, hheld]
  rcases hne with hne | hne
  · rw [ha.requests] at hne
    obtain ⟨u, hu⟩ := exists_pos_of_total_pos requestWeight s.threads (by omega)
    refine ⟨u, ?_, busy_of_requestWeight hu (h.noWriter u)⟩
    rintro rfl
    omega
  · rw [ha.exclusive] at hne
    obtain ⟨u, hu⟩ := exists_pos_of_total_pos exclusiveWeight s.threads (by omega)
    refine ⟨u, ?_, busy_of_exclusiveWeight hu⟩
    rintro rfl
    omega

variable [DecidableEq T]

/-- A step of the running thread leaves somebody busy if somebody was. -/
theorem Handover.busy_step (h : Handover s) (ha : Accounted s) {t u : T} {m' : Mem T}
    {th' : Thread} (hg : WriterPasses s (.run t)) (hu : Busy (s.threads u))
    (hadv : advance t s.mem (s.threads t) = some (m', th')) :
    ∃ v, Busy ((s.setThread t th').threads v) := by
  have hother : ∀ v, v ≠ t → Busy (s.threads v) → ∃ v, Busy ((s.setThread t th').threads v) :=
    fun v hv hb => ⟨v, by rwa [setThread_ne s th' hv]⟩
  by_cases hut : u = t
  · subst u
    rcases advance_busy hadv hu with hb | ⟨hpc, hheld, hne⟩ | ⟨hpc, hne, hheld⟩ | ⟨hpc, hne⟩ |
      ⟨hpc, hne⟩
    · exact ⟨t, by rwa [setThread_self]⟩
    · obtain ⟨v, hvt, hv⟩ := h.exists_writer ha (hpc.imp_right Or.inl) hheld hne
      exact hother v hvt hv
    · have hone : sharedWeight (s.threads t) = 1 := by simp [sharedWeight, hpc, hheld]
      have hle := ha.sharedWeight_le t
      have hsum := ha.shared
      obtain ⟨v, hvt, hv⟩ := exists_ne_pos_of_lt_total sharedWeight s.threads (t := t) (by omega)
      exact hother v hvt (busy_of_sharedWeight hv)
    · exact absurd (hg.1 hpc) hne
    · exact absurd (hg.2 hpc) hne
  · exact hother u hut hu

theorem Handover.run_step (h : Handover s) (ha : Accounted s) {t : T} {m' : Mem T} {th' : Thread}
    (hw : WriterPasses s (.run t)) (he : SleepsEmptyHanded s (.run t))
    (hadv : advance t s.mem (s.threads t) = some (m', th')) :
    Handover { s.setThread t th' with mem := m' } := by
  refine ⟨fun u => ?_, fun u hu => ?_, fun u hu => ?_⟩
  · by_cases hut : u = t
    · subst u
      simpa using advance_noWriter hadv (h.noWriter t) hw.1 hw.2
    · simpa only [setThread_ne s th' hut] using h.noWriter u
  · by_cases hut : u = t
    · subst u
      simp only [setThread_self] at hu ⊢
      obtain ⟨hpc, hheld⟩ := advance_asleep hadv hu
      exact hheld.trans (he hpc)
    · simp only [setThread_ne s th' hut] at hu ⊢
      exact h.emptyHanded u hu
  · by_cases hut : u = t
    · subst u
      simp only [setThread_self] at hu
      obtain ⟨hpc, -⟩ := advance_asleep hadv hu
      have hne : s.mem.exclusiveRequests ≠ 0 ∨ s.mem.exclusiveCount ≠ 0 := by
        have hf := ha.point t
        rwa [hpc] at hf
      obtain ⟨v, hvt, hv⟩ := h.exists_writer ha (Or.inr (Or.inr hpc)) (he hpc) hne
      exact ⟨v, by rwa [setThread_ne s th' hvt]⟩
    · simp only [setThread_ne s th' hut] at hu
      obtain ⟨v, hv⟩ := h.busy u hu
      exact h.busy_step ha hw hv hadv

/-- The reader that a notify of `sharedCv_` wakes is busy from now on, and when the notify wakes
nobody, nobody sleeps. -/
theorem handover_of_wake {s' : State T} {woken : Option T}
    (hn : ∀ u, (s.threads u).pc ≠ .lockWait ∧ (s.threads u).pc ≠ .lockAsleep ∧
      (s.threads u).pc ≠ .lockWoken)
    (he : ∀ u, (s.threads u).pc = .slowAsleep → (s.threads u).held = [])
    (hw : s.wake .shared woken = some s') : Handover s' := by
  rcases wake_cases hw with ⟨u, -, -, rfl⟩ | ⟨-, hnobody, rfl⟩
  · refine ⟨fun v => ?_, fun v hv => ?_, fun v _ => ⟨u, ?_⟩⟩
    · by_cases hvu : v = u
      · subst v
        simp [Thread.goto, Pc.woken]
      · simpa only [setThread_ne s _ hvu] using hn v
    · by_cases hvu : v = u
      · subst v
        simp [Thread.goto, Pc.woken] at hv
      · simp only [setThread_ne s _ hvu] at hv ⊢
        exact he v hv
    · rw [setThread_self]
      exact Or.inr (by simp [Thread.goto, Pc.woken, Pc.busy])
  · exact ⟨hn, he, fun v hv => absurd hv (hnobody v)⟩

theorem Handover.notify_step (h : Handover s) (ha : Accounted s) {s' : State T} {t : T} {cv : Access}
    {pc : Pc} {woken : Option T} (hn : (s.threads t).pc.notifies = some (cv, pc))
    (hw : (s.setThread t ((s.threads t).goto pc)).wake cv woken = some s') : Handover s' := by
  obtain rfl := ha.notifies_shared hn
  have hpc : pc ≠ .slowAsleep ∧ pc ≠ .lockWait ∧ pc ≠ .lockAsleep ∧ pc ≠ .lockWoken := by
    rcases notifies_cases hn with ⟨-, rfl⟩ | ⟨-, rfl⟩ <;> simp
  apply handover_of_wake _ _ hw
  · intro u
    by_cases hut : u = t
    · subst u
      simpa [Thread.goto] using hpc.2
    · simpa only [setThread_ne s _ hut] using h.noWriter u
  · intro u hu
    by_cases hut : u = t
    · subst u
      simp [Thread.goto, hpc.1] at hu
    · simp only [setThread_ne s _ hut] at hu ⊢
      exact h.emptyHanded u hu

theorem handover_of_reachedBy
    (h : (system T).ReachedBy (fun s a => WriterPasses s a ∧ SleepsEmptyHanded s a) s) :
    Handover s := by
  refine h.invariant ?_ ?_
  · exact ⟨fun _ => by simp [system, initial], fun _ hu => by simp [system, initial] at hu,
      fun _ hu => by simp [system, initial] at hu⟩
  · rintro r a r' hr hI ⟨hpasses, hempty⟩ hs
    have ha := accounted_of_reachable hr.reachable
    cases a with
    | call t op =>
        obtain ⟨th', hb, rfl⟩ := Option.map_eq_some_iff.mp hs
        exact hI.call_step hb
    | run t =>
        obtain ⟨m', th', hadv, rfl⟩ := next_run hs
        exact hI.run_step ha hpasses hempty hadv
    | notify t woken =>
        obtain ⟨cv, pc, hn, hw⟩ := next_notify hs
        exact hI.notify_step ha hn hw
    | spurious t =>
        obtain ⟨cv, hpc, rfl⟩ := next_spurious hs
        exact hI.spurious_step hpc

/-- No wakeup is lost in a run in which no writer has to wait and nobody sleeps with an access of
its own. -/
theorem not_lostWakeup_of_handsOver (h : (system T).ReachedBy HandsOver s) : ¬ LostWakeup s := by
  rintro ⟨⟨t, ht⟩, hall⟩
  have hI := handover_of_reachedBy (h.mono fun _ _ hg => hg.2)
  have hasleep : ∀ u, (s.threads u).pc.sleeps → (s.threads u).pc = .slowAsleep := by
    intro u hu
    have hn := (hI.noWriter u).2.1
    cases hpc : (s.threads u).pc <;> simp_all [Pc.sleeps]
  obtain ⟨u, hu⟩ := hI.busy t (hasleep t ht)
  rcases hall u with hsleeps | ⟨hheld, hout⟩
  · rcases hu with hheld | hbusy
    · exact hheld (hI.emptyHanded u (hasleep u hsleeps))
    · simp [hasleep u hsleeps, Pc.busy] at hbusy
  · rcases hu with hne | hbusy
    · exact hne hheld
    · simp [hout, Pc.busy] at hbusy

/-- A writer that sleeps on `exclusiveCv_` is never woken by a notify. -/
theorem asleep_writer_stays {s' : State T} {t : T}
    (hr : (system T).ReachedBy (fun _ => NotifiedOnly) s)
    (hpc : (s.threads t).pc = .lockAsleep)
    (h : (system T).LeadsBy (fun _ => NotifiedOnly) s s') : (s'.threads t).pc = .lockAsleep := by
  refine h.preserves (I := fun r => (r.threads t).pc = .lockAsleep) hr hpc ?_
  intro r a r' hrr hI hg hs
  have hkeep : ∀ (q : State T) u th', (q.threads t).pc = .lockAsleep → u ≠ t →
      ((q.setThread u th').threads t).pc = .lockAsleep :=
    fun q u th' hq hu =>
      setThread_of (P := fun th => th.pc = .lockAsleep) q (fun heq => absurd heq.symm hu) hq
  cases a with
  | call u op =>
      obtain ⟨th', hb, rfl⟩ := Option.map_eq_some_iff.mp hs
      refine hkeep r u th' hI ?_
      rintro rfl
      simp [(begin_cases hb).1] at hI
  | run u =>
      obtain ⟨m', th', hadv, rfl⟩ := next_run hs
      refine hkeep r u th' hI ?_
      rintro rfl
      simp [advance, hI] at hadv
  | notify u woken =>
      obtain ⟨cv, pc, hn, hw⟩ := next_notify hs
      have hcv := (accounted_of_reachable hrr.reachable).notifies_shared hn
      have hmid := hkeep r u ((r.threads u).goto pc) hI (by
        rintro rfl
        rcases notifies_cases hn with ⟨hpc, -⟩ | ⟨hpc, -⟩ <;> simp [hpc] at hI)
      rcases wake_cases hw with ⟨v, -, hasleep, rfl⟩ | ⟨-, -, rfl⟩
      · refine hkeep _ v _ hmid ?_
        rintro rfl
        simp [hcv, Pc.asleep, hmid] at hasleep
      · exact hmid
  | spurious u => exact hg.elim

end Invariant

/-! ### The condition at work -/

/-- A reader is in, a writer goes to sleep, the reader leaves: its notify goes to `sharedCv_`, and
the writer sleeps on beside a free lock. -/
theorem not_forall_not_lostWakeup :
    ¬ ∀ s : State (Fin 2), (system (Fin 2)).ReachedBy (fun _ => NotifiedOnly) s →
      ¬ LostWakeup s := by
  intro h
  have hrun : ((system (Fin 2)).execWhile (fun _ => NotifiedOnly) (initial (Fin 2))
      [.call 0 .lockShared, .run 0, .run 0, .call 1 .lock, .run 1, .run 1, .run 1, .run 1,
        .call 0 .unlockShared, .run 0, .run 0, .run 0, .notify 0 none, .run 0]).any (fun s =>
      (s.threads 1).pc = .lockAsleep ∧ s.threads 0 = ⟨[], .outside⟩) = true := by decide
  obtain ⟨s, hs, hend⟩ := TransitionSystem.exists_reachedBy_of_execWhile hrun
  rw [decide_eq_true_eq] at hend
  refine h s hs ⟨⟨1, by simp [hend.1, Pc.sleeps]⟩, fun t => ?_⟩
  fin_cases t
  · right
    simp [hend.2]
  · left
    simp [hend.1, Pc.sleeps]

/-- A reader sleeps behind a writer, which wakes it when it leaves. -/
theorem not_lostWakeup_reader_behind_writer :
    ∃ s : State (Fin 2), (system (Fin 2)).ReachedBy HandsOver s ∧
      (s.threads 1).pc = .slowWoken ∧ ¬ LostWakeup s := by
  have hrun : ((system (Fin 2)).execWhile HandsOver (initial (Fin 2))
      [.call 0 .lock, .run 0, .call 1 .lockShared, .run 1, .run 1, .run 1, .run 1, .run 0, .run 0,
        .run 0, .run 0, .run 0, .run 0, .call 0 .unlock, .run 0, .run 0, .run 0,
        .notify 0 (some 1)]).any (fun s => (s.threads 1).pc = .slowWoken) = true := by decide
  obtain ⟨s, hs, hpc⟩ := TransitionSystem.exists_reachedBy_of_execWhile hrun
  rw [decide_eq_true_eq] at hpc
  exact ⟨s, hs, hpc, not_lostWakeup_of_handsOver hs⟩

end SocketLib.ExclusivePrioritySharedMutex
