import SocketLib.ExclusiveSharedMutex
import SocketLib.ThreadFamily

/-!
# What the counters of `ExclusivePrioritySharedMutex` count

Each counter is the sum of what the threads have contributed to it (`sharedWeight`,
`exclusiveWeight`, `requestWeight`), `mutex_` is owned exactly by the thread whose program point
lies between its acquisition and its release, and a few program points reached under `mutex_` carry
a fact about the counters that no other thread can undo (`PointFact`). `Accounted` collects these
and holds in every reachable state.

A transition is an atomic step of one thread (`advance`) or a sequence of quiet moves, which change
one thread's program point and no counter.
-/

namespace SocketLib.ExclusivePrioritySharedMutex

open ThreadFamily

variable {T : Type*}

/-- The points between taking and releasing `mutex_`. -/
def Pc.owns : Pc → Bool
  | .slowLoadRequests | .slowLoadCount | .slowWait | .slowAdd | .slowRelease
  | .unsharedLoadWaiting | .unsharedNotify _ | .unsharedRelease
  | .lockLoadShared | .lockLoadCount | .lockWait | .lockSubRequest | .lockAddCount | .lockRelease
  | .unlockSub | .unlockLoadWaiting | .unlockNotify _ | .unlockRelease => true
  | _ => false

/-- The points between announcing a request for exclusive access and withdrawing it. -/
def Pc.requests : Pc → Bool
  | .lockAcquire | .lockLoadShared | .lockLoadCount | .lockWait | .lockAsleep | .lockWoken
  | .lockSubRequest => true
  | _ => false

def sharedWeight (th : Thread) : ℕ :=
  th.held.count .shared + if th.pc = .slowRelease ∨ th.pc = .unsharedSub then 1 else 0

def exclusiveWeight (th : Thread) : ℕ :=
  th.held.count .exclusive +
    if th.pc = .lockRelease ∨ th.pc = .unlockAcquire ∨ th.pc = .unlockSub then 1 else 0

def requestWeight (th : Thread) : ℕ := if th.pc.requests then 1 else 0

/-- What a thread knows of the counters at its program point. Only the owner of `mutex_` changes
`exclusiveCount_` or withdraws a request, so the fact outlives the steps of the others. -/
def PointFact (m : Mem T) : Pc → Prop
  | .slowWait => m.exclusiveRequests ≠ 0 ∨ m.exclusiveCount ≠ 0
  | .slowAdd | .lockSubRequest | .lockAddCount => m.exclusiveCount = 0
  | .unsharedNotify cv | .unlockNotify cv => cv = .shared
  | _ => True

/-- It survives a step that leaves `exclusiveCount_` alone and withdraws no request. -/
theorem PointFact.mono {m m' : Mem T} {pc : Pc} (h : PointFact m pc)
    (hcount : m'.exclusiveCount = m.exclusiveCount) (h0 : 0 ≤ m.exclusiveRequests)
    (hrequests : m.exclusiveRequests ≤ m'.exclusiveRequests) : PointFact m' pc := by
  cases pc with
  | slowWait =>
      rcases h with hne | hne
      · left
        omega
      · right
        rwa [hcount]
  | slowAdd | lockSubRequest | lockAddCount => exact hcount.trans h
  | _ => exact h

/-- Without `mutex_` a thread knows nothing of the counters. -/
theorem PointFact.of_not_owns {m : Mem T} {pc : Pc} (h : pc.owns = false) : PointFact m pc := by
  cases pc <;> trivial

/-! ### The atomic steps of one thread -/

section Advance

variable {t : T} {m m' : Mem T} {th th' : Thread}

/-- Acquiring `mutex_` only sets its owner. -/
theorem acquire_eq_some (h : m.acquire t = some m') :
    m.mutex = none ∧ m' = { m with mutex := some t } := by
  unfold Mem.acquire at h
  split_ifs at h with hfree
  exact ⟨Option.isNone_iff_eq_none.mp hfree, (Option.some.inj h).symm⟩

theorem advance_sharedCount (h : advance t m th = some (m', th')) (h0 : 0 ≤ m.sharedCount) :
    m'.sharedCount + sharedWeight th = m.sharedCount + sharedWeight th' := by
  obtain ⟨held, pc⟩ := th
  cases pc
  all_goals
    simp only [advance, reduceCtorEq, Option.some.injEq, Option.map_eq_some_iff, Prod.mk.injEq] at h
  case slowAcquire | slowWoken | unsharedAcquire | lockAcquire | lockWoken | unlockAcquire =>
    obtain ⟨_, hm, rfl, rfl⟩ := h
    rw [(acquire_eq_some hm).2]
    rfl
  case fastAdd =>
    obtain ⟨rfl, rfl⟩ := h
    rw [if_pos h0]
    simp [sharedWeight, Thread.obtain]
    omega
  case slowAdd =>
    obtain ⟨rfl, rfl⟩ := h
    simp [sharedWeight, Thread.goto]
    omega
  case unsharedSub =>
    obtain ⟨rfl, rfl⟩ := h
    split <;> simp [sharedWeight, Thread.goto]
  case slowRelease | lockRelease =>
    obtain ⟨rfl, rfl⟩ := h
    simp [sharedWeight, Thread.obtain, Mem.release]
  all_goals
    obtain ⟨rfl, rfl⟩ := h
    first | rfl | (split <;> rfl)

theorem advance_exclusiveCount (h : advance t m th = some (m', th')) :
    m'.exclusiveCount + exclusiveWeight th = m.exclusiveCount + exclusiveWeight th' := by
  obtain ⟨held, pc⟩ := th
  cases pc
  all_goals
    simp only [advance, reduceCtorEq, Option.some.injEq, Option.map_eq_some_iff, Prod.mk.injEq] at h
  case slowAcquire | slowWoken | unsharedAcquire | lockAcquire | lockWoken | unlockAcquire =>
    obtain ⟨_, hm, rfl, rfl⟩ := h
    rw [(acquire_eq_some hm).2]
    rfl
  case lockAddCount =>
    obtain ⟨rfl, rfl⟩ := h
    simp [exclusiveWeight, Thread.goto]
    omega
  case unlockSub =>
    obtain ⟨rfl, rfl⟩ := h
    simp [exclusiveWeight, Thread.goto]
  case fastAdd =>
    obtain ⟨rfl, rfl⟩ := h
    split <;> simp [exclusiveWeight, Thread.goto, Thread.obtain]
  case slowRelease | lockRelease =>
    obtain ⟨rfl, rfl⟩ := h
    simp [exclusiveWeight, Thread.obtain, Mem.release]
  all_goals
    obtain ⟨rfl, rfl⟩ := h
    first | rfl | (split <;> rfl)

theorem advance_exclusiveRequests (h : advance t m th = some (m', th')) :
    m'.exclusiveRequests + requestWeight th = m.exclusiveRequests + requestWeight th' := by
  obtain ⟨held, pc⟩ := th
  cases pc
  all_goals
    simp only [advance, reduceCtorEq, Option.some.injEq, Option.map_eq_some_iff, Prod.mk.injEq] at h
  case slowAcquire | slowWoken | unsharedAcquire | lockAcquire | lockWoken | unlockAcquire =>
    obtain ⟨_, hm, rfl, rfl⟩ := h
    rw [(acquire_eq_some hm).2]
    rfl
  case lockAddRequest | lockSubRequest =>
    obtain ⟨rfl, rfl⟩ := h
    simp [requestWeight, Pc.requests, Thread.goto]
  all_goals
    obtain ⟨rfl, rfl⟩ := h
    first | rfl | (split <;> rfl)

theorem advance_exclusiveWaiting (h : advance t m th = some (m', th')) :
    m'.exclusiveWaiting = m.exclusiveWaiting := by
  obtain ⟨held, pc⟩ := th
  cases pc
  all_goals
    simp only [advance, reduceCtorEq, Option.some.injEq, Option.map_eq_some_iff, Prod.mk.injEq] at h
  case slowAcquire | slowWoken | unsharedAcquire | lockAcquire | lockWoken | unlockAcquire =>
    obtain ⟨_, hm, rfl, -⟩ := h
    rw [(acquire_eq_some hm).2]
  all_goals
    obtain ⟨rfl, -⟩ := h
    rfl

/-- A step leaves `mutex_` alone, takes it or gives it back. -/
theorem advance_mutex (h : advance t m th = some (m', th')) :
    (th'.pc.owns = th.pc.owns ∧ m'.mutex = m.mutex) ∨
      (m.mutex = none ∧ m'.mutex = some t ∧ th'.pc.owns = true) ∨
      (th.pc.owns = true ∧ m'.mutex = none ∧ th'.pc.owns = false) := by
  obtain ⟨held, pc⟩ := th
  cases pc
  all_goals
    simp only [advance, reduceCtorEq, Option.some.injEq, Option.map_eq_some_iff, Prod.mk.injEq] at h
  case slowAcquire | slowWoken | unsharedAcquire | lockAcquire | lockWoken | unlockAcquire =>
    obtain ⟨_, hm, rfl, rfl⟩ := h
    obtain ⟨hfree, rfl⟩ := acquire_eq_some hm
    exact Or.inr (Or.inl ⟨hfree, rfl, rfl⟩)
  case slowWait | slowRelease | unsharedRelease | lockWait | lockRelease | unlockRelease =>
    obtain ⟨rfl, rfl⟩ := h
    exact Or.inr (Or.inr ⟨rfl, rfl, rfl⟩)
  all_goals
    obtain ⟨rfl, rfl⟩ := h
    refine Or.inl ⟨?_, rfl⟩
    first | rfl | (split <;> rfl)

theorem advance_owner (h : advance t m th = some (m', th')) (ho : th.pc.owns ↔ m.mutex = some t) :
    (th'.pc.owns ↔ m'.mutex = some t) ∧ ∀ u ≠ t, m'.mutex = some u ↔ m.mutex = some u := by
  rcases advance_mutex h with ⟨howns, hmutex⟩ | ⟨hfree, hmutex, howns⟩ | ⟨howned, hmutex, howns⟩
  · rw [howns, hmutex]
    exact ⟨ho, fun _ _ => Iff.rfl⟩
  · rw [howns, hmutex, hfree]
    exact ⟨by simp, fun u hu => by simp [Ne.symm hu]⟩
  · rw [howns, hmutex, ho.mp howned]
    exact ⟨by simp, fun u hu => by simp [Ne.symm hu]⟩

/-- A thread without `mutex_` leaves `exclusiveCount_` alone and withdraws no request. -/
theorem advance_of_not_owns (h : advance t m th = some (m', th')) (ho : th.pc.owns = false) :
    m'.exclusiveCount = m.exclusiveCount ∧ m.exclusiveRequests ≤ m'.exclusiveRequests := by
  obtain ⟨held, pc⟩ := th
  cases pc <;> simp only [advance] at h
  all_goals grind [Pc.owns, Mem.acquire, Mem.release]

theorem advance_pointFact (h : advance t m th = some (m', th')) (hf : PointFact m th.pc)
    (hw : m.exclusiveWaiting = 0) : PointFact m' th'.pc := by
  obtain ⟨held, pc⟩ := th
  cases pc
  all_goals
    simp only [advance, reduceCtorEq, Option.some.injEq, Option.map_eq_some_iff, Prod.mk.injEq] at h
  case slowAcquire | slowWoken | unsharedAcquire | lockAcquire | lockWoken | unlockAcquire =>
    obtain ⟨_, -, -, rfl⟩ := h
    trivial
  case slowLoadRequests =>
    obtain ⟨rfl, rfl⟩ := h
    split_ifs with hm
    · trivial
    · exact Or.inl hm
  case slowLoadCount =>
    obtain ⟨rfl, rfl⟩ := h
    split_ifs with hm
    · exact hm
    · exact Or.inr hm
  case lockLoadCount =>
    obtain ⟨rfl, rfl⟩ := h
    split_ifs with hm
    · exact hm
    · trivial
  case lockSubRequest =>
    obtain ⟨rfl, rfl⟩ := h
    exact hf
  case unsharedLoadWaiting | unlockLoadWaiting =>
    obtain ⟨rfl, rfl⟩ := h
    exact if_neg (by omega)
  all_goals
    obtain ⟨-, rfl⟩ := h
    first | trivial | (split <;> trivial)

end Advance

/-! ### The moves that change no counter -/

/-- A call begins, a notify is issued, or a sleeper is woken. -/
inductive Quiet : Thread → Thread → Prop
  | call {th th' : Thread} (op : Op) (h : th.begin op = some th') : Quiet th th'
  | notify {th : Thread} (cv : Access) (pc : Pc) (h : th.pc.notifies = some (cv, pc)) :
      Quiet th (th.goto pc)
  | wake {th : Thread} (cv : Access) (h : th.pc = .asleep cv) : Quiet th (th.goto (.woken cv))

theorem begin_cases {th th' : Thread} {op : Op} (h : th.begin op = some th') :
    th.pc = .outside ∧
      ((op = .lockShared ∧ th' = th.goto .fastLoadRequests) ∨
        (op = .lock ∧ th' = th.goto .lockAddRequest) ∨
        (op = .unlockShared ∧ th.held = .shared :: th'.held ∧ th'.pc = .unsharedSub) ∨
        (op = .unlock ∧ th.held = .exclusive :: th'.held ∧ th'.pc = .unlockAcquire)) := by
  obtain ⟨held, pc⟩ := th
  unfold Thread.begin at h
  split_ifs at h with hpc
  refine ⟨hpc, ?_⟩
  rcases op with _ | _ | _ | _ <;> rcases held with _ | ⟨_ | _, held⟩ <;> grind

theorem notifies_cases {pc pc' : Pc} {cv : Access} (h : pc.notifies = some (cv, pc')) :
    (pc = .unsharedNotify cv ∧ pc' = .unsharedRelease) ∨
      (pc = .unlockNotify cv ∧ pc' = .unlockRelease) := by
  cases pc <;> simp_all [Pc.notifies]

theorem Quiet.weights {th th' : Thread} (h : Quiet th th') :
    sharedWeight th' = sharedWeight th ∧ exclusiveWeight th' = exclusiveWeight th ∧
      requestWeight th' = requestWeight th := by
  cases h with
  | call op h =>
      obtain ⟨hpc, h⟩ := begin_cases h
      grind [sharedWeight, exclusiveWeight, requestWeight, Pc.requests, Thread.goto]
  | notify cv pc h =>
      rcases notifies_cases h with ⟨hpc, rfl⟩ | ⟨hpc, rfl⟩ <;>
        simp [sharedWeight, exclusiveWeight, requestWeight, Pc.requests, Thread.goto, hpc]
  | wake cv h =>
      cases cv <;> simp [sharedWeight, exclusiveWeight, requestWeight, Pc.requests, Thread.goto,
        Pc.woken, Pc.asleep, h]

theorem Quiet.owns {th th' : Thread} (h : Quiet th th') : th'.pc.owns = th.pc.owns := by
  cases h with
  | call op h =>
      obtain ⟨hpc, h⟩ := begin_cases h
      grind [Pc.owns, Thread.goto]
  | notify cv pc h =>
      rcases notifies_cases h with ⟨hpc, rfl⟩ | ⟨hpc, rfl⟩ <;> simp [Pc.owns, Thread.goto, hpc]
  | wake cv h => cases cv <;> simp [Pc.owns, Thread.goto, Pc.woken, Pc.asleep, h]

theorem Quiet.pointFact {th th' : Thread} (m : Mem T) (h : Quiet th th') :
    PointFact m th'.pc := by
  cases h with
  | call op h =>
      obtain ⟨hpc, h⟩ := begin_cases h
      grind [PointFact, Thread.goto]
  | notify cv pc h =>
      rcases notifies_cases h with ⟨hpc, rfl⟩ | ⟨hpc, rfl⟩ <;> simp [PointFact, Thread.goto]
  | wake cv h => cases cv <;> simp [PointFact, Thread.goto, Pc.woken]

/-! ### The invariant -/

section Invariant

variable [Fintype T]

structure Accounted (s : State T) : Prop where
  shared : s.mem.sharedCount = total sharedWeight s.threads
  exclusive : s.mem.exclusiveCount = total exclusiveWeight s.threads
  requests : s.mem.exclusiveRequests = total requestWeight s.threads
  waiting : s.mem.exclusiveWaiting = 0
  owner : ∀ t, (s.threads t).pc.owns ↔ s.mem.mutex = some t
  point : ∀ t, PointFact s.mem (s.threads t).pc

namespace Accounted

variable {s : State T} (h : Accounted s)
include h

theorem shared_nonneg : 0 ≤ s.mem.sharedCount := by
  rw [h.shared]
  exact Int.natCast_nonneg _

theorem owner_unique {t u : T} (ht : (s.threads t).pc.owns) (hu : (s.threads u).pc.owns) :
    t = u := by
  have ht' := (h.owner t).mp ht
  have hu' := (h.owner u).mp hu
  exact Option.some.inj (ht'.symm.trans hu')

theorem sharedWeight_le (t : T) : (sharedWeight (s.threads t) : ℤ) ≤ s.mem.sharedCount := by
  rw [h.shared]
  exact_mod_cast le_total sharedWeight s.threads t

theorem exclusiveWeight_le (t : T) :
    (exclusiveWeight (s.threads t) : ℤ) ≤ s.mem.exclusiveCount := by
  rw [h.exclusive]
  exact_mod_cast le_total exclusiveWeight s.threads t

theorem requestWeight_le (t : T) :
    (requestWeight (s.threads t) : ℤ) ≤ s.mem.exclusiveRequests := by
  rw [h.requests]
  exact_mod_cast le_total requestWeight s.threads t

/-- The fact at another thread's program point survives a step: either that thread owns `mutex_`,
and the step is by a thread that does not, or the fact is about the point alone. -/
theorem pointFact_other {t u : T} {m' : Mem T} {th' : Thread} (hu : u ≠ t)
    (hadv : advance t s.mem (s.threads t) = some (m', th')) : PointFact m' (s.threads u).pc := by
  have hf := h.point u
  have hreq : 0 ≤ s.mem.exclusiveRequests := by
    rw [h.requests]
    exact Int.natCast_nonneg _
  by_cases howns : (s.threads u).pc.owns
  · have hnot : (s.threads t).pc.owns = false := by
      by_contra ht
      exact hu (h.owner_unique howns (by simpa using ht))
    obtain ⟨hcount, hrequests⟩ := advance_of_not_owns hadv hnot
    exact hf.mono hcount hreq hrequests
  · exact .of_not_owns (by simpa using howns)

/-- `exclusiveWaiting_` is zero, so every notify goes to `sharedCv_`. -/
theorem notifies_shared {t : T} {cv : Access} {pc : Pc}
    (hn : (s.threads t).pc.notifies = some (cv, pc)) : cv = .shared := by
  have hf := h.point t
  rcases notifies_cases hn with ⟨hpc, -⟩ | ⟨hpc, -⟩ <;> rwa [hpc] at hf

end Accounted

theorem accounted_initial : Accounted (initial T) := by
  refine ⟨?_, ?_, ?_, rfl, fun t => ?_, fun t => trivial⟩
  · simp [initial, total, sharedWeight]
  · simp [initial, total, exclusiveWeight]
  · simp [initial, total, requestWeight, Pc.requests]
  · simp [initial, Pc.owns]

end Invariant

/-! ### Transitions keep it -/

section Transitions

variable [DecidableEq T]

@[simp] theorem setThread_mem (s : State T) (t : T) (th : Thread) :
    (s.setThread t th).mem = s.mem := rfl

@[simp] theorem setThread_self (s : State T) (t : T) (th : Thread) :
    (s.setThread t th).threads t = th := Function.update_self ..

theorem setThread_ne (s : State T) {t u : T} (th : Thread) (h : u ≠ t) :
    (s.setThread t th).threads u = s.threads u := Function.update_of_ne h ..

/-- What holds of a thread still holds when another thread has moved. -/
theorem setThread_of {P : Thread → Prop} (s : State T) {t u : T} {th : Thread}
    (hself : u = t → P th) (h : P (s.threads u)) : P ((s.setThread t th).threads u) := by
  by_cases hu : u = t
  · subst u
    rw [setThread_self]
    exact hself rfl
  · rwa [setThread_ne s th hu]

variable [Fintype T]

/-- A counter that is the total of the contributions stays so when it moves with one of them. -/
theorem total_setThread {w : Thread → ℕ} {c c' : ℤ} (s : State T) {t : T} {th' : Thread}
    (h : c = total w s.threads) (hmove : c' + w (s.threads t) = c + w th') :
    c' = total w (s.setThread t th').threads := by
  have htotal := total_update w s.threads t th'
  simp only [State.setThread]
  omega

theorem wake_cases {s s' : State T} {cv : Access} {woken : Option T}
    (h : s.wake cv woken = some s') :
    (∃ u, woken = some u ∧ (s.threads u).pc = .asleep cv ∧
        s' = s.setThread u ((s.threads u).goto (.woken cv))) ∨
      (woken = none ∧ (∀ u, (s.threads u).pc ≠ .asleep cv) ∧ s' = s) := by
  cases woken with
  | some u =>
      simp only [State.wake] at h
      split_ifs at h with hu
      exact Or.inl ⟨u, rfl, hu, (Option.some.inj h).symm⟩
  | none =>
      simp only [State.wake] at h
      split_ifs at h with hu
      exact Or.inr ⟨rfl, hu, (Option.some.inj h).symm⟩

theorem next_run {s s' : State T} {t : T} (h : next s (.run t) = some s') :
    ∃ m' th', advance t s.mem (s.threads t) = some (m', th') ∧
      s' = { s.setThread t th' with mem := m' } := by
  obtain ⟨⟨m', th'⟩, hadv, rfl⟩ := Option.map_eq_some_iff.mp h
  exact ⟨m', th', hadv, rfl⟩

theorem next_notify {s s' : State T} {t : T} {woken : Option T}
    (h : next s (.notify t woken) = some s') :
    ∃ cv pc, (s.threads t).pc.notifies = some (cv, pc) ∧
      (s.setThread t ((s.threads t).goto pc)).wake cv woken = some s' := by
  unfold next at h
  cases hn : (s.threads t).pc.notifies with
  | none => simp only [hn, reduceCtorEq] at h
  | some r => exact ⟨r.1, r.2, rfl, by simpa only [hn] using h⟩

theorem next_spurious {s s' : State T} {t : T} (h : next s (.spurious t) = some s') :
    ∃ cv, (s.threads t).pc = .asleep cv ∧
      s' = s.setThread t ((s.threads t).goto (.woken cv)) := by
  simp only [next] at h
  split at h
  case h_1 hpc => exact ⟨.shared, hpc, (Option.some.inj h).symm⟩
  case h_2 hpc => exact ⟨.exclusive, hpc, (Option.some.inj h).symm⟩
  case h_3 => cases h

/-- To keep a predicate over a transition, keep it over the atomic step of the running thread and
over quiet moves. -/
theorem next_preserves {I : State T → Prop} {s s' : State T} {a : Label T} (hI : I s)
    (h : next s a = some s')
    (hrun : ∀ t m' th', a = .run t → advance t s.mem (s.threads t) = some (m', th') →
      I { s.setThread t th' with mem := m' })
    (hquiet : ∀ r t th', I r → Quiet (r.threads t) th' → I (r.setThread t th')) : I s' := by
  cases a with
  | call t op =>
      obtain ⟨th', hb, rfl⟩ := Option.map_eq_some_iff.mp h
      exact hquiet s t th' hI (.call op hb)
  | run t =>
      obtain ⟨m', th', hadv, rfl⟩ := next_run h
      exact hrun t m' th' rfl hadv
  | notify t woken =>
      obtain ⟨cv, pc, hn, hw⟩ := next_notify h
      have hmid := hquiet s t _ hI (.notify cv pc hn)
      rcases wake_cases hw with ⟨u, _, hu, rfl⟩ | ⟨_, _, rfl⟩
      · exact hquiet _ u _ hmid (.wake cv hu)
      · exact hmid
  | spurious t =>
      obtain ⟨cv, hpc, rfl⟩ := next_spurious h
      exact hquiet s t _ hI (.wake cv hpc)

namespace Accounted

variable {s : State T} (h : Accounted s)
include h

theorem setThread_quiet {t : T} {th' : Thread} (hq : Quiet (s.threads t) th') :
    Accounted (s.setThread t th') := by
  obtain ⟨hs, he, hr⟩ := hq.weights
  refine ⟨?_, ?_, ?_, h.waiting, fun u => ?_, fun u => ?_⟩
  · exact total_setThread s h.shared (by rw [hs, setThread_mem])
  · exact total_setThread s h.exclusive (by rw [he, setThread_mem])
  · exact total_setThread s h.requests (by rw [hr, setThread_mem])
  · by_cases hu : u = t
    · subst u
      rw [setThread_self, hq.owns]
      exact h.owner t
    · rw [setThread_ne s th' hu]
      exact h.owner u
  · by_cases hu : u = t
    · subst u
      rw [setThread_self]
      exact hq.pointFact s.mem
    · rw [setThread_ne s th' hu]
      exact h.point u

theorem run_step {t : T} {m' : Mem T} {th' : Thread}
    (hadv : advance t s.mem (s.threads t) = some (m', th')) :
    Accounted { s.setThread t th' with mem := m' } := by
  obtain ⟨hown, hother⟩ := advance_owner hadv (h.owner t)
  refine ⟨?_, ?_, ?_, ?_, fun u => ?_, fun u => ?_⟩
  · exact total_setThread s h.shared (advance_sharedCount hadv h.shared_nonneg)
  · exact total_setThread s h.exclusive (advance_exclusiveCount hadv)
  · exact total_setThread s h.requests (advance_exclusiveRequests hadv)
  · exact (advance_exclusiveWaiting hadv).trans h.waiting
  · by_cases hu : u = t
    · subst u
      simpa using hown
    · simp only [setThread_ne s th' hu]
      exact (h.owner u).trans (hother u hu).symm
  · by_cases hu : u = t
    · subst u
      simpa using advance_pointFact hadv (h.point t) h.waiting
    · simp only [setThread_ne s th' hu]
      exact h.pointFact_other hu hadv

end Accounted

theorem Accounted.next {s s' : State T} {a : Label T} (h : Accounted s)
    (hs : next s a = some s') : Accounted s' :=
  next_preserves h hs (fun _ _ _ _ hadv => h.run_step hadv)
    (fun _ _ _ hr hq => hr.setThread_quiet hq)

theorem accounted_of_reachable {s : State T} (h : (system T).Reachable s) : Accounted s :=
  h.invariant accounted_initial (fun _ _ _ _ hI _ hs => hI.next hs)

end Transitions
end SocketLib.ExclusivePrioritySharedMutex
