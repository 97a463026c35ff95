import SocketLib.TransitionSystem
import Mathlib.Data.Fintype.Basic

/-!
# `ExclusivePrioritySharedMutex` as a transition system

Every atomic step of `lock_shared`, `unlock_shared`, `lock` and `unlock` is one transition: a load,
a `fetch_add`, a `fetch_sub`, taking or releasing `mutex_`, going to sleep in a condition-variable
wait, a `notify_one`. A program point names the step its thread takes next. The steps of one
thread touch only the fields of the mutex object and that thread's own state (`advance`); a notify
also moves one sleeper.

A thread remembers the accesses it holds, the innermost first. An access is held from the return of
the call that obtained it to the beginning of the call that gives it back, and the calls of a thread
are bracketed: it gives back what it obtained last.

The four `std::atomic_int` counters are integers here. Each counts accesses or requests in progress
(`Accounted`), so none leaves the range of an `int` while fewer than `2 ^ 31` of those exist at
once.
-/

namespace SocketLib.ExclusivePrioritySharedMutex

/-- The two kinds of access, and with them the two condition variables `sharedCv_` and
`exclusiveCv_`. -/
inductive Access
  | shared
  | exclusive
  deriving DecidableEq

inductive Op
  | lockShared
  | unlockShared
  | lock
  | unlock
  deriving DecidableEq

inductive Pc
  | outside
  -- lock_shared
  | fastLoadRequests
  | fastAdd
  | slowAcquire
  | slowLoadRequests
  | slowLoadCount
  | slowWait
  | slowAsleep
  | slowWoken
  | slowAdd
  | slowRelease
  -- unlock_shared
  | unsharedSub
  | unsharedAcquire
  | unsharedLoadWaiting
  | unsharedNotify (cv : Access)
  | unsharedRelease
  -- lock
  | lockAddRequest
  | lockAcquire
  | lockLoadShared
  | lockLoadCount
  | lockWait
  | lockAsleep
  | lockWoken
  | lockSubRequest
  | lockAddCount
  | lockRelease
  -- unlock
  | unlockAcquire
  | unlockSub
  | unlockLoadWaiting
  | unlockNotify (cv : Access)
  | unlockRelease
  deriving DecidableEq

structure Thread where
  held : List Access
  pc : Pc
  deriving DecidableEq

/-- The fields of the mutex object, with the owner of `mutex_`. -/
structure Mem (T : Type*) where
  sharedCount : ℤ
  exclusiveRequests : ℤ
  exclusiveWaiting : ℤ
  exclusiveCount : ℤ
  mutex : Option T

structure State (T : Type*) where
  mem : Mem T
  threads : T → Thread

/-- One step of a run: a thread calls an operation, takes its next atomic step, notifies (waking
the given sleeper, or nobody), or wakes although nobody notified it. -/
inductive Label (T : Type*)
  | call (t : T) (op : Op)
  | run (t : T)
  | notify (t : T) (woken : Option T)
  | spurious (t : T)

def Pc.asleep : Access → Pc
  | .shared => .slowAsleep
  | .exclusive => .lockAsleep

def Pc.woken : Access → Pc
  | .shared => .slowWoken
  | .exclusive => .lockWoken

def Thread.goto (th : Thread) (pc : Pc) : Thread := { th with pc := pc }

/-- The call that obtains the access returns. -/
def Thread.obtain (th : Thread) (access : Access) : Thread := ⟨access :: th.held, .outside⟩

variable {T : Type*}

def Mem.acquire (m : Mem T) (t : T) : Option (Mem T) :=
  if m.mutex.isNone then some { m with mutex := some t } else none

def Mem.release (m : Mem T) : Mem T := { m with mutex := none }

/-- Entering one of the four operations. -/
def Thread.begin (th : Thread) (op : Op) : Option Thread :=
  if th.pc = .outside then
    match op, th.held with
    | .lockShared, _ => some (th.goto .fastLoadRequests)
    | .lock, _ => some (th.goto .lockAddRequest)
    | .unlockShared, .shared :: held => some ⟨held, .unsharedSub⟩
    | .unlock, .exclusive :: held => some ⟨held, .unlockAcquire⟩
    | _, _ => none
  else none

/-- The next atomic step of thread `t` inside an operation, without the notifies. -/
def advance (t : T) (m : Mem T) (th : Thread) : Option (Mem T × Thread) :=
  match th.pc with
  | .outside | .slowAsleep | .lockAsleep | .unsharedNotify _ | .unlockNotify _ => none
  -- lock_shared
  | .fastLoadRequests =>
      some (m, th.goto (if m.exclusiveRequests = 0 then .fastAdd else .slowAcquire))
  | .fastAdd =>
      some ({ m with sharedCount := m.sharedCount + 1 },
        if 0 ≤ m.sharedCount then th.obtain .shared else th.goto .slowAcquire)
  | .slowAcquire => (m.acquire t).map (·, th.goto .slowLoadRequests)
  | .slowLoadRequests =>
      some (m, th.goto (if m.exclusiveRequests = 0 then .slowLoadCount else .slowWait))
  | .slowLoadCount => some (m, th.goto (if m.exclusiveCount = 0 then .slowAdd else .slowWait))
  | .slowWait => some (m.release, th.goto .slowAsleep)
  | .slowWoken => (m.acquire t).map (·, th.goto .slowLoadRequests)
  | .slowAdd => some ({ m with sharedCount := m.sharedCount + 1 }, th.goto .slowRelease)
  | .slowRelease => some (m.release, th.obtain .shared)
  -- unlock_shared
  | .unsharedSub =>
      some ({ m with sharedCount := m.sharedCount - 1 },
        th.goto (if m.sharedCount = 1 then .unsharedAcquire else .outside))
  | .unsharedAcquire => (m.acquire t).map (·, th.goto .unsharedLoadWaiting)
  | .unsharedLoadWaiting =>
      some (m, th.goto (.unsharedNotify (if 0 < m.exclusiveWaiting then .exclusive else .shared)))
  | .unsharedRelease => some (m.release, th.goto .outside)
  -- lock
  | .lockAddRequest =>
      some ({ m with exclusiveRequests := m.exclusiveRequests + 1 }, th.goto .lockAcquire)
  | .lockAcquire => (m.acquire t).map (·, th.goto .lockLoadShared)
  | .lockLoadShared => some (m, th.goto (if m.sharedCount = 0 then .lockLoadCount else .lockWait))
  | .lockLoadCount =>
      some (m, th.goto (if m.exclusiveCount = 0 then .lockSubRequest else .lockWait))
  | .lockWait => some (m.release, th.goto .lockAsleep)
  | .lockWoken => (m.acquire t).map (·, th.goto .lockLoadShared)
  | .lockSubRequest =>
      some ({ m with exclusiveRequests := m.exclusiveRequests - 1 }, th.goto .lockAddCount)
  | .lockAddCount =>
      some ({ m with exclusiveCount := m.exclusiveCount + 1 }, th.goto .lockRelease)
  | .lockRelease => some (m.release, th.obtain .exclusive)
  -- unlock
  | .unlockAcquire => (m.acquire t).map (·, th.goto .unlockSub)
  | .unlockSub =>
      some ({ m with exclusiveCount := m.exclusiveCount - 1 }, th.goto .unlockLoadWaiting)
  | .unlockLoadWaiting =>
      some (m, th.goto (.unlockNotify (if 0 < m.exclusiveWaiting then .exclusive else .shared)))
  | .unlockRelease => some (m.release, th.goto .outside)

/-- The condition variable a thread is about to notify, and where it goes on. -/
def Pc.notifies : Pc → Option (Access × Pc)
  | .unsharedNotify cv => some (cv, .unsharedRelease)
  | .unlockNotify cv => some (cv, .unlockRelease)
  | _ => none

section Steps

variable [DecidableEq T]

def State.setThread (s : State T) (t : T) (th : Thread) : State T :=
  { s with threads := Function.update s.threads t th }

variable [Fintype T]

/-- `notify_one` wakes one thread asleep on the condition variable; it wakes nobody only when
nobody is. -/
def State.wake (s : State T) (cv : Access) : Option T → Option (State T)
  | some u =>
      if (s.threads u).pc = .asleep cv then
        some (s.setThread u ((s.threads u).goto (.woken cv)))
      else none
  | none => if ∀ u, (s.threads u).pc ≠ .asleep cv then some s else none

def next (s : State T) : Label T → Option (State T)
  | .call t op => ((s.threads t).begin op).map (s.setThread t)
  | .run t =>
      (advance t s.mem (s.threads t)).map
        (fun r => { s.setThread t r.2 with mem := r.1 })
  | .notify t woken =>
      match (s.threads t).pc.notifies with
      | some (cv, pc) => (s.setThread t ((s.threads t).goto pc)).wake cv woken
      | none => none
  | .spurious t =>
      match (s.threads t).pc with
      | .slowAsleep => some (s.setThread t ((s.threads t).goto .slowWoken))
      | .lockAsleep => some (s.setThread t ((s.threads t).goto .lockWoken))
      | _ => none

variable (T) in
/-- The mutex object after its construction, with every thread outside it. -/
def initial : State T := ⟨⟨0, 0, 0, 0, none⟩, fun _ => ⟨[], .outside⟩⟩

variable (T) in
def system : TransitionSystem (State T) (Label T) := ⟨initial T, next⟩

end Steps
end SocketLib.ExclusivePrioritySharedMutex
