import SocketLib.ThreadFamily
import SocketLib.TransitionSystem

/-!
# `LightweightSemaphore`

A counter in user space in front of a semaphore of the kernel. `tryWaitMany` takes units off the
counter while it is positive. `waitMany` tries that, spins for a while, and then takes one off
whatever the counter is; if it was not positive the thread waits in the kernel. A thread whose wait
has timed out gives its unit back to the counter, unless the counter says by then that somebody has
released the thread. `signal` adds to the counter and releases as many threads as it was negative by.

A call that wants one unit is one that wants at most one: `tryWait` and `wait` are `tryWaitMany` and
`waitMany` with `max` 1. The loops over `EINTR` are left to the kernel. The counter is an integer
here: it stays between minus the number of threads and the number of units signalled (`count_bounds`).

The state keeps what has been signalled and what calls have returned so far.
-/

namespace SocketLib.LightweightSemaphore

/-- Who goes on when `tryWaitMany` returns: the user, the first line of `waitMany`, or the last line
of `waitManyWithPartialSpinning`, which has one unit already. -/
inductive Caller
  | user
  | waitMany (max : ℕ) (timeout : ℤ)
  | waited
  deriving DecidableEq

inductive Point
  | outside
  | returning (units : ℕ)
  -- tryWaitMany
  | tryLoad (max : ℕ) (caller : Caller)
  | tryExchange (max : ℕ) (oldCount : ℤ) (caller : Caller)
  -- waitManyWithPartialSpinning
  | spinLoad (spin max : ℕ) (timeout : ℤ)
  | spinExchange (spin max : ℕ) (timeout oldCount : ℤ)
  | waitSub (max : ℕ) (timeout : ℤ)
  | waitSema (max : ℕ) (timeout : ℤ)
  | undoLoad (max : ℕ)
  | undoTryWait (max : ℕ)
  | undoExchange (max : ℕ) (oldCount : ℤ)
  -- signal
  | signalAdd (count : ℕ)
  | signalPost (toRelease : ℕ)
  deriving DecidableEq

inductive Op
  | tryWaitMany (max : ℕ)
  | waitMany (max : ℕ) (timeout : ℤ)
  | signal (count : ℕ)
  deriving DecidableEq

def Op.tryWait : Op := .tryWaitMany 1

def Op.wait (timeout : ℤ) : Op := .waitMany 1 timeout

structure Mem where
  count : ℤ
  /-- The value of the semaphore of the kernel. -/
  sema : ℕ
  signalled : ℕ
  taken : ℕ
  deriving DecidableEq

/-- What a step leaves to the processor and the kernel: a weak exchange may fail for no reason, a wait
in the kernel may end without a unit, a post may fail. -/
inductive Choice
  | go
  | spurious
  | kernel (ok : Bool)
  deriving DecidableEq

/-- What the counter is set to when at most `max` units are taken off it. -/
def newCount (max : ℕ) (oldCount : ℤ) : ℤ := if (max : ℤ) < oldCount then oldCount - max else 0

/-- How many units that takes. -/
def units (max : ℕ) (oldCount : ℤ) : ℕ := (oldCount - newCount max oldCount).toNat

/-- The test at the head of the spinning loop, with so many turns left. -/
def spinNext (max : ℕ) (timeout : ℤ) : ℕ → Point
  | 0 => .waitSub max timeout
  | spin + 1 => .spinLoad spin max timeout

/-- Behind the wait: one unit is there, and the rest is tried for. -/
def waited (max : ℕ) : Point := if 1 < max then .tryLoad (max - 1) .waited else .returning 1

section Steps

variable (maxSpins : ℕ)

/-- Where a thread goes on when `tryWaitMany` returns. -/
def Caller.returns (units : ℕ) : Caller → Point
  | .user => .returning units
  | .waitMany max timeout =>
      if units = 0 ∧ 0 < max then spinNext max timeout maxSpins else .returning units
  | .waited => .returning (1 + units)

/-- The test of the loop in `tryWaitMany`. -/
def tryTest (max : ℕ) (oldCount : ℤ) (caller : Caller) : Point :=
  if 0 < oldCount then .tryExchange max oldCount caller else caller.returns maxSpins 0

def Op.entry : Op → Point
  | .tryWaitMany max => .tryLoad max .user
  | .waitMany max timeout => .tryLoad max (.waitMany max timeout)
  | .signal count => .signalAdd count

def act (m : Mem) : Point → Choice → Option (Mem × Point)
  | .returning units, .go => some ({ m with taken := m.taken + units }, .outside)
  -- tryWaitMany
  | .tryLoad max caller, .go => some (m, tryTest maxSpins max m.count caller)
  | .tryExchange max oldCount caller, .go =>
      if m.count = oldCount then
        some ({ m with count := newCount max oldCount },
          caller.returns maxSpins (units max oldCount))
      else some (m, tryTest maxSpins max m.count caller)
  | .tryExchange max _ caller, .spurious => some (m, tryTest maxSpins max m.count caller)
  -- waitManyWithPartialSpinning
  | .spinLoad spin max timeout, .go =>
      some (m, if 0 < m.count then .spinExchange spin max timeout m.count
        else spinNext max timeout spin)
  | .spinExchange spin max timeout oldCount, .go =>
      if m.count = oldCount then
        some ({ m with count := newCount max oldCount }, .returning (units max oldCount))
      else some (m, spinNext max timeout spin)
  | .waitSub max timeout, .go =>
      some ({ m with count := m.count - 1 },
        if 0 < m.count then waited max
        else if timeout = 0 then .undoLoad max
        else .waitSema max timeout)
  | .waitSema max _, .kernel true =>
      if 0 < m.sema then some ({ m with sema := m.sema - 1 }, waited max) else none
  | .waitSema max _, .kernel false => some (m, .undoLoad max)
  | .undoLoad max, .go =>
      some (m, if 0 ≤ m.count then .undoTryWait max else .undoExchange max m.count)
  | .undoTryWait max, .go =>
      if 0 < m.sema then some ({ m with sema := m.sema - 1 }, waited max)
      else some (m, .undoLoad max)
  | .undoExchange max oldCount, .go =>
      if m.count = oldCount then some ({ m with count := oldCount + 1 }, .returning 0)
      else some (m, .undoLoad max)
  -- signal
  | .signalAdd count, .go =>
      some ({ m with count := m.count + count, signalled := m.signalled + count },
        .signalPost (min (-m.count) count).toNat)
  | .signalPost 0, .go => some (m, .outside)
  | .signalPost (toRelease + 1), .kernel true =>
      some ({ m with sema := m.sema + 1 }, .signalPost toRelease)
  | .signalPost (toRelease + 1), .kernel false => some (m, .signalPost (toRelease + 1))
  | _, _ => none

end Steps

/-! ### The system -/

structure State (T : Type*) where
  mem : Mem
  points : T → Point

/-- A thread calls an operation, or takes its next step. -/
inductive Label (T : Type*)
  | call (t : T) (op : Op)
  | run (t : T) (choice : Choice)

variable {T : Type*} [DecidableEq T] (maxSpins : ℕ)

def State.setPoint (s : State T) (t : T) (m : Mem) (p : Point) : State T :=
  ⟨m, Function.update s.points t p⟩

theorem setPoint_self (s : State T) (t : T) (m : Mem) (p : Point) :
    (s.setPoint t m p).points t = p := Function.update_self ..

theorem setPoint_ne (s : State T) {t u : T} (m : Mem) (p : Point) (h : u ≠ t) :
    (s.setPoint t m p).points u = s.points u := Function.update_of_ne h ..

def next (s : State T) : Label T → Option (State T)
  | .call t op => if s.points t = .outside then some (s.setPoint t s.mem op.entry) else none
  | .run t choice =>
      (act maxSpins s.mem (s.points t) choice).map (fun r => s.setPoint t r.1 r.2)

variable (T) in
def initial : State T := ⟨⟨0, 0, 0, 0⟩, fun _ => .outside⟩

variable (T) in
def system : TransitionSystem (State T) (Label T) := ⟨initial T, next maxSpins⟩

variable {maxSpins} {s s' : State T} {a : Label T}

/-- A step is the entry of a call, or a step of one thread. -/
theorem next_cases (h : next maxSpins s a = some s') :
    ∃ t m p, s' = s.setPoint t m p ∧
      ((∃ op, a = .call t op ∧ s.points t = .outside ∧ m = s.mem ∧ p = op.entry) ∨
        ∃ choice, a = .run t choice ∧ act maxSpins s.mem (s.points t) choice = some (m, p)) := by
  cases a with
  | call t op =>
      simp only [next] at h
      split_ifs at h with hout
      obtain rfl := Option.some.inj h
      exact ⟨t, s.mem, op.entry, rfl, Or.inl ⟨op, rfl, hout, rfl, rfl⟩⟩
  | run t choice =>
      obtain ⟨⟨m, p⟩, hact, rfl⟩ := Option.map_eq_some_iff.mp h
      exact ⟨t, m, p, rfl, Or.inr ⟨choice, rfl, hact⟩⟩

end SocketLib.LightweightSemaphore
