import SocketLib.ConcurrentQueueProgress
import SocketLib.LightweightSemaphoreUnits

/-!
# `BlockingConcurrentQueue`

A `ConcurrentQueue` (`inner`) next to a `LightweightSemaphore` (`sema`). An enqueue signals one unit
when its element is in the queue. A bulk dequeue first asks the semaphore for units, and then
dequeues until it has as many elements as it has got units.

A thread is in one function of the queue, and within that in one of `inner` or of `sema`, or in none
of them. The functions that dequeue one element are the bulk ones for one without their array.
-/

namespace SocketLib.BlockingConcurrentQueue

inductive Point (P α : Type*)
  | outside
  -- enqueue
  | enqueue
  | signal
  -- try_dequeue_bulk and wait_dequeue_bulk_timed
  | wait
  | dequeue (max : ℕ) (batch : List (P × α))
  | returning (batch : List (P × α))
  deriving DecidableEq

@[ext]
structure Thread (P α : Type*) where
  point : Point P α
  inner : ConcurrentQueue.Point P α
  sema : LightweightSemaphore.Point
  deriving DecidableEq

def Thread.outside {P α : Type*} : Thread P α := ⟨.outside, .outside, .outside⟩

/-- The steps of the queue's own functions: calls of `inner` and `sema`, and what is made of their
results. An exception of `inner.enqueue` leaves `enqueue`. -/
def act {P α : Type*} (m : LightweightSemaphore.Mem) :
    Thread P α → Option (LightweightSemaphore.Mem × Thread P α)
  -- enqueue
  | ⟨.enqueue, .enqueueReturn true, .outside⟩ =>
      some (m, ⟨.signal, .outside, (LightweightSemaphore.Op.signal 1).entry⟩)
  | ⟨.enqueue, .enqueueReturn false, .outside⟩ => some (m, .outside)
  | ⟨.enqueue, .outside, .outside⟩ => some (m, .outside)
  | ⟨.signal, .outside, .outside⟩ => some (m, .outside)
  -- try_dequeue_bulk and wait_dequeue_bulk_timed
  | ⟨.wait, .outside, .returning units⟩ =>
      some ({ m with taken := m.taken + units }, ⟨.dequeue units [], .outside, .outside⟩)
  | ⟨.dequeue max batch, .outside, .outside⟩ =>
      some (m, if batch.length = max then ⟨.returning batch, .outside, .outside⟩
        else ⟨.dequeue max batch, .nextProducer (max - batch.length) [], .outside⟩)
  | ⟨.dequeue max batch, .dequeueReturn part, .outside⟩ =>
      some (m, ⟨.dequeue max (batch ++ part), .outside, .outside⟩)
  | ⟨.returning _, .outside, .outside⟩ => some (m, .outside)
  | _ => none

/-! ### The system -/

structure State (T P α : Type*) where
  mem : LightweightSemaphore.Mem
  subs : P → ConcurrentQueue.Sub α
  threads : T → Thread P α

inductive Label (T P α : Type*)
  | enqueue (t : T) (p : P) (x : α)
  | tryDequeueBulk (t : T) (max : ℕ)
  | waitDequeueBulkTimed (t : T) (max : ℕ) (timeout : ℤ)
  | run (t : T)
  | inner (t : T) (choice : ConcurrentQueue.Choice P)
  | sema (t : T) (choice : LightweightSemaphore.Choice)

variable {T P α : Type*}

def State.inner (s : State T P α) : ConcurrentQueue.State T P α :=
  ⟨s.subs, fun t => (s.threads t).inner⟩

def State.sema (s : State T P α) : LightweightSemaphore.State T :=
  ⟨s.mem, fun t => (s.threads t).sema⟩

variable (maxSpins : ℕ)

/-- A step of a thread in the semaphore, which does not return by itself. -/
def semaAct (m : LightweightSemaphore.Mem) (x : LightweightSemaphore.Point)
    (choice : LightweightSemaphore.Choice) :
    Option (LightweightSemaphore.Mem × LightweightSemaphore.Point) :=
  match x with
  | .returning _ => none
  | x => LightweightSemaphore.act maxSpins m x choice

variable [DecidableEq T]

def State.setThread (s : State T P α) (t : T) (m : LightweightSemaphore.Mem)
    (subs : P → ConcurrentQueue.Sub α) (th : Thread P α) : State T P α :=
  ⟨m, subs, Function.update s.threads t th⟩

theorem setThread_self (s : State T P α) (t : T) (m : LightweightSemaphore.Mem)
    (subs : P → ConcurrentQueue.Sub α) (th : Thread P α) :
    (s.setThread t m subs th).threads t = th := Function.update_self ..

theorem setThread_ne (s : State T P α) {t u : T} (m : LightweightSemaphore.Mem)
    (subs : P → ConcurrentQueue.Sub α) (th : Thread P α) (h : u ≠ t) :
    (s.setThread t m subs th).threads u = s.threads u := Function.update_of_ne h ..

theorem setThread_inner (s : State T P α) (t : T) (m : LightweightSemaphore.Mem)
    (subs : P → ConcurrentQueue.Sub α) (th : Thread P α) :
    (s.setThread t m subs th).inner = s.inner.setPoint t subs th.inner := by
  rw [State.inner, ConcurrentQueue.State.setPoint, ConcurrentQueue.State.mk.injEq]
  refine ⟨rfl, funext fun u => ?_⟩
  by_cases hu : u = t
  · subst u
    rw [setThread_self, Function.update_self]
  · rw [setThread_ne _ _ _ _ hu, Function.update_of_ne hu]
    rfl

theorem setThread_sema (s : State T P α) (t : T) (m : LightweightSemaphore.Mem)
    (subs : P → ConcurrentQueue.Sub α) (th : Thread P α) :
    (s.setThread t m subs th).sema = s.sema.setPoint t m th.sema := by
  rw [State.sema, LightweightSemaphore.State.setPoint, LightweightSemaphore.State.mk.injEq]
  refine ⟨rfl, funext fun u => ?_⟩
  by_cases hu : u = t
  · subst u
    rw [setThread_self, Function.update_self]
  · rw [setThread_ne _ _ _ _ hu, Function.update_of_ne hu]
    rfl

variable [DecidableEq P] [Fintype T]

/-- The calls of a thread outside the queue. -/
def enter (s : State T P α) : Label T P α → Option (Thread P α)
  | .enqueue t p x =>
      (ConcurrentQueue.enter s.inner (.enqueue t p x) .outside).map (⟨.enqueue, ·, .outside⟩)
  | .tryDequeueBulk _ max =>
      some ⟨.wait, .outside, (LightweightSemaphore.Op.tryWaitMany max).entry⟩
  | .waitDequeueBulkTimed _ max timeout =>
      some ⟨.wait, .outside, (LightweightSemaphore.Op.waitMany max timeout).entry⟩
  | _ => none

def Label.thread : Label T P α → T
  | .enqueue t _ _ | .tryDequeueBulk t _ | .waitDequeueBulkTimed t _ _ | .run t | .inner t _
  | .sema t _ => t

def next (s : State T P α) : Label T P α → Option (State T P α)
  | .run t => (act s.mem (s.threads t)).map (fun r => s.setThread t r.1 s.subs r.2)
  | .inner t choice =>
      (ConcurrentQueue.act s.subs (s.threads t).inner choice).map
        (fun r => s.setThread t s.mem r.1 { s.threads t with inner := r.2 })
  | .sema t choice =>
      (semaAct maxSpins s.mem (s.threads t).sema choice).map
        (fun r => s.setThread t r.1 s.subs { s.threads t with sema := r.2 })
  | a => match s.threads a.thread with
    | ⟨.outside, .outside, .outside⟩ =>
        (enter s a).map (s.setThread a.thread s.mem s.subs)
    | _ => none

variable (T P α) in
def initial : State T P α :=
  ⟨⟨0, 0, 0, 0⟩, fun _ => ⟨0, 0, 0, 0, fun _ => none, []⟩, fun _ => .outside⟩

variable (T P α) in
def system : TransitionSystem (State T P α) (Label T P α) := ⟨initial T P α, next maxSpins⟩

def State.sizeApprox (s : State T P α) : ℕ := s.mem.count.toNat

/-- The steps of the queue's own functions, one by one. -/
inductive Glues {P α : Type*} (m : LightweightSemaphore.Mem) :
    Thread P α → LightweightSemaphore.Mem → Thread P α → Prop
  | signal : Glues m ⟨.enqueue, .enqueueReturn true, .outside⟩ m ⟨.signal, .outside, .signalAdd 1⟩
  | refused : Glues m ⟨.enqueue, .enqueueReturn false, .outside⟩ m .outside
  | thrown : Glues m ⟨.enqueue, .outside, .outside⟩ m .outside
  | signalled : Glues m ⟨.signal, .outside, .outside⟩ m .outside
  | units (units : ℕ) :
      Glues m ⟨.wait, .outside, .returning units⟩ { m with taken := m.taken + units }
        ⟨.dequeue units [], .outside, .outside⟩
  | full (max : ℕ) (batch : List (P × α)) (h : batch.length = max) :
      Glues m ⟨.dequeue max batch, .outside, .outside⟩ m ⟨.returning batch, .outside, .outside⟩
  | again (max : ℕ) (batch : List (P × α)) (h : batch.length ≠ max) :
      Glues m ⟨.dequeue max batch, .outside, .outside⟩ m
        ⟨.dequeue max batch, .nextProducer (max - batch.length) [], .outside⟩
  | part (max : ℕ) (batch part : List (P × α)) :
      Glues m ⟨.dequeue max batch, .dequeueReturn part, .outside⟩ m
        ⟨.dequeue max (batch ++ part), .outside, .outside⟩
  | returned (batch : List (P × α)) :
      Glues m ⟨.returning batch, .outside, .outside⟩ m .outside

omit [DecidableEq T] [DecidableEq P] [Fintype T] in
theorem glues_of_act {m m' : LightweightSemaphore.Mem} {th th' : Thread P α} :
    act m th = some (m', th') → Glues m th m' th' := by
  fun_cases act m th
  all_goals
    simp only [Option.some.injEq, Prod.mk.injEq, reduceCtorEq, false_implies, and_imp]
    try rintro rfl rfl
  case case6 max batch =>
    split_ifs with h
    · exact .full max batch h
    · exact .again max batch h
  all_goals constructor

/-- What one thread does in a step, with what it makes of the memory and of itself. -/
inductive Steps (s : State T P α) (t : T) :
    Label T P α → LightweightSemaphore.Mem → (P → ConcurrentQueue.Sub α) → Thread P α → Prop
  | enqueue (p : P) (x : α) (hout : s.threads t = .outside)
      (hfree : ∀ u, (s.inner.points u).producer ≠ some p) :
      Steps s t (.enqueue t p x) s.mem s.subs ⟨.enqueue, .enqueueTest p x, .outside⟩
  | tryDequeueBulk (max : ℕ) (hout : s.threads t = .outside) :
      Steps s t (.tryDequeueBulk t max) s.mem s.subs
        ⟨.wait, .outside, (LightweightSemaphore.Op.tryWaitMany max).entry⟩
  | waitDequeueBulkTimed (max : ℕ) (timeout : ℤ) (hout : s.threads t = .outside) :
      Steps s t (.waitDequeueBulkTimed t max timeout) s.mem s.subs
        ⟨.wait, .outside, (LightweightSemaphore.Op.waitMany max timeout).entry⟩
  | run (m : LightweightSemaphore.Mem) (th : Thread P α) (h : Glues s.mem (s.threads t) m th) :
      Steps s t (.run t) m s.subs th
  | inner (choice : ConcurrentQueue.Choice P) (subs : P → ConcurrentQueue.Sub α)
      (x : ConcurrentQueue.Point P α)
      (h : ConcurrentQueue.act s.subs (s.threads t).inner choice = some (subs, x)) :
      Steps s t (.inner t choice) s.mem subs { s.threads t with inner := x }
  | sema (choice : LightweightSemaphore.Choice) (m : LightweightSemaphore.Mem)
      (y : LightweightSemaphore.Point)
      (h : semaAct maxSpins s.mem (s.threads t).sema choice = some (m, y)) :
      Steps s t (.sema t choice) m s.subs { s.threads t with sema := y }

theorem steps_of_next {s s' : State T P α} {a : Label T P α} (h : next maxSpins s a = some s') :
    ∃ t m subs th, s' = s.setThread t m subs th ∧ Steps maxSpins s t a m subs th := by
  cases a with
  | run t =>
      obtain ⟨⟨m, th⟩, hact, rfl⟩ := Option.map_eq_some_iff.mp h
      exact ⟨t, m, s.subs, th, rfl, .run m th (glues_of_act hact)⟩
  | inner t choice =>
      obtain ⟨⟨subs, x⟩, hact, rfl⟩ := Option.map_eq_some_iff.mp h
      exact ⟨t, s.mem, subs, _, rfl, .inner choice subs x hact⟩
  | sema t choice =>
      obtain ⟨⟨m, y⟩, hact, rfl⟩ := Option.map_eq_some_iff.mp h
      exact ⟨t, m, s.subs, _, rfl, .sema choice m y hact⟩
  | enqueue t p x =>
      simp only [next, Label.thread] at h
      split at h
      case h_1 hout =>
        obtain ⟨th, henter, rfl⟩ := Option.map_eq_some_iff.mp h
        simp only [enter, ConcurrentQueue.enter] at henter
        split_ifs at henter with hfree
        · cases henter
          exact ⟨t, s.mem, s.subs, _, rfl, .enqueue p x hout hfree⟩
        · cases henter
      case h_2 => cases h
  | tryDequeueBulk t max =>
      simp only [next, Label.thread] at h
      split at h
      case h_1 hout =>
        obtain ⟨th, henter, rfl⟩ := Option.map_eq_some_iff.mp h
        cases henter
        exact ⟨t, s.mem, s.subs, _, rfl, .tryDequeueBulk max hout⟩
      case h_2 => cases h
  | waitDequeueBulkTimed t max timeout =>
      simp only [next, Label.thread] at h
      split at h
      case h_1 hout =>
        obtain ⟨th, henter, rfl⟩ := Option.map_eq_some_iff.mp h
        cases henter
        exact ⟨t, s.mem, s.subs, _, rfl, .waitDequeueBulkTimed max timeout hout⟩
      case h_2 => cases h

end SocketLib.BlockingConcurrentQueue
