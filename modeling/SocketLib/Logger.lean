import SocketLib.ProducerQueue
import SocketLib.ThreadFamily
import SocketLib.TransitionSystem

/-!
# The logger and its thread

Whoever has something to say calls `writeLog`, which leaves out debug messages unless they are
enabled, and tries to put a task into `logQueue` until that succeeds. The thread of the handler
takes tasks out of the queue in batches and calls `loggerCallback` for each. A producer is a token,
or a thread that writes without one.

The queue is taken as atomic: it has one consumer. `DebugEnabled` may change at any time, and has no
initial value. `stop` is the destructor of the handler up to the end of its body: it clears
`active`, detaches the thread and does not wait for it. What a thread does on members that are
destroyed after that is not modelled, so what is said of the time after `stop` is said for as long
as the memory of the handler stays. Next to its fields the state keeps what each producer has called
`writeLog` with, what of that has passed the test, and what `loggerCallback` was called with.
-/

namespace SocketLib.Logger

open ProducerQueue ThreadFamily TransitionSystem

inductive LoggerLevel
  | debugLevel
  | info
  | warn
  | error
  deriving DecidableEq

structure LogTask where
  level : LoggerLevel
  tag : String
  log : String
  deriving DecidableEq

/-- Where a producer is in `writeLog`. -/
inductive Point
  | outside
  | writeTest (task : LogTask)
  -- queueLogInternal
  | enqueue (task : LogTask)
  deriving DecidableEq

/-- Where the thread is in `handleLogThread`. -/
inductive ThreadPoint (P : Type*)
  | loopTest
  | dequeue
  | invoke (logTasks : List (P × LogTask))
  | finished

structure State (P : Type*) where
  debugEnabled : Bool
  active : Bool
  logQueue : ProducerQueue P LogTask
  points : P → Point
  loggerThread : ThreadPoint P
  written : P → List LogTask
  accepted : P → List LogTask
  logged : List (P × LogTask)

/-- One step of a run: a producer calls `writeLog` or takes a step in it, the thread takes a step,
`DebugEnabled` is set, or the handler is destroyed. -/
inductive Label (P : Type*)
  | writeLog (p : P) (task : LogTask)
  | test (p : P)
  | enqueue (p : P) (ok : Bool)
  | handleLogThread
  | dequeueBulk (batch : List (P × LogTask))
  | setDebugEnabled (enabled : Bool)
  | stop

def taskCount : ℕ := 20

variable {P : Type*}

/-- The tasks that the thread has taken and not called back for yet. -/
def ThreadPoint.inHand : ThreadPoint P → List (P × LogTask)
  | .invoke logTasks => logTasks
  | .loopTest | .dequeue | .finished => []

/-- `writeLog` leaves the task out. -/
def State.omits (s : State P) (task : LogTask) : Bool :=
  task.level = .debugLevel && !s.debugEnabled

variable [DecidableEq P]

def next (s : State P) : Label P → Option (State P)
  | .writeLog p task =>
      match s.points p with
      | .outside =>
          some { s with
            points := Function.update s.points p (.writeTest task)
            written := Function.update s.written p (s.written p ++ [task]) }
      | _ => none
  | .test p =>
      match s.points p with
      | .writeTest task =>
          if s.omits task then some { s with points := Function.update s.points p .outside }
          else
            some { s with
              points := Function.update s.points p (.enqueue task)
              accepted := Function.update s.accepted p (s.accepted p ++ [task]) }
      | _ => none
  -- queueLogInternal tries again after a while
  | .enqueue p ok =>
      match s.points p with
      | .enqueue task =>
          if ok then
            some { s with
              points := Function.update s.points p .outside
              logQueue := s.logQueue.enqueue p task }
          else some s
      | _ => none
  | .handleLogThread =>
      match s.loggerThread with
      | .loopTest => some { s with loggerThread := if s.active then .dequeue else .finished }
      | .invoke (x :: rest) =>
          some { s with logged := s.logged ++ [x], loggerThread := .invoke rest }
      | .invoke [] => some { s with loggerThread := .loopTest }
      | _ => none
  | .dequeueBulk batch =>
      match s.loggerThread with
      | .dequeue =>
          if batch.length ≤ taskCount ∧ s.logQueue.Offers batch then
            some { s with
              logQueue := s.logQueue.dequeue batch
              loggerThread := if batch.isEmpty then .loopTest else .invoke batch }
          else none
      | _ => none
  | .setDebugEnabled enabled => some { s with debugEnabled := enabled }
  | .stop => some { s with active := false }

variable (P) in
def initial (debugEnabled : Bool) : State P where
  debugEnabled := debugEnabled
  active := true
  logQueue := fun _ => []
  points := fun _ => .outside
  loggerThread := .loopTest
  written := fun _ => []
  accepted := fun _ => []
  logged := []

variable (P) in
def system (debugEnabled : Bool) : TransitionSystem (State P) (Label P) :=
  ⟨initial P debugEnabled, next⟩

/-! ### Steps -/

variable {debugEnabled : Bool} {s s' : State P} {a : Label P}

/-- The steps of a run, one by one. -/
inductive Steps (s : State P) : Label P → State P → Prop
  | write (p : P) (task : LogTask) (h : s.points p = .outside) :
      Steps s (.writeLog p task) { s with
        points := Function.update s.points p (.writeTest task)
        written := Function.update s.written p (s.written p ++ [task]) }
  | leaveOut (p : P) (task : LogTask) (h : s.points p = .writeTest task)
      (homits : s.omits task = true) :
      Steps s (.test p) { s with points := Function.update s.points p .outside }
  | accept (p : P) (task : LogTask) (h : s.points p = .writeTest task)
      (homits : s.omits task = false) :
      Steps s (.test p) { s with
        points := Function.update s.points p (.enqueue task)
        accepted := Function.update s.accepted p (s.accepted p ++ [task]) }
  | enqueue (p : P) (task : LogTask) (h : s.points p = .enqueue task) :
      Steps s (.enqueue p true) { s with
        points := Function.update s.points p .outside
        logQueue := s.logQueue.enqueue p task }
  | retry (p : P) (task : LogTask) (h : s.points p = .enqueue task) :
      Steps s (.enqueue p false) s
  | goOn (h : s.loggerThread = .loopTest) (hactive : s.active = true) :
      Steps s .handleLogThread { s with loggerThread := .dequeue }
  | finish (h : s.loggerThread = .loopTest) (hactive : s.active = false) :
      Steps s .handleLogThread { s with loggerThread := .finished }
  | invoke (x : P × LogTask) (rest : List (P × LogTask))
      (h : s.loggerThread = .invoke (x :: rest)) :
      Steps s .handleLogThread { s with logged := s.logged ++ [x], loggerThread := .invoke rest }
  | again (h : s.loggerThread = .invoke []) :
      Steps s .handleLogThread { s with loggerThread := .loopTest }
  | timeOut (h : s.loggerThread = .dequeue) :
      Steps s (.dequeueBulk []) { s with
        logQueue := s.logQueue.dequeue []
        loggerThread := .loopTest }
  | take (batch : List (P × LogTask)) (h : s.loggerThread = .dequeue)
      (hlength : batch.length ≤ taskCount) (hoffers : s.logQueue.Offers batch) :
      Steps s (.dequeueBulk batch) { s with
        logQueue := s.logQueue.dequeue batch
        loggerThread := .invoke batch }
  | setDebugEnabled (enabled : Bool) :
      Steps s (.setDebugEnabled enabled) { s with debugEnabled := enabled }
  | stop : Steps s .stop { s with active := false }

theorem steps_of_next (h : next s a = some s') : Steps s a s' := by
  cases a with
  | writeLog p task =>
      cases hp : s.points p with
      | outside =>
          simp only [next, hp] at h
          obtain rfl := Option.some.inj h
          exact .write p task hp
      | _ => simp only [next, hp, reduceCtorEq] at h
  | test p =>
      cases hp : s.points p with
      | writeTest task =>
          simp only [next, hp] at h
          split at h
          next homits =>
            obtain rfl := Option.some.inj h
            exact .leaveOut p task hp homits
          next homits =>
            obtain rfl := Option.some.inj h
            exact .accept p task hp (Bool.eq_false_iff.mpr homits)
      | _ => simp only [next, hp, reduceCtorEq] at h
  | enqueue p ok =>
      cases hp : s.points p with
      | enqueue task =>
          simp only [next, hp] at h
          cases ok with
          | true =>
              obtain rfl := Option.some.inj h
              exact .enqueue p task hp
          | false =>
              obtain rfl := Option.some.inj h
              exact .retry p task hp
      | _ => simp only [next, hp, reduceCtorEq] at h
  | handleLogThread =>
      cases hthread : s.loggerThread with
      | loopTest =>
          simp only [next, hthread] at h
          obtain rfl := Option.some.inj h
          by_cases hactive : s.active = true
          · rw [if_pos hactive]
            exact .goOn hthread hactive
          · rw [if_neg hactive]
            exact .finish hthread (Bool.eq_false_iff.mpr hactive)
      | invoke logTasks =>
          cases logTasks with
          | nil =>
              simp only [next, hthread] at h
              obtain rfl := Option.some.inj h
              exact .again hthread
          | cons x rest =>
              simp only [next, hthread] at h
              obtain rfl := Option.some.inj h
              exact .invoke x rest hthread
      | _ => simp only [next, hthread, reduceCtorEq] at h
  | dequeueBulk batch =>
      cases hthread : s.loggerThread with
      | dequeue =>
          simp only [next, hthread] at h
          split at h
          next hbatch =>
            obtain rfl := Option.some.inj h
            cases batch with
            | nil => exact .timeOut hthread
            | cons x rest => exact .take (x :: rest) hthread hbatch.1 hbatch.2
          next => cases h
      | _ => simp only [next, hthread, reduceCtorEq] at h
  | setDebugEnabled enabled =>
      obtain rfl := Option.some.inj h
      exact .setDebugEnabled enabled
  | stop =>
      obtain rfl := Option.some.inj h
      exact .stop

/-! ### What is logged -/

/-- The task that is about to be enqueued. -/
def Point.pending : Point → List LogTask
  | .enqueue task => [task]
  | .outside | .writeTest _ => []

/-- The task that is about to be tested. -/
def Point.untested : Point → List LogTask
  | .writeTest task => [task]
  | .outside | .enqueue _ => []

def LogTask.isDebug (task : LogTask) : Bool := task.level = .debugLevel

/-- Of one producer: what was logged or is in hand, what waits and what is about to be enqueued is,
in this order, what has passed the test; and that is what was written, but for debug messages. -/
structure Kept (logged waiting : List LogTask) (p : Point) (written accepted : List LogTask) :
    Prop where
  order : logged ++ waiting ++ p.pending = accepted
  others : (accepted ++ p.untested).filter (fun task => !task.isDebug) =
    written.filter (fun task => !task.isDebug)
  sublist : (accepted ++ p.untested).Sublist written

section Kept

variable {logged waiting written accepted : List LogTask} {task : LogTask}

theorem Kept.write (h : Kept logged waiting .outside written accepted) :
    Kept logged waiting (.writeTest task) (written ++ [task]) accepted where
  order := h.order
  others := by
    have hothers := h.others
    simp only [Point.untested, List.append_nil] at hothers
    simp only [Point.untested, List.filter_append, hothers]
  sublist := by
    have hsublist := h.sublist
    rw [Point.untested, List.append_nil] at hsublist
    exact hsublist.append_right [task]

theorem Kept.leaveOut (h : Kept logged waiting (.writeTest task) written accepted)
    (hdebug : task.isDebug = true) : Kept logged waiting .outside written accepted where
  order := h.order
  others := by
    have hothers := h.others
    rw [Point.untested, List.filter_append, List.filter_singleton, hdebug] at hothers
    rw [Point.untested, List.append_nil, ← hothers]
    exact (List.append_nil _).symm
  sublist := by
    rw [Point.untested, List.append_nil]
    exact (List.sublist_append_left _ _).trans h.sublist

theorem Kept.accept (h : Kept logged waiting (.writeTest task) written accepted) :
    Kept logged waiting (.enqueue task) written (accepted ++ [task]) where
  order := by
    rw [← h.order, Point.pending, Point.pending, List.append_nil]
  others := by
    rw [← h.others, Point.untested, Point.untested, List.append_nil]
  sublist := by
    rw [Point.untested, List.append_nil]
    exact h.sublist

theorem Kept.enqueue (h : Kept logged waiting (.enqueue task) written accepted) :
    Kept logged (waiting ++ [task]) .outside written accepted where
  order := by
    rw [← h.order, Point.pending, Point.pending, List.append_nil, List.append_assoc]
  others := h.others
  sublist := h.sublist

end Kept

/-- No task is lost, doubled or overtaken by a later one of its producer. -/
structure Sound (s : State P) : Prop where
  kept : ∀ p, Kept (ofProducer p (s.logged ++ s.loggerThread.inHand)) (s.logQueue p) (s.points p)
    (s.written p) (s.accepted p)
  inHand : s.loggerThread.inHand.length ≤ taskCount
  running : s.active = true → s.loggerThread ≠ .finished

theorem sound_initial : Sound (initial P debugEnabled) where
  kept _ := ⟨rfl, rfl, List.Sublist.refl _⟩
  inHand := Nat.zero_le _
  running _ := by simp [initial]

/-- A step of a producer leaves the other ones and the thread alone. -/
theorem Sound.producer (h : Sound s) (p : P)
    (hothers : ∀ q ≠ p, s'.logQueue q = s.logQueue q ∧ s'.points q = s.points q ∧
      s'.written q = s.written q ∧ s'.accepted q = s.accepted q)
    (hlogged : s'.logged = s.logged) (hthread : s'.loggerThread = s.loggerThread)
    (hactive : s'.active = s.active)
    (hkept : Kept (ofProducer p (s.logged ++ s.loggerThread.inHand)) (s'.logQueue p) (s'.points p)
      (s'.written p) (s'.accepted p)) : Sound s' where
  kept q := by
    rw [hlogged, hthread]
    by_cases hq : q = p
    · subst q
      exact hkept
    · obtain ⟨hqueue, hpoints, hwritten, haccepted⟩ := hothers q hq
      rw [hqueue, hpoints, hwritten, haccepted]
      exact h.kept q
  inHand := hthread ▸ h.inHand
  running := by
    rw [hthread, hactive]
    exact h.running

theorem Sound.next (h : Sound s) (hstep : Logger.next s a = some s') : Sound s' := by
  cases steps_of_next hstep with
  | write p task hp =>
      refine h.producer p
        (fun q hq => ⟨rfl, Function.update_of_ne hq .., Function.update_of_ne hq .., rfl⟩)
        rfl rfl rfl ?_
      have hkept := h.kept p
      rw [hp] at hkept
      simpa only [Function.update_self] using hkept.write
  | leaveOut p task hp homits =>
      refine h.producer p (fun q hq => ⟨rfl, Function.update_of_ne hq .., rfl, rfl⟩) rfl rfl rfl ?_
      have hkept := h.kept p
      rw [hp] at hkept
      simpa only [Function.update_self] using
        hkept.leaveOut (Bool.and_eq_true_iff.mp homits).1
  | accept p task hp =>
      refine h.producer p
        (fun q hq => ⟨rfl, Function.update_of_ne hq .., rfl, Function.update_of_ne hq ..⟩)
        rfl rfl rfl ?_
      have hkept := h.kept p
      rw [hp] at hkept
      simpa only [Function.update_self] using hkept.accept
  | enqueue p task hp =>
      refine h.producer p
        (fun q hq => ⟨enqueue_ne _ _ hq, Function.update_of_ne hq .., rfl, rfl⟩) rfl rfl rfl ?_
      have hkept := h.kept p
      rw [hp] at hkept
      simpa only [Function.update_self, enqueue_self] using hkept.enqueue
  | retry => exact h
  | goOn hthread hactive =>
      refine ⟨fun p => ?_, Nat.zero_le _, fun _ => by simp⟩
      have hkept := h.kept p
      rwa [hthread] at hkept
  | finish hthread hactive =>
      refine ⟨fun p => ?_, Nat.zero_le _, fun hactive' => ?_⟩
      · have hkept := h.kept p
        rwa [hthread] at hkept
      · rw [hactive] at hactive'
        cases hactive'
  | invoke x rest hthread =>
      have hlength := h.inHand
      rw [hthread] at hlength
      refine ⟨fun p => ?_, (Nat.le_succ _).trans hlength, fun _ => by simp⟩
      have hkept := h.kept p
      rw [hthread] at hkept
      simpa only [ThreadPoint.inHand, List.append_assoc, List.singleton_append] using hkept
  | again hthread =>
      refine ⟨fun p => ?_, Nat.zero_le _, fun _ => by simp⟩
      have hkept := h.kept p
      rwa [hthread] at hkept
  | timeOut hthread =>
      refine ⟨fun p => ?_, Nat.zero_le _, fun _ => by simp⟩
      have hkept := h.kept p
      rwa [hthread] at hkept
  | take batch hthread hlength hoffers =>
      refine ⟨fun p => ?_, hlength, fun _ => by simp⟩
      have hkept := h.kept p
      rw [hthread] at hkept
      refine ⟨?_, hkept.others, hkept.sublist⟩
      have horder := hkept.order
      rw [ThreadPoint.inHand, List.append_nil] at horder
      rw [ThreadPoint.inHand, ofProducer_append, List.append_assoc (ofProducer p s.logged),
        ofProducer_append_dequeue hoffers, horder]
  | setDebugEnabled => exact ⟨h.kept, h.inHand, h.running⟩
  | stop => exact ⟨h.kept, h.inHand, fun hactive => by cases hactive⟩

theorem sound_of_reachable (h : (system P debugEnabled).Reachable s) : Sound s :=
  h.invariant sound_initial (fun _ _ _ _ hs _ hstep => hs.next hstep)

/-- With any number of producers, for every one of them: what `loggerCallback` was called with, what
is in hand of the thread, what waits and what is about to be enqueued are, in this order, the tasks
that passed the test of `writeLog`. These are tasks the producer has written, in its order, and all
that are no debug messages; the task that is being tested may come to them. -/
theorem logged_in_order (h : (system P debugEnabled).Reachable s) (p : P) :
    ofProducer p (s.logged ++ s.loggerThread.inHand) ++ s.logQueue p ++ (s.points p).pending =
      s.accepted p ∧
    (s.accepted p ++ (s.points p).untested).filter (fun task => !task.isDebug) =
      (s.written p).filter (fun task => !task.isDebug) ∧
    (s.accepted p ++ (s.points p).untested).Sublist (s.written p) := by
  have hkept := (sound_of_reachable h).kept p
  exact ⟨hkept.order, hkept.others, hkept.sublist⟩

/-! ### The end of the thread -/

/-- How many tasks a thread whose handler is destroyed may still call back for. -/
def ThreadPoint.left : ThreadPoint P → ℕ
  | .dequeue => taskCount
  | .invoke logTasks => logTasks.length
  | .loopTest | .finished => 0

/-- The handler is destroyed, and with what is logged after that and what the thread still has there
are at most as many tasks as it takes at once. -/
def Stopped (logged : List (P × LogTask)) (s : State P) : Prop :=
  s.active = false ∧
    ∃ rest, s.logged = logged ++ rest ∧ rest.length + s.loggerThread.left ≤ taskCount

theorem Sound.left_le (h : Sound s) : s.loggerThread.left ≤ taskCount := by
  have hlength := h.inHand
  cases hthread : s.loggerThread with
  | dequeue => exact le_rfl
  | invoke logTasks =>
      rw [hthread] at hlength
      exact hlength
  | _ => exact Nat.zero_le _

theorem Stopped.next {logged : List (P × LogTask)} (h : Stopped logged s)
    (hstep : Logger.next s a = some s') : Stopped logged s' := by
  obtain ⟨hactive, rest, hlogged, hleft⟩ := h
  cases steps_of_next hstep with
  | goOn _ hrunning =>
      rw [hactive] at hrunning
      cases hrunning
  | invoke x later hthread =>
      rw [hthread, ThreadPoint.left, List.length_cons] at hleft
      refine ⟨hactive, rest ++ [x], ?_, ?_⟩
      · simp only [hlogged, List.append_assoc]
      · simp only [ThreadPoint.left, List.length_append, List.length_singleton]
        omega
  | take batch hthread hlength hoffers =>
      rw [hthread, ThreadPoint.left] at hleft
      refine ⟨hactive, rest, hlogged, ?_⟩
      simp only [ThreadPoint.left]
      omega
  | finish | again | timeOut =>
      exact ⟨hactive, rest, hlogged, (Nat.le_add_right _ _).trans hleft⟩
  | stop => exact ⟨rfl, rest, hlogged, hleft⟩
  | _ => exact ⟨hactive, rest, hlogged, hleft⟩

/-- After the destructor of the handler has begun, and for as long as the members stay,
`loggerCallback` is called for one batch at most, however long the thread goes on and whatever is
written. -/
theorem logged_after_stop (h : (system P debugEnabled).Reachable s) (hactive : s.active = false)
    (hleads : (system P debugEnabled).LeadsTo s s') :
    ∃ rest, s'.logged = s.logged ++ rest ∧ rest.length ≤ taskCount := by
  have hstopped : Stopped s.logged s := by
    refine ⟨hactive, [], (List.append_nil _).symm, ?_⟩
    rw [List.length_nil, Nat.zero_add]
    exact (sound_of_reachable h).left_le
  obtain ⟨-, -, rest, hlogged, hleft⟩ :=
    hleads.keeps h hstopped (fun _ _ _ _ hI _ hstep => hI.next hstep)
  exact ⟨rest, hlogged, (Nat.le_add_right _ _).trans hleft⟩

/-! ### All is logged -/

/-- The steps of calls under way and of the thread. -/
def Continues (_ : State P) : Label P → Prop
  | .test _ | .enqueue _ _ | .handleLogThread | .dequeueBulk _ => True
  | _ => False

/-- No call is under way, and there is nothing to log. -/
structure Settled (s : State P) : Prop where
  outside : ∀ p, s.points p = .outside
  empty : ∀ p, s.logQueue p = []
  inHand : s.loggerThread.inHand = []

def Point.rank : Point → ℕ
  | .outside => 0
  | .writeTest _ => 6
  | .enqueue _ => 5

def ThreadPoint.rank : ThreadPoint P → ℕ
  | .loopTest => 1
  | .dequeue => 0
  | .invoke logTasks => logTasks.length + 2
  | .finished => 0

/-- What is still to be done; a task that waits costs the thread a pass of its loop. -/
def State.work [Fintype P] (s : State P) : ℕ :=
  total Point.rank s.points + 4 * total List.length s.logQueue + s.loggerThread.rank

/-- A step on the way to a settled state. -/
def Progress [Fintype P] (s : State P) : Prop :=
  ∃ a s', Continues s a ∧ next s a = some s' ∧ s'.active = s.active ∧ s'.written = s.written ∧
    s'.work < s.work

section Progress

variable [Fintype P]

/-- A call of `writeLog` that is under way can go on. -/
theorem progress_of_point {p : P} (h : s.points p ≠ .outside) : Progress s := by
  cases hp : s.points p with
  | outside => exact absurd hp h
  | writeTest task =>
      cases homits : s.omits task with
      | true =>
          refine ⟨.test p, { s with points := Function.update s.points p .outside }, trivial, ?_,
            rfl, rfl, ?_⟩
          · simp only [next, hp, homits, if_true]
          · have htotal := total_update Point.rank s.points p .outside
            rw [hp, Point.rank, Point.rank] at htotal
            simp only [State.work]
            omega
      | false =>
          refine ⟨.test p, { s with
            points := Function.update s.points p (.enqueue task)
            accepted := Function.update s.accepted p (s.accepted p ++ [task]) }, trivial, ?_,
            rfl, rfl, ?_⟩
          · simp only [next, hp, homits, Bool.false_eq_true, if_false]
          · have htotal := total_update Point.rank s.points p (.enqueue task)
            rw [hp, Point.rank, Point.rank] at htotal
            simp only [State.work]
            omega
  | enqueue task =>
      refine ⟨.enqueue p true, { s with
        points := Function.update s.points p .outside
        logQueue := s.logQueue.enqueue p task }, trivial, ?_, rfl, rfl, ?_⟩
      · simp only [next, hp, if_true]
      · have htotal := total_update Point.rank s.points p .outside
        have hqueue := total_update List.length s.logQueue p (s.logQueue p ++ [task])
        rw [hp, Point.rank, Point.rank] at htotal
        rw [List.length_append, List.length_singleton] at hqueue
        simp only [State.work, ProducerQueue.enqueue]
        omega

/-- The thread calls back for the next task in hand. -/
theorem progress_of_inHand (h : s.loggerThread.inHand ≠ []) : Progress s := by
  cases hthread : s.loggerThread with
  | invoke logTasks =>
      cases logTasks with
      | nil =>
          rw [hthread] at h
          exact absurd rfl h
      | cons x rest =>
          refine ⟨.handleLogThread,
            { s with logged := s.logged ++ [x], loggerThread := .invoke rest }, trivial, ?_,
            rfl, rfl, ?_⟩
          · simp only [next, hthread]
          · simp only [State.work, hthread, ThreadPoint.rank, List.length_cons]
            omega
  | _ =>
      rw [hthread] at h
      exact absurd rfl h

/-- A thread with empty hands gets to the next task that waits. -/
theorem progress_of_waiting (hs : Sound s) (hactive : s.active = true)
    (hinHand : s.loggerThread.inHand = []) {p : P} (h : s.logQueue p ≠ []) : Progress s := by
  cases hthread : s.loggerThread with
  | loopTest =>
      refine ⟨.handleLogThread, { s with loggerThread := .dequeue }, trivial, ?_, rfl, rfl, ?_⟩
      · simp only [next, hthread, hactive, if_true]
      · simp only [State.work, hthread, ThreadPoint.rank]
        omega
  | dequeue =>
      obtain ⟨task, rest, hqueue⟩ := List.exists_cons_of_ne_nil h
      have hoffers : [(p, task)].length ≤ taskCount ∧ s.logQueue.Offers [(p, task)] :=
        ⟨(by decide : 1 ≤ taskCount), offers_singleton hqueue⟩
      refine ⟨.dequeueBulk [(p, task)], { s with
        logQueue := s.logQueue.dequeue [(p, task)]
        loggerThread := .invoke [(p, task)] }, trivial, ?_, rfl, rfl, ?_⟩
      · simp only [next, hthread, if_pos hoffers]
        rfl
      · have htotal := total_update List.length s.logQueue p rest
        rw [hqueue, List.length_cons] at htotal
        simp only [State.work, hthread, ThreadPoint.rank, dequeue_singleton, hqueue, List.tail_cons,
          List.length_singleton]
        omega
  | invoke logTasks =>
      rw [hthread] at hinHand
      obtain rfl : logTasks = [] := hinHand
      refine ⟨.handleLogThread, { s with loggerThread := .loopTest }, trivial, ?_, rfl, rfl, ?_⟩
      · simp only [next, hthread]
      · simp only [State.work, hthread, ThreadPoint.rank, List.length_nil]
        omega
  | finished => exact absurd hthread (hs.running hactive)

theorem exists_progress (hs : Sound s) (hactive : s.active = true) (h : ¬ Settled s) :
    Progress s := by
  by_cases hpoints : ∀ p, s.points p = .outside
  · by_cases hinHand : s.loggerThread.inHand = []
    · have hqueue : ¬ ∀ p, s.logQueue p = [] := fun hempty => h ⟨hpoints, hempty, hinHand⟩
      push Not at hqueue
      obtain ⟨p, hp⟩ := hqueue
      exact progress_of_waiting hs hactive hinHand hp
    · exact progress_of_inHand hinHand
  · push Not at hpoints
    obtain ⟨p, hp⟩ := hpoints
    exact progress_of_point hp

/-- As long as the handler is there, the calls under way can return and the thread can go on,
without new calls, until every message that is no debug message has been logged, for each producer
in its order, and nothing that was not written. -/
theorem logs_everything (h : (system P debugEnabled).Reachable s) (hactive : s.active = true) :
    ∃ s', (system P debugEnabled).LeadsBy Continues s s' ∧ ∀ p,
      (ofProducer p s'.logged).filter (fun task => !task.isDebug) =
        (s.written p).filter (fun task => !task.isDebug) ∧
      (ofProducer p s'.logged).Sublist (s.written p) := by
  have hrun : ∃ s', (system P debugEnabled).LeadsBy Continues s s' ∧
      ((system P debugEnabled).Reachable s' ∧ s'.active = true ∧ s'.written = s.written) ∧
      Settled s' := by
    refine exists_leadsBy_of_measure (μ := State.work) ?_ ⟨h, hactive, rfl⟩
    rintro s₁ ⟨hreach, hactive₁, hwritten₁⟩ hsettled
    obtain ⟨a, s₂, hcontinues, hstep, hactive₂, hwritten₂, hwork⟩ :=
      exists_progress (sound_of_reachable hreach) hactive₁ hsettled
    exact ⟨s₂, LeadsBy.single hcontinues hstep,
      ⟨hreach.step trivial hstep, hactive₂.trans hactive₁, hwritten₂.trans hwritten₁⟩, hwork⟩
  obtain ⟨s', hleads, ⟨hreach, -, hwritten⟩, hsettled⟩ := hrun
  refine ⟨s', hleads, fun p => ?_⟩
  obtain ⟨horder, hothers, hsublist⟩ := (sound_of_reachable hreach).kept p
  rw [hsettled.outside p] at horder hothers hsublist
  rw [hsettled.inHand, hsettled.empty p] at horder
  simp only [Point.pending, List.append_nil] at horder
  simp only [Point.untested, List.append_nil, hwritten] at hothers hsublist
  rw [horder]
  exact ⟨hothers, hsublist⟩

end Progress

/-! ### A run of two producers -/

/-- The first producer has to try twice, a debug message of the second is left out, and one of the
two tasks that the thread has taken is logged. -/
def twoProducers (p q : P) : List (Label P) :=
  [.writeLog p ⟨.info, "a", "x"⟩, .test p, .enqueue p false, .writeLog q ⟨.debugLevel, "b", "y"⟩,
    .enqueue p true, .test q, .writeLog q ⟨.error, "b", "z"⟩, .test q, .handleLogThread,
    .enqueue q true, .dequeueBulk [(q, ⟨.error, "b", "z"⟩), (p, ⟨.info, "a", "x"⟩)],
    .handleLogThread]

theorem logged_in_order_twoProducers :
    ∃ s, (system (Fin 2) false).Reachable s ∧ s.logged = [(1, ⟨.error, "b", "z"⟩)] ∧
      s.written 1 = [⟨.debugLevel, "b", "y"⟩, ⟨.error, "b", "z"⟩] ∧
      ofProducer 1 (s.logged ++ s.loggerThread.inHand) ++ s.logQueue 1 ++ (s.points 1).pending =
        s.accepted 1 ∧
      (s.accepted 1 ++ (s.points 1).untested).filter (fun task => !task.isDebug) =
        (s.written 1).filter (fun task => !task.isDebug) ∧
      (s.accepted 1 ++ (s.points 1).untested).Sublist (s.written 1) := by
  have hrun : ((system (Fin 2) false).execWhile (fun _ _ => True) (initial (Fin 2) false)
      (twoProducers 0 1)).any (fun s => s.logged = [(1, ⟨.error, "b", "z"⟩)] ∧
        s.written 1 = [⟨.debugLevel, "b", "y"⟩, ⟨.error, "b", "z"⟩]) = true := by decide
  obtain ⟨s, hs, hstate⟩ := exists_reachedBy_of_execWhile hrun
  rw [decide_eq_true_eq] at hstate
  exact ⟨s, hs, hstate.1, hstate.2, logged_in_order hs 1⟩

/-- The handler is destroyed while a task is in hand, which is then logged. -/
theorem logged_after_stop_twoProducers :
    ∃ s s', (system (Fin 2) false).Reachable s ∧ s.active = false ∧ s.logged.length = 1 ∧
      (system (Fin 2) false).LeadsTo s s' ∧ s'.logged.length = 2 ∧
      ∃ rest, s'.logged = s.logged ++ rest ∧ rest.length ≤ taskCount := by
  have hrun : ((system (Fin 2) false).execWhile (fun _ _ => True) (initial (Fin 2) false)
      (twoProducers 0 1 ++ [.stop])).any (fun s => s.active = false ∧ s.logged.length = 1 ∧
        ((system (Fin 2) false).execWhile (fun _ _ => True) s [.handleLogThread]).any
          (fun s' => s'.logged.length = 2)) = true := by decide
  obtain ⟨s, hs, hstate⟩ := exists_reachedBy_of_execWhile hrun
  rw [decide_eq_true_eq] at hstate
  obtain ⟨hactive, hlength, hmore⟩ := hstate
  obtain ⟨s', hs', hlength'⟩ := (Option.any_eq_true _ _).mp hmore
  rw [decide_eq_true_eq] at hlength'
  have hleads : (system (Fin 2) false).LeadsTo s s' := execWhile_leadsBy hs'
  exact ⟨s, s', hs, hactive, hlength, hleads, hlength', logged_after_stop hs hactive hleads⟩

theorem logs_everything_twoProducers :
    ∃ s, (system (Fin 2) false).Reachable s ∧ s.active = true ∧ s.logged.length = 1 ∧
      ∃ s', (system (Fin 2) false).LeadsBy Continues s s' ∧ ∀ p,
        (ofProducer p s'.logged).filter (fun task => !task.isDebug) =
          (s.written p).filter (fun task => !task.isDebug) ∧
        (ofProducer p s'.logged).Sublist (s.written p) := by
  have hrun : ((system (Fin 2) false).execWhile (fun _ _ => True) (initial (Fin 2) false)
      (twoProducers 0 1)).any (fun s => s.active = true ∧ s.logged.length = 1) = true := by decide
  obtain ⟨s, hs, hstate⟩ := exists_reachedBy_of_execWhile hrun
  rw [decide_eq_true_eq] at hstate
  exact ⟨s, hs, hstate.1, hstate.2, logs_everything hs hstate.1⟩

end SocketLib.Logger
