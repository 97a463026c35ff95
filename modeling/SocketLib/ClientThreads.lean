import SocketLib.ClientSocket
import SocketLib.ServerSocket

/-!
# The threads of a `ClientSocket`

The users of a client, the thread that `connect` detaches for the connect callback, and what
`readLoop` and `writeLoop` do on a thread that runs them. A callback has the channel, so it and the
users may call whatever is public in `Channel`. `close` changes neither the flag of the socket nor
the channel and is no step here.

Nothing but the connect callback is ever given a thread (`no_loop`), so what is queued on the
channel stays there unless a user calls `handleWriteQueue` itself (`never_sent`).
-/

namespace SocketLib.ClientThreads

open ClientSocket (Settings ConnectStatus)
open ServerSocket (Loop)

inductive Task (T : Type*)
  | unborn
  | finished
  | user (p : Channel.Point T)
  | connectNoDelay
  | connectLoop
  | connectCallback (p : Channel.Point T)
  -- readLoop and writeLoop
  | loopTest (loop : Loop)
  | loopCall (loop : Loop) (p : Channel.Point T)

structure State (T : Type*) where
  active : Bool
  channel : Option (Channel.Mem T)
  tasks : T → Task T

/-- What a step leaves to the caller or the kernel; `thread` is the one that `connect` starts if it
succeeds and the connect callback has a subscriber. -/
inductive Choice (T : Type*)
  | go
  | connect
  | setsockopt (succeeds : Bool)
  | connectStatus (status : ConnectStatus) (thread : T)
  | channel (choice : Channel.Choice T)

inductive Label (T : Type*)
  | thread (t : T) (choice : Choice T)
  | notifyStop

def bufferSize : ℕ := 512

variable {T : Type*}

/-- The call that a loop makes in each pass. -/
def call (T : Type*) : Loop → Channel.Point T
  | .read => .readTest bufferSize
  | .write => .writeTest

/-- Where a loop goes on after a step of its call. -/
def resume (loop : Loop) : Channel.Point T → Task T
  | .idle => .loopTest loop
  | p => .loopCall loop p

/-- The thread is inside a call on the channel. -/
def Task.inCall : Task T → Bool
  | .user .idle | .connectCallback .idle => false
  | .user _ | .connectCallback _ | .loopCall _ _ => true
  | _ => false

def Task.isUnborn : Task T → Bool
  | .unborn => true
  | _ => false

/-- The loop that a thread runs. -/
def Task.loop : Task T → Option Loop
  | .loopTest loop | .loopCall loop _ => some loop
  | _ => none

section Steps

variable [DecidableEq T]

def State.become (s : State T) (t : T) (task : Task T) : State T :=
  { s with tasks := Function.update s.tasks t task }

/-- A step of a call on the channel. There is none without a channel. -/
def State.serve (k : Settings) (s : State T) (t : T) (p : Channel.Point T)
    (choice : Channel.Choice T) (back : Channel.Point T → Task T) : Option (State T) :=
  s.channel.bind (fun c =>
    (Channel.act k.listenCallback t { c with socketActive := s.active } p choice).map (fun r =>
      ({ s with channel := some r.1 }).become t (back r.2)))

/-- The detached thread of the connect callback. -/
def State.startCallback (k : Settings) (s : State T) (thread : T) : State T :=
  if k.connectCallback then s.become thread (.connectCallback .idle) else s

/-- The end of a `connect` that succeeds. -/
def State.connected (k : Settings) (s : State T) (t thread : T) : State T :=
  (({ s with active := true, channel := some (Channel.initial T).mem }).startCallback k
    thread).become t (.user .idle)

variable [Fintype T]

/-- `connect` starts its thread anew. It destroys the channel of an earlier `connect`, which nobody
is to be using then. -/
def State.canConnect (k : Settings) (s : State T) (thread : T) : Bool :=
  (k.connectCallback → (s.tasks thread).isUnborn) ∧ ∀ u, (s.tasks u).inCall = false

def act (k : Settings) (s : State T) (t : T) : Task T → Choice T → Option (State T)
  | .user .idle, .connect => some (s.become t (if k.noDelay then .connectNoDelay else .connectLoop))
  | .connectNoDelay, .setsockopt succeeds =>
      some (s.become t (if succeeds then .connectLoop else .user .idle))
  | .connectLoop, .connectStatus .success thread =>
      if s.canConnect k thread then some (s.connected k t thread) else none
  | .connectLoop, .connectStatus .wouldBlock _ => some s
  | .connectLoop, .connectStatus _ _ => some (s.become t (.user .idle))
  | .user p, .channel choice => s.serve k t p choice .user
  | .connectCallback .idle, .go => some (s.become t .finished)
  | .connectCallback p, .channel choice => s.serve k t p choice .connectCallback
  | .loopTest loop, .go =>
      some (s.become t (if s.active then .loopCall loop (call T loop) else .finished))
  | .loopCall loop p, .channel choice => s.serve k t p choice (resume loop)
  | _, _ => none

/-! ### The system -/

def next (k : Settings) (s : State T) : Label T → Option (State T)
  | .thread t choice => act k s t (s.tasks t) choice
  | .notifyStop => some { s with active := false }

/-- The users of a client; the other threads have not been started. -/
def start (users : T → Bool) : State T where
  active := false
  channel := none
  tasks := fun t => if users t then .user .idle else .unborn

def system (k : Settings) (users : T → Bool) : TransitionSystem (State T) (Label T) :=
  ⟨start users, next k⟩

end Steps

section Runs

variable [DecidableEq T] {k : Settings} {users : T → Bool} {s s' : State T} {t u : T} {a : Label T}
  {choice : Choice T} {task : Task T}

theorem serve_eq_some {p : Channel.Point T} {choice : Channel.Choice T}
    {back : Channel.Point T → Task T} (h : s.serve k t p choice back = some s') :
    ∃ c m q, s.channel = some c ∧
      Channel.act k.listenCallback t { c with socketActive := s.active } p choice = some (m, q) ∧
      s' = ({ s with channel := some m }).become t (back q) := by
  obtain ⟨c, hc, h⟩ := Option.bind_eq_some_iff.mp h
  obtain ⟨r, hr, rfl⟩ := Option.map_eq_some_iff.mp h
  exact ⟨c, r.1, r.2, hc, hr, rfl⟩

@[simp] theorem connected_active (k : Settings) (s : State T) (t u : T) :
    (s.connected k t u).active = true := by
  rw [State.connected, State.startCallback]
  split <;> rfl

@[simp] theorem connected_channel (k : Settings) (s : State T) (t u : T) :
    (s.connected k t u).channel = some (Channel.initial T).mem := by
  rw [State.connected, State.startCallback]
  split <;> rfl

/-! ### What the threads run -/

def State.All (P : Task T → Prop) (s : State T) : Prop := ∀ t, P (s.tasks t)

section All

variable {P : Task T → Prop}

theorem State.All.become (h : s.All P) (t : T) (htask : P task) : (s.become t task).All P := by
  intro u
  by_cases hu : u = t
  · subst u
    simpa only [State.become, Function.update_self] using htask
  · simpa only [State.become, Function.update_of_ne hu] using h u

theorem State.All.connected (h : s.All P) (k : Settings) (t u : T) (hidle : P (.user .idle))
    (hcallback : P (.connectCallback .idle)) : (s.connected k t u).All P := by
  apply State.All.become _ t hidle
  rw [State.startCallback]
  split
  · exact State.All.become (fun v => h v) u hcallback
  · exact fun v => h v

end All

/-- The thread runs neither loop. -/
def Task.NoLoop (task : Task T) : Prop := task.loop = none

theorem noLoop_serve {p : Channel.Point T} {choice : Channel.Choice T}
    {back : Channel.Point T → Task T} (h : s.All Task.NoLoop) (hback : ∀ q, (back q).NoLoop)
    (hs : s.serve k t p choice back = some s') : s'.All Task.NoLoop := by
  obtain ⟨c, m, q, -, -, rfl⟩ := serve_eq_some hs
  exact State.All.become (s := { s with channel := some m }) h t (hback q)

/-- Outside `handleWriteQueue` and `sendMessage`. -/
def quiet : Channel.Point T → Bool
  | .idle | .queueTest _ | .queueEnqueue _ | .readTest _ | .readTryLock _ | .readRecv _
  | .readRecheck _ | .readEnqueue _ | .readListen | .readUnlock => true
  | _ => false

/-- A user or a callback that calls neither. -/
def Task.Quiet : Task T → Prop
  | .user p | .connectCallback p => quiet p
  | .loopTest _ | .loopCall _ _ => False
  | _ => True

/-- All that was ever queued is still in the queue. -/
structure Stored (m : Channel.Mem T) : Prop where
  writeThread : m.writeThread = none
  handed : m.handed = []
  queue : m.writeQueue = m.accepted

theorem act_stored {m m' : Channel.Mem T} {p p' : Channel.Point T} {choice : Channel.Choice T}
    {listening : Bool} (hchoice : choice ≠ .handleWriteQueue) (hp : quiet p) (h : Stored m) :
    Channel.act listening t m p choice = some (m', p') → Stored m' ∧ quiet p' := by
  fun_cases Channel.act listening t m p choice
  all_goals
    simp only [Option.some.injEq, Prod.mk.injEq, reduceCtorEq, false_implies, and_imp]
    try rintro rfl rfl
  case case6 _ hthread =>
    rw [h.writeThread] at hthread
    cases hthread
  case case8 msg =>
    refine ⟨⟨h.writeThread, h.handed, ?_⟩, rfl⟩
    rw [ProducerQueue.enqueue, h.queue]
  all_goals try split
  all_goals first
    | exact ⟨⟨h.writeThread, h.handed, h.queue⟩, rfl⟩
    | exact absurd rfl hchoice
    | cases hp

/-- Every thread is quiet, and the channel has handed nothing to `sendMessage`. -/
structure Idle (s : State T) : Prop where
  tasks : s.All Task.Quiet
  channel : ∀ c ∈ s.channel, Stored c

theorem Idle.serve {p : Channel.Point T} {choice : Channel.Choice T}
    {back : Channel.Point T → Task T} (h : Idle s) (hchoice : choice ≠ .handleWriteQueue)
    (hp : quiet p) (hback : ∀ q, quiet q → (back q).Quiet)
    (hs : s.serve k t p choice back = some s') : Idle s' := by
  obtain ⟨c, m, q, hc, hact, rfl⟩ := serve_eq_some hs
  have hstored : Stored { c with socketActive := s.active } :=
    ⟨(h.channel c hc).writeThread, (h.channel c hc).handed, (h.channel c hc).queue⟩
  obtain ⟨hm, hq⟩ := act_stored hchoice hp hstored hact
  refine ⟨State.All.become (s := { s with channel := some m }) h.tasks t (hback q hq), ?_⟩
  rintro c hc
  obtain rfl := Option.some.inj hc
  exact hm

variable [Fintype T]

theorem act_noLoop (h : s.All Task.NoLoop) :
    act k s t (s.tasks t) choice = some s' → s'.All Task.NoLoop := by
  have ht := h t
  revert ht
  generalize s.tasks t = task
  fun_cases act k s t task choice
  case case7 | case9 => exact fun _ => noLoop_serve h (fun _ => rfl)
  case case10 | case11 => exact fun ht => nomatch ht
  all_goals
    simp only [Option.some.injEq, reduceCtorEq, false_implies, implies_true]
    try rintro - rfl
  case case1 | case2 => exact h.become t (by split <;> rfl)
  case case3 => exact h.connected k t _ rfl rfl
  case case5 => exact h
  case case6 | case8 => exact h.become t rfl

/-- No thread is ever given `readLoop` or `writeLoop`. -/
theorem no_loop (h : (system k users).Reachable s) (t : T) : (s.tasks t).loop = none := by
  refine h.invariant (I := State.All Task.NoLoop) ?_ ?_ t
  · intro t
    simp only [system, start]
    split <;> rfl
  · intro s a s' _ hI _ hs
    cases a with
    | thread t choice => exact act_noLoop hI hs
    | notifyStop =>
        obtain rfl := Option.some.inj hs
        exact hI

/-! ### What becomes of the messages -/

/-- No user calls `handleWriteQueue`. -/
def LeftToLibrary (_ : State T) (a : Label T) : Prop :=
  ∀ t, a ≠ .thread t (.channel .handleWriteQueue)

theorem act_idle (h : Idle s) (hchoice : choice ≠ .channel .handleWriteQueue) :
    act k s t (s.tasks t) choice = some s' → Idle s' := by
  have ht := h.tasks t
  revert ht
  generalize s.tasks t = task
  fun_cases act k s t task choice
  case case7 p choice =>
    exact fun hp => h.serve (fun heq => hchoice (congrArg _ heq)) hp (fun _ hq => hq)
  case case9 p choice _ =>
    exact fun hp => h.serve (fun heq => hchoice (congrArg _ heq)) hp (fun _ hq => hq)
  case case10 | case11 => exact fun ht => ht.elim
  all_goals
    simp only [Option.some.injEq, reduceCtorEq, false_implies, implies_true]
    try rintro - rfl
  case case1 | case2 => exact ⟨h.tasks.become t (by split <;> trivial), h.channel⟩
  case case3 =>
    refine ⟨h.tasks.connected k t _ rfl rfl, fun c hc => ?_⟩
    rw [connected_channel] at hc
    obtain rfl := Option.some.inj hc
    exact ⟨rfl, rfl, rfl⟩
  case case5 => exact h
  case case6 => exact ⟨h.tasks.become t rfl, h.channel⟩
  case case8 => exact ⟨h.tasks.become t trivial, h.channel⟩

/-- Whatever was queued on the channel of a client has not been sent, and never will be. -/
theorem never_sent (h : (system k users).ReachedBy LeftToLibrary s) :
    ∀ c ∈ s.channel, c.handed = [] ∧ ∀ t, c.writeQueue t = c.accepted t := by
  have hidle : Idle s := by
    apply h.invariant (I := Idle)
    · refine ⟨fun t => ?_, nofun⟩
      simp only [system, start]
      split
      · exact rfl
      · trivial
    · intro s a s' _ hI hleft hs
      cases a with
      | thread t choice => exact act_idle hI (fun heq => hleft t (congrArg _ heq)) hs
      | notifyStop =>
          obtain rfl := Option.some.inj hs
          exact ⟨hI.tasks, hI.channel⟩
  exact fun c hc => ⟨(hidle.channel c hc).handed, fun t => congrFun (hidle.channel c hc).queue t⟩

/-! ### Connections -/

/-- The step in which a `connect` succeeds. -/
def Label.connects : Label T → Bool
  | .thread _ (.connectStatus .success _) => true
  | _ => false

theorem act_success (hs : act k s t task (.connectStatus .success u) = some s') :
    s' = s.connected k t u := by
  cases task with
  | connectLoop =>
      rw [act] at hs
      split at hs
      · exact (Option.some.inj hs).symm
      · cases hs
  | user p | connectCallback p => cases p <;> cases hs
  | _ => cases hs

/-- It leaves an active socket with an active channel. -/
theorem next_of_connects (ha : a.connects) (hs : next k s a = some s') :
    s'.active = true ∧ s'.channel = some (Channel.initial T).mem := by
  cases a with
  | notifyStop => cases ha
  | thread t choice =>
      obtain ⟨u, rfl⟩ : ∃ u, choice = .connectStatus .success u := by
        cases choice with
        | connectStatus status u =>
            cases status with
            | success => exact ⟨u, rfl⟩
            | _ => cases ha
        | _ => cases ha
      obtain rfl := act_success hs
      exact ⟨connected_active .., connected_channel ..⟩

/-- Without it there is no channel. -/
theorem next_of_not_connects (ha : a.connects = false) (hs : next k s a = some s')
    (h : s.channel = none) : s'.channel = none := by
  have hserve : ∀ {t p choice back}, s.serve k t p choice back = some s' →
      s'.channel = none := by
    intro t p choice back hs
    obtain ⟨c, -, -, hc, -, -⟩ := serve_eq_some hs
    rw [h] at hc
    cases hc
  cases a with
  | notifyStop =>
      obtain rfl := Option.some.inj hs
      exact h
  | thread t choice =>
      rw [next] at hs
      generalize s.tasks t = task at hs
      revert hs ha
      fun_cases act k s t task choice
      case case3 => exact nofun
      case case7 | case9 | case11 => exact fun _ => hserve
      all_goals
        simp only [Option.some.injEq, reduceCtorEq, false_implies, implies_true]
        try rintro - rfl
      all_goals exact h

end Runs
end SocketLib.ClientThreads
