import SocketLib.ChannelLocks

/-!
# Sequences of calls on a `ClientSocket`

One call at a time: `connect`, `close`, `notifyStop`, the destructor, and the calls on the channel
(`write` is its `queueWrite`), whose steps are those of `Channel` with a single thread. The kernel
decides what `setsockopt` and `::connect` return. The thread that `connect` detaches for the
connect callback runs at any later moment.

The state keeps the calls to the kernel and to the connect callback made so far, each with the
descriptor number it passes. `close` binds a reference to the channel before it invokes the
callback; an invocation without a channel is recorded as such, any other use of a channel that does
not exist ends the run.
-/

namespace SocketLib.ClientSocket

/-- What `::connect` returns: zero, or an error number. -/
inductive ConnectStatus
  | success
  | wouldBlock
  | inProgress
  | already
  | isConnected
  | error
  deriving DecidableEq

inductive Action
  | setsockopt (fd : ℤ)
  | connect (fd : ℤ) (status : ConnectStatus)
  | shutdown (fd : ℤ)
  | close (fd : ℤ)
  | recv (fd : ℤ)
  | send (fd : ℤ)
  | invoke (hasChannel connected : Bool)
  deriving DecidableEq

/-- The settings of a socket: `noDelay`, and whether its two callbacks have subscribers. -/
structure Settings where
  noDelay : Bool
  listenCallback : Bool
  connectCallback : Bool

structure OwnedChannel where
  clientDescriptor : ℤ
  mem : Channel.Mem Unit

structure Mem where
  socketDescriptor : ℤ
  active : Bool
  channel : Option OwnedChannel
  /-- Detached threads that have not run yet. -/
  connectThreads : ℕ
  trace : List Action

inductive Point
  | connectNoDelay
  | connectLoop
  | channel (p : Channel.Point Unit)
  | destroyed

/-- Between two calls. -/
@[match_pattern] abbrev Point.idle : Point := .channel .idle

inductive Label
  | connect
  | setsockopt (succeeds : Bool)
  | connectStatus (status : ConnectStatus)
  | close
  | notifyStop
  | channel (choice : Channel.Choice Unit)
  | connectThread
  | destroy

def Mem.does (m : Mem) (a : Action) : Mem := { m with trace := m.trace ++ [a] }

/-- The channel with the flag of the socket it refers to. -/
def Mem.channelMem (m : Mem) (c : OwnedChannel) : Channel.Mem Unit :=
  { c.mem with socketActive := m.active }

/-- The kernel call of a step of the channel. -/
def channelAction (fd : ℤ) : Channel.Point Unit → Option Action
  | .readRecv _ => some (.recv fd)
  | .sendCall _ _ => some (.send fd)
  | _ => none

def Mem.invokeConnect (k : Settings) (connected : Bool) (m : Mem) : Mem :=
  if k.connectCallback then m.does (.invoke m.channel.isSome connected) else m

/-- The end of a `connect` that succeeds. -/
def Mem.connected (k : Settings) (m : Mem) : Mem :=
  { m with
    active := true
    channel := some ⟨m.socketDescriptor, (Channel.initial Unit).mem⟩
    connectThreads := m.connectThreads + if k.connectCallback then 1 else 0 }

def Mem.closeDescriptor (m : Mem) : Mem :=
  if m.socketDescriptor ≠ -1 then
    { (m.does (.shutdown m.socketDescriptor)).does (.close m.socketDescriptor) with
      socketDescriptor := -1 }
  else m

def Mem.close (k : Settings) (m : Mem) : Mem := m.closeDescriptor.invokeConnect k false

/-- A step of a call on the channel. -/
def Mem.serve (k : Settings) (m : Mem) (p : Channel.Point Unit) (choice : Channel.Choice Unit) :
    Option (Mem × Point) :=
  m.channel.bind (fun c =>
    (Channel.act k.listenCallback () (m.channelMem c) p choice).map (fun r =>
      ({ m with
          channel := some { c with mem := r.1 }
          trace := m.trace ++ (channelAction c.clientDescriptor p).toList }, .channel r.2)))

def act (k : Settings) (m : Mem) : Point → Label → Option (Mem × Point)
  | .idle, .connect => some (m, if k.noDelay then .connectNoDelay else .connectLoop)
  | .connectNoDelay, .setsockopt succeeds =>
      some (m.does (.setsockopt m.socketDescriptor), if succeeds then .connectLoop else .idle)
  | .connectLoop, .connectStatus .success =>
      some ((m.does (.connect m.socketDescriptor .success)).connected k, .idle)
  | .connectLoop, .connectStatus .wouldBlock =>
      some (m.does (.connect m.socketDescriptor .wouldBlock), .connectLoop)
  | .connectLoop, .connectStatus status =>
      some ((m.does (.connect m.socketDescriptor status)).does (.close m.socketDescriptor), .idle)
  | .idle, .close => some (m.close k, .idle)
  | .idle, .notifyStop => some ({ m with active := false }, .idle)
  | .channel p, .channel choice => m.serve k p choice
  | .idle, .destroy => some ({ m.close k with channel := none }, .destroyed)
  | _, _ => none

/-! ### The system -/

structure State where
  mem : Mem
  point : Point

def next (k : Settings) (s : State) : Label → Option State
  | .connectThread =>
      if 0 < s.mem.connectThreads then
        some { s with
          mem := { s.mem.invokeConnect k true with connectThreads := s.mem.connectThreads - 1 } }
      else none
  | a => (act k s.mem s.point a).map (fun r => ⟨r.1, r.2⟩)

/-- The socket as its constructor leaves it, with the number `socket` has returned. -/
def initial (fd : ℤ) : State where
  mem :=
    { socketDescriptor := fd
      active := false
      channel := none
      connectThreads := 0
      trace := [] }
  point := .idle

def system (k : Settings) (fd : ℤ) : TransitionSystem State Label := ⟨initial fd, next k⟩

variable {k : Settings} {fd : ℤ} {s s' : State} {m m' : Mem} {p p' : Point} {a : Label}

/-- A step is one of the call in progress, or the connect callback of a detached thread. -/
theorem next_cases (h : next k s a = some s') :
    (∃ m' p', act k s.mem s.point a = some (m', p') ∧ s' = ⟨m', p'⟩) ∨
      a = .connectThread ∧ s' = { s with
        mem := { s.mem.invokeConnect k true with
          connectThreads := s.mem.connectThreads - 1 } } := by
  cases a with
  | connectThread =>
      right
      rw [next] at h
      split at h
      · exact ⟨rfl, (Option.some.inj h).symm⟩
      · cases h
  | _ =>
      left
      obtain ⟨r, hr, rfl⟩ := Option.map_eq_some_iff.mp h
      exact ⟨r.1, r.2, hr, rfl⟩

/-! ### The owned channel -/

/-- Where the call in progress stands on the channel. -/
def Point.onChannel : Point → Channel.Point Unit
  | .channel p => p
  | .connectNoDelay | .connectLoop | .destroyed => .idle

@[simp] theorem Mem.does_trace (m : Mem) (a : Action) : (m.does a).trace = m.trace ++ [a] := rfl

@[simp] theorem Mem.does_socketDescriptor (m : Mem) (a : Action) :
    (m.does a).socketDescriptor = m.socketDescriptor := rfl

@[simp] theorem Mem.does_channel (m : Mem) (a : Action) : (m.does a).channel = m.channel := rfl

section Close

variable (k) (connected : Bool) (m)

/-- Invoking the connect callback only shows in the trace. -/
@[simp] theorem Mem.invokeConnect_socketDescriptor :
    (m.invokeConnect k connected).socketDescriptor = m.socketDescriptor := by
  rw [Mem.invokeConnect]
  split <;> rfl

@[simp] theorem Mem.invokeConnect_channel :
    (m.invokeConnect k connected).channel = m.channel := by
  rw [Mem.invokeConnect]
  split <;> rfl

@[simp] theorem Mem.invokeConnect_channelMem :
    (m.invokeConnect k connected).channelMem = m.channelMem := by
  rw [Mem.invokeConnect]
  split <;> rfl

theorem Mem.closeDescriptor_of_eq (h : m.socketDescriptor = -1) : m.closeDescriptor = m :=
  if_neg (not_not.mpr h)

theorem Mem.closeDescriptor_of_ne (h : m.socketDescriptor ≠ -1) :
    m.closeDescriptor =
      { (m.does (.shutdown m.socketDescriptor)).does (.close m.socketDescriptor) with
        socketDescriptor := -1 } :=
  if_pos h

@[simp] theorem Mem.closeDescriptor_socketDescriptor :
    m.closeDescriptor.socketDescriptor = -1 := by
  rw [Mem.closeDescriptor]
  split
  case isTrue => rfl
  case isFalse h => exact not_not.mp h

@[simp] theorem Mem.close_channel : (m.close k).channel = m.channel := by
  rw [Mem.close, Mem.invokeConnect_channel, Mem.closeDescriptor]
  split <;> rfl

@[simp] theorem Mem.close_channelMem : (m.close k).channelMem = m.channelMem := by
  rw [Mem.close, Mem.invokeConnect_channelMem, Mem.closeDescriptor]
  split <;> rfl

end Close

/-- The channel that a socket owns and the call in progress are a run of the channel. -/
def OnChannel (k : Settings) (m : Mem) (p : Point) : Prop :=
  ∀ c ∈ m.channel,
    (Channel.system Unit k.listenCallback).Reachable ⟨m.channelMem c, fun _ => p.onChannel⟩

/-- A step of a call on the channel is one of the channel, with the flag of the socket. -/
theorem Mem.serve_eq_some {q : Channel.Point Unit} {choice : Channel.Choice Unit}
    (h : m.serve k q choice = some (m', p')) :
    ∃ c cm q', m.channel = some c ∧
      Channel.act k.listenCallback () (m.channelMem c) q choice = some (cm, q') ∧
      m' = { m with
        channel := some { c with mem := cm }
        trace := m.trace ++ (channelAction c.clientDescriptor q).toList } ∧
      p' = .channel q' := by
  obtain ⟨c, hc, h⟩ := Option.bind_eq_some_iff.mp h
  obtain ⟨r, hr, h⟩ := Option.map_eq_some_iff.mp h
  obtain ⟨rfl, rfl⟩ := Prod.mk.inj h
  exact ⟨c, r.1, r.2, hc, hr, rfl, rfl⟩

theorem Mem.channelMem_served {c : OwnedChannel} {q q' : Channel.Point Unit} {cm : Channel.Mem Unit}
    {choice : Channel.Choice Unit}
    (h : Channel.act k.listenCallback () (m.channelMem c) q choice = some (cm, q')) :
    { cm with socketActive := m.active } = cm := by
  rw [show m.active = cm.socketActive from (Channel.act_active h).2.symm]

theorem act_channel (m : Mem) (q : Channel.Point Unit) (choice : Channel.Choice Unit) :
    act k m (.channel q) (.channel choice) = m.serve k q choice := by
  cases q <;> rfl

theorem next_channel (m : Mem) (q : Channel.Point Unit) (choice : Channel.Choice Unit) :
    (system k fd).next ⟨m, .channel q⟩ (.channel choice) =
      (m.serve k q choice).map (fun r => ⟨r.1, r.2⟩) := by
  rw [← act_channel]
  rfl

theorem act_onChannel : act k m p a = some (m', p') → OnChannel k m p → OnChannel k m' p' := by
  fun_cases act k m p a
  case case3 =>
    simp only [Option.some.injEq, Prod.mk.injEq, and_imp]
    rintro rfl rfl - c hc
    obtain rfl := Option.some.inj hc
    exact .start
  case case7 =>
    simp only [Option.some.injEq, Prod.mk.injEq, and_imp]
    rintro rfl rfl hon c hc
    exact (hon c hc).step (a := .notifyStop) trivial rfl
  case case8 q choice =>
    intro h hon c' hc'
    obtain ⟨c, cm, q', hc, hact, rfl, rfl⟩ := Mem.serve_eq_some h
    obtain rfl := Option.some.inj hc'
    refine (hon c hc).step (a := .thread () choice) trivial ?_
    change (Channel.act _ () (m.channelMem c) q choice).map _ = _
    rw [hact]
    simp only [Option.map_some, Point.onChannel, Mem.channelMem, Mem.channelMem_served hact]
    exact congrArg (fun points => some (Channel.State.mk cm points))
      (funext (fun _ => Function.update_self ..))
  case case9 =>
    simp only [Option.some.injEq, Prod.mk.injEq, and_imp]
    rintro rfl rfl - c hc
    cases hc
  all_goals
    simp only [Option.some.injEq, Prod.mk.injEq, reduceCtorEq, false_implies, and_imp]
    try rintro rfl rfl
  case case6 =>
    intro hon c hc
    rw [Mem.close_channel] at hc
    rw [Mem.close_channelMem]
    exact hon c hc
  all_goals try split
  all_goals exact id

/-- Whatever happens to the socket, its channel goes through a run of `Channel`. -/
theorem onChannel_of_reachable (h : (system k fd).Reachable s) : OnChannel k s.mem s.point := by
  apply h.invariant (I := fun s => OnChannel k s.mem s.point)
  · exact nofun
  · intro s a s' _ hon _ hs
    obtain ⟨m', p', hact, rfl⟩ | ⟨rfl, rfl⟩ := next_cases hs
    · exact act_onChannel hact hon
    · intro c hc
      rw [Mem.invokeConnect_channel] at hc
      change (Channel.system Unit k.listenCallback).Reachable
        ⟨(s.mem.invokeConnect k true).channelMem c, fun _ => s.point.onChannel⟩
      rw [Mem.invokeConnect_channelMem]
      exact hon c hc

end SocketLib.ClientSocket
