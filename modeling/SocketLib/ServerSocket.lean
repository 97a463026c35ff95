import SocketLib.TransitionSystem
import Mathlib.Data.Fintype.Basic
import Mathlib.Data.List.Perm.Basic

/-!
# A bound `ServerSocket` as a transition system

The listen thread (`connectionListenLoop`, `threadLoop`, `onConnectedClient`), the read and write
workers, the detached thread that runs `connectCallback` for a new client, and any number of other
threads that call `closeClient` or delete the server, step by step over the map `clientDescriptors`,
the channels and the descriptor table of the kernel.

`clientDescriptorsMutex` is a correct reader-writer lock here: a thread holds it between the program
points that take and release it (`Point.holdsExclusive`, `Point.holdsShared`), and a thread that
asks for it goes on only when it is free for it (`State.admits`). `threadLoop` and the destructor
walk the map without the lock. Their iterator and the reference they read through it dangle once
another thread has erased the entry; what they read then is arbitrary, so it comes with the label.

A call that a callback makes is a step of another thread, which the callback waits for or not. The
descriptor of the listening socket and those of the rest of the process are `foreign`.
-/

namespace SocketLib.ServerSocket

abbrev Fd := ℕ

/-- The channel, and the connection, of the client accepted after this many others. -/
abbrev ChannelId := ℕ

/-- An entry of `clientDescriptors`: the key and the channel its value points to. -/
abbrev Entry := Fd × ChannelId

/-- What an open descriptor number refers to. -/
inductive Holder
  | connection (c : ChannelId)
  | foreign
  deriving DecidableEq

/-- The callbacks a channel's subscribers get. -/
inductive Event
  | connect (connected : Bool)
  | listen
  deriving DecidableEq

/-- The thread that `onConnectedClient` starts and detaches. -/
inductive ConnectThread
  | unborn
  | spawned
  | running
  | returned
  deriving DecidableEq

/-- A channel, followed by what has happened to it: the callbacks started, in order, whether one
started after the channel was destroyed, how many calls of `closeClient` took it out of the map, and
how often `shutdown` and `close` hit the connection. -/
structure Channel where
  clientDescriptor : Fd
  active : Bool
  readLock : Bool
  destroyed : Bool
  connectThread : ConnectThread
  events : List Event
  startedDestroyed : Bool
  removals : ℕ
  shutdowns : ℕ
  closes : ℕ

inductive Lifetime
  | alive
  | destructing
  | destroyed
  deriving DecidableEq

structure Mem where
  active : Bool
  lifetime : Lifetime
  clients : List Entry
  owner : Fd → Option Holder
  accepted : ℕ
  channel : ChannelId → Channel

/-- Who called `closeClient`; a sweep goes on from its iterator. -/
inductive Caller
  | user
  | threadLoop (it : Option Entry)
  | destructor (it : Option Entry)
  deriving DecidableEq

/-- The rest of `closeClient` once the channel is out of the map. -/
inductive Closing
  | unlock
  | invoke
  | callback
  | shutdown
  | close
  | destroy
  deriving DecidableEq

inductive Loop
  | read
  | write
  deriving DecidableEq

inductive Received
  | data
  | wouldBlock
  | ended
  deriving DecidableEq

inductive Point
  | idle
  | finished
  -- connectionListenLoop and threadLoop
  | listenTest
  | sweepBegin
  | sweepNext (it : Option Entry)
  | sweepTest (entry : Entry) (it : Option Entry)
  | sweepSelect (entry : Entry) (it : Option Entry)
  | accept
  | acceptTest (result : Option ChannelId)
  -- onConnectedClient
  | connectAcquire (c : ChannelId)
  | connectEmplace (c : ChannelId)
  | connectUnlock (c : ChannelId)
  | connectSpawn (c : ChannelId)
  -- closeClient
  | closeAcquire (fd : Fd) (caller : Caller)
  | closeFind (fd : Fd) (caller : Caller)
  | closeThrow (caller : Caller)
  | closing (phase : Closing) (c : ChannelId) (fd : Fd) (caller : Caller)
  -- the destructor
  | destroyNotify
  | destroyBegin
  | destroyNext (it : Option Entry)
  | destroyJoin
  -- readLoop and writeLoop
  | loopTest (loop : Loop)
  | loopAcquire (loop : Loop)
  | loopScan (loop : Loop) (rest : List Entry)
  | readEntry (c : ChannelId) (rest : List Entry)
  | readTryLock (c : ChannelId) (rest : List Entry)
  | readRecv (c : ChannelId) (rest : List Entry)
  | readRecheck (received : Received) (c : ChannelId) (rest : List Entry)
  | readInvoke (c : ChannelId) (rest : List Entry)
  | readCallback (c : ChannelId) (rest : List Entry)
  | readUnlock (c : ChannelId) (rest : List Entry)
  | writeQueue (c : ChannelId) (rest : List Entry)
  deriving DecidableEq

/-- What a step leaves to the caller, the kernel or the memory it reads; `go` for nothing. -/
inductive Choice
  | go
  | callCloseClient (fd : Fd)
  | callDestructor
  | read (entry : Entry) (it : Option Entry)
  | test (active : Bool)
  | select (fd : Fd)
  | accept (result : Option Fd)
  | emplace (clients : List Entry)
  | recv (received : Received)
  | handle (failed : Bool)

def Point.holdsExclusive : Point → Bool
  | .connectEmplace _ | .connectUnlock _ | .closeFind _ _ | .closing .unlock _ _ _ => true
  | _ => false

def Point.holdsShared : Point → Bool
  | .loopScan _ _ | .readEntry _ _ | .readTryLock _ _ | .readRecv _ _ | .readRecheck _ _ _
  | .readInvoke _ _ | .readCallback _ _ | .readUnlock _ _ | .writeQueue _ _ => true
  | _ => false

def Caller.resume : Caller → Point
  | .user => .idle
  | .threadLoop it => .sweepNext it
  | .destructor it => .destroyNext it

/-! ### The shared state -/

/-- The channel as `accept4` and the constructor leave it. -/
def Channel.initial (fd : Fd) : Channel where
  clientDescriptor := fd
  active := true
  readLock := false
  destroyed := false
  connectThread := .unborn
  events := []
  startedDestroyed := false
  removals := 0
  shutdowns := 0
  closes := 0

namespace Mem

def modify (m : Mem) (c : ChannelId) (f : Channel → Channel) : Mem :=
  { m with channel := Function.update m.channel c (f (m.channel c)) }

/-- `Channel::isActive`. -/
def isActive (m : Mem) (c : ChannelId) : Bool := (m.channel c).active && m.active

/-- `clientDescriptors.find`. -/
def find (m : Mem) (fd : Fd) : Option Entry := m.clients.find? (fun e => e.1 = fd)

/-- The entry after this one in the order of iteration. -/
def successor (e : Entry) : List Entry → Option Entry
  | [] => none
  | x :: rest => if x = e then rest.head? else successor e rest

def accept (m : Mem) (fd : Fd) : Mem :=
  { m with
    owner := Function.update m.owner fd (some (.connection m.accepted))
    channel := Function.update m.channel m.accepted (Channel.initial fd)
    accepted := m.accepted + 1 }

/-- A callback of the channel starts. -/
def start (m : Mem) (c : ChannelId) (event : Event) : Mem :=
  m.modify c fun ch =>
    { ch with
      events := ch.events ++ [event]
      startedDestroyed := ch.startedDestroyed || ch.destroyed }

def erase (m : Mem) (e : Entry) : Mem :=
  { m with clients := m.clients.erase e }.modify e.2
    fun ch => { ch with removals := ch.removals + 1 }

/-- `shutdown` acts on whatever the number refers to. -/
def shutdown (m : Mem) (fd : Fd) : Mem :=
  match m.owner fd with
  | some (.connection c) => m.modify c fun ch => { ch with shutdowns := ch.shutdowns + 1 }
  | _ => m

def close (m : Mem) (fd : Fd) : Mem :=
  match m.owner fd with
  | some (.connection c) =>
      { m with owner := Function.update m.owner fd none }.modify c
        fun ch => { ch with closes := ch.closes + 1 }
  | _ => { m with owner := Function.update m.owner fd none }

def queueShutdown (m : Mem) (c : ChannelId) : Mem := m.modify c fun ch => { ch with active := false }

def setReadLock (m : Mem) (c : ChannelId) (locked : Bool) : Mem :=
  m.modify c fun ch => { ch with readLock := locked }

/-- The end of `~Channel`. -/
def destroy (m : Mem) (c : ChannelId) : Mem :=
  m.modify c fun ch => { ch with active := false, destroyed := true }

/-- The end of `~ServerSocket`: the map goes, and the channels still in it. -/
def destroyMembers (m : Mem) : Mem :=
  { m with
    lifetime := .destroyed
    channel := fun c =>
      if c ∈ m.clients.map Prod.snd then { m.channel c with active := false, destroyed := true }
      else m.channel c }

def setConnectThread (m : Mem) (c : ChannelId) (thread : ConnectThread) : Mem :=
  m.modify c fun ch => { ch with connectThread := thread }

end Mem

/-! ### The steps of one thread -/

/-- The next step of a thread. Whether the lock admits it is up to `State.admits`. -/
def act (registered : Bool) (m : Mem) : Point → Choice → Option (Mem × Point)
  | .idle, .callCloseClient fd =>
      if m.lifetime = .destroyed then none else some (m, .closeAcquire fd .user)
  | .idle, .callDestructor =>
      if m.lifetime = .alive then some ({ m with lifetime := .destructing }, .destroyNotify) else none
  -- connectionListenLoop and threadLoop
  | .listenTest, .go => some (m, if m.active then .sweepBegin else .finished)
  | .sweepBegin, .go => some (m, .sweepNext m.clients.head?)
  | .sweepNext none, .go => some (m, .accept)
  | .sweepNext (some e), .read entry it =>
      if e ∈ m.clients → entry = e ∧ it = Mem.successor e m.clients then
        some (m, .sweepTest entry it)
      else none
  | .sweepTest entry it, .test active =>
      if entry ∈ m.clients → active = m.isActive entry.2 then
        some (m, if active then .sweepNext it else .sweepSelect entry it)
      else none
  | .sweepSelect entry it, .select fd =>
      if entry ∈ m.clients → fd = (m.channel entry.2).clientDescriptor then
        some (m, .closeAcquire fd (.threadLoop it))
      else none
  | .accept, .accept none => some (m, .acceptTest none)
  | .accept, .accept (some fd) =>
      if m.owner fd = none then some (m.accept fd, .acceptTest (some m.accepted)) else none
  | .acceptTest none, .go => some (m, if m.active then .listenTest else .finished)
  | .acceptTest (some c), .go => some (m, if m.active then .connectAcquire c else .finished)
  -- onConnectedClient
  | .connectAcquire c, .go => some (m, .connectEmplace c)
  | .connectEmplace c, .emplace clients =>
      match m.find (m.channel c).clientDescriptor with
      | some e => if clients = m.clients then some (m.destroy c, .connectUnlock e.2) else none
      | none =>
          if clients.Perm (((m.channel c).clientDescriptor, c) :: m.clients) then
            some ({ m with clients := clients }, .connectUnlock c)
          else none
  | .connectUnlock c, .go => some (m, if registered then .connectSpawn c else .listenTest)
  | .connectSpawn c, .go => some (m.setConnectThread c .spawned, .listenTest)
  -- closeClient
  | .closeAcquire fd caller, .go => some (m, .closeFind fd caller)
  | .closeFind fd caller, .go =>
      match m.find fd with
      | some e => some (m.erase e, .closing .unlock e.2 fd caller)
      | none => some (m, .closeThrow caller)
  | .closeThrow .user, .go => some (m, .idle)
  | .closing .unlock c fd caller, .go => some (m, .closing .invoke c fd caller)
  | .closing .invoke c fd caller, .go =>
      if registered then some (m.start c (.connect false), .closing .callback c fd caller)
      else some (m, .closing .shutdown c fd caller)
  | .closing .callback c fd caller, .go => some (m, .closing .shutdown c fd caller)
  | .closing .shutdown c fd caller, .go => some (m.shutdown fd, .closing .close c fd caller)
  | .closing .close c fd caller, .go => some (m.close fd, .closing .destroy c fd caller)
  | .closing .destroy c _ caller, .go =>
      if (m.channel c).readLock then none else some (m.destroy c, caller.resume)
  -- the destructor
  | .destroyNotify, .go => some ({ m with active := false }, .destroyBegin)
  | .destroyBegin, .go => some (m, .destroyNext m.clients.head?)
  | .destroyNext none, .go => some (m, .destroyJoin)
  | .destroyNext (some e), .read entry it =>
      if e ∈ m.clients → entry = e ∧ it = Mem.successor e m.clients then
        some (m, .closeAcquire entry.1 (.destructor it))
      else none
  | .destroyJoin, .go => some (m.destroyMembers, .finished)
  -- readLoop and writeLoop
  | .loopTest loop, .go => some (m, if m.active then .loopAcquire loop else .finished)
  | .loopAcquire loop, .go => some (m, .loopScan loop m.clients)
  | .loopScan loop [], .go => some (m, .loopTest loop)
  | .loopScan .read (e :: rest), .go =>
      some (m, if m.isActive e.2 then .readEntry e.2 rest else .loopScan .read rest)
  | .loopScan .write (e :: rest), .go =>
      some (m, if m.isActive e.2 then .writeQueue e.2 rest else .loopScan .write rest)
  | .readEntry c rest, .go =>
      some (m, if (m.channel c).active then .readTryLock c rest else .loopScan .read rest)
  | .readTryLock c rest, .go =>
      if (m.channel c).readLock then some (m, .loopScan .read rest)
      else some (m.setReadLock c true, .readRecv c rest)
  | .readRecv c rest, .recv received => some (m, .readRecheck received c rest)
  | .readRecheck received c rest, .go =>
      if m.isActive c then
        match received with
        | .data => some (m, .readInvoke c rest)
        | .wouldBlock => some (m, .readUnlock c rest)
        | .ended => some (m.queueShutdown c, .readUnlock c rest)
      else some (m, .readUnlock c rest)
  | .readInvoke c rest, .go => some (m.start c .listen, .readCallback c rest)
  | .readCallback c rest, .go => some (m, .readUnlock c rest)
  | .readUnlock c rest, .go => some (m.setReadLock c false, .loopScan .read rest)
  | .writeQueue c rest, .handle failed =>
      some (if failed then m.queueShutdown c else m, .loopScan .write rest)
  | _, _ => none

/-! ### The system -/

inductive Role
  | listenThread
  | worker (loop : Loop)
  | user

def Role.point : Role → Point
  | .listenThread => .listenTest
  | .worker loop => .loopTest loop
  | .user => .idle

structure State (T : Type*) where
  mem : Mem
  points : T → Point

/-- One step of a run: a thread takes its next step, the detached thread of a channel starts its
callback or returns from it, somebody calls `notifyStop`, or the rest of the process opens or closes
a descriptor. -/
inductive Label (T : Type*)
  | thread (t : T) (choice : Choice)
  | connectStart (c : ChannelId)
  | connectReturn (c : ChannelId)
  | notifyStop
  | foreignOpen (fd : Fd)
  | foreignClose (fd : Fd)

section System

variable {T : Type*} [DecidableEq T] [Fintype T]

/-- A thread that asks for the lock is let in when the lock is free for it. The destructor waits for
the listen thread and the workers; nobody else is to be inside the server then. -/
def State.admits (s : State T) (t : T) : Prop :=
  match s.points t with
  | .connectAcquire _ | .closeAcquire _ _ =>
      ∀ u, (s.points u).holdsExclusive = false ∧ (s.points u).holdsShared = false
  | .loopAcquire _ => ∀ u, (s.points u).holdsExclusive = false
  | .destroyJoin => ∀ u, u ≠ t → s.points u = .idle ∨ s.points u = .finished
  | _ => True

instance (s : State T) (t : T) : Decidable (s.admits t) := by
  unfold State.admits
  split <;> infer_instance

def next (registered : Bool) (s : State T) : Label T → Option (State T)
  | .thread t choice =>
      if s.admits t then
        (act registered s.mem (s.points t) choice).map
          (fun r => ⟨r.1, Function.update s.points t r.2⟩)
      else none
  | .connectStart c =>
      if (s.mem.channel c).connectThread = .spawned then
        some { s with mem := (s.mem.start c (.connect true)).setConnectThread c .running }
      else none
  | .connectReturn c =>
      if (s.mem.channel c).connectThread = .running then
        some { s with mem := s.mem.setConnectThread c .returned }
      else none
  | .notifyStop => some { s with mem := { s.mem with active := false } }
  | .foreignOpen fd =>
      if s.mem.owner fd = none then
        some { s with
          mem := { s.mem with owner := Function.update s.mem.owner fd (some .foreign) } }
      else none
  | .foreignClose fd =>
      if s.mem.owner fd = some .foreign then
        some { s with mem := { s.mem with owner := Function.update s.mem.owner fd none } }
      else none

/-- The server as `bindAndListen` leaves it. -/
def Mem.initial : Mem where
  active := true
  lifetime := .alive
  clients := []
  owner := fun _ => none
  accepted := 0
  channel := fun _ => Channel.initial 0

/-- The threads of the server, with those of its users, and with or without a `connectCallback`. -/
def system (role : T → Role) (registered : Bool) : TransitionSystem (State T) (Label T) :=
  ⟨⟨Mem.initial, fun t => (role t).point⟩, next registered⟩

theorem next_thread {registered : Bool} {s s' : State T} {t : T} {choice : Choice}
    (h : next registered s (.thread t choice) = some s') :
    s.admits t ∧ ∃ m' p', act registered s.mem (s.points t) choice = some (m', p') ∧
      s' = ⟨m', Function.update s.points t p'⟩ := by
  simp only [next] at h
  split_ifs at h with hadmits
  obtain ⟨r, hr, rfl⟩ := Option.map_eq_some_iff.mp h
  exact ⟨hadmits, r.1, r.2, hr, rfl⟩

/-- What happens outside the threads of the model: to the detached thread of a channel, to the flag
of the server, to the descriptors of the rest of the process. -/
inductive Outside (m : Mem) : Mem → Prop
  | connectStart (c : ChannelId) (h : (m.channel c).connectThread = .spawned) :
      Outside m ((m.start c (.connect true)).setConnectThread c .running)
  | connectReturn (c : ChannelId) (h : (m.channel c).connectThread = .running) :
      Outside m (m.setConnectThread c .returned)
  | notifyStop : Outside m { m with active := false }
  | foreignOpen (fd : Fd) (h : m.owner fd = none) :
      Outside m { m with owner := Function.update m.owner fd (some .foreign) }
  | foreignClose (fd : Fd) (h : m.owner fd = some .foreign) :
      Outside m { m with owner := Function.update m.owner fd none }

theorem next_cases {registered : Bool} {s s' : State T} {a : Label T}
    (h : next registered s a = some s') :
    (∃ t choice m' p', a = .thread t choice ∧ s.admits t ∧
        act registered s.mem (s.points t) choice = some (m', p') ∧
        s' = ⟨m', Function.update s.points t p'⟩) ∨
      ((∀ t choice, a ≠ .thread t choice) ∧ Outside s.mem s'.mem ∧ s'.points = s.points) := by
  cases a with
  | thread t choice =>
      obtain ⟨hadmits, m', p', hact, rfl⟩ := next_thread h
      exact Or.inl ⟨t, choice, m', p', rfl, hadmits, hact, rfl⟩
  | connectStart c =>
      simp only [next] at h
      split_ifs at h with hc
      obtain rfl := Option.some.inj h
      exact Or.inr ⟨by simp, .connectStart c hc, rfl⟩
  | connectReturn c =>
      simp only [next] at h
      split_ifs at h with hc
      obtain rfl := Option.some.inj h
      exact Or.inr ⟨by simp, .connectReturn c hc, rfl⟩
  | notifyStop =>
      obtain rfl := Option.some.inj h
      exact Or.inr ⟨by simp, .notifyStop, rfl⟩
  | foreignOpen fd =>
      simp only [next] at h
      split_ifs at h with hfd
      obtain rfl := Option.some.inj h
      exact Or.inr ⟨by simp, .foreignOpen fd hfd, rfl⟩
  | foreignClose fd =>
      simp only [next] at h
      split_ifs at h with hfd
      obtain rfl := Option.some.inj h
      exact Or.inr ⟨by simp, .foreignClose fd hfd, rfl⟩

end System
end SocketLib.ServerSocket
