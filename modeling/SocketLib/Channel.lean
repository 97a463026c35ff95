import SocketLib.ProducerQueue
import SocketLib.TransitionSystem

/-!
# One `Channel` between its producers and its workers

Any number of threads call `queueWrite`, `handleWriteQueue` and `readData` on one channel; each
atomic step of a call is one transition. `isActive()` is one step: it reads two flags that go from
true to false, the second only unless the socket is started again. The kernel decides what `recv`
and `send` return, the write queue which batch a bulk dequeue takes, and whether it times out.

A listener consumes the incoming queue while its worker is in the listen callback. Messages that a
callback queues are queued by a thread of their own. Next to its fields the state keeps what has
been received, consumed, queued, accepted and handed to `sendMessage` so far.
-/

namespace SocketLib.Channel

abbrev Bytes := List UInt8

/-- A message, with a null pointer for `none`. A message that was moved from keeps its length. -/
structure Message where
  data : Option Bytes
  length : ℕ
  sized : ∀ bytes ∈ data, bytes.length = length
  deriving DecidableEq

theorem sized_some (bytes : Bytes) : ∀ bytes' ∈ some bytes, bytes'.length = bytes.length :=
  fun _ h => congrArg List.length (Option.some.inj h).symm

def Message.toSpan (msg : Message) : Bytes := msg.data.getD []

/-- `msg.data() == nullptr || msg.length() == 0`. -/
def Message.isEmpty (msg : Message) : Bool := msg.data.isNone || msg.length = 0

theorem Message.toSpan_pos (msg : Message) (h : msg.isEmpty = false) : 0 < msg.toSpan.length := by
  simp only [isEmpty, Bool.or_eq_false_iff, Option.isNone_eq_false_iff, decide_eq_false_iff_not]
    at h
  obtain ⟨bytes, hbytes⟩ := Option.isSome_iff_exists.mp h.1
  rw [toSpan, hbytes, Option.getD_some, msg.sized bytes hbytes]
  exact Nat.pos_of_ne_zero h.2

/-- What `recv` returns: some bytes, zero, or an error. -/
inductive Received
  | data (bytes : Bytes)
  | ended
  | wouldBlock
  | connectionReset
  | error
  deriving DecidableEq

/-- What `send` returns: how many bytes it took, or an error. -/
inductive Sent
  | accepted (n : ℕ)
  | wouldBlock
  | error
  deriving DecidableEq

/-- Where `sendMessage` was called, with the rest of the batch in `handleWriteQueue`. -/
inductive Sender (T : Type*)
  | queueWrite
  | handleWriteQueue (rest : List (T × Message))

inductive Point (T : Type*)
  | idle
  -- queueWrite
  | queueTest (msg : Message)
  | queueEnqueue (msg : Message)
  -- handleWriteQueue
  | writeTest
  | writeSize
  | writeTryLock
  | writeDequeue
  | writeNext (batch : List (T × Message))
  | writeUnlock
  -- sendMessage and sendBytes
  | sendTest (bytes : Bytes) (sender : Sender T)
  | sendLoop (sentBytes : ℤ) (bytes : Bytes) (sender : Sender T)
  | sendCall (bytes : Bytes) (sender : Sender T)
  | sendFailed (sender : Sender T)
  -- readData
  | readTest (size : ℕ)
  | readTryLock (size : ℕ)
  | readRecv (size : ℕ)
  | readRecheck (received : Received)
  | readEnqueue (bytes : Bytes)
  | readListen
  | readUnlock

structure Mem (T : Type*) where
  active : Bool
  socketActive : Bool
  readLock : Option T
  writeLock : Option T
  /-- The thread in `writeThread`, which is never started. -/
  writeThread : Option T
  incomingQueue : Bytes
  writeQueue : ProducerQueue T Message
  received : Bytes
  dequeued : Bytes
  queued : T → List Message
  accepted : T → List Message
  handed : List (T × Message)

/-- What a step leaves to the caller, the kernel, the write queue or the listener. -/
inductive Choice (T : Type*)
  | go
  | queueWrite (msg : Message)
  | handleWriteQueue
  | readData (size : ℕ)
  | sizeApprox (zero : Bool)
  | dequeueBulk (batch : List (T × Message))
  | send (sent : Sent)
  | recv (received : Received)
  | dequeue (maxCount : ℕ)

def messageReserve : ℕ := 10

/-- The conversion of a `long` to `size_t` in a comparison. -/
def toSize (n : ℤ) : ℕ := (n % 2 ^ 64).toNat

variable {T : Type*}

/-- Where a thread goes on when `sendMessage` returns. -/
def Sender.returns : Sender T → Point T
  | .queueWrite => .idle
  | .handleWriteQueue rest => .writeNext rest

/-- Where an exception of `sendMessage` is caught. -/
def Sender.catches : Sender T → Point T
  | .queueWrite => .idle
  | .handleWriteQueue _ => .writeUnlock

def Mem.isActive (m : Mem T) : Bool := m.active && m.socketActive

def Mem.queueShutdown (m : Mem T) : Mem T := { m with active := false }

section Steps

variable [DecidableEq T]

/-- The next step of thread `t`. `listening` says whether the listen callback has a subscriber. -/
def act (listening : Bool) (t : T) (m : Mem T) : Point T → Choice T → Option (Mem T × Point T)
  | .idle, .queueWrite msg =>
      some ({ m with queued := Function.update m.queued t (m.queued t ++ [msg]) }, .queueTest msg)
  | .idle, .handleWriteQueue => some (m, .writeTest)
  | .idle, .readData size => if 0 < size then some (m, .readTest size) else none
  -- queueWrite
  | .queueTest msg, .go =>
      if m.active = false ∨ msg.isEmpty then some (m, .idle)
      else if m.writeThread = some t then
        some ({ m with handed := m.handed ++ [(t, msg)] }, .sendTest msg.toSpan .queueWrite)
      else some (m, .queueEnqueue msg)
  | .queueEnqueue msg, .go =>
      some ({ m with
          writeQueue := m.writeQueue.enqueue t msg
          accepted := Function.update m.accepted t (m.accepted t ++ [msg]) }, .idle)
  -- handleWriteQueue
  | .writeTest, .go => some (m, if m.active then .writeSize else .idle)
  | .writeSize, .sizeApprox zero => some (m, if zero then .idle else .writeTryLock)
  | .writeTryLock, .go =>
      if m.writeLock.isNone then some ({ m with writeLock := some t }, .writeDequeue)
      else some (m, .idle)
  | .writeDequeue, .dequeueBulk batch =>
      if batch.length ≤ messageReserve ∧ m.writeQueue.Offers batch then
        some ({ m with writeQueue := m.writeQueue.dequeue batch }, .writeNext batch)
      else none
  | .writeNext [], .go => some (m, .writeUnlock)
  | .writeNext ((p, msg) :: rest), .go =>
      some ({ m with handed := m.handed ++ [(p, msg)] },
        .sendTest msg.toSpan (.handleWriteQueue rest))
  | .writeUnlock, .go => some ({ m with writeLock := none }, .idle)
  -- sendBytes
  | .sendTest bytes sender, .go =>
      some (m, if m.isActive then .sendLoop 0 bytes sender else sender.returns)
  | .sendLoop sentBytes bytes sender, .go =>
      some (m, if toSize sentBytes < bytes.length ∧ m.isActive then .sendCall bytes sender
        else sender.returns)
  | .sendCall bytes sender, .send (.accepted n) =>
      if n ≤ bytes.length then
        some (m, .sendLoop n (if toSize n < bytes.length then bytes.drop n else bytes) sender)
      else none
  | .sendCall bytes sender, .send .wouldBlock => some (m, .sendLoop (-1) bytes sender)
  | .sendCall _ sender, .send .error => some (m, .sendFailed sender)
  | .sendFailed sender, .go => some (m.queueShutdown, sender.catches)
  -- readData
  | .readTest size, .go => some (m, if m.active then .readTryLock size else .idle)
  | .readTryLock size, .go =>
      if m.readLock.isNone then some ({ m with readLock := some t }, .readRecv size)
      else some (m, .idle)
  | .readRecv size, .recv (.data bytes) =>
      if bytes ≠ [] ∧ bytes.length ≤ size then
        some ({ m with received := m.received ++ bytes }, .readRecheck (.data bytes))
      else none
  | .readRecv _, .recv received => some (m, .readRecheck received)
  | .readRecheck received, .go =>
      if m.isActive then
        match received with
        | .data bytes => some (m, .readEnqueue bytes)
        | .wouldBlock => some (m, .readUnlock)
        | .ended | .connectionReset | .error => some (m.queueShutdown, .readUnlock)
      else some (m, .readUnlock)
  | .readEnqueue bytes, .go =>
      some ({ m with incomingQueue := m.incomingQueue ++ bytes },
        if listening then .readListen else .readUnlock)
  | .readListen, .dequeue maxCount =>
      some ({ m with
          incomingQueue := m.incomingQueue.drop (min maxCount m.incomingQueue.length)
          dequeued := m.dequeued ++
            m.incomingQueue.take (min maxCount m.incomingQueue.length) }, .readListen)
  | .readListen, .go => some (m, .readUnlock)
  | .readUnlock, .go => some ({ m with readLock := none }, .idle)
  | _, _ => none

end Steps

/-! ### The system -/

structure State (T : Type*) where
  mem : Mem T
  points : T → Point T

/-- One step of a run: a thread takes its next step, or the socket or the channel is stopped at some
moment, or the socket is started again. -/
inductive Label (T : Type*)
  | thread (t : T) (choice : Choice T)
  | notifyStop
  | queueShutdown
  | socketStart

variable [DecidableEq T]

def next (listening : Bool) (s : State T) : Label T → Option (State T)
  | .thread t choice =>
      (act listening t s.mem (s.points t) choice).map
        (fun r => ⟨r.1, Function.update s.points t r.2⟩)
  | .notifyStop => some { s with mem := { s.mem with socketActive := false } }
  | .queueShutdown => some { s with mem := s.mem.queueShutdown }
  | .socketStart => some { s with mem := { s.mem with socketActive := true } }

variable (T) in
/-- The channel as its constructor leaves it. -/
def initial : State T where
  mem :=
    { active := true
      socketActive := true
      readLock := none
      writeLock := none
      writeThread := none
      incomingQueue := []
      writeQueue := fun _ => []
      received := []
      dequeued := []
      queued := fun _ => []
      accepted := fun _ => []
      handed := [] }
  points := fun _ => .idle

variable (T) in
def system (listening : Bool) : TransitionSystem (State T) (Label T) :=
  ⟨initial T, next listening⟩

/-- A step is one of a thread, or it only sets one of the two flags. -/
theorem next_cases {listening : Bool} {s s' : State T} {a : Label T}
    (h : next listening s a = some s') :
    (∃ t choice m' p', a = .thread t choice ∧
        act listening t s.mem (s.points t) choice = some (m', p') ∧
        s' = ⟨m', Function.update s.points t p'⟩) ∨
      ((∀ t choice, a ≠ .thread t choice) ∧ ∃ active socketActive,
        s' = { s with mem := { s.mem with active := active, socketActive := socketActive } } ∧
        (active = true → s.mem.active = true) ∧
        (a ≠ .socketStart → socketActive = true → s.mem.socketActive = true)) := by
  cases a with
  | thread t choice =>
      obtain ⟨r, hr, rfl⟩ := Option.map_eq_some_iff.mp h
      exact Or.inl ⟨t, choice, r.1, r.2, rfl, hr, rfl⟩
  | notifyStop =>
      obtain rfl := Option.some.inj h
      exact Or.inr ⟨by simp, s.mem.active, false, rfl, id, by simp⟩
  | queueShutdown =>
      obtain rfl := Option.some.inj h
      exact Or.inr ⟨by simp, false, s.mem.socketActive, rfl, by simp, fun _ => id⟩
  | socketStart =>
      obtain rfl := Option.some.inj h
      exact Or.inr ⟨by simp, s.mem.active, true, rfl, id, by simp⟩

end SocketLib.Channel
