import SocketLib.ChannelLocks

/-!
# The bytes a channel receives reach its listeners without a gap

The worker with `readLock` has the chunk that `recv` returned in hand until it has enqueued it. It
may drop the chunk only when it finds the channel inactive. A socket that is not started again makes
the channel inactive for good, so that nothing is enqueued after a dropped chunk: what listeners
have consumed, followed by the incoming queue, is always a prefix of what was received, and all of
it while the channel is active and no chunk is in hand (`Intact`). The one worker that has tested
the flags and not enqueued yet still completes the stream.
-/

namespace SocketLib.Channel

open LockHolder

variable {T : Type*}

/-- The chunk a worker has in hand between its `recv` and its enqueue. -/
def Point.chunk : Point T → Bytes
  | .readRecheck (.data bytes) | .readEnqueue bytes => bytes
  | _ => []

/-- Past the activity check, with the enqueue to come. -/
def Point.committed : Point T → Bool
  | .readEnqueue _ => true
  | _ => false

/-- Between the `recv` and the enqueue of `readData`. -/
def Point.receiving : Point T → Bool
  | .readRecheck _ | .readEnqueue _ => true
  | _ => false

/-- The bytes that listeners have consumed or can consume, in order. -/
def Mem.stream (m : Mem T) : Bytes := m.dequeued ++ m.incomingQueue

/-- Nothing is missing but the chunk in hand, unless that chunk is dropped with the channel. -/
structure Intact (m : Mem T) (chunk : Bytes) (committed : Bool) : Prop where
  order : m.stream <+: m.received
  whole : m.isActive = true ∨ committed = true → m.stream ++ chunk = m.received

def Point.chunkInHand (p : Point T) : Bytes × Bool := (p.chunk, p.committed)

def State.chunkInHand (s : State T) : Bytes × Bool :=
  inHand Point.chunkInHand ([], false) s.mem.readLock s.points

theorem Point.chunkInHand_of_not_reads (p : Point T) (h : p.reads = false) :
    p.chunkInHand = ([], false) := by
  cases p with
  | readRecheck _ | readEnqueue _ => cases h
  | _ => rfl

theorem Point.chunk_of_not_receiving {p : Point T} (h : p.receiving = false) : p.chunk = [] := by
  cases p with
  | readRecheck _ | readEnqueue _ => cases h
  | _ => rfl

/-- Steps that leave the stream alone and do not raise a flag. -/
theorem Intact.mono {m m' : Mem T} {chunk : Bytes} {committed : Bool}
    (h : Intact m chunk committed) (hstream : m'.stream = m.stream)
    (hreceived : m'.received = m.received) (hactive : m'.isActive = true → m.isActive = true) :
    Intact m' chunk committed := by
  constructor
  · rw [hstream, hreceived]
    exact h.order
  · rw [hstream, hreceived]
    exact fun hor => h.whole (hor.imp_left hactive)

theorem Intact.recv {m : Mem T} (h : Intact m [] false) (bytes : Bytes) :
    Intact { m with received := m.received ++ bytes } bytes false where
  order := h.order.trans (List.prefix_append ..)
  whole := by
    intro hactive
    have hwhole := h.whole hactive
    rw [List.append_nil] at hwhole
    exact congrArg (· ++ bytes) hwhole

theorem Intact.commit {m : Mem T} {chunk : Bytes} (h : Intact m chunk false)
    (hactive : m.isActive = true) : Intact m chunk true :=
  ⟨h.order, fun _ => h.whole (Or.inl hactive)⟩

/-- A channel that is found inactive may drop the chunk. -/
theorem Intact.drop {m : Mem T} {chunk : Bytes} (h : Intact m chunk false)
    (hactive : ¬ m.isActive = true) : Intact m [] false :=
  ⟨h.order, fun hor => absurd (hor.resolve_right nofun) hactive⟩

/-- A chunk that a worker is committed to completes the stream, whatever the flags are by then. -/
theorem Intact.enqueue {m : Mem T} {bytes : Bytes} (h : Intact m bytes true) :
    Intact { m with incomingQueue := m.incomingQueue ++ bytes } [] false := by
  have hwhole : m.dequeued ++ (m.incomingQueue ++ bytes) = m.received := by
    rw [← List.append_assoc]
    exact h.whole (Or.inr rfl)
  constructor
  · exact hwhole ▸ List.prefix_rfl
  · intro _
    rw [List.append_nil]
    exact hwhole

/-- What a listener takes off the queue it has consumed. -/
theorem Intact.dequeue {m : Mem T} (h : Intact m [] false) (n : ℕ) :
    Intact { m with
      incomingQueue := m.incomingQueue.drop n
      dequeued := m.dequeued ++ m.incomingQueue.take n } [] false := by
  refine h.mono ?_ rfl id
  rw [Mem.stream, List.append_assoc, List.take_append_drop, Mem.stream]

section Steps

variable [DecidableEq T] {listening : Bool} {t : T} {m m' : Mem T} {p p' : Point T}
  {choice : Choice T}

/-- A step keeps the stream intact with the chunk of its own thread; a step outside `readLock` also
with the chunk another thread has in hand. -/
theorem act_intact : act listening t m p choice = some (m', p') →
      (Intact m p.chunk p.committed → Intact m' p'.chunk p'.committed) ∧
      (p.reads = false → p'.reads = false →
        ∀ chunk committed, Intact m chunk committed → Intact m' chunk committed) := by
  fun_cases act listening t m p choice
  all_goals
    simp only [Option.some.injEq, Prod.mk.injEq, reduceCtorEq, false_implies, and_imp]
    try rintro rfl rfl
  case case28 => exact ⟨fun h => h.recv _, Bool.noConfusion⟩
  case case31 hactive _ => exact ⟨fun h => h.commit hactive, Bool.noConfusion⟩
  case case30 received hreceived =>
    cases received with
    | data bytes => exact absurd rfl (hreceived bytes)
    | _ => exact ⟨id, Bool.noConfusion⟩
  case case36 hactive => exact ⟨fun h => h.drop hactive, Bool.noConfusion⟩
  case case38 => exact ⟨fun h => h.dequeue _, Bool.noConfusion⟩
  all_goals try split
  case case37.isTrue | case37.isFalse => exact ⟨fun h => h.enqueue, Bool.noConfusion⟩
  all_goals try cases ‹Sender T›
  all_goals
    first
      | exact ⟨fun h => h.mono rfl rfl id, fun _ _ _ _ h => h.mono rfl rfl id⟩
      | exact ⟨fun h => h.mono rfl rfl Bool.noConfusion,
          fun _ _ _ _ h => h.mono rfl rfl Bool.noConfusion⟩

end Steps

/-! ### Runs without a restart of the socket -/

section Runs

variable [DecidableEq T] {listening : Bool} {s s' : State T}

def State.Intact (s : State T) : Prop :=
  Channel.Intact s.mem s.chunkInHand.1 s.chunkInHand.2

theorem State.Intact.act {t : T} {m' : Mem T} {p' : Point T} {choice : Choice T}
    (hi : s.Intact) (hl : Locked s)
    (h : Channel.act listening t s.mem (s.points t) choice = some (m', p')) :
    State.Intact ⟨m', Function.update s.points t p'⟩ := by
  obtain ⟨hmove, hkeep⟩ := act_intact h
  rw [State.Intact, State.chunkInHand] at hi ⊢
  obtain ⟨hchunk, hchunk'⟩ | ⟨hp, hp', hchunk'⟩ :=
    hl.read.inHand_update (hl.act h).read Point.chunkInHand_of_not_reads
  · rw [hchunk] at hi
    rw [hchunk']
    exact hmove hi
  · rw [hchunk']
    exact hkeep hp hp' _ _ hi

theorem State.Intact.next {a : Label T} (hi : s.Intact) (hl : Locked s) (ha : a ≠ .socketStart)
    (h : Channel.next listening s a = some s') : s'.Intact := by
  obtain ⟨t, choice, m', p', rfl, hact, rfl⟩ | ⟨-, active, socketActive, rfl, hkeep, hkeep'⟩ :=
    next_cases h
  · exact hi.act hl hact
  · refine Channel.Intact.mono hi rfl rfl ?_
    simp only [Mem.isActive, Bool.and_eq_true]
    exact And.imp hkeep (hkeep' ha)

theorem intact_of_reachedBy
    (h : (system T listening).ReachedBy (fun _ a => a ≠ .socketStart) s) : s.Intact :=
  h.invariant ⟨List.prefix_rfl, fun _ => rfl⟩
    (fun _ _ _ hr hi ha hs => hi.next (locked_of_reachable hr) ha hs)

/-- Without a restart of the socket, the bytes consumed by listeners followed by the incoming queue
are a prefix of the bytes received, and all of them when the channel is active and no `readData` is
between its `recv` and its enqueue. -/
theorem receivedInOrder
    (h : (system T listening).ReachedBy (fun _ a => a ≠ .socketStart) s) :
    s.mem.dequeued ++ s.mem.incomingQueue <+: s.mem.received ∧
    (s.mem.isActive = true → (∀ t, (s.points t).receiving = false) →
      s.mem.dequeued ++ s.mem.incomingQueue = s.mem.received) := by
  have hi := intact_of_reachedBy h
  refine ⟨hi.order, fun hactive hquiet => ?_⟩
  have hchunk : s.chunkInHand.1 = [] := by
    rw [State.chunkInHand, inHand]
    cases s.mem.readLock with
    | none => rfl
    | some t => exact Point.chunk_of_not_receiving (hquiet t)
  have hwhole := hi.whole (Or.inl hactive)
  rwa [hchunk, List.append_nil] at hwhole

end Runs

/-! ### A run of two workers -/

instance (a : Label T) : Decidable (a = .socketStart) :=
  match a with
  | .thread _ _ | .notifyStop | .queueShutdown => isFalse nofun
  | .socketStart => isTrue rfl

def step (t : Fin 2) (n : ℕ) : List (Label (Fin 2)) := List.replicate n (.thread t .go)

def receive (t : Fin 2) (bytes : Bytes) : List (Label (Fin 2)) :=
  step t 1 ++ .thread t (.recv (.data bytes)) :: step t 2

/-- Both workers pass the entry check; the second finds the lock taken and comes back when the first
has enqueued its chunk and its listener has consumed a part of it. -/
theorem receivedInOrder_two_workers :
    ∃ s, (system (Fin 2) true).ReachedBy (fun _ a => a ≠ .socketStart) s ∧
      s.mem.received = [1, 2, 3, 4] ∧ s.mem.dequeued = [1, 2] ∧ s.mem.incomingQueue = [3, 4] ∧
      s.mem.dequeued ++ s.mem.incomingQueue <+: s.mem.received ∧
      s.mem.dequeued ++ s.mem.incomingQueue = s.mem.received := by
  have hrun : ((system (Fin 2) true).execWhile (fun _ a => a ≠ Label.socketStart)
      (system (Fin 2) true).start
      ([.thread 0 (.readData 8), .thread 1 (.readData 2)] ++ step 0 1 ++ step 1 1 ++
        receive 0 [1, 2, 3] ++ step 1 1 ++ [.thread 0 (.dequeue 2)] ++ step 0 2 ++
        [.thread 1 (.readData 2)] ++ step 1 1 ++ receive 1 [4])).any (fun s =>
      (s.mem.received = [1, 2, 3, 4] ∧ s.mem.dequeued = [1, 2] ∧
        s.mem.incomingQueue = [3, 4]) ∧
      s.mem.isActive = true ∧ ∀ t, (s.points t).receiving = false) = true := by decide
  obtain ⟨s, hs, hstate⟩ := TransitionSystem.exists_reachedBy_of_execWhile hrun
  rw [decide_eq_true_eq] at hstate
  obtain ⟨⟨hreceived, hdequeued, hqueue⟩, hactive, hquiet⟩ := hstate
  have h := receivedInOrder hs
  exact ⟨s, hs, hreceived, hdequeued, hqueue, h.1, h.2 hactive hquiet⟩

end SocketLib.Channel
