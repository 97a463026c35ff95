import SocketLib.ChannelLocks

/-!
# Every queued message is handed to `sendMessage` once and in order

Between taking and releasing `writeLock` a worker has the batch it took out of the write queue to
itself. While the channel is active, what was handed to `sendMessage`, the rest of that batch and
what still waits in the queue are, for each producer, the messages it queued (`Balanced`). A step of
a thread inside the lock moves messages between the batch and the other two, a step outside it only
enqueues; the batch that an exception drops is dropped with the channel.
-/

namespace SocketLib.Channel

open ProducerQueue LockHolder

variable {T : Type*}

/-- The messages a worker has taken out of the queue and not handed on yet. -/
def Point.batch (p : Point T) : List (T × Message) :=
  match p with
  | .writeNext batch => batch
  | _ => match p.sender with
    | some (.handleWriteQueue rest) => rest
    | _ => []

/-- The message of a call of `queueWrite` that is still to be enqueued. -/
def Point.offered : Point T → List Message
  | .queueTest msg => if msg.isEmpty then [] else [msg]
  | .queueEnqueue msg => [msg]
  | _ => []

/-- The rest of the batch that the worker with `writeLock` has in hand. -/
def State.inFlight (s : State T) : List (T × Message) :=
  inHand Point.batch [] s.mem.writeLock s.points

theorem Point.batch_of_not_writes (p : Point T) (h : p.writes = false) : p.batch = [] := by
  cases p with
  | writeNext _ => cases h
  | sendTest _ _ | sendLoop _ _ _ | sendCall _ _ | sendFailed _ => cases h
  | _ => rfl

variable [DecidableEq T]

/-- Handed on, in the batch and waiting are the accepted messages, for every producer. -/
def Balanced (m : Mem T) (batch : List (T × Message)) : Prop :=
  ∀ p, ofProducer p (m.handed ++ batch) ++ m.writeQueue p = m.accepted p

/-- The non-empty messages a thread has called `queueWrite` with are the accepted ones, up to the
call it is in. -/
def Offered (m : Mem T) (t : T) (p : Point T) : Prop :=
  (m.queued t).filter (fun msg => !msg.isEmpty) = m.accepted t ++ p.offered

theorem Balanced.enqueue {m : Mem T} {batch : List (T × Message)} (h : Balanced m batch) (t : T)
    (msg : Message) :
    Balanced { m with
      writeQueue := m.writeQueue.enqueue t msg
      accepted := Function.update m.accepted t (m.accepted t ++ [msg]) } batch := by
  intro p
  by_cases hp : p = t
  · subst p
    simp only [enqueue_self, Function.update_self, ← h t, List.append_assoc]
  · simp only [enqueue_ne _ _ hp, Function.update_of_ne hp, h p]

theorem Balanced.dequeue {m : Mem T} {batch : List (T × Message)} (h : Balanced m [])
    (hoffers : m.writeQueue.Offers batch) :
    Balanced { m with writeQueue := m.writeQueue.dequeue batch } batch := by
  intro p
  simp only [ofProducer_append, List.append_assoc, ofProducer_append_dequeue hoffers]
  simpa only [List.append_nil] using h p

theorem Balanced.hand {m : Mem T} {x : T × Message} {rest : List (T × Message)}
    (h : Balanced m (x :: rest)) : Balanced { m with handed := m.handed ++ [x] } rest := by
  intro p
  rw [List.append_assoc]
  exact h p

section Steps

variable {listening : Bool} {t : T} {m m' : Mem T} {p p' : Point T} {choice : Choice T}

/-- A step moves messages from the queue to the batch of its thread and from there to `sendMessage`,
or it only enqueues. -/
theorem act_balanced (hthread : m.writeThread = none) (hactive : m'.active = true) :
    act listening t m p choice = some (m', p') →
      (Balanced m p.batch → Balanced m' p'.batch) ∧
      (p.writes = false → p'.writes = false → ∀ batch, Balanced m batch → Balanced m' batch) := by
  fun_cases act listening t m p choice
  all_goals
    simp only [Option.some.injEq, Prod.mk.injEq, reduceCtorEq, false_implies, and_imp]
    try rintro rfl rfl
  case case6 h => exact absurd h (by simp only [hthread, reduceCtorEq, not_false_eq_true])
  case case8 => exact ⟨fun h => h.enqueue _ _, fun _ _ _ h => h.enqueue _ _⟩
  case case13 h => exact ⟨fun hb => hb.dequeue h.2, Bool.noConfusion⟩
  case case16 => exact ⟨fun h => h.hand, Bool.noConfusion⟩
  case case24 => cases hactive
  all_goals try split
  all_goals try cases ‹Sender T›
  all_goals exact ⟨id, fun _ _ _ => id⟩

/-- A step keeps the account of its own thread, and the accounts of the others whatever they do. -/
theorem act_offered (hthread : m.writeThread = none) (hactive : m'.active = true) :
    act listening t m p choice = some (m', p') →
      (Offered m t p → Offered m' t p') ∧ ∀ u ≠ t, ∀ q, Offered m u q → Offered m' u q := by
  fun_cases act listening t m p choice
  all_goals
    simp only [Option.some.injEq, Prod.mk.injEq, reduceCtorEq, false_implies, and_imp]
    try rintro rfl rfl
  case case1 msg =>
    constructor
    · intro h
      simp only [Offered, Point.offered, List.append_nil] at h
      simp only [Offered, Point.offered, Function.update_self, List.filter_append, h,
        List.filter_singleton]
      cases msg.isEmpty <;> rfl
    · intro u hu q h
      simpa only [Offered, Function.update_of_ne hu] using h
  case case5 msg hskip =>
    refine ⟨fun h => ?_, fun _ _ _ => id⟩
    have hempty : msg.isEmpty = true := hskip.resolve_left (by simp only [hactive, reduceCtorEq,
      not_false_eq_true])
    simpa only [Offered, Point.offered, hempty, if_true] using h
  case case6 h => exact absurd h (by simp only [hthread, reduceCtorEq, not_false_eq_true])
  case case7 msg hsend _ =>
    refine ⟨fun h => ?_, fun _ _ _ => id⟩
    rw [Offered, Point.offered, if_neg (fun hempty => hsend (Or.inr hempty))] at h
    exact h
  case case8 msg =>
    constructor
    · intro h
      simpa only [Offered, Point.offered, Function.update_self, List.append_nil] using h
    · intro u hu q h
      simpa only [Offered, Function.update_of_ne hu] using h
  all_goals try split
  all_goals try cases ‹Sender T›
  all_goals exact ⟨id, fun _ _ _ => id⟩

end Steps

/-! ### Runs -/

section Runs

variable {listening : Bool} {s s' : State T}

/-- While the channel is active no message is lost, doubled or overtaken by a later one of its
producer. -/
structure Delivered (s : State T) : Prop where
  balanced : s.mem.active = true → Balanced s.mem s.inFlight
  offered : s.mem.active = true → ∀ t, Offered s.mem t (s.points t)

theorem delivered_initial : Delivered (initial T) := ⟨fun _ _ => rfl, fun _ _ => rfl⟩

theorem Delivered.act {t : T} {m' : Mem T} {p' : Point T} {choice : Choice T} (hd : Delivered s)
    (hl : Locked s) (h : Channel.act listening t s.mem (s.points t) choice = some (m', p')) :
    Delivered ⟨m', Function.update s.points t p'⟩ := by
  constructor
  case balanced =>
    intro hactive
    have hbalanced := hd.balanced ((act_active h).1 hactive)
    obtain ⟨hmove, hkeep⟩ := act_balanced hl.writeThread hactive h
    rw [State.inFlight] at hbalanced ⊢
    obtain ⟨hbatch, hbatch'⟩ | ⟨hp, hp', hbatch'⟩ :=
      hl.write.inHand_update (hl.act h).write Point.batch_of_not_writes
    · rw [hbatch] at hbalanced
      rw [hbatch']
      exact hmove hbalanced
    · rw [hbatch']
      exact hkeep hp hp' _ hbalanced
  case offered =>
    intro hactive u
    have hoffered := hd.offered ((act_active h).1 hactive)
    obtain ⟨hself, hother⟩ := act_offered hl.writeThread hactive h
    by_cases hu : u = t
    · subst u
      simpa only [Function.update_self] using hself (hoffered t)
    · simpa only [Function.update_of_ne hu] using hother u hu _ (hoffered u)

theorem Delivered.next {a : Label T} (hd : Delivered s) (hl : Locked s)
    (h : next listening s a = some s') : Delivered s' := by
  obtain ⟨t, choice, m', p', rfl, hact, rfl⟩ | ⟨-, active, socketActive, rfl, hkeep, -⟩ :=
    next_cases h
  · exact hd.act hl hact
  · exact ⟨fun hactive => hd.balanced (hkeep hactive), fun hactive => hd.offered (hkeep hactive)⟩

theorem delivered_of_reachable {guard : State T → Label T → Prop}
    (h : (system T listening).ReachedBy guard s) : Delivered s :=
  h.invariant delivered_initial
    (fun _ _ _ hr hd _ hs => hd.next (locked_of_reachable hr) hs)

/-- What waits in the queue of an active channel has bytes to send. -/
theorem Delivered.toSpan_pos (hd : Delivered s) (hactive : s.mem.active = true) {p : T}
    {msg : Message} (hmsg : msg ∈ s.mem.writeQueue p) : 0 < msg.toSpan.length := by
  have haccepted : msg ∈ s.mem.accepted p := by
    rw [← hd.balanced hactive p]
    exact List.mem_append_right _ hmsg
  have hqueued : msg ∈ (s.mem.queued p).filter (fun msg => !msg.isEmpty) := by
    rw [hd.offered hactive p]
    exact List.mem_append_left _ haccepted
  have hempty : msg.isEmpty = false := by simpa using (List.mem_filter.mp hqueued).2
  exact msg.toSpan_pos hempty

/-- With any number of producers and workers, for every producer: what was handed to `sendMessage`,
the batch in flight and the queue are the accepted messages in order, these are the non-empty ones
it queued up to a call it is still in, and calls of `sendMessage` do not overlap. -/
theorem deliveredInOrder (h : (system T listening).Reachable s) :
    (s.mem.active = true → ∀ p,
      ofProducer p (s.mem.handed ++ s.inFlight) ++ s.mem.writeQueue p = s.mem.accepted p ∧
      (s.mem.queued p).filter (fun msg => !msg.isEmpty) =
        s.mem.accepted p ++ (s.points p).offered) ∧
    ∀ t u, (s.points t).sends → (s.points u).sends → t = u := by
  have hd := delivered_of_reachable h
  have hl := locked_of_reachable h
  exact ⟨fun hactive p => ⟨hd.balanced hactive p, hd.offered hactive p⟩,
    fun t u => hl.sends_unique⟩

end Runs

/-! ### A run of two producers and two workers -/

def go (t : Fin 4) (n : ℕ) : List (Label (Fin 4)) := List.replicate n (.thread t .go)

def text (bytes : Bytes) : Message where
  data := some bytes
  length := bytes.length
  sized := by simp

def queueText (t : Fin 4) (bytes : Bytes) : List (Label (Fin 4)) :=
  .thread t (.queueWrite (text bytes)) :: go t 2

/-- A worker takes a batch of both producers' messages and has sent half of the first one; the other
worker finds the lock taken, and a third message is queued. -/
theorem deliveredInOrder_batch_in_flight :
    ∃ s, (system (Fin 4) true).Reachable s ∧ s.mem.active = true ∧
      s.mem.handed = [(1, text [7, 8])] ∧ s.inFlight = [(0, text [1])] ∧
      s.mem.writeQueue 0 = [text [2]] ∧
      (s.mem.active = true → ∀ p,
        ofProducer p (s.mem.handed ++ s.inFlight) ++ s.mem.writeQueue p = s.mem.accepted p ∧
        (s.mem.queued p).filter (fun msg => !msg.isEmpty) =
          s.mem.accepted p ++ (s.points p).offered) ∧
      ∀ t u, (s.points t).sends → (s.points u).sends → t = u := by
  have hrun : ((system (Fin 4) true).exec (system (Fin 4) true).start
      (queueText 0 [1] ++ queueText 1 [7, 8] ++
        [.thread 2 .handleWriteQueue, .thread 2 .go, .thread 2 (.sizeApprox false),
          .thread 3 .handleWriteQueue, .thread 3 .go, .thread 3 (.sizeApprox false)] ++ go 2 1 ++
        [.thread 2 (.dequeueBulk [(1, text [7, 8]), (0, text [1])])] ++ go 2 3 ++
        [.thread 2 (.send (.accepted 1))] ++ go 3 1 ++ queueText 0 [2])).any (fun s =>
      s.mem.active = true ∧ s.mem.handed = [(1, text [7, 8])] ∧ s.inFlight = [(0, text [1])] ∧
      s.mem.writeQueue 0 = [text [2]]) = true := by decide
  obtain ⟨s, hs, hstate⟩ := TransitionSystem.exists_reachedBy_of_execWhile hrun
  rw [decide_eq_true_eq] at hstate
  obtain ⟨hactive, hhanded, hflight, hqueue⟩ := hstate
  exact ⟨s, hs, hactive, hhanded, hflight, hqueue, deliveredInOrder hs⟩

end SocketLib.Channel
