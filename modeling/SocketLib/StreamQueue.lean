import SocketLib.ChannelLocks
import SocketLib.CommutingWords

/-!
# `StreamQueue`

The queue is the list of its bytes, the front first. Three of the four ways to add bytes insert at
`bytes.end()`. `enqueue(Message &&)` inserts at `bytes.begin()`, so what it adds overtakes what is
waiting. The order of bytes shows the difference unless the message and the contents of the queue
are repetitions of one word, such as when one of them is empty.

The state of the transition system keeps what has been added and what has been dequeued so far.
-/

namespace SocketLib.StreamQueue

open Channel (Bytes Message)
open CommutingWords

def countToDequeue (maxCount : ℕ) (bytes : Bytes) : ℕ := min maxCount bytes.length

/-- What is taken off the front, and what is left. -/
def dequeue (maxCount : ℕ) (bytes : Bytes) : Bytes × Bytes :=
  (bytes.take (countToDequeue maxCount bytes), bytes.drop (countToDequeue maxCount bytes))

def peek (maxCount : ℕ) (bytes : Bytes) : Bytes := bytes.take (countToDequeue maxCount bytes)

def enqueue (bytes newBytes : Bytes) : Bytes := bytes ++ newBytes

def enqueueMove (bytes newBytes : Bytes) : Bytes := bytes ++ newBytes

def enqueueVector (bytes newBytes : Bytes) : Bytes := bytes ++ newBytes

/-- Inserts at `bytes.begin()`. -/
def enqueueMessage (bytes : Bytes) (newBytes : Message) : Bytes := newBytes.toSpan ++ bytes

/-- `data()` points to `length()` bytes. A message that was moved from has none to insert. -/
def readable (msg : Message) : Bool := msg.data.isSome || msg.length = 0

inductive Op
  | enqueue (newBytes : Bytes)
  | enqueueMove (newBytes : Bytes)
  | enqueueVector (newBytes : Bytes)
  | enqueueMessage (newBytes : Message)
  | dequeue (maxCount : ℕ)
  | peek (maxCount : ℕ)

structure State where
  bytes : Bytes
  added : Bytes
  dequeued : Bytes

def State.add (s : State) (bytes newBytes : Bytes) : State :=
  { s with bytes := bytes, added := s.added ++ newBytes }

def next (s : State) : Op → Option State
  | .enqueue newBytes => some (s.add (enqueue s.bytes newBytes) newBytes)
  | .enqueueMove newBytes => some (s.add (enqueueMove s.bytes newBytes) newBytes)
  | .enqueueVector newBytes => some (s.add (enqueueVector s.bytes newBytes) newBytes)
  | .enqueueMessage newBytes =>
      if readable newBytes then some (s.add (enqueueMessage s.bytes newBytes) newBytes.toSpan)
      else none
  | .dequeue maxCount =>
      some { s with
        bytes := (dequeue maxCount s.bytes).2
        dequeued := s.dequeued ++ (dequeue maxCount s.bytes).1 }
  | .peek _ => some s

/-- A queue built from a span. -/
def system (span : Bytes) : TransitionSystem State Op := ⟨⟨span, [], []⟩, next⟩

/-- What has been dequeued, followed by the contents, is what the queue was built from, followed by
what has been added; and a `peek` shows what a `dequeue` would take, and changes nothing. -/
structure Fifo (span : Bytes) (s : State) : Prop where
  order : s.dequeued ++ s.bytes = span ++ s.added
  peek : ∀ maxCount, peek maxCount s.bytes = (dequeue maxCount s.bytes).1 ∧
    next s (.peek maxCount) = some s

/-- A message is enqueued only when it and the contents of the queue are repetitions of one word. -/
def MessageShares (s : State) : Op → Prop
  | .enqueueMessage newBytes => ShareWord s.bytes newBytes.toSpan
  | _ => True

variable {span : Bytes} {s s' : State}

theorem fifo_iff : Fifo span s ↔ s.dequeued ++ s.bytes = span ++ s.added :=
  ⟨Fifo.order, fun h => ⟨h, fun _ => ⟨rfl, rfl⟩⟩⟩

theorem dequeue_append (maxCount : ℕ) (bytes : Bytes) :
    (dequeue maxCount bytes).1 ++ (dequeue maxCount bytes).2 = bytes :=
  List.take_append_drop ..

/-- Insertion at the end keeps the order. -/
theorem Fifo.add_end (h : Fifo span s) (newBytes : Bytes) :
    Fifo span (s.add (s.bytes ++ newBytes) newBytes) := by
  rw [fifo_iff, State.add, ← List.append_assoc, h.order, List.append_assoc]

/-- Insertion at the beginning keeps the order only when nobody could tell it from the other. -/
theorem Fifo.add_begin_iff (h : Fifo span s) (newBytes : Bytes) :
    Fifo span (s.add (newBytes ++ s.bytes) newBytes) ↔ ShareWord s.bytes newBytes := by
  have hadd : span ++ (s.added ++ newBytes) = s.dequeued ++ (s.bytes ++ newBytes) := by
    rw [← List.append_assoc, ← h.order, List.append_assoc]
  rw [fifo_iff, State.add, hadd, List.append_cancel_left_eq, ← append_comm_iff]
  exact eq_comm

theorem Fifo.dequeue (h : Fifo span s) (maxCount : ℕ) :
    Fifo span { s with
      bytes := (dequeue maxCount s.bytes).2
      dequeued := s.dequeued ++ (StreamQueue.dequeue maxCount s.bytes).1 } := by
  rw [fifo_iff, List.append_assoc, dequeue_append, h.order]

theorem toSpan_of_not_readable {msg : Message} (h : readable msg = false) : msg.toSpan = [] := by
  simp only [readable, Bool.or_eq_false_iff, Option.isSome_eq_false_iff, Option.isNone_iff_eq_none]
    at h
  rw [Message.toSpan, h.1, Option.getD_none]

/-- An operation keeps the order exactly when it is not a message that overtakes. -/
theorem messageShares_iff (h : Fifo span s) (op : Op) :
    MessageShares s op ↔ ∀ s', next s op = some s' → Fifo span s' := by
  have hkeeps : ∀ {r : State}, Fifo span r → (True ↔ ∀ s', some r = some s' → Fifo span s') :=
    fun hr => iff_of_true trivial (fun s' hs' => Option.some.inj hs' ▸ hr)
  cases op with
  | enqueue newBytes => exact hkeeps (h.add_end newBytes)
  | enqueueMove newBytes => exact hkeeps (h.add_end newBytes)
  | enqueueVector newBytes => exact hkeeps (h.add_end newBytes)
  | dequeue maxCount => exact hkeeps (h.dequeue maxCount)
  | peek maxCount => exact hkeeps h
  | enqueueMessage newBytes =>
      cases hread : readable newBytes with
      | true =>
          rw [MessageShares, ← h.add_begin_iff]
          simp only [next, hread, if_true, Option.some.injEq, forall_eq', enqueueMessage]
      | false =>
          rw [MessageShares, toSpan_of_not_readable hread]
          simp only [next, hread, Bool.false_eq_true, if_false, reduceCtorEq, false_implies,
            implies_true, iff_true]
          exact (shareWord_nil_left s.bytes).symm

/-- The queue is a FIFO of bytes in every state of a run exactly when each message enqueued in it is
one that the order cannot tell from an insertion at the end. -/
theorem fifo_iff_messageShares (span : Bytes) (ops : List Op) :
    (system span).Throughout (Fifo span) (system span).start ops ↔
      (system span).Along MessageShares (system span).start ops := by
  have hstart : Fifo span (system span).start := fifo_iff.mpr (List.append_nil span).symm
  exact TransitionSystem.throughout_iff_along (S := system span)
    (fun _ op hs => messageShares_iff hs op) hstart ops

/-- The message overtakes the byte that is waiting. -/
theorem not_fifo : ¬ ∀ span ops, (system span).Throughout (Fifo span) (system span).start ops := by
  intro h
  have hrun := h [] [.enqueue [1], .enqueueMessage ⟨some [2], 1, by decide⟩]
  have horder := ((hrun.2 _ rfl).2 _ rfl).order
  revert horder
  decide

/-! ### The incoming queue of a channel -/

section Channel

variable {T : Type*} [DecidableEq T] {listening : Bool} {t : T} {m m' : Channel.Mem T}
  {p p' : Channel.Point T} {choice : Channel.Choice T}

/-- The state of the incoming queue with what has been dequeued from it. -/
def ofChannel (m : Channel.Mem T) (added : Bytes) : State := ⟨m.incomingQueue, added, m.dequeued⟩

/-- A channel uses its incoming queue by `enqueueMove` and `dequeue` only. -/
theorem act_incomingQueue (added : Bytes) : Channel.act listening t m p choice = some (m', p') →
    ofChannel m' added = ofChannel m added ∨
      (∃ bytes, next (ofChannel m added) (.enqueueMove bytes) =
        some (ofChannel m' (added ++ bytes))) ∨
      ∃ maxCount, next (ofChannel m added) (.dequeue maxCount) = some (ofChannel m' added) := by
  fun_cases Channel.act listening t m p choice
  all_goals
    simp only [Option.some.injEq, Prod.mk.injEq, reduceCtorEq, false_implies, and_imp]
    try rintro rfl rfl
  case case37 bytes => exact Or.inr (Or.inl ⟨bytes, rfl⟩)
  case case38 maxCount => exact Or.inr (Or.inr ⟨maxCount, rfl⟩)
  all_goals exact Or.inl rfl

end Channel
end SocketLib.StreamQueue
