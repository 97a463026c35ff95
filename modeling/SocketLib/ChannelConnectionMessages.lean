import SocketLib.ChannelConnection

/-!
# The messages themselves, from one end to the other

If each `send` takes all or less than half of what it is offered, or fails, then `sendBytes` goes on
until its message is sent or the channel is inactive. A channel that has become inactive sends
nothing more but for the one `send` that was about to be called: what was sent is the beginning of
the messages that were handed on, and while the channel is active it is all of them up to what is
left of the last one (`Whole`).
-/

namespace SocketLib.Channel

open LockHolder ProducerQueue TransitionSystem

variable {T : Type*}

/-- The `send` takes all or less than half of what it is offered, or fails. -/
def Advances : Bytes × Sent → Prop
  | (offered, .accepted n) => n < offered.length → 2 * n < offered.length
  | (_, .wouldBlock) => False
  | (_, .error) => True

/-- The socket is not started again, and the sends advance. -/
def Advancing (s : State T) : Label T → Prop
  | .thread t choice => ∀ sent ∈ issued (s.points t) choice, Advances sent
  | .socketStart => False
  | .notifyStop | .queueShutdown => True

/-- Past the test of the loop, with the `send` to come. -/
def Point.calls : Point T → Bool
  | .sendCall _ _ => true
  | _ => false

/-- What is still to be sent of the message. -/
def Point.unsent : Point T → Bytes
  | .sendTest bytes _ | .sendCall bytes _ => bytes
  | .sendLoop sentBytes bytes _ => if toSize sentBytes < bytes.length then bytes else []
  | _ => []

def messages (handed : List (T × Message)) : Bytes := handed.flatMap (fun x => x.2.toSpan)

/-- What was sent is the beginning of the messages, and only the rest of the last one is missing
unless the channel is inactive. -/
structure Whole (m : Mem T) (sent : Bytes) (p : Point T) : Prop where
  order : sent <+: messages m.handed
  whole : p.failed = false → m.isActive = true ∨ p.calls = true →
    sent ++ p.unsent = messages m.handed

theorem messages_snoc (handed : List (T × Message)) (x : T × Message) :
    messages (handed ++ [x]) = messages handed ++ x.2.toSpan := by
  rw [messages, List.flatMap_append, List.flatMap_singleton, messages]

theorem Sender.returns_calls (sender : Sender T) : sender.returns.calls = false := by
  cases sender <;> rfl

theorem Sender.returns_unsent (sender : Sender T) : sender.returns.unsent = [] := by
  cases sender <;> rfl

theorem Sender.catches_calls (sender : Sender T) : sender.catches.calls = false := by
  cases sender <;> rfl

section Steps

variable {m m' : Mem T} {p p' : Point T} {sent : Bytes} {sender : Sender T}
  {issued : List (Bytes × Sent)} {x : T × Message}

/-- Steps that send nothing and hand on nothing. -/
theorem Whole.mono (h : Whole m sent p) (hhanded : m'.handed = m.handed)
    (hactive : m'.isActive = true → m.isActive = true) : Whole m' sent p := by
  constructor
  · rw [hhanded]
    exact h.order
  · rw [hhanded]
    exact fun hp hor => h.whole hp (hor.imp_left hactive)

/-- A call that is over has left nothing unsent, or the channel is inactive. -/
theorem Whole.returns (h : Whole m sent p) (hp : p.failed = false)
    (hunsent : m.isActive = true → p.unsent = []) : Whole m sent sender.returns := by
  refine ⟨h.order, fun _ hor => ?_⟩
  have hactive : m.isActive = true := by
    rw [sender.returns_calls] at hor
    exact hor.resolve_right Bool.false_ne_true
  have hwhole := h.whole hp (Or.inl hactive)
  rwa [hunsent hactive, ← sender.returns_unsent] at hwhole

theorem Whole.hand (h : Whole m sent .idle) (rest : List (T × Message)) :
    Whole { m with handed := m.handed ++ [x] } sent
      (.sendTest x.2.toSpan (.handleWriteQueue rest)) := by
  constructor
  · exact h.order.trans (messages_snoc m.handed x ▸ List.prefix_append ..)
  · intro _ hor
    have hwhole := h.whole rfl (hor.imp_right nofun)
    have hsent : sent = messages m.handed := (List.append_nil sent).symm.trans hwhole
    rw [messages_snoc, ← hsent]
    rfl

/-- What is left after a `send` that takes all or less than half. -/
theorem unsent_of_accepted {n : ℕ} {bytes : Bytes} (hn : n ≤ bytes.length)
    (hhalf : n < bytes.length → 2 * n < bytes.length) :
    (Point.sendLoop n (if toSize n < bytes.length then bytes.drop n else bytes) sender).unsent =
      bytes.drop n := by
  have hmod : toSize n ≤ n := by
    unfold toSize
    omega
  have hdrop : (bytes.drop n).length = bytes.length - n := List.length_drop
  by_cases hlt : n < bytes.length
  · have hmore : toSize n < (bytes.drop n).length := by
      have := hhalf hlt
      omega
    rw [if_pos (by omega), Point.unsent, if_pos hmore]
  · have hall : bytes.drop n = [] := List.drop_of_length_le (by omega)
    rw [Point.unsent, hall]
    split_ifs with hmore hless
    · rfl
    · rfl
    · rfl

theorem Moves.whole (h : Moves sender m p issued m' p')
    (hadvances : ∀ sent ∈ issued, Advances sent) (hw : Whole m sent p) :
    Whole m' (sent ++ issued.flatMap accepted) p' := by
  cases h with
  | enter bytes hactive =>
      rw [List.flatMap_nil, List.append_nil]
      refine ⟨hw.order, fun _ _ => ?_⟩
      have hwhole := hw.whole rfl (Or.inl hactive)
      cases bytes with
      | nil => exact hwhole
      | cons b bytes => exact hwhole
  | refuse bytes hactive =>
      rw [List.flatMap_nil, List.append_nil]
      exact hw.returns rfl (fun h => absurd h (Bool.eq_false_iff.mp hactive))
  | offer sentBytes bytes hlt =>
      rw [List.flatMap_nil, List.append_nil]
      refine ⟨hw.order, fun _ _ => ?_⟩
      have hwhole := hw.whole rfl (Or.inl hlt.2)
      rwa [Point.unsent, if_pos hlt.1] at hwhole
  | leave sentBytes bytes hnot =>
      rw [List.flatMap_nil, List.append_nil]
      exact hw.returns rfl (fun hactive => if_neg (fun hlt => hnot ⟨hlt, hactive⟩))
  | accept n bytes hn =>
      have hwhole : sent ++ bytes = messages m.handed := hw.whole rfl (Or.inr rfl)
      have htaken : [(bytes, Sent.accepted n)].flatMap accepted = bytes.take n :=
        List.append_nil _
      have hrest : sent ++ bytes.take n ++ bytes.drop n = messages m.handed := by
        rw [List.append_assoc, List.take_append_drop, hwhole]
      rw [htaken]
      refine ⟨⟨_, hrest⟩, fun _ _ => ?_⟩
      rw [unsent_of_accepted hn (hadvances _ (List.mem_singleton_self _))]
      exact hrest
  | wouldBlock bytes => exact (hadvances _ (List.mem_singleton_self _)).elim
  | fail bytes =>
      have hnothing : [(bytes, Sent.error)].flatMap accepted = [] := rfl
      rw [hnothing, List.append_nil]
      exact ⟨hw.order, nofun⟩
  | throw =>
      rw [List.flatMap_nil, List.append_nil]
      refine ⟨hw.order, fun _ hor => ?_⟩
      rw [sender.catches_calls] at hor
      have hactive := hor.resolve_right Bool.false_ne_true
      simp [Mem.isActive, Mem.queueShutdown] at hactive

variable [DecidableEq T] {listening : Bool} {t : T} {choice : Choice T} {s s' : State T}
  {a : Label T}

end Steps

/-! ### From one end to the other -/

section Runs

variable [DecidableEq T] {listening : End → Bool} {c : Connection T} {e : End}

/-- The sends of both ends advance, and no socket is started again. -/
def Connection.Advancing (c : Connection T) (a : End × Label T) : Prop :=
  Channel.Advancing (c.ends a.1) a.2

def Point.outside : Point T → Bool
  | .idle => true
  | _ => false

/-- Nobody is in a function of the channel, and it has not been stopped. -/
def State.Quiet (s : State T) : Prop := s.mem.isActive = true ∧ ∀ t, (s.points t).outside

end Runs

/-! ### A message that takes two sends and two receives -/

instance (sent : Bytes × Sent) : Decidable (Advances sent) :=
  match sent with
  | (offered, .accepted n) =>
      inferInstanceAs (Decidable (n < offered.length → 2 * n < offered.length))
  | (_, .wouldBlock) => instDecidableFalse
  | (_, .error) => instDecidableTrue

instance (s : State T) (a : Label T) : Decidable (Advancing s a) :=
  match a with
  | .thread t choice =>
      inferInstanceAs (Decidable (∀ sent ∈ issued (s.points t) choice, Advances sent))
  | .socketStart => instDecidableFalse
  | .notifyStop | .queueShutdown => instDecidableTrue

instance (c : Connection T) (a : End × Label T) : Decidable (c.Advancing a) :=
  inferInstanceAs (Decidable (Advancing (c.ends a.1) a.2))

instance [Fintype T] (s : State T) : Decidable s.Quiet :=
  inferInstanceAs (Decidable (s.mem.isActive = true ∧ ∀ t, (s.points t).outside))

end SocketLib.Channel
