import SocketLib.ChannelDelivery
import SocketLib.ChannelSendPrefix
import SocketLib.ChannelStream

/-!
# Two channels and the connection between them

The client has a `Channel` on its socket and the server one on the socket that `accept` returned.
What the calls of `send` at one end take is on the wire until a `recv` at the other end returns it:
in each direction the connection is a stream of bytes. When it ends or fails is left open.

A call of `sendMessage` sends a first part of its message, and the calls do not overlap: in any run
the listeners at the other end get such a part of each message, in the order in which the messages
were handed on (`stream_of_pieces`). If each `send` takes all or less than half of what it is
offered, or fails, they get the messages themselves (`stream_of_messages`).
-/

namespace SocketLib.Channel

open LockHolder ProducerQueue TransitionSystem

variable {T : Type*}

inductive End
  | client
  | server
  deriving DecidableEq

def End.peer : End → End
  | .client => .server
  | .server => .client

/-- The bytes that a step takes from the kernel. -/
def got : Choice T → Bytes
  | .recv (.data bytes) => bytes
  | _ => []

def Label.got : Label T → Bytes
  | .thread _ choice => Channel.got choice
  | _ => []

/-- The bytes that a step hands to the kernel. -/
def State.put (s : State T) : Label T → Bytes
  | .thread t choice => taken (s.points t) choice
  | _ => []

structure Connection (T : Type*) where
  ends : End → State T
  /-- What was sent at an end and not received at the other. -/
  wire : End → Bytes

namespace Connection

/-- All that was sent at an end. -/
def sent (c : Connection T) (e : End) : Bytes := (c.ends e.peer).mem.received ++ c.wire e

/-- After a step of one end. -/
def stepped (c : Connection T) (e : End) (a : Label T) (s : State T) : Connection T where
  ends := Function.update c.ends e s
  wire := fun d => if d = e then c.wire e ++ (c.ends e).put a else (c.wire d).drop a.got.length

variable [DecidableEq T]

/-- One end takes a step; it receives what the other end has sent. -/
def next (listening : End → Bool) (c : Connection T) (a : End × Label T) : Option (Connection T) :=
  if a.2.got <+: c.wire a.1.peer then
    (Channel.next (listening a.1) (c.ends a.1) a.2).map (c.stepped a.1 a.2)
  else none

variable (T) in
def initial : Connection T := ⟨fun _ => Channel.initial T, fun _ => []⟩

variable (T) in
def system (listening : End → Bool) : TransitionSystem (Connection T) (End × Label T) :=
  ⟨initial T, next listening⟩

end Connection

@[simp] theorem End.peer_peer (e : End) : e.peer.peer = e := by cases e <;> rfl

theorem End.peer_ne (e : End) : e.peer ≠ e := by cases e <;> nofun

theorem End.eq_or_eq_peer (d e : End) : d = e ∨ d = e.peer := by
  cases d <;> cases e <;> simp [peer]

section Steps

variable [DecidableEq T] {listening : Bool} {t : T} {m m' : Mem T} {p p' : Point T}
  {choice : Choice T} {s s' : State T} {a : Label T}

theorem act_received : act listening t m p choice = some (m', p') →
    m'.received = m.received ++ got choice := by
  fun_cases act listening t m p choice
  all_goals
    simp only [Option.some.injEq, Prod.mk.injEq, reduceCtorEq, false_implies, and_imp]
    try rintro rfl rfl
  case case28 => rfl
  case case30 received hreceived =>
    cases received with
    | data bytes => exact absurd rfl (hreceived bytes)
    | _ => exact (List.append_nil _).symm
  all_goals exact (List.append_nil _).symm

theorem next_received (h : next listening s a = some s') :
    s'.mem.received = s.mem.received ++ a.got := by
  obtain ⟨t, choice, m', p', rfl, hact, rfl⟩ | ⟨hno, active, socketActive, rfl, -⟩ := next_cases h
  · exact act_received hact
  · cases a with
    | thread t choice => exact absurd rfl (hno t choice)
    | _ => exact (List.append_nil _).symm

end Steps

namespace Connection

variable [DecidableEq T] {listening : End → Bool} {c c' : Connection T} {e : End} {a : Label T}

/-- A step of one end adds to what that end has sent, and to what the other has sent nothing. -/
theorem next_cases (h : c.next listening (e, a) = some c') :
    ∃ s, Channel.next (listening e) (c.ends e) a = some s ∧ c'.ends = Function.update c.ends e s ∧
      c'.sent e = c.sent e ++ (c.ends e).put a ∧ c'.sent e.peer = c.sent e.peer := by
  rw [next] at h
  split_ifs at h with hgot
  obtain ⟨s, hs, rfl⟩ := Option.map_eq_some_iff.mp h
  refine ⟨s, hs, rfl, ?_, ?_⟩
  · simp only [sent, stepped, Function.update_of_ne e.peer_ne, if_true, List.append_assoc]
  · obtain ⟨rest, hrest⟩ := hgot
    simp only [sent, stepped, End.peer_peer, Function.update_self, if_neg e.peer_ne,
      next_received hs]
    rw [← hrest, List.drop_left, List.append_assoc]

/-- Each end runs as a channel does. -/
theorem ends_reachedBy {guard : Connection T → End × Label T → Prop}
    (guard' : State T → Label T → Prop) (h : (system T listening).ReachedBy guard c) (e : End)
    (hguard : ∀ c a, guard c (e, a) → guard' (c.ends e) a) :
    (Channel.system T (listening e)).ReachedBy guard' (c.ends e) := by
  refine ReachedBy.map (f := fun c : Connection T => c.ends e) h rfl (fun c a c' _ hg hnext => ?_)
  obtain ⟨d, a⟩ := a
  obtain ⟨s, hs, hends, -⟩ := next_cases hnext
  by_cases hd : e = d
  · subst d
    right
    refine ⟨a, hguard c a hg, ?_⟩
    rw [hends, Function.update_self]
    exact hs
  · left
    rw [hends, Function.update_of_ne hd]

/-- An invariant of one end and of what it has sent, which the steps of that end keep. -/
theorem invariant {guard : Connection T → End × Label T → Prop}
    (guard' : State T → Label T → Prop) {I : State T → Bytes → Prop}
    (h : (system T listening).ReachedBy guard c) (e : End)
    (hguard : ∀ c a, guard c (e, a) → guard' (c.ends e) a) (h0 : I (Channel.initial T) [])
    (hstep : ∀ s a s' sent, (Channel.system T (listening e)).ReachedBy guard' s → I s sent →
      guard' s a → Channel.next (listening e) s a = some s' → I s' (sent ++ s.put a)) :
    I (c.ends e) (c.sent e) := by
  refine h.invariant (I := fun c => I (c.ends e) (c.sent e)) h0 (fun c a c' hr hi hg hnext => ?_)
  obtain ⟨d, a⟩ := a
  obtain ⟨s, hs, hends, hsent, hpeer⟩ := next_cases hnext
  rcases e.eq_or_eq_peer d with rfl | rfl
  · rw [hends, Function.update_self, hsent]
    exact hstep _ _ _ _ (ends_reachedBy guard' hr e hguard) hi (hguard c a hg) hs
  · rw [hends, Function.update_of_ne d.peer_ne, hpeer]
    exact hi

end Connection

/-! ### A part of each message -/

/-- A first part of each message, in their order. -/
def Pieces (handed : List (T × Message)) (sent : Bytes) : Prop :=
  ∃ pieces, List.Forall₂ (fun piece x => piece <+: x.2.toSpan) pieces handed ∧
    pieces.flatten = sent

theorem Pieces.snoc {handed : List (T × Message)} {sent piece : Bytes} {x : T × Message}
    (h : Pieces handed sent) (hx : piece <+: x.2.toSpan) :
    Pieces (handed ++ [x]) (sent ++ piece) := by
  obtain ⟨pieces, hpieces, rfl⟩ := h
  refine ⟨pieces ++ [piece], List.rel_append hpieces (.cons hx .nil), ?_⟩
  rw [List.flatten_append, List.flatten_singleton]

/-- The message that `sendMessage` was last called with may still be on its way. -/
def Writing (handed : List (T × Message)) (sent : Bytes) (p : Point T) : Prop :=
  if p.sends then
    ∃ before x earlier, ∃ sends : List (Bytes × Sent), handed = before ++ [x] ∧
      Pieces before earlier ∧ sent = earlier ++ sends.flatMap accepted ∧
      Remains x.2.toSpan (sends.flatMap accepted) p
  else Pieces handed sent

theorem Writing.pieces {handed : List (T × Message)} {sent : Bytes} {p : Point T}
    (h : Writing handed sent p) : Pieces handed sent := by
  rw [Writing] at h
  split_ifs at h with hp
  · obtain ⟨before, x, earlier, sends, rfl, hbefore, rfl, hremains⟩ := h
    exact hbefore.snoc hremains.isPrefix
  · exact h

/-- The call of `sendMessage` that the holder of `writeLock` is in. -/
def Point.call (p : Point T) : Point T := if p.sends then p else .idle

def State.call (s : State T) : Point T := inHand Point.call .idle s.mem.writeLock s.points

theorem Point.call_of_sends {p : Point T} (h : p.sends) : p.call = p := if_pos h

theorem Point.call_of_not_sends {p : Point T} (h : p.sends = false) : p.call = .idle :=
  if_neg (Bool.eq_false_iff.mp h)

theorem Point.call_of_not_writes (p : Point T) (h : p.writes = false) : p.call = .idle :=
  call_of_not_sends (Bool.eq_false_iff.mpr
    (fun hsends => Bool.eq_false_iff.mp h (writes_of_sends hsends)))

section Steps

variable [DecidableEq T] {listening : Bool} {t : T} {m m' : Mem T} {p p' : Point T}
  {choice : Choice T} {s s' : State T} {a : Label T} {sender : Sender T}
  {issued : List (Bytes × Sent)} {sent : Bytes}

omit [DecidableEq T] in
theorem Moves.handed (h : Moves sender m p issued m' p') : m'.handed = m.handed := by
  cases h <;> rfl

omit [DecidableEq T] in
theorem taken_of_not_sends (hp : p.sends = false) : taken p choice = [] := by
  cases p with
  | sendCall _ _ => cases hp
  | _ => rfl

/-- Outside `sendMessage` a step may be the call of it, and else hands on nothing. -/
theorem act_of_not_sends (hthread : m.writeThread = none) (hp : p.sends = false) :
    act listening t m p choice = some (m', p') →
      (m'.handed = m.handed ∧ p'.sends = false) ∨
      ∃ x rest, p = .writeNext (x :: rest) ∧ m' = { m with handed := m.handed ++ [x] } ∧
        p' = .sendTest x.2.toSpan (.handleWriteQueue rest) := by
  fun_cases act listening t m p choice
  all_goals
    simp only [Option.some.injEq, Prod.mk.injEq, reduceCtorEq, false_implies, and_imp]
    try rintro rfl rfl
  case case6 h => exact absurd h (by simp only [hthread, reduceCtorEq, not_false_eq_true])
  case case16 p msg rest => exact Or.inr ⟨(p, msg), rest, rfl, rfl, rfl⟩
  all_goals try cases hp
  all_goals try split
  all_goals exact Or.inl ⟨rfl, rfl⟩

theorem act_writing (hthread : m.writeThread = none)
    (h : act listening t m p choice = some (m', p')) (hw : Writing m.handed sent p) :
    Writing m'.handed (sent ++ taken p choice) p' := by
  by_cases hp : p.sends
  · rw [Writing, if_pos hp] at hw
    obtain ⟨before, x, earlier, sends, hhanded, hbefore, rfl, hremains⟩ := hw
    obtain ⟨sender, hpsender⟩ := Option.isSome_iff_exists.mp hp
    obtain ⟨hmove, -⟩ := moves_of_act hpsender h
    have hremains' := hmove.remains hremains
    rw [List.append_assoc, taken_eq, ← List.flatMap_append, hmove.handed, hhanded]
    rw [Writing]
    split_ifs
    · exact ⟨before, x, earlier, _, rfl, hbefore, rfl, hremains'⟩
    · exact hbefore.snoc hremains'.isPrefix
  · have hno : p.sends = false := Bool.eq_false_iff.mpr hp
    rw [taken_of_not_sends hno, List.append_nil]
    rcases act_of_not_sends hthread hno h with ⟨hhanded, hp'⟩ | ⟨x, rest, -, rfl, rfl⟩
    · rw [Writing, if_neg (Bool.eq_false_iff.mp hp'), hhanded]
      exact hw.pieces
    · exact ⟨m.handed, x, sent, [], rfl, hw.pieces, (List.append_nil sent).symm, rfl⟩

/-- Outside `writeLock` nothing is handed on and nothing is sent. -/
theorem act_of_not_writes (hthread : m.writeThread = none) (hp : p.writes = false)
    (h : act listening t m p choice = some (m', p')) :
    m'.handed = m.handed ∧ taken p choice = [] := by
  have hno : p.sends = false :=
    Bool.eq_false_iff.mpr (fun hsends => Bool.eq_false_iff.mp hp (Point.writes_of_sends hsends))
  refine ⟨?_, taken_of_not_sends hno⟩
  rcases act_of_not_sends hthread hno h with ⟨hhanded, -⟩ | ⟨x, rest, rfl, -⟩
  · exact hhanded
  · cases hp

/-- What is known of the sent bytes and of the call that sends them is kept if the steps of the call
keep it, and the steps of others that leave both alone. -/
theorem next_call {I : Mem T → Bytes → Point T → Prop} (hl : Locked s)
    (h : next listening s a = some s') (hi : I s.mem sent s.call)
    (hmove : ∀ t choice m' p', a = .thread t choice →
      act listening t s.mem (s.points t) choice = some (m', p') →
      I s.mem sent (s.points t).call → I m' (sent ++ taken (s.points t) choice) p'.call)
    (hkeep : ∀ m', m'.handed = s.mem.handed → (m'.active = true → s.mem.active = true) →
      (a ≠ .socketStart → m'.socketActive = true → s.mem.socketActive = true) →
      I m' sent s.call) :
    I s'.mem (sent ++ s.put a) s'.call := by
  obtain ⟨t, choice, m', p', rfl, hact, rfl⟩ | ⟨hno, active, socketActive, rfl, hactive, hsocket⟩ :=
    next_cases h
  · obtain ⟨hcall, hcall'⟩ | ⟨hp, -, hcall'⟩ :=
      hl.write.inHand_update (hl.act hact).write Point.call_of_not_writes
    · rw [State.call] at hi
      rw [hcall] at hi
      rw [State.call, hcall']
      exact hmove t choice m' p' rfl hact hi
    · obtain ⟨hhanded, htaken⟩ := act_of_not_writes hl.writeThread hp hact
      obtain ⟨hactive, hsocket⟩ := act_active hact
      rw [State.call, hcall', State.put, htaken, List.append_nil]
      exact hkeep m' hhanded hactive (fun _ h => hsocket ▸ h)
  · have hput : s.put a = [] := by
      cases a with
      | thread t choice => exact absurd rfl (hno t choice)
      | _ => rfl
    rw [hput, List.append_nil]
    exact hkeep _ rfl hactive hsocket

omit [DecidableEq T] in
theorem writing_call {handed : List (T × Message)} :
    Writing handed sent p.call ↔ Writing handed sent p := by
  by_cases hp : p.sends
  · rw [Point.call_of_sends hp]
  · rw [Point.call_of_not_sends (Bool.eq_false_iff.mpr hp), Writing, Writing, if_neg hp]
    exact Iff.rfl

theorem next_writing (hl : Locked s) (h : next listening s a = some s')
    (hw : Writing s.mem.handed sent s.call) :
    Writing s'.mem.handed (sent ++ s.put a) s'.call := by
  refine next_call (I := fun m sent p => Writing m.handed sent p) hl h hw ?_ ?_
  · intro t choice m' p' _ hact hw
    rw [writing_call] at hw ⊢
    exact act_writing hl.writeThread hact hw
  · intro m' hhanded _ _
    rw [hhanded]
    exact hw

end Steps

/-- Without a restart of a socket: what was sent at an end is a first part of each message that
`sendMessage` was called with there, in the order of the calls, and nothing else; and what the
listeners at the other end have consumed or can consume is the beginning of that. -/
theorem stream_of_pieces [DecidableEq T] {listening : End → Bool} {c : Connection T}
    (h : (Connection.system T listening).ReachedBy (fun _ a => a.2 ≠ .socketStart) c) (e : End) :
    ∃ pieces, List.Forall₂ (fun piece x => piece <+: x.2.toSpan) pieces
        (c.ends e).mem.handed ∧
      (c.ends e.peer).mem.received ++ c.wire e = pieces.flatten ∧
      (c.ends e.peer).mem.dequeued ++ (c.ends e.peer).mem.incomingQueue <+: pieces.flatten := by
  have hwriting : Writing (c.ends e).mem.handed (c.sent e) (c.ends e).call :=
    Connection.invariant (I := fun s sent => Writing s.mem.handed sent s.call)
      (fun _ a => a ≠ .socketStart) h e (fun _ _ hg => hg) ⟨[], .nil, rfl⟩
      (fun s a s' sent hr hw _ hnext => next_writing (locked_of_reachable hr) hnext hw)
  obtain ⟨pieces, hpieces, hflatten⟩ := hwriting.pieces
  refine ⟨pieces, hpieces, hflatten.symm, ?_⟩
  have hintact := intact_of_reachedBy
    (Connection.ends_reachedBy (fun _ a => a ≠ .socketStart) h e.peer (fun _ _ hg => hg))
  rw [hflatten]
  exact hintact.order.trans (List.prefix_append ..)

/-! ### A message that is broken off by a would-block, and the next one -/

def sendText (t u : Fin 2) (bytes : Bytes) (sends : List Sent) : List (Label (Fin 2)) :=
  .thread t (.queueWrite (text bytes)) :: step t 2 ++ .thread u .handleWriteQueue :: step u 1 ++
    .thread u (.sizeApprox false) :: step u 1 ++ .thread u (.dequeueBulk [(t, text bytes)]) ::
    step u 3 ++ sends.flatMap (fun sent => .thread u (.send sent) :: step u 1) ++ step u 2

def receiveText (t : Fin 2) (bytes : Bytes) : List (Label (Fin 2)) :=
  .thread t (.readData 8) :: step t 1 ++ receive t bytes ++ step t 1

theorem stream_of_pieces_broken_off :
    ∃ c, (Connection.system (Fin 2) (fun _ => false)).ReachedBy (fun _ a => a.2 ≠ .socketStart) c ∧
      (c.ends .client).mem.handed = [(0, text [1, 2, 3]), (0, text [4])] ∧
      (c.ends .server).mem.dequeued ++ (c.ends .server).mem.incomingQueue = [1, 4] ∧
      ∃ pieces, List.Forall₂ (fun piece x => piece <+: x.2.toSpan) pieces
          [((0 : Fin 2), text [1, 2, 3]), (0, text [4])] ∧
        [1, 4] <+: pieces.flatten := by
  have hrun : ((Connection.system (Fin 2) (fun _ => false)).execWhile
      (fun _ a => a.2 ≠ Label.socketStart) (Connection.system (Fin 2) (fun _ => false)).start
      ((sendText 0 1 [1, 2, 3] [.accepted 1, .wouldBlock] ++
          sendText 0 1 [4] [.accepted 1]).map (Prod.mk .client) ++
        (receiveText 0 [1, 4]).map (Prod.mk .server))).any (fun c =>
      (c.ends .client).mem.handed = [(0, text [1, 2, 3]), (0, text [4])] ∧
        (c.ends .server).mem.dequeued ++ (c.ends .server).mem.incomingQueue = [1, 4]) = true := by
    decide
  obtain ⟨c, hc, hstate⟩ := exists_reachedBy_of_execWhile hrun
  rw [decide_eq_true_eq] at hstate
  obtain ⟨hhanded, hstream⟩ := hstate
  obtain ⟨pieces, hpieces, -, hprefix⟩ := stream_of_pieces hc .client
  rw [hhanded] at hpieces
  exact ⟨c, hc, hhanded, hstream, pieces, hpieces, hstream ▸ hprefix⟩

end SocketLib.Channel
